import EntityQuery.Digest.Sha256
import EntityQuery.Power
import EntityQuery.Text.Blank

/-!
# Identities and aliases

Every table position has an `Identity`, a byte string. A `Naming` says which identities roots get,
how the identity of a position below another is derived from parts, and which SQL aliases
identities get. The program uses `Naming.hashed`, where derived identities and aliases come from
SHA-256; all else is written for any naming, so that a statement can speak of one without
collisions.
-/

namespace EntityQuery

open EntityQuery.Text (Bytes utf8 shortHex)

structure Identity where
  bytes : Bytes
  deriving DecidableEq, Inhabited

namespace Identity

/-- The digits in groups of 8, 4, 4, 4 and 12. -/
def text (i : Identity) : String :=
  let digits := Text.hex i.bytes
  let group (start len : Nat) : String := String.ofList ((digits.drop start).take len)
  "-".intercalate [group 0 8, group 8 4, group 12 4, group 16 4, group 20 12]

/-- The first sixteen bytes of the digest of the parts. -/
def ofParts (parts : List Bytes) : Identity :=
  ⟨(Digest.ofParts parts).take 16⟩

/-- A sequence of identities in the place of random ones: the multiples of a large odd number modulo
`2 ^ 128`, with the version and variant bits of a random identifier. -/
def ofDraw (n : Nat) : Identity :=
  let r := ((n + 1) * 0x9E3779B97F4A7C15F39CC0605CEDC835) % twoPow 128
  let bits := (r &&& 0xFFFFFFFFFFFF4FFFBFFFFFFFFFFFFFFF) ||| 0x40008000000000000000
  ⟨(Digest.littleEndian 16 bits).reverse⟩

end Identity

structure Naming where
  /-- The identity of the `n`-th root that a session builds. -/
  draw : Nat → Identity
  /-- The identity of a position, from the parts that describe it. -/
  derive : List Bytes → Identity
  tableAlias : Identity → String
  /-- The alias of a column, by its table and its database name. -/
  columnAlias : Identity → String → String

/-- Identities and column aliases are digests; a table alias shows the start of its identity. -/
def Naming.hashed : Naming where
  draw := Identity.ofDraw
  derive := Identity.ofParts
  tableAlias i := "t_" ++ shortHex i.bytes 16
  columnAlias i name := "c_" ++ shortHex (Digest.ofParts [i.bytes, utf8 name]) 16

end EntityQuery
