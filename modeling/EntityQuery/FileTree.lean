import EntityQuery.File

/-!
# File trees

A tree of files with a working directory in it, and what a path leads to there.

A path is walked part by part. An empty part and a single dot stay, two dots go up, and any other
part goes down to what has that name. Only a directory has parts, so even a slash at the end of the
name of a file leads nowhere.
-/

namespace EntityQuery

/-- Places are lists of names from the top. The directories on the way to a place are there too. -/
structure FileTree where
  files : List (List String × String)
  directories : List (List String)
  home : List String

namespace FileTree

def isDirectory (t : FileTree) (place : List String) : Bool :=
  (t.home :: t.directories ++ t.files.map fun f => f.1.dropLast).any place.isPrefixOf

def text? (t : FileTree) (place : List String) : Option String := t.files.lookup place

/-- One part of a path; above the top there is the top again. -/
def step (t : FileTree) (place : List String) (part : String) : Except FileError (List String) :=
  if !t.isDirectory place then .error .notDirectory
  else if part = "" || part = "." then .ok place
  else if part = ".." then .ok place.dropLast
  else if part.utf8ByteSize > 255 then .error .nameTooLong
  else
    let place := place ++ [part]
    if t.isDirectory place || (t.text? place).isSome then .ok place else .error .missing

def walk (t : FileTree) (path : String) : Except FileError (List String) :=
  if path = "" then .error .missing
  else if path.utf8ByteSize > 4095 then .error .nameTooLong
  else (path.splitOn "/").foldlM t.step (if path.startsWith "/" then [] else t.home)

def read (t : FileTree) (path : String) : File := do
  match t.text? (← t.walk path) with
  | some text => .ok text
  | none => .error .directory

end FileTree

end EntityQuery
