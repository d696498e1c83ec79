import NetPrep.Text.Split

/-!
# Files by their paths

What the command sees of the machine's files: a text for a path, or the reason why there is none. A
tree of files held in memory gives the same answers as a machine with these files would.
-/

namespace NetPrep.CommandLine

/-- Why a path has no text. -/
inductive ReadFailure where
  | missing
  | denied
  | notFolder
  | isFolder
  | nameTooLong
  | notText
  | other (words : String)
deriving DecidableEq, Repr

/-- The words of the system. -/
def ReadFailure.message : ReadFailure → String
  | .missing => "No such file or directory (os error 2)"
  | .denied => "Permission denied (os error 13)"
  | .notFolder => "Not a directory (os error 20)"
  | .isFolder => "Is a directory (os error 21)"
  | .nameTooLong => "File name too long (os error 36)"
  | .notText => "stream did not contain valid UTF-8"
  | .other words => words

/-- The names on the way from the root down to a file or folder. -/
abbrev Place := List String

/-- What stands at a place. -/
inductive Entry where
  | file (text : String)
  | folder
deriving DecidableEq, Repr

/-- Files and folders by their places. The folders above each of them are there too. -/
structure FileTree where
  files : List (Place × String)
  folders : List Place
  /-- The folder that relative paths start from. -/
  current : Place
deriving Repr

/-- The longest name in bytes. -/
def longestName : Nat := 255

/-- The longest path in bytes. -/
def longestPath : Nat := 4095

/-- The names in a path. There is an empty one before a slash at the start, after a slash at the
end, and between two slashes. -/
def namesOf (path : String) : List String := (Text.splitAt '/' path.toList).map String.ofList

namespace FileTree

/-- What stands at a place, if anything does. -/
def entry? (t : FileTree) (place : Place) : Option Entry :=
  match t.files.lookup place with
  | some text => some (.file text)
  | none =>
    let places := t.current :: t.folders ++ t.files.map (·.1)
    if places.any (place.isPrefixOf ·) then some .folder else none

/-- What the names lead to from a place. Each name is looked up in a folder, also an empty one or a
dot, which stay there, and two dots, which lead to the folder above. -/
def follow (t : FileTree) (place : Place) (names : List String) : Except ReadFailure Entry :=
  match t.entry? place, names with
  | none, _ => .error .missing
  | some entry, [] => .ok entry
  | some (.file _), _ :: _ => .error .notFolder
  | some .folder, name :: names =>
    if name = "" ∨ name = "." then t.follow place names
    else if name = ".." then t.follow place.dropLast names
    else if longestName < name.utf8ByteSize then .error .nameTooLong
    else t.follow (place ++ [name]) names

/-- The text at a path. -/
def read (t : FileTree) (path : String) : Except ReadFailure String := do
  if path = "" then .error .missing
  else if longestPath < path.utf8ByteSize then .error .nameTooLong
  else
    -- A path that begins with a slash starts at the root.
    let start := if Text.beginsWith '/' path then [] else t.current
    match ← t.follow start (namesOf path) with
    | .file text => .ok text
    | .folder => .error .isFolder

end FileTree

end NetPrep.CommandLine
