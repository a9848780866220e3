/-!
Reading files by path.

Paths are walked name by name from a place in a tree of folders.  A file can
only be the end of a path: a further name, or only a slash, behind it is an
error, and so is reading a folder.
-/

namespace UnitText

/-- A file with its bytes, or a folder with its entries. -/
inductive FileTree where
  | file (content : ByteArray)
  | folder (entries : List (String × FileTree))

/-- Why a file could not be read. -/
inductive FileError where
  | notFound
  | isADirectory
  | notADirectory
  /-- The bytes of the file are no text. -/
  | invalidData
deriving DecidableEq, Repr

/-- A folder together with those that enclose it, the innermost first. -/
structure Place where
  entries : List (String × FileTree)
  outer : List (List (String × FileTree))

namespace Place

/-- The enclosing folder; the outermost one encloses itself. -/
def parent (p : Place) : Place :=
  match p.outer with
  | [] => p
  | entries :: outer => ⟨entries, outer⟩

/-- The folder that encloses all others. -/
def root (p : Place) : Place :=
  ⟨p.outer.getLast?.getD p.entries, []⟩

end Place

/-- The parts of a path between its slashes. -/
def pathParts : List Char → List (List Char)
  | [] => [[]]
  | c :: rest =>
    if c = '/' then [] :: pathParts rest
    else
      match pathParts rest with
      | [] => [[c]]
      | part :: parts => (c :: part) :: parts

/-- What is at the end of a path. -/
inductive Target where
  | file (content : ByteArray)
  | folder (place : Place)

namespace Target

/-- What a name stands for at some point of a path. -/
def enter (t : Target) (name : String) : Except FileError Target :=
  match t with
  | file _ => .error .notADirectory
  | folder p =>
    if name = "" ∨ name = "." then .ok (folder p)
    else if name = ".." then .ok (folder p.parent)
    else
      match p.entries.lookup name with
      | none => .error .notFound
      | some (.file content) => .ok (file content)
      | some (.folder entries) => .ok (folder ⟨entries, p.entries :: p.outer⟩)

end Target

namespace Place

/-- What is at the end of a path.  The empty path leads nowhere. -/
def find (p : Place) (path : String) : Except FileError Target :=
  match path.toList with
  | [] => .error .notFound
  | c :: rest =>
    let start := if c = '/' then p.root else p
    let names := (pathParts (c :: rest)).map String.ofList
    names.foldlM Target.enter (.folder start)

/-- Whether a path leads to a file or a folder. -/
def contains (p : Place) (path : String) : Bool :=
  match p.find path with
  | .ok _ => true
  | .error _ => false

/-- The text of the file at the end of a path. -/
def read (p : Place) (path : String) : Except FileError String := do
  match ← p.find path with
  | .folder _ => throw .isADirectory
  | .file content =>
    match String.fromUTF8? content with
    | some text => pure text
    | none => throw .invalidData

end Place

example : (pathParts "../a//b".toList).map String.ofList = ["..", "a", "", "b"] := by
  decide +kernel

end UnitText
