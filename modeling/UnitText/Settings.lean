import UnitText.FileTree
import UnitText.Flag
import UnitText.Grouping
import UnitText.Toml.Document

/-!
Settings files.

A settings file is a TOML document whose table `format` may set `literal_wrap`.
What the file sets holds; what it leaves open is taken from the environment.
Files are looked for in the working folder and then in the folder around it, and
the first one that is there decides, even if it cannot be read.
-/

namespace UnitText

/-- The options that an environment flag stands for. -/
def Options.ofFlag (flag : Option ByteArray) : Options :=
  ⟨flagBytesAreOn flag⟩

/-- What a settings file says. -/
structure Settings where
  literalWrap : Option Bool := none
deriving DecidableEq, Repr

/-- Why there are no settings. -/
inductive SettingsError where
  | unreadable (cause : FileError)
  /-- The file is no TOML document, or gives a setting a value of a wrong kind. -/
  | malformed
  | notFound
deriving DecidableEq, Repr

namespace Settings

/-- The name of a settings file. -/
def fileName : String :=
  "parsable_units.toml"

/-- Where settings files are looked for, in order. -/
def searchPaths : List String :=
  [fileName, "../" ++ fileName]

/-- What is told if no settings file is there. -/
def notFoundMessage : String :=
  "No parsable_units.toml found in standard locations"

/-- The settings of a `format` value that has, or has not, a value for
`literal_wrap`. -/
def ofLiteralWrap? : Option Toml.Node → Option Settings
  | none => some {}
  | some (.boolean b) => some ⟨some b⟩
  | some _ => none

/-- The settings of a `format` value.  An array gives the settings in order; a
date is taken for a table that sets nothing. -/
def ofFormat? : Toml.Node → Option Settings
  | .table _ entries => ofLiteralWrap? (entries.lookup "literal_wrap")
  | .array items => ofLiteralWrap? items.head?
  | .date => some {}
  | _ => none

/-- The settings of a document, unless it is malformed.  Whatever is not a
setting is passed over. -/
def ofDocument? (content : String) : Option Settings := do
  let entries ← Toml.parse content
  match entries.lookup "format" with
  | none => some {}
  | some format => ofFormat? format

/-- The settings of a text.  What counts as a document, and what it says, is
left to a reader of documents. -/
def ofToml (content : String) (document : String → Option Settings := ofDocument?) :
    Except SettingsError Settings :=
  match document content with
  | some s => .ok s
  | none => .error .malformed

/-- The settings as a document. -/
def toToml (s : Settings) : String :=
  "[format]\n" ++
    match s.literalWrap with
    | none => ""
    | some true => "literal_wrap = true\n"
    | some false => "literal_wrap = false\n"

/-- The settings of the file at the end of a path. -/
def ofFile (p : Place) (path : String) (document : String → Option Settings := ofDocument?) :
    Except SettingsError Settings :=
  match p.read path with
  | .ok content => ofToml content document
  | .error cause => .error (.unreadable cause)

/-- The settings of the first of the searched files that is there. -/
def ofDefaultLocation (p : Place) (document : String → Option Settings := ofDocument?) :
    Except SettingsError Settings :=
  match searchPaths.find? p.contains with
  | some path => ofFile p path document
  | none => .error .notFound

/-- The options that hold: the file's, or else the environment's. -/
def options (s : Settings) (flag : Option ByteArray) : Options :=
  match s.literalWrap with
  | some literal => ⟨literal⟩
  | none => .ofFlag flag

end Settings

end UnitText
