import TapeLang.Error
import TapeLang.Text.Encoding

/-! Files by path.

A path is read as its parts: empty parts and parts that stay where they are do not count, and the
path is written back without them. A folder holds files and directories under names of their own,
which are bytes. A path from the root leads to what every system has there; what else lies outside a
folder is taken to be empty directories. -/
namespace TapeLang

abbrev FileName := List UInt8

/-- The name that leads one step back. -/
def FileName.back : FileName := [46, 46]

structure Path where
  /-- The slashes in front, at most two. -/
  root : Text
  parts : List Text
  deriving DecidableEq

namespace Path

/-- The pieces of a text between its slashes. -/
def pieces : Text → List Text
  | [] => [[]]
  | c :: text =>
    match pieces text with
    | [] => [[c]]
    | piece :: rest => if c = '/' then [] :: piece :: rest else (c :: piece) :: rest

/-- The path a text denotes. Two slashes in front are kept, more than two count as one. -/
def ofText (text : Text) : Path :=
  { root := match text.takeWhile (· = .char '/') with
      | [] => ""
      | [_, _] => "//"
      | _ => "/"
    parts := (pieces text).filter fun piece => piece ≠ "" ∧ piece ≠ "." }

/-- Parts with a slash between each two. -/
def joinParts : List Text → Text
  | [] => []
  | [part] => part
  | part :: parts => part ++ "/" ++ joinParts parts

def text (p : Path) : Text :=
  if p.root.isEmpty && p.parts.isEmpty then "." else p.root ++ joinParts p.parts

/-- The last part of a path, if it has one. -/
def name (p : Path) : Text := p.parts.getLast?.getD []

/-- The parts of a path as names, if they can be written. -/
def names? (p : Path) : Option (List FileName) := p.parts.mapM Encoding.bytes?

/-- The names left when steps back are taken, given those taken so far, last first; nothing if they
lead out of where they start. -/
def namesWithin? : List FileName → List FileName → Option (List FileName)
  | taken, [] => some taken.reverse
  | taken, name :: names =>
    if name = FileName.back then
      match taken with
      | [] => none
      | _ :: taken => namesWithin? taken names
    else namesWithin? (name :: taken) names

/-- The names on a path from the folder it starts in, unless it leads out of it. -/
def within? (p : Path) : Option (List FileName) :=
  if p.root.isEmpty then p.names?.bind (namesWithin? []) else none

/-- The greatest length of a name. -/
def nameLimit : Nat := 255

/-- The greatest length of a path. -/
def lengthLimit : Nat := 4095

end Path

/-- What stands under a path. -/
inductive Entry where
  | file (content : List UInt8)
  | directory
  deriving DecidableEq

structure Folder where
  entries : List (List FileName × Entry) := []

/-- What a path leads to. -/
inductive Folder.Place where
  | file (content : List UInt8)
  | directory
  /-- Nothing, in a directory that is there. -/
  | free
  deriving DecidableEq

namespace Folder

def ofEntries (entries : List (Path × Entry)) : Folder :=
  ⟨entries.filterMap fun (path, e) => path.names?.map fun names => (names, e)⟩

/-- What stands under the given names. A path that leads to something has directories in front. -/
def entry? (f : Folder) (names : List FileName) : Option Entry :=
  match f.entries.find? (·.1 = names) with
  | some (_, e) => some e
  | none => if f.entries.any fun (path, _) => names.isPrefixOf path then some .directory else none

/-- Where the rest of a path leads from a directory, given by its names, last first, or outside the
folder. A step back from the top leads outside, unless the top is the root. -/
def follow (f : Folder) (fromRoot : Bool) (whole : Text) :
    Option (List FileName) → List FileName → Except FileFault Place
  | _, [] => .ok .directory
  | here, name :: rest =>
    if name = FileName.back then
      match here with
      | some (_ :: above) => f.follow fromRoot whole (some above) rest
      | _ => f.follow fromRoot whole (if fromRoot then some [] else none) rest
    else if Path.nameLimit < name.length then .error (.nameTooLong whole)
    else
      match here with
      | none => if rest.isEmpty then .ok .free else .error (.missing whole)
      | some here =>
        match f.entry? (name :: here).reverse with
        | none => if rest.isEmpty then .ok .free else .error (.missing whole)
        | some (.file content) =>
          if rest.isEmpty then .ok (.file content) else .error (.notDirectory whole)
        | some .directory => f.follow fromRoot whole (some (name :: here)) rest

/-- The directories at the root of every system, and the file that is always empty. -/
def root : Folder :=
  let directories : List Text :=
    ["bin", "dev", "etc", "home", "lib", "media", "mnt", "opt", "proc", "root", "run", "sbin",
     "srv", "sys", "tmp", "usr", "var"]
  ofEntries
    ((.ofText "/dev/null", .file []) :: directories.map fun name => (.ofText name, .directory))

/-- Where a path leads. -/
def place (f : Folder) (p : Path) : Except FileFault Place :=
  match Encoding.bytes? p.text, p.names? with
  | some bytes, some names =>
    if bytes.contains 0 then .error .nullCharacter
    else if Path.lengthLimit < bytes.length then .error (.nameTooLong p.text)
    else if p.root.isEmpty then f.follow false p.text (some []) names
    else root.follow true p.text (some []) names
  | _, _ => .error (.notWritable p.text)

def read (f : Folder) (p : Path) : Except FileFault (List UInt8) :=
  match f.place p with
  | .ok (.file content) => .ok content
  | .ok .directory => .error (.directory p.text)
  | .ok .free => .error (.missing p.text)
  | .error fault => .error fault

/-- Why a file cannot be written, if it cannot. -/
def writeFault? (f : Folder) (p : Path) : Option FileFault :=
  match f.place p with
  | .ok .directory => some (.directory p.text)
  | .ok _ => none
  | .error fault => some fault

end Folder

/-- The content of a file as a text of one character for each byte. -/
def textOfBytes (bytes : List UInt8) : Text := bytes.map fun b => Char.ofNat b.toNat

end TapeLang
