import SymbolMap.Files.Path

/-! A tree of files, seen from the directory in which the program works. -/
namespace SymbolMap

/-- What a file holds: a text, or bytes that are no UTF-8. -/
inductive Content
  | text (t : Text)
  | binary
deriving DecidableEq

/-- What bytes hold. -/
def Content.ofBytes (bytes : ByteArray) : Content :=
  match String.fromUTF8? bytes with
  | some s => text s.toList
  | none => binary

/-- Why a file is not there. The last one is for importers that have reasons of their own. -/
inductive FileFault
  | notFound
  | isDirectory
  | notDirectory
  | nameTooLong
  | nullInPath
  | notText
  | noResource
  | other (kind words : String)
deriving DecidableEq

/-- A path at which there is nothing to read, or nothing can be created. -/
structure FileError where
  path : Path
  fault : FileFault
deriving DecidableEq

namespace FileFault

/-- The name of the kind of fault. -/
def kind : FileFault → String
  | notFound => "NotFound"
  | isDirectory => "IsADirectory"
  | notDirectory => "NotADirectory"
  | nameTooLong => "InvalidFilename"
  | nullInPath => "InvalidInput"
  | notText => "InvalidData"
  | noResource => "NotFound"
  | other kind _ => kind

/-- The number that the operating system has for a fault, where it is one of its own. -/
def code? : FileFault → Option Nat
  | notFound => some 2
  | notDirectory => some 20
  | isDirectory => some 21
  | nameTooLong => some 36
  | nullInPath | notText | noResource | other .. => none

def words : FileFault → String
  | notFound => "No such file or directory"
  | isDirectory => "Is a directory"
  | notDirectory => "Not a directory"
  | nameTooLong => "File name too long"
  | nullInPath => "file name contained an unexpected NUL byte"
  | notText => "stream did not contain valid UTF-8"
  | noResource => "Missing resource"
  | other _ words => words

end FileFault

namespace FileError

def message (e : FileError) : String :=
  match e.fault, e.fault.code? with
  | .noResource, _ => e.fault.words ++ " " ++ String.ofList e.path.text
  | _, some code => e.fault.words ++ " (os error " ++ toString code ++ ")"
  | _, none => e.fault.words

end FileError

/-- A place on the disk: the names that lead to it from the working directory. A first name `/` stands
for the root, and names `..` lead out of the working directory. -/
abbrev Place := List Text

structure Disk where
  files : List (Place × Content)
  directories : List Place

namespace Disk

inductive Node
  | file (content : Content)
  | directory
  | nothing
deriving DecidableEq

def up : Text := "..".toList

def root : Text := ['/']

/-- The directory that holds a place; the root holds itself. -/
def parent (place : Place) : Place :=
  match place.getLast? with
  | none => [up]
  | some last => if last = up then place ++ [up] else if place = [root] then place else place.dropLast

/-- Files make the directories above them, and the working directory lies in others. -/
def isDirectory (d : Disk) (place : Place) : Bool :=
  place.all (· = up) || place = [root] || d.directories.contains place ||
    d.files.any fun (file, _) => place.isPrefixOf file.dropLast

def node (d : Disk) (place : Place) : Node :=
  match d.files.lookup place with
  | some content => .file content
  | none => if d.isDirectory place then .directory else .nothing

/-- Where one segment of a path leads from a directory. -/
def step (place : Place) (segment : Text) : Place :=
  if Path.isIdle segment then place
  else if segment = up then parent place
  else place ++ [segment]

/-- The most bytes that a name can have. -/
def longestName : Nat := 255

/-- The most bytes that a path can have. -/
def longestPath : Nat := 4095

def isTooLong (segment : Text) : Bool := longestName < Text.byteSize segment

/-- Follows one segment of a path, from a directory only. -/
def enter (d : Disk) (place : Place) (segment : Text) : Except FileFault Place :=
  match d.node place with
  | .file _ => .error .notDirectory
  | .nothing => .error .notFound
  | .directory => if isTooLong segment then .error .nameTooLong else .ok (step place segment)

def start (s : Path.Start) : Place :=
  if s = .root then [root] else []

def walk (d : Disk) (place : Place) (segments : List Text) : Except FileFault Place :=
  segments.foldlM d.enter place

/-- What is wrong with a path whatever lies on the disk. -/
def refusal? (path : Path) : Option FileFault :=
  if path.text.contains '\x00' then some .nullInPath
  else if path.text.isEmpty then some .notFound
  else if longestPath < Text.byteSize path.text then some .nameTooLong
  else none

def locate (d : Disk) (path : Path) : Except FileFault Place :=
  match refusal? path with
  | some fault => .error fault
  | none => d.walk (start path.split.1) path.split.2

/-- The text of a file. -/
def read (d : Disk) (path : Path) : Except FileError Text :=
  match d.locate path with
  | .error fault => .error ⟨path, fault⟩
  | .ok place =>
    match d.node place with
    | .file (.text t) => .ok t
    | .file .binary => .error ⟨path, .notText⟩
    | .directory => .error ⟨path, .isDirectory⟩
    | .nothing => .error ⟨path, .notFound⟩

/-- All texts that lie on the disk. -/
def texts (d : Disk) : List Text :=
  d.files.filterMap fun
    | (_, .text t) => some t
    | (_, .binary) => none

theorem mem_files_of_node {d : Disk} {place : Place} {content : Content}
    (is : d.node place = .file content) : (place, content) ∈ d.files := by
  unfold node at is
  split at is
  · next stored =>
    cases is
    obtain ⟨before, after, files, _⟩ := List.lookup_eq_some_iff.mp stored
    simp [files]
  · split at is <;> cases is

theorem mem_texts_of_read (d : Disk) (path : Path) (text : Text) (is : d.read path = .ok text) :
    text ∈ d.texts := by
  unfold read at is
  split at is
  · cases is
  · next place _ =>
    split at is
    · next found =>
      cases is
      exact List.mem_filterMap.mpr ⟨(place, .text text), mem_files_of_node found, rfl⟩
    · cases is
    · cases is
    · cases is

def isEmptySegment (segment : Text) : Bool := segment = []

/-- The place of a file that is to be written. The directory must be there, and a path that ends in a
slash or in dots names no file. -/
def target (d : Disk) (path : Path) : Except FileError Place :=
  match refusal? path, path.split.2.reverse.dropWhile isEmptySegment with
  | some fault, _ => .error ⟨path, fault⟩
  | none, [] => .error ⟨path, .isDirectory⟩
  | none, last :: above =>
    match d.walk (start path.split.1) above.reverse with
    | .error fault => .error ⟨path, fault⟩
    | .ok place =>
      match d.node place, d.node (place ++ [last]) with
      | .file _, _ => .error ⟨path, .notDirectory⟩
      | .nothing, _ => .error ⟨path, .notFound⟩
      | .directory, .directory => .error ⟨path, .isDirectory⟩
      | .directory, _ =>
        if Path.isIdle last || last = up || path.split.2.getLast? = some [] then
          .error ⟨path, .isDirectory⟩
        else if isTooLong last then .error ⟨path, .nameTooLong⟩
        else .ok (place ++ [last])

/-- The disk with a file at a place, in the stead of what was there. -/
def put (d : Disk) (place : Place) (content : Content) : Disk :=
  { d with files := (place, content) :: d.files.filter (·.1 != place) }

def write (d : Disk) (place : Place) (t : Text) : Disk :=
  d.put place (.text t)

/-- What the operating system says of a path, for a disk that does not know it yet. -/
def learn (d : Disk) (place : Place) : Node → Disk
  | .file content => d.put place content
  | .directory => { d with directories := place :: d.directories }
  | .nothing => d

/-- The paths that lead to a path, each with its place if nothing on the way leads elsewhere. -/
def stages (path : Path) : List (Path × Place) :=
  let (first, segments) := path.split
  (List.range segments.length).map fun n =>
    let taken := segments.take (n + 1)
    (.ofSegments first taken,
      taken.foldl (fun place segment => step place segment) (start first))

/-- The files that are new or not what they were, by their paths from the working directory. -/
def changed (before after : Disk) : List (Text × Content) :=
  (after.files.filter fun (place, content) => before.files.lookup place ≠ some content).map
    fun (place, content) => (Text.join '/' place, content)

def empty : Disk := ⟨[], []⟩

/-- A disk with files at paths that need not go through directories that are there already. -/
def ofFiles (files : List (Path × Content)) : Disk :=
  files.foldl (fun d (path, content) => d.put path.key.2 content) empty

end Disk
end SymbolMap
