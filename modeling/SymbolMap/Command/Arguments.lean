import SymbolMap.Dialect.Spec
import SymbolMap.Files.Path

/-! The arguments of the command line. -/
namespace SymbolMap.Command

/-- A file to load and the dialect that it is in. -/
structure Input where
  dialect : Dialect
  path : Path
deriving DecidableEq

inductive Invocation
  /-- Loads files and writes what they map in one dialect. -/
  | convert (inputs : List Input) (dialect : Dialect) (out : Path) (threeWay overwrite : Bool)
  /-- Combines the files of a directory into three-way mappings for a side. -/
  | generate (dir out : Path) (side : UInt32)
  /-- Prints what files map as JSON. -/
  | dump (inputs : List Input) (threeWay : Bool)
deriving DecidableEq

inductive ArgumentError
  /-- The arguments are not of a form that the command knows. -/
  | usage
  | invalidValue (argument : Text)
deriving DecidableEq

/-- What a command takes: flags, options with a value, and so many positional arguments. -/
structure Form where
  flags : List String
  options : List String
  required : List String
  positionals : Nat
  /-- Whether there may be more positional arguments. -/
  many : Bool
deriving DecidableEq

/-- The arguments that have been sorted out. -/
structure Sorted where
  flags : List Text := []
  options : List (Text × Option Text) := []
  positionals : List Text := []
  helpWanted : Bool := false

namespace Sorted

def value? (s : Sorted) (name : String) : Option Text :=
  ((s.options.lookup name.toList)).join

def hasFlag (s : Sorted) (name : String) : Bool :=
  s.flags.contains name.toList

end Sorted

namespace Form

/-- A single dash is an argument like others. -/
def isDashed (argument : Text) : Bool :=
  match argument with
  | '-' :: _ :: _ => true
  | _ => false

/-- The name of a long argument and the value that follows its equals sign. -/
def splitLong (argument : Text) : Text × Option Text :=
  let argument := argument.dropWhile (· == '-')
  match Text.cut '=' argument with
  | some (name, value) => (name, some (value.dropWhile (· == '=')))
  | none => (argument, none)

def isHelp (name : Text) : Bool := name = "help".toList || name = "version".toList

def isShortHelp (c : Char) : Bool := c = 'h' || c = 'V'

def hasRoom (x : Form) (s : Sorted) : Bool :=
  x.many || s.positionals.length < x.positionals

/-- Sorts positional arguments out, which is all there is after two dashes. -/
def sortRest (x : Form) (s : Sorted) : List Text → Option Sorted
  | [] => some s
  | a :: rest =>
    if x.hasRoom s then sortRest x { s with positionals := s.positionals ++ [a] } rest else none

/-- Sorts the arguments out, up to a request for help. An option takes the next argument as its value
unless that is dashed. -/
def sort (x : Form) (s : Sorted) : List Text → Option Sorted
  | [] => some s
  | ['-', '-'] :: rest => sortRest x s rest
  | ('-' :: '-' :: long) :: rest =>
    let (name, value) := splitLong long
    if x.options.any (·.toList = name) then
      match value, rest with
      | some value, rest => sort x { s with options := s.options ++ [(name, some value)] } rest
      | none, [] => some { s with options := s.options ++ [(name, none)] }
      | none, value :: rest =>
        if isDashed value then
          sort x { s with options := s.options ++ [(name, none)] } (value :: rest)
        else sort x { s with options := s.options ++ [(name, some value)] } rest
    else if x.flags.any (·.toList = name) then
      sort x { s with flags := s.flags ++ [name] } rest
    else if isHelp name then some { s with helpWanted := true }
    else none
  | ('-' :: c :: _) :: _ =>
    if isShortHelp c then some { s with helpWanted := true } else none
  | a :: rest =>
    if x.hasRoom s then sort x { s with positionals := s.positionals ++ [a] } rest else none
termination_by arguments => arguments.length

/-- Nothing is given twice, every option has its value, and what is required is there. -/
def isComplete (x : Form) (s : Sorted) : Bool :=
  s.flags.Nodup && (s.options.map (·.1)).Nodup && s.options.all (·.2.isSome) &&
    x.required.all (fun name => (s.value? name).isSome) && x.positionals ≤ s.positionals.length

end Form

/-- An input is given by its dialect, an equals sign and its path. -/
def readInput (argument : Text) : Except ArgumentError Input :=
  match Text.cut '=' argument with
  | none => .error (.invalidValue argument)
  | some (dialect, path) =>
    match Dialect.read dialect with
    | .error _ => .error (.invalidValue argument)
    | .ok dialect =>
      if path.isEmpty then .error (.invalidValue argument) else .ok ⟨dialect, ⟨path⟩⟩

def readDialect (argument : Text) : Except ArgumentError Dialect :=
  (Dialect.read argument).mapError fun _ => .invalidValue argument

/-- The client's side is number zero. -/
def readSide (argument : Option Text) : Except ArgumentError UInt32 :=
  match argument with
  | none => .ok 0
  | some argument => (Number.read 10 argument).mapError fun _ => .invalidValue argument

def convertForm : Form where
  flags := ["three-way", "overwrite"]
  options := ["to", "out"]
  required := ["to", "out"]
  positionals := 1
  many := true

def generateForm : Form where
  flags := []
  options := ["side"]
  required := []
  positionals := 2
  many := false

def dumpForm : Form where
  flags := ["three-way"]
  options := []
  required := []
  positionals := 1
  many := true

def readConvert (s : Sorted) : Except ArgumentError Invocation := do
  let inputs ← s.positionals.mapM readInput
  match s.value? "to", s.value? "out" with
  | some dialect, some out =>
    return .convert inputs (← readDialect dialect) ⟨out⟩ (s.hasFlag "three-way") (s.hasFlag "overwrite")
  | _, _ => .error .usage

def readGenerate (s : Sorted) : Except ArgumentError Invocation := do
  match s.positionals with
  | [dir, out] => return .generate ⟨dir⟩ ⟨out⟩ (← readSide (s.value? "side"))
  | _ => .error .usage

def readDump (s : Sorted) : Except ArgumentError Invocation := do
  return .dump (← s.positionals.mapM readInput) (s.hasFlag "three-way")

/-- Sorts arguments out and reads them, unless help is wanted. -/
def readWith (x : Form) (read : Sorted → Except ArgumentError Invocation)
    (arguments : List Text) : Except ArgumentError (Option Invocation) :=
  match x.sort {} arguments with
  | none => .error .usage
  | some s =>
    if s.helpWanted then .ok none
    else if x.isComplete s then (read s).map some
    else .error .usage

/-- Help can be asked for on the whole or on one command. -/
def isHelpTopic : List Text → Bool
  | [] => true
  | [command] => ["convert", "generate", "dump", "help"].contains (String.ofList command)
  | _ => false

/-- Whether a dashed argument asks for help or for the version. -/
def asksForHelp : Text → Bool
  | '-' :: '-' :: long => Form.isHelp (Form.splitLong long).1
  | '-' :: c :: _ => Form.isShortHelp c
  | _ => false

/-- The first argument names what is to be done. There is nothing to do where help is wanted. -/
def readArguments : List Text → Except ArgumentError (Option Invocation)
  | [] => .error .usage
  | command :: rest =>
    match String.ofList command with
    | "convert" => readWith convertForm readConvert rest
    | "generate" => readWith generateForm readGenerate rest
    | "dump" => readWith dumpForm readDump rest
    | "help" => if isHelpTopic rest then .ok none else .error .usage
    | _ => if asksForHelp command then .ok none else .error .usage

end SymbolMap.Command
