import SymbolMap.Command.Arguments
import SymbolMap.Load

/-! How a run of the command fails, and the texts that report it: records with their fields in braces. -/
namespace SymbolMap.Command

inductive Failure
  | arguments (e : ArgumentError)
  | load (e : LoadError)
  | create (e : FileError)
  | invalidSide (side : UInt32)
deriving DecidableEq

def fieldText (name value : String) : String := name ++ ": " ++ value

/-- A record with the name of its type and its fields. -/
def recordText (name : String) (fields : List String) : String :=
  name ++ " \x7b " ++ ", ".intercalate fields ++ " \x7d"

def quotedString (s : String) : String := Text.quoted s.toList

def causeText (e : FileError) : String :=
  let kind := fieldText "kind" e.fault.kind
  match e.fault.code? with
  | some code =>
    recordText "Os"
      [fieldText "code" (toString code), kind,
        fieldText "message" (quotedString e.fault.words)]
  | none => recordText "Error" [kind, fieldText "message" (quotedString e.message)]

def formatText (e : FormatError) : String :=
  "Format(" ++ recordText "FormatError"
    [fieldText "line" (toString e.line.number), fieldText "text" e.line.text.quoted,
      fieldText "reason" (quotedString e.reason)] ++ ")"

/-- What went wrong, except that there is no more to say of wrong usage. -/
def Failure.message? : Failure → Option String
  | arguments .usage => none
  | arguments (.invalidValue argument) =>
    some ("Invalid value: The argument '" ++ String.ofList argument ++ "' isn't a valid value")
  | load (.format e) => some (formatText e)
  | load (.resource task e) =>
    some (recordText "Resource"
      [fieldText "context" (quotedString task.message), fieldText "cause" (causeText e)])
  | create e => some (causeText e)
  | invalidSide side =>
    some (recordText "ErrorMessage" [fieldText "msg" (quotedString ("Invalid side " ++ toString side.toNat))])

/-- The first line of the message, which an argument of several lines can break. -/
def Failure.headline? (f : Failure) : Option Text :=
  f.message?.bind fun message => (Text.lines message.toList).head?

/-- The text for standard error. -/
def Failure.report (f : Failure) : String :=
  let start := match f with
    | arguments _ => "error: "
    | _ => "Error: "
  start ++ f.message?.getD "wrong usage"

end SymbolMap.Command
