import SymbolMap.Listing
import SymbolMap.MemberName
import SymbolMap.Rows

/-! The columnar dialect: words on a line give the kind in short and the names with slashes. A method's
class and name may be words of their own. A line may end in a side after a number sign. -/
namespace SymbolMap.Columns

open MemberName (dotted slashed)

/-- The side on which lines are wanted, and whether methods are read without their descriptors. -/
structure Options where
  side : Option Text := none
  strip : Bool := false
deriving DecidableEq

/-- A line without a side, or with an empty one, is wanted on all sides. -/
def Options.accepts (o : Options) (side : Text) : Bool :=
  match o.side with
  | some wanted => side.isEmpty || side = wanted
  | none => true

def methodName (strip : Bool) (className : Option Text) (name : Text) (descriptor : Option Text) :
    Text :=
  let full :=
    match className with
    | some c => dotted c ++ ' ' :: name
    | none => dotted name
  MemberName.withDescriptor full (if strip then none else descriptor)

/-- Two names; two names with descriptors; two classes with names; or two of all three. -/
def readMethod (strip : Bool) : List Text → Option (Text × Text)
  | [obf, deobf] => some (methodName strip none obf none, methodName strip none deobf none)
  | [a, b, c, d] =>
    if Text.startsWith b ['('] then
      some (methodName strip none a (some b), methodName strip none c (some d))
    else some (methodName strip (some a) b none, methodName strip (some c) d none)
  | [a, b, c, d, e, f] =>
    some (methodName strip (some a) b (some c), methodName strip (some d) e (some f))
  | _ => none

def readNames (strip : Bool) (kind : Kind) (words : List Text) : Option (Text × Text) :=
  if kind.hasDescriptor then readMethod strip words
  else
    match words with
    | [obf, deobf] => some (dotted obf, dotted deobf)
    | _ => none

/-- The words of a line without the side that it may end in, and that side. -/
def splitSide (words : List Text) : List Text × Text :=
  match words.getLast? with
  | some ('#' :: side) => (words.dropLast, side)
  | _ => (words, [])

def trimColons (word : Text) : Text :=
  (word.reverse.dropWhile (· == ':')).reverse

def read (o : Options) (line : Text) : Except Fault Row :=
  let (words, side) := splitSide (Text.words line)
  match words with
  | word :: names@(_ :: _ :: _) => do
    let kind ← Kind.readWord (trimColons word)
    match readNames o.strip kind names with
    | none => .error (.sectionCount kind names.length)
    | some (obf, deobf) =>
      return if o.accepts side then .entry kind (.twoWay obf deobf)
        else .otherSide [.skippedSide kind obf side]
  | _ => .error .fewSections

/-- Only the class has slashes where it is split from the method's name. -/
def renderMethod (name : Text) : Text :=
  let (name, descriptor) := MemberName.splitDescriptor name
  let path :=
    match Text.cut ' ' name with
    | some (className, method) => slashed className ++ ' ' :: method
    | none => slashed name
  MemberName.withDescriptor path descriptor

/-- The default package is written as a single character, such as a dot. -/
def renderName (kind : Kind) (name : Text) : Text :=
  match kind with
  | .package => if Text.byteSize name = 1 then name else slashed name
  | .method | .constructor => renderMethod name
  | .class_ | .field => slashed name

def render (o : Options) (kind : Kind) (e : Entry) : Text :=
  kind.shortName.toList ++ ':' :: ' ' :: renderName kind e.obf ++ ' ' :: renderName kind e.deobf ++
    match o.side with
    | some side => ' ' :: '#' :: side
    | none => []

def list (o : Options) (t : Table) : Listing :=
  t.written.map fun (kind, e) => .line (render o kind e)

end SymbolMap.Columns
