import SymbolMap.Kind
import SymbolMap.Register.Basic

/-! Mapping tables: for each kind a register of the names that its symbols go by. -/
namespace SymbolMap

/-- The kinds stand in the order in which they were first added to. -/
structure Table where
  threeWay : Bool
  registers : List (Kind × Register) := []

inductive LookupError
  | unknownKind (kind : Kind)
  | noIntermediateNames
deriving DecidableEq

def LookupError.message : LookupError → String
  | unknownKind kind => "Unknown kind " ++ kind.name
  | noIntermediateNames => "The table doesn't have intermediate names"

namespace Table

def empty (threeWay : Bool) : Table := { threeWay }

/-- The register of a kind, once something of that kind has been added. -/
def register? (t : Table) (kind : Kind) : Option Register :=
  t.registers.lookup kind.base

/-- The register that additions to a kind go to. -/
def register (t : Table) (kind : Kind) : Register :=
  (t.register? kind).getD {}

/-- The entries of a kind in their order. -/
def entries (t : Table) (kind : Kind) : List Entry :=
  (t.register kind).toList

/-- All entries, each with its kind, in the order in which they are written. -/
def written (t : Table) : List (Kind × Entry) :=
  Kind.storable.flatMap fun kind => (t.entries kind).map (kind, ·)

/-- The entries that belong to classes. -/
def members (t : Table) : List (Kind × Entry) :=
  [Kind.field, .method].flatMap fun kind => (t.entries kind).map (kind, ·)

def kinds (t : Table) : List Kind :=
  t.registers.map (·.1)

/-- The number of entries of all kinds. -/
def size (t : Table) : Nat :=
  t.registers.foldr (fun (_, r) n => r.size + n) 0

/-- Changes the register of a kind, which is started after the others if there is none yet. -/
def updateIn {α : Type} (kind : Kind) (f : Register → Register × α) :
    List (Kind × Register) → List (Kind × Register) × α
  | [] =>
    let (r, a) := f {}
    ([(kind, r)], a)
  | (k, r) :: rest =>
    if k = kind then
      let (r, a) := f r
      ((k, r) :: rest, a)
    else
      let (rest, a) := updateIn kind f rest
      ((k, r) :: rest, a)

def update {α : Type} (t : Table) (kind : Kind) (f : Register → Register × α) : Table × α :=
  match t with
  | ⟨threeWay, registers⟩ =>
    let (registers, a) := updateIn kind.base f registers
    (⟨threeWay, registers⟩, a)

/-- Adds an entry in the form that the table keeps, and says whether that changed anything. -/
def add (t : Table) (kind : Kind) (e : Entry) (overwrite : Bool) : Table × Bool :=
  let e := e.conform t.threeWay
  t.update kind (·.insert e overwrite)

def addTwoWay (t : Table) (kind : Kind) (obf deobf : Text) (overwrite : Bool) : Table × Bool :=
  t.add kind (.twoWay obf deobf) overwrite

def addThreeWay (t : Table) (kind : Kind) (obf intermediate deobf : Text) (overwrite : Bool) :
    Table × Bool :=
  t.add kind (.threeWay obf intermediate deobf) overwrite

/-- Adds entries to a register one after the other. -/
def insertAll (overwrite : Bool) (es : List Entry) (r : Register) : Register :=
  es.foldl (fun r e => (r.insert e overwrite).1) r

/-- Copies the entries of one register to the same kind of a table. -/
def absorb (t : Table) (kind : Kind) (r : Register) (overwrite : Bool) : Table :=
  let es := r.toList.map (·.conform t.threeWay)
  (t.update kind fun target => (insertAll overwrite es target, ())).1

/-- Copies every entry of a table to another. -/
def copyInto (source target : Table) (overwrite : Bool) : Table :=
  source.registers.foldl (fun t (kind, r) => t.absorb kind r overwrite) target

def requireRegister (t : Table) (kind : Kind) : Except LookupError Register :=
  match t.register? kind with
  | some r => .ok r
  | none => .error (.unknownKind kind)

def requireIntermediate (t : Table) : Except LookupError Unit :=
  if t.threeWay then .ok () else .error .noIntermediateNames

def entryByObf (t : Table) (kind : Kind) (obf : Text) : Except LookupError (Option Entry) := do
  return (← t.requireRegister kind).findObf? obf

def entryByDeobf (t : Table) (kind : Kind) (deobf : Text) : Except LookupError (Option Entry) := do
  return (← t.requireRegister kind).findDeobf? deobf

def entryByIntermediate (t : Table) (kind : Kind) (intermediate : Text) :
    Except LookupError (Option Entry) := do
  t.requireIntermediate
  return (← t.requireRegister kind).findIntermediate? intermediate

/-- The deobfuscated name for an obfuscated one. -/
def deobfOf (t : Table) (kind : Kind) (obf : Text) : Except LookupError (Option Text) := do
  return (← t.entryByObf kind obf).map (·.deobf)

/-- The obfuscated name for a deobfuscated one. -/
def obfOf (t : Table) (kind : Kind) (deobf : Text) : Except LookupError (Option Text) := do
  return (← t.entryByDeobf kind deobf).map (·.obf)

/-- The intermediate name for an obfuscated one. -/
def intermediateOf (t : Table) (kind : Kind) (obf : Text) : Except LookupError (Option Text) := do
  t.requireIntermediate
  return (← t.entryByObf kind obf).bind (·.intermediate)

def hasObf (t : Table) (kind : Kind) (obf : Text) : Bool :=
  ((t.register? kind).bind (·.findObf? obf)).isSome

def hasDeobf (t : Table) (kind : Kind) (deobf : Text) : Bool :=
  ((t.register? kind).bind (·.findDeobf? deobf)).isSome

def hasIntermediate (t : Table) (kind : Kind) (intermediate : Text) : Bool :=
  ((t.register? kind).bind (·.findIntermediate? intermediate)).isSome

def allObf (t : Table) (kind : Kind) : Except LookupError (List Text) := do
  return (← t.requireRegister kind).toList.map (·.obf)

def allDeobf (t : Table) (kind : Kind) : Except LookupError (List Text) := do
  return (← t.requireRegister kind).toList.map (·.deobf)

def allIntermediate (t : Table) (kind : Kind) : Except LookupError (List Text) := do
  t.requireIntermediate
  return (← t.requireRegister kind).toList.filterMap (·.intermediate)

end Table
end SymbolMap
