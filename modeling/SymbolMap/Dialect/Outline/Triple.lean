import SymbolMap.Entry
import SymbolMap.Fault
import SymbolMap.MemberName

/-! The three names of a symbol as the outline dialect writes them, the shorter where some agree. -/
namespace SymbolMap.Outline

structure Triple where
  obf : Text
  intermediate : Text
  deobf : Text
deriving DecidableEq

namespace Triple

def toList (n : Triple) : List Text := [n.obf, n.intermediate, n.deobf]

theorem toList_inj {a b : Triple} : a.toList = b.toList ↔ a = b := by
  cases a
  cases b
  simp [toList]

/-- Triples are in the order of their names, the obfuscated one first. -/
instance : Ord Triple := ⟨fun a b => compare a.toList b.toList⟩

instance : Std.TransOrd Triple where
  eq_swap {a b} :=
    (Std.OrientedOrd.eq_swap : compare a.toList b.toList = (compare b.toList a.toList).swap)
  isLE_trans {a _ c} first second :=
    (Std.TransOrd.isLE_trans first second : (compare a.toList c.toList).isLE)

instance : Std.LawfulEqOrd Triple where
  eq_of_compare h := toList_inj.1 (Std.LawfulEqOrd.eq_of_compare h)
  compare_self {a} := (Std.ReflOrd.compare_self : compare a.toList a.toList = .eq)

/-- What the intermediate names of a kind start with. -/
def impliedStart : Kind → Text
  | .method => "func_".toList
  | .field => "field_".toList
  | _ => []

/-- Adds what the intermediate name is implied to start with, unless it is there. -/
def withImplied (kind : Kind) (intermediate : Text) : Text :=
  if Text.startsWith intermediate (impliedStart kind) then intermediate
  else impliedStart kind ++ intermediate

/-- One name is all three, of two the second is also the intermediate one. Only the default package
may go by an empty name. -/
def read (kind : Kind) (text : Text) : Except Fault Triple :=
  let parts := text.splitOn ':'
  if kind ≠ .package ∧ parts.any (·.isEmpty) then .error .emptyName
  else
    match parts with
    | [name] => .ok ⟨name, name, name⟩
    | [obf, deobf] => .ok ⟨obf, deobf, deobf⟩
    | [obf, intermediate, deobf] => .ok ⟨obf, withImplied kind intermediate, deobf⟩
    | _ => .error .tooManyNames

def render (n : Triple) : Text :=
  if n.intermediate ≠ n.deobf then n.obf ++ ':' :: n.intermediate ++ ':' :: n.deobf
  else if n.obf ≠ n.deobf ∨ n.obf = [] then n.obf ++ ':' :: n.deobf
  else n.obf

def ofEntry (e : Entry) : Triple := ⟨e.obf, e.intermediateOrDeobf, e.deobf⟩

def toEntry (n : Triple) : Entry := .threeWay n.obf n.intermediate n.deobf

/-- The names inside those of an owner. -/
def qualify (owner n : Triple) : Triple where
  obf := MemberName.qualify owner.obf n.obf
  intermediate := MemberName.qualify owner.intermediate n.intermediate
  deobf := MemberName.qualify owner.deobf n.deobf

/-- The names with descriptors after them. -/
def withDescriptors (n : Triple) (obf deobf : Text) : Triple where
  obf := n.obf ++ ' ' :: obf
  intermediate := n.intermediate ++ ' ' :: deobf
  deobf := n.deobf ++ ' ' :: deobf

/-- The names of the owner, empty where there is none, and the local names, none of them empty. -/
def split (n : Triple) : Option (Triple × Triple) :=
  let (obfOwner, obf) := MemberName.splitOwner n.obf
  let (intermediateOwner, intermediate) := MemberName.splitOwner n.intermediate
  let (deobfOwner, deobf) := MemberName.splitOwner n.deobf
  if obf = [] ∨ intermediate = [] ∨ deobf = [] then none
  else some (⟨obfOwner.getD [], intermediateOwner.getD [], deobfOwner.getD []⟩,
    ⟨obf, intermediate, deobf⟩)

end Triple
end SymbolMap.Outline
