import SymbolMap.Text.Basic

/-! One line of a mapping table: the names of one and the same symbol. -/
namespace SymbolMap

/-- The intermediate name is known in three-way tables only. -/
structure Entry where
  obf : Text
  intermediate : Option Text
  deobf : Text
deriving DecidableEq

namespace Entry

def twoWay (obf deobf : Text) : Entry := ⟨obf, none, deobf⟩

def threeWay (obf intermediate deobf : Text) : Entry := ⟨obf, some intermediate, deobf⟩

/-- The intermediate name, for which the deobfuscated name stands in. -/
def intermediateOrDeobf (e : Entry) : Text :=
  e.intermediate.getD e.deobf

/-- A two-way table drops the intermediate name and a three-way table fills it in. -/
def conform (threeWay : Bool) (e : Entry) : Entry :=
  ⟨e.obf, if threeWay then some e.intermediateOrDeobf else none, e.deobf⟩

@[simp] theorem conform_obf (threeWay : Bool) (e : Entry) : (e.conform threeWay).obf = e.obf := rfl

@[simp] theorem conform_deobf (threeWay : Bool) (e : Entry) :
    (e.conform threeWay).deobf = e.deobf := rfl

@[simp] theorem conform_conform (threeWay : Bool) (e : Entry) :
    (e.conform threeWay).conform threeWay = e.conform threeWay := by
  cases threeWay <;> rfl

/-- Two entries share a name if they agree on one of the three; a missing one agrees with none. -/
def Shares (a b : Entry) : Prop :=
  a.obf = b.obf ∨ a.deobf = b.deobf ∨ (a.intermediate = b.intermediate ∧ a.intermediate ≠ none)

instance (a b : Entry) : Decidable (Shares a b) :=
  inferInstanceAs (Decidable (_ ∨ _ ∨ _))

theorem Shares.refl (a : Entry) : Shares a a := .inl rfl

theorem Shares.symm {a b : Entry} (h : Shares a b) : Shares b a := by
  rcases h with h | h | ⟨h, n⟩
  · exact .inl h.symm
  · exact .inr (.inl h.symm)
  · exact .inr (.inr ⟨h.symm, h ▸ n⟩)

end Entry
end SymbolMap
