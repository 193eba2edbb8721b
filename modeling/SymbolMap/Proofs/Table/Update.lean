import SymbolMap.Register.Sound
import SymbolMap.Table

/-!
What an update of one kind does to a table.

* `register?_update`: the register of the kind is the updated one, and the others are as before;
* `kinds_update`: a kind that is new comes after the others;
* `mem_updateIn`: each register of the result is an old one or the updated one;
* `entries_congr`, `mem_members`: the entries of a kind are those of its base kind, and members are fields and
  methods.
-/
namespace SymbolMap

namespace Table

section
variable {α : Type} {kind : Kind} {f : Register → Register × α} {registers : List (Kind × Register)}

theorem lookup_cons_eq_ite (k k' : Kind) (r : Register) :
    ((k', r) :: registers).lookup k = if k = k' then some r else registers.lookup k := by
  by_cases same : k = k'
  · simp [same]
  · have other : (k == k') = false := beq_false_of_ne same
    simp [List.lookup_cons, other, same]

theorem keys_updateIn :
    (updateIn kind f registers).1.map (·.1) =
      if kind ∈ registers.map (·.1) then registers.map (·.1) else registers.map (·.1) ++ [kind] := by
  induction registers with
  | nil => rfl
  | cons first rest ih =>
    obtain ⟨k, r⟩ := first
    unfold updateIn
    by_cases same : k = kind
    · simp [same]
    · have other : ¬kind = k := fun eq => same eq.symm
      simp only [if_neg same, List.map_cons, List.mem_cons, other, false_or, ih]
      split <;> rfl

theorem lookup_updateIn (k : Kind) :
    (updateIn kind f registers).1.lookup k =
      if k = kind then some (f ((registers.lookup kind).getD {})).1 else registers.lookup k := by
  induction registers with
  | nil =>
    unfold updateIn
    simp only [lookup_cons_eq_ite, List.lookup_nil, Option.getD_none]
  | cons first rest ih =>
    obtain ⟨k', r⟩ := first
    unfold updateIn
    by_cases same : k' = kind
    · subst same
      simp only [if_true, lookup_cons_eq_ite, Option.getD_some]
      split <;> rfl
    · have other : ¬kind = k' := fun eq => same eq.symm
      simp only [if_neg same, lookup_cons_eq_ite, if_neg other, ih]
      by_cases asked : k = k'
      · simp [asked, same]
      · simp [asked]

theorem snd_updateIn :
    (updateIn kind f registers).2 = (f ((registers.lookup kind).getD {})).2 := by
  induction registers with
  | nil => rfl
  | cons first rest ih =>
    obtain ⟨k, r⟩ := first
    unfold updateIn
    by_cases same : k = kind
    · simp [same]
    · have other : ¬kind = k := fun eq => same eq.symm
      simpa only [if_neg same, lookup_cons_eq_ite, if_neg other] using ih

theorem mem_updateIn {entry : Kind × Register} (h : entry ∈ (updateIn kind f registers).1) :
    entry ∈ registers ∨ entry = (kind, (f {}).1) ∨
      ∃ r, (kind, r) ∈ registers ∧ entry = (kind, (f r).1) := by
  induction registers with
  | nil => exact .inr (.inl (List.mem_singleton.mp h))
  | cons first rest ih =>
    obtain ⟨k, r⟩ := first
    unfold updateIn at h
    by_cases same : k = kind
    · subst same
      simp only [if_true, List.mem_cons] at h
      rcases h with rfl | h
      · exact .inr (.inr ⟨r, List.mem_cons_self, rfl⟩)
      · exact .inl (List.mem_cons_of_mem _ h)
    · simp only [if_neg same, List.mem_cons] at h
      rcases h with rfl | h
      · exact .inl List.mem_cons_self
      · rcases ih h with old | new | ⟨r, hr, is⟩
        · exact .inl (List.mem_cons_of_mem _ old)
        · exact .inr (.inl new)
        · exact .inr (.inr ⟨r, List.mem_cons_of_mem _ hr, is⟩)

end

theorem entries_congr (t : Table) {k kind : Kind} (same : k.base = kind.base) :
    t.entries k = t.entries kind := by
  unfold entries register register?
  rw [same]

theorem mem_members {t : Table} {kind : Kind} {e : Entry} :
    (kind, e) ∈ t.members ↔ (kind = .field ∨ kind = .method) ∧ e ∈ t.entries kind := by
  unfold members
  rw [List.mem_flatMap]
  constructor
  · rintro ⟨k, hk, mem⟩
    obtain ⟨_, he, is⟩ := List.mem_map.mp mem
    obtain ⟨rfl, rfl⟩ := Prod.mk.inj is
    exact ⟨by simpa using hk, he⟩
  · rintro ⟨isMember, he⟩
    exact ⟨kind, by simpa using isMember, List.mem_map.mpr ⟨e, he, rfl⟩⟩

section
variable {α : Type} (t : Table) (kind : Kind) (f : Register → Register × α)

theorem kinds_update :
    (t.update kind f).1.kinds =
      if kind.base ∈ t.kinds then t.kinds else t.kinds ++ [kind.base] :=
  keys_updateIn

theorem register?_update (k : Kind) :
    (t.update kind f).1.register? k =
      if k.base = kind.base then some (f (t.register kind)).1 else t.register? k :=
  lookup_updateIn k.base

theorem register_update (k : Kind) :
    (t.update kind f).1.register k =
      if k.base = kind.base then (f (t.register kind)).1 else t.register k := by
  unfold register
  rw [register?_update]
  split <;> rfl

theorem snd_update : (t.update kind f).2 = (f (t.register kind)).2 :=
  snd_updateIn

theorem mem_registers_update {k : Kind} {r : Register}
    (h : (k, r) ∈ (t.update kind f).1.registers) :
    (k, r) ∈ t.registers ∨ (k = kind.base ∧ r = (f {}).1) ∨
      ∃ old, (k, old) ∈ t.registers ∧ r = (f old).1 := by
  rcases mem_updateIn h with old | new | ⟨old, ho, is⟩
  · exact .inl old
  · exact .inr (.inl (Prod.mk.inj new))
  · obtain ⟨rfl, rfl⟩ := Prod.mk.inj is
    exact .inr (.inr ⟨old, ho, rfl⟩)

end

end Table
end SymbolMap
