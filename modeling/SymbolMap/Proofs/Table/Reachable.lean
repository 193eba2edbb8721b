import SymbolMap.Proofs.Table.Update

/-!
The tables that additions and copies lead to, from an empty one, and what holds of all of them.

* `Table.Sound` is the invariant: each kind has one register, it is a base kind, its register has entries,
  and the entries fit the table and agree with the indexes;
* `Reachable.sound`: every reachable table has it;
* `requireRegister_eq`: a kind is unknown as long as it has no entries.
-/
namespace SymbolMap

theorem Entry.isSome_intermediate_conform (threeWay : Bool) (e : Entry) :
    (e.conform threeWay).intermediate.isSome = threeWay := by
  cases threeWay <;> rfl

/-! ## Additions to one register -/

theorem placed_ne_nil (es : List Entry) (e : Entry) : placed es e ≠ [] :=
  List.ne_nil_of_mem (mem_placed.mpr (.inl rfl))

theorem mem_of_mem_added {es : List Entry} {e x : Entry} {overwrite : Bool}
    (h : x ∈ (added es e overwrite).1) : x = e ∨ x ∈ es := by
  unfold added at h
  split at h
  · cases overwrite
    · exact .inr h
    · rcases mem_placed.mp h with new | ⟨old, _⟩
      · exact .inl new
      · exact .inr (List.mem_filter.mp old).1
  · rcases List.mem_append.mp h with old | new
    · exact .inr old
    · exact .inl (List.mem_singleton.mp new)

theorem added_ne_nil (es : List Entry) (e : Entry) (overwrite : Bool) :
    (added es e overwrite).1 ≠ [] := by
  unfold added
  split
  · next shared =>
    cases overwrite
    · obtain ⟨x, hx, _⟩ := shared
      exact List.ne_nil_of_mem hx
    · exact placed_ne_nil _ e
  · simp

namespace Register

theorem toList_insert {r : Register} (h : r.Sound) (e : Entry) (overwrite : Bool) :
    (r.insert e overwrite).1.toList = (added r.toList e overwrite).1 :=
  congrArg Prod.fst (insert_eq_added h e overwrite)

theorem snd_insert {r : Register} (h : r.Sound) (e : Entry) (overwrite : Bool) :
    (r.insert e overwrite).2 = (added r.toList e overwrite).2 :=
  congrArg Prod.snd (insert_eq_added h e overwrite)

/-- The indexes agree with the entries, which have intermediate names if the table keeps them. -/
structure Fits (threeWay : Bool) (r : Register) : Prop where
  sound : r.Sound
  named : ∀ e ∈ r.toList, e.intermediate.isSome = threeWay

theorem fits_empty (threeWay : Bool) : Fits threeWay {} :=
  ⟨sound_empty, fun _ he => absurd he List.not_mem_nil⟩

theorem Fits.insert {threeWay : Bool} {r : Register} (h : r.Fits threeWay) {e : Entry}
    (named : e.intermediate.isSome = threeWay) (overwrite : Bool) :
    (r.insert e overwrite).1.Fits threeWay := by
  refine ⟨h.sound.insert e overwrite, fun x hx => ?_⟩
  rw [toList_insert h.sound] at hx
  rcases mem_of_mem_added hx with rfl | old
  · exact named
  · exact h.named x old

theorem Fits.insertAll {threeWay overwrite : Bool} {es : List Entry}
    (named : ∀ e ∈ es, e.intermediate.isSome = threeWay) :
    ∀ {r : Register}, r.Fits threeWay → (Table.insertAll overwrite es r).Fits threeWay := by
  induction es with
  | nil => exact id
  | cons e es ih =>
    intro r h
    exact ih (fun x hx => named x (List.mem_cons_of_mem _ hx))
      (h.insert (named e List.mem_cons_self) overwrite)

theorem toList_insertAll_ne_nil {overwrite : Bool} {es : List Entry} :
    ∀ {r : Register}, r.Sound → es ≠ [] ∨ r.toList ≠ [] →
      (Table.insertAll overwrite es r).toList ≠ [] := by
  induction es with
  | nil =>
    intro r _ filled
    exact filled.resolve_left fun none => none rfl
  | cons e es ih =>
    intro r h _
    refine ih (h.insert e overwrite) (.inr ?_)
    rw [toList_insert h]
    exact added_ne_nil _ e overwrite

end Register

/-! ## Tables -/

namespace Table

/-- What all operations on tables keep. -/
structure Sound (t : Table) : Prop where
  kinds : t.kinds.Nodup
  base : ∀ kind ∈ t.kinds, kind.base = kind
  fits : ∀ kind r, (kind, r) ∈ t.registers → r.Fits t.threeWay
  filled : ∀ kind r, (kind, r) ∈ t.registers → r.toList ≠ []

theorem sound_of_empty (threeWay : Bool) : (empty threeWay).Sound where
  kinds := List.nodup_nil
  base _ hk := absurd hk List.not_mem_nil
  fits _ _ hr := absurd hr List.not_mem_nil
  filled _ _ hr := absurd hr List.not_mem_nil

theorem mem_kinds_of_mem_registers {t : Table} {kind : Kind} {r : Register}
    (h : (kind, r) ∈ t.registers) : kind ∈ t.kinds :=
  List.mem_map.mpr ⟨(kind, r), h, rfl⟩

namespace Sound

variable {t : Table}

/-- An update keeps the invariant if it leaves entries that fit. -/
theorem update {α : Type} (h : t.Sound) (kind : Kind) {f : Register → Register × α}
    (fits : ∀ r, r.Fits t.threeWay → (f r).1.Fits t.threeWay)
    (filled : ∀ r : Register, r.Fits t.threeWay → (f r).1.toList ≠ []) :
    (t.update kind f).1.Sound := by
  have start := Register.fits_empty t.threeWay
  refine ⟨?_, fun k hk => ?_, fun k r hr => ?_, fun k r hr => ?_⟩
  · rw [kinds_update]
    split
    · exact h.kinds
    · next new =>
      refine List.nodup_append.mpr ⟨h.kinds, by simp, fun k hk k' hk' same => new ?_⟩
      rwa [same, List.mem_singleton.mp hk'] at hk
  · rw [kinds_update] at hk
    split at hk
    · exact h.base k hk
    · rcases List.mem_append.mp hk with old | new
      · exact h.base k old
      · rw [List.mem_singleton.mp new, Kind.base_base]
  · rcases mem_registers_update t kind f hr with old | ⟨_, rfl⟩ | ⟨old, ho, rfl⟩
    · exact h.fits k r old
    · exact fits _ start
    · exact fits _ (h.fits k old ho)
  · rcases mem_registers_update t kind f hr with old | ⟨_, rfl⟩ | ⟨old, ho, rfl⟩
    · exact h.filled k r old
    · exact filled _ start
    · exact filled _ (h.fits k old ho)

theorem add (h : t.Sound) (kind : Kind) (e : Entry) (overwrite : Bool) :
    (t.add kind e overwrite).1.Sound := by
  have named := e.isSome_intermediate_conform t.threeWay
  refine h.update kind (fun r fits => fits.insert named overwrite) fun r fits => ?_
  rw [Register.toList_insert fits.sound]
  exact added_ne_nil _ _ overwrite

theorem absorb (h : t.Sound) (kind : Kind) {r : Register} (filled : r.toList ≠ [])
    (overwrite : Bool) : (t.absorb kind r overwrite).Sound := by
  have some : r.toList.map (·.conform t.threeWay) ≠ [] := by simpa using filled
  have named : ∀ e ∈ r.toList.map (·.conform t.threeWay),
      e.intermediate.isSome = t.threeWay := by
    intro e he
    obtain ⟨x, _, rfl⟩ := List.mem_map.mp he
    exact x.isSome_intermediate_conform t.threeWay
  exact h.update kind (fun _ fits => fits.insertAll named) fun _ fits =>
    Register.toList_insertAll_ne_nil fits.sound (.inl some)

theorem foldl_absorb {registers : List (Kind × Register)} (h : t.Sound)
    (filled : ∀ kind r, (kind, r) ∈ registers → r.toList ≠ []) (overwrite : Bool) :
    (registers.foldl (fun t (kind, r) => t.absorb kind r overwrite) t).Sound := by
  induction registers generalizing t with
  | nil => exact h
  | cons first rest ih =>
    have next := h.absorb first.1 (filled first.1 first.2 List.mem_cons_self) overwrite
    exact ih next fun kind r hr => filled kind r (List.mem_cons_of_mem _ hr)

theorem copyInto {source target : Table} (hs : source.Sound) (ht : target.Sound)
    (overwrite : Bool) : (source.copyInto target overwrite).Sound :=
  ht.foldl_absorb hs.filled overwrite

/-- The register of each kind fits, also where it is still to be started. -/
theorem fits_register (h : t.Sound) (kind : Kind) : (t.register kind).Fits t.threeWay := by
  unfold register
  cases found : t.register? kind with
  | none => exact Register.fits_empty t.threeWay
  | some r =>
    obtain ⟨before, after, is, _⟩ := List.lookup_eq_some_iff.mp found
    exact h.fits kind.base r (is ▸ List.mem_append_right _ List.mem_cons_self)

theorem sound_register (h : t.Sound) (kind : Kind) : (t.register kind).Sound :=
  (h.fits_register kind).sound

theorem register?_eq (h : t.Sound) (kind : Kind) :
    t.register? kind = if t.entries kind = [] then none else some (t.register kind) := by
  unfold entries register
  cases found : t.register? kind with
  | none => rfl
  | some r =>
    obtain ⟨before, after, is, _⟩ := List.lookup_eq_some_iff.mp found
    have filled := h.filled kind.base r (is ▸ List.mem_append_right _ List.mem_cons_self)
    exact (if_neg filled).symm

theorem requireRegister_eq (h : t.Sound) (kind : Kind) :
    t.requireRegister kind =
      if t.entries kind = [] then .error (.unknownKind kind) else .ok (t.register kind) := by
  unfold requireRegister
  rw [h.register?_eq]
  by_cases none : t.entries kind = [] <;> simp only [none, if_true, if_false]

/-- The kinds of a table are those that it has entries of. -/
theorem mem_kinds_iff (h : t.Sound) {kind : Kind} :
    kind ∈ t.kinds ↔ kind.base = kind ∧ t.entries kind ≠ [] := by
  have known : (t.register? kind).isSome = true ↔ kind.base ∈ t.kinds := by
    unfold register? Table.kinds
    rw [List.lookup_isSome_iff, List.mem_map]
    exact exists_congr fun p => and_congr_right fun _ => beq_iff_eq.trans eq_comm
  rw [h.register?_eq] at known
  constructor
  · intro mem
    have base := h.base kind mem
    refine ⟨base, fun none => ?_⟩
    rw [base, if_pos none] at known
    exact absurd (known.mpr mem) (by simp)
  · rintro ⟨base, filled⟩
    rw [base, if_neg filled] at known
    exact known.mp rfl

end Sound

/-- The tables that additions and copies lead to. -/
inductive Reachable : Table → Prop
  | empty (threeWay : Bool) : Reachable (empty threeWay)
  | addTwoWay {t : Table} (kind : Kind) (obf deobf : Text) (overwrite : Bool) :
      Reachable t → Reachable (t.addTwoWay kind obf deobf overwrite).1
  | addThreeWay {t : Table} (kind : Kind) (obf intermediate deobf : Text) (overwrite : Bool) :
      Reachable t → Reachable (t.addThreeWay kind obf intermediate deobf overwrite).1
  | copyInto {source target : Table} (overwrite : Bool) :
      Reachable source → Reachable target → Reachable (source.copyInto target overwrite)

theorem Reachable.sound {t : Table} (h : t.Reachable) : t.Sound := by
  induction h with
  | empty threeWay => exact sound_of_empty threeWay
  | addTwoWay kind obf deobf overwrite _ ih => exact ih.add kind _ overwrite
  | addThreeWay kind obf intermediate deobf overwrite _ ih => exact ih.add kind _ overwrite
  | copyInto overwrite _ _ hs ht => exact hs.copyInto ht overwrite

end Table
end SymbolMap
