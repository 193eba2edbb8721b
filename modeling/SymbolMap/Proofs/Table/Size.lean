import SymbolMap.Proofs.Batch.Order

/-!
How many entries a table has.

* `Table.Sound.size_add`: an addition that changes the table adds one entry and takes out those that share a name
  with it;
* `Batch.departures`: the entries that have to go while a batch is added, step by step;
* `Batch.size_run`: so a table grows by what comes in, less what has to go;
* `Batch.departures_of_not_overwriting`, `Batch.length_departures_le`: nothing has to go if nothing may be overwritten,
  and otherwise at most three entries for each that comes in;
* `Batch.mem_entries_run_of_room`: where all come in and nothing has to go, all are there in the end.
-/
namespace SymbolMap

/-! ## One addition -/

/-- The entries that share a name with one that is added. -/
def sharing (es : List Entry) (e : Entry) : List Entry :=
  es.filter fun x => x.Shares e

theorem length_sharing_add_apartFrom (es : List Entry) (e : Entry) :
    (sharing es e).length + (apartFrom es e).length = es.length := by
  have parts := List.length_eq_length_filter_add (l := es) fun x => decide (x.Shares e)
  unfold sharing apartFrom
  simp only [decide_not]
  exact parts.symm

/-- Of entries that share no names at most one has a given name. -/
theorem length_filter_le_one {es : List Entry} (apart : es.Pairwise fun a b => ¬a.Shares b) {p : Entry → Bool}
    (shares : ∀ a b, p a = true → p b = true → a.Shares b) : (es.filter p).length ≤ 1 := by
  induction es with
  | nil => exact Nat.zero_le 1
  | cons e es ih =>
    obtain ⟨first, others⟩ := List.pairwise_cons.mp apart
    by_cases has : p e = true
    · have none : es.filter p = [] := by
        refine List.filter_eq_nil_iff.mpr fun x hx other => ?_
        exact first x hx (shares e x has other)
      rw [List.filter_cons_of_pos has, none]
      exact Nat.le_refl 1
    · rw [List.filter_cons_of_neg has]
      exact ih others

theorem length_filter_or_le (es : List Entry) (p q : Entry → Bool) :
    (es.filter fun x => p x || q x).length ≤ (es.filter p).length + (es.filter q).length := by
  induction es with
  | nil => exact Nat.zero_le _
  | cons e es ih =>
    simp only [List.filter_cons]
    cases p e <;> cases q e <;> simp <;> omega

/-- An entry has three names at most, and each of them can be that of one other entry. -/
theorem length_sharing_le {es : List Entry} (apart : es.Pairwise fun a b => ¬a.Shares b) (e : Entry) :
    (sharing es e).length ≤ 3 := by
  have byName : sharing es e = es.filter fun x => decide (x.obf = e.obf) || (decide (x.deobf = e.deobf) ||
      decide (x.intermediate = e.intermediate ∧ x.intermediate ≠ none)) :=
    List.filter_congr fun x _ => by
      rw [Bool.eq_iff_iff]
      simp only [Bool.or_eq_true, decide_eq_true_eq]
      rfl
  have obf : (es.filter fun x => decide (x.obf = e.obf)).length ≤ 1 := by
    refine length_filter_le_one apart fun a b ha hb => .inl ?_
    exact (of_decide_eq_true ha).trans (of_decide_eq_true hb).symm
  have deobf : (es.filter fun x => decide (x.deobf = e.deobf)).length ≤ 1 := by
    refine length_filter_le_one apart fun a b ha hb => .inr (.inl ?_)
    exact (of_decide_eq_true ha).trans (of_decide_eq_true hb).symm
  have intermediate : (es.filter fun x =>
      decide (x.intermediate = e.intermediate ∧ x.intermediate ≠ none)).length ≤ 1 := by
    refine length_filter_le_one apart fun a b ha hb => .inr (.inr ?_)
    obtain ⟨is, named⟩ := of_decide_eq_true ha
    exact ⟨is.trans (of_decide_eq_true hb).1.symm, named⟩
  rw [byName]
  have first := length_filter_or_le es (fun x => decide (x.obf = e.obf)) fun x => decide (x.deobf = e.deobf) ||
    decide (x.intermediate = e.intermediate ∧ x.intermediate ≠ none)
  have second := length_filter_or_le es (fun x => decide (x.deobf = e.deobf)) fun x =>
    decide (x.intermediate = e.intermediate ∧ x.intermediate ≠ none)
  omega

namespace Table

/-! ## Tables -/

theorem size_cons (threeWay : Bool) (kind : Kind) (r : Register) (registers : List (Kind × Register)) :
    (mk threeWay ((kind, r) :: registers)).size = r.size + (mk threeWay registers).size := rfl

theorem size_updateIn {α : Type} (threeWay : Bool) (kind : Kind) (f : Register → Register × α)
    (registers : List (Kind × Register)) :
    let r := (registers.lookup kind).getD {}
    (mk threeWay (updateIn kind f registers).1).size + r.size = (mk threeWay registers).size + (f r).1.size := by
  induction registers with
  | nil => exact Nat.add_comm (f {}).1.size 0
  | cons first rest ih =>
    obtain ⟨k, r⟩ := first
    unfold updateIn
    dsimp only at ih ⊢
    rw [lookup_cons_eq_ite]
    by_cases same : k = kind
    · simp only [if_pos same, if_pos same.symm, Option.getD_some, size_cons]
      omega
    · have other : ¬kind = k := fun eq => same eq.symm
      simp only [if_neg same, if_neg other, size_cons]
      omega

variable {t : Table}

/-- An addition changes the number of entries of its kind only. -/
theorem Sound.size_add_eq (h : t.Sound) (kind : Kind) (e : Entry) (overwrite : Bool) :
    (t.add kind e overwrite).1.size + (t.entries kind).length =
      t.size + (added (t.entries kind) (e.conform t.threeWay) overwrite).1.length := by
  have updated := size_updateIn t.threeWay kind.base (·.insert (e.conform t.threeWay) overwrite) t.registers
  dsimp only at updated
  have listed := Register.toList_insert (h.sound_register kind) (e.conform t.threeWay) overwrite
  have lengths : ∀ r : Register, r.size = r.toList.length := fun r => rfl
  rw [lengths, lengths] at updated
  unfold Table.entries
  rw [← listed]
  exact updated

/-- What comes in takes the place of what shares a name with it. -/
theorem Sound.length_added_overwriting (h : t.Sound) (kind : Kind) (e : Entry) :
    (added (t.entries kind) e true).1.length = (apartFrom (t.entries kind) e).length + 1 := by
  by_cases held : ∃ old ∈ t.entries kind, old.obf = e.obf
  · obtain ⟨old, mem, same⟩ := held
    obtain ⟨before, after, is⟩ := List.append_of_mem mem
    obtain ⟨hb, ha⟩ := h.obf_ne_of_split is
    rw [same] at hb ha
    have gone : apartFrom (before ++ old :: after) e = apartFrom before e ++ apartFrom after e := by
      unfold apartFrom
      rw [List.filter_append, List.filter_cons_of_neg (by simpa using .inl same)]
    rw [is, added_overwriting_at same hb ha, gone]
    simp only [List.length_append, List.length_cons]
    omega
  · have new : ∀ x ∈ t.entries kind, x.obf ≠ e.obf := fun x hx same => held ⟨x, hx, same⟩
    rw [added_overwriting_of_new new, List.length_append, List.length_singleton]

/-- The entries that have to go when an entry is added. -/
def displaced (t : Table) (kind : Kind) (e : Entry) (overwrite : Bool) : List Entry :=
  if overwrite then sharing (t.entries kind) (e.conform t.threeWay) else []

/-- An addition that changes the table adds one entry to it, less those that have to go. -/
theorem Sound.size_add (h : t.Sound) (kind : Kind) (e : Entry) (overwrite : Bool) :
    (t.add kind e overwrite).1.size + (t.displaced kind e overwrite).length =
      t.size + (t.add kind e overwrite).2.toNat := by
  have size := h.size_add_eq kind e overwrite
  rw [h.snd_add]
  unfold displaced
  cases overwrite with
  | true =>
    rw [h.length_added_overwriting] at size
    have parts := length_sharing_add_apartFrom (t.entries kind) (e.conform t.threeWay)
    rw [added_overwriting, if_pos rfl]
    dsimp only [Bool.toNat_true]
    omega
  | false =>
    by_cases shared : ∃ x ∈ t.entries kind, x.Shares (e.conform t.threeWay)
    · rw [added_of_shares shared] at size ⊢
      simpa using size
    · have apart : ∀ x ∈ t.entries kind, ¬x.Shares (e.conform t.threeWay) :=
        fun x hx shares => shared ⟨x, hx, shares⟩
      rw [added_of_apart apart] at size ⊢
      simp only [List.length_append, List.length_singleton] at size
      simp only [if_neg Bool.false_ne_true, List.length_nil, Bool.toNat_true]
      omega

theorem Sound.length_displaced_le (h : t.Sound) (kind : Kind) (e : Entry) (overwrite : Bool) :
    (t.displaced kind e overwrite).length ≤ 3 * (t.add kind e overwrite).2.toNat := by
  rw [h.snd_add]
  unfold displaced
  cases overwrite with
  | true =>
    rw [added_overwriting]
    exact length_sharing_le (h.pairwise_entries kind) _
  | false => exact Nat.zero_le _

/-- An addition that changes the table, without that anything has to go, leaves the entries and adds its own. -/
theorem Sound.mem_entries_add_of_room (h : t.Sound) {kind : Kind} {e : Entry} {overwrite : Bool}
    (changed : (t.add kind e overwrite).2 = true) (room : t.displaced kind e overwrite = []) :
    (∀ k, t.entries k ⊆ (t.add kind e overwrite).1.entries k) ∧
      e.conform t.threeWay ∈ (t.add kind e overwrite).1.entries kind := by
  have apart : ∀ x ∈ t.entries kind, ¬x.Shares (e.conform t.threeWay) := by
    intro x mem shares
    cases overwrite with
    | true =>
      have gone : x ∈ t.displaced kind e true := List.mem_filter.mpr ⟨mem, decide_eq_true shares⟩
      rw [room] at gone
      exact absurd gone List.not_mem_nil
    | false =>
      rw [h.snd_add, added_of_shares ⟨x, mem, shares⟩] at changed
      cases changed
  have entries := h.entries_add kind e overwrite
  rw [added_of_apart apart] at entries
  constructor
  · intro k x mem
    rw [entries]
    split
    · next same => exact List.mem_append_left _ (t.entries_congr same ▸ mem)
    · exact mem
  · rw [entries, if_pos rfl]
    exact List.mem_append_right _ (List.mem_singleton_self _)

end Table

/-! ## Batches -/

namespace Batch

variable (overwrite : Bool)

/-- The entries that have to go while additions are made. One that has just come in can have to go again. -/
def departures (t : Table) : List Step → List (Kind × Entry)
  | [] => []
  | (kind, entryFor) :: steps =>
    (t.displaced kind (entryFor t) overwrite).map (kind, ·) ++
      departures (t.add kind (entryFor t) overwrite).1 steps

theorem departures_of_not_overwriting (t : Table) (steps : List Step) : departures false t steps = [] := by
  induction steps generalizing t with
  | nil => rfl
  | cons step steps ih => exact ih (t.add step.1 (step.2 t) false).1

theorem length_arrivals_cons (t : Table) (kind : Kind) (entryFor : Table → Entry) (steps : List Step) :
    (arrivals overwrite t ((kind, entryFor) :: steps)).length =
      (t.add kind (entryFor t) overwrite).2.toNat +
        (arrivals overwrite (t.add kind (entryFor t) overwrite).1 steps).length := by
  rw [arrivals_cons, List.length_append]
  cases (t.add kind (entryFor t) overwrite).2 <;> rfl

/-- The entries afterwards and those that had to go are as many as the entries before and those that came in. -/
theorem size_run {t : Table} (h : t.Sound) (steps : List Step) :
    (run overwrite t steps).size + (departures overwrite t steps).length =
      t.size + (arrivals overwrite t steps).length := by
  induction steps generalizing t with
  | nil => rfl
  | cons step steps ih =>
    obtain ⟨kind, entryFor⟩ := step
    have first := h.size_add kind (entryFor t) overwrite
    have rest := ih (h.add kind (entryFor t) overwrite)
    rw [length_arrivals_cons, departures, List.length_append, List.length_map]
    have step : run overwrite t ((kind, entryFor) :: steps) =
        run overwrite (t.add kind (entryFor t) overwrite).1 steps := rfl
    rw [step]
    omega

theorem length_departures_le {t : Table} (h : t.Sound) (steps : List Step) :
    (departures overwrite t steps).length ≤ 3 * (arrivals overwrite t steps).length := by
  induction steps generalizing t with
  | nil => exact Nat.zero_le _
  | cons step steps ih =>
    obtain ⟨kind, entryFor⟩ := step
    have first := h.length_displaced_le kind (entryFor t) overwrite
    have rest := ih (h.add kind (entryFor t) overwrite)
    rw [length_arrivals_cons, departures, List.length_append, List.length_map]
    omega

theorem length_arrivals_le (t : Table) (steps : List Step) :
    (arrivals overwrite t steps).length ≤ steps.length := by
  induction steps generalizing t with
  | nil => exact Nat.le_refl 0
  | cons step steps ih =>
    rw [length_arrivals_cons, List.length_cons]
    have rest := ih (t.add step.1 (step.2 t) overwrite).1
    have here := Bool.toNat_le (t.add step.1 (step.2 t) overwrite).2
    omega

/-- If all additions change the table and nothing has to go, all entries are there in the end. -/
theorem mem_entries_run_of_room {t : Table} (h : t.Sound) {steps : List Step}
    (all : (arrivals overwrite t steps).length = steps.length) (room : departures overwrite t steps = []) :
    (∀ k, t.entries k ⊆ (run overwrite t steps).entries k) ∧ ∀ step ∈ steps, ∃ u,
      (step.2 u).conform t.threeWay ∈ (run overwrite t steps).entries step.1 := by
  induction steps generalizing t with
  | nil => exact ⟨fun k => List.Subset.refl _, fun step mem => absurd mem List.not_mem_nil⟩
  | cons step steps ih =>
    obtain ⟨kind, entryFor⟩ := step
    rw [length_arrivals_cons, List.length_cons] at all
    have most := length_arrivals_le overwrite (t.add kind (entryFor t) overwrite).1 steps
    have once := Bool.toNat_le (t.add kind (entryFor t) overwrite).2
    have changed : (t.add kind (entryFor t) overwrite).2 = true := Bool.toNat_eq_one.mp (by omega)
    obtain ⟨here, later⟩ := List.append_eq_nil_iff.mp room
    obtain ⟨kept, own⟩ := h.mem_entries_add_of_room changed (List.map_eq_nil_iff.mp here)
    obtain ⟨stay, others⟩ := ih (h.add kind (entryFor t) overwrite) (by omega) later
    refine ⟨fun k x mem => stay k (kept k mem), List.forall_mem_cons.mpr ⟨⟨t, stay kind own⟩, ?_⟩⟩
    intro step mem
    obtain ⟨u, there⟩ := others step mem
    rw [Table.threeWay_add] at there
    exact ⟨u, there⟩

end Batch
end SymbolMap
