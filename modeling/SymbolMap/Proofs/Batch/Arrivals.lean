import SymbolMap.Batch
import SymbolMap.Proofs.Table.Update

/-!
What comes into a table while a batch is added.

* `Table.mem_entries_add`: what a table has after an addition it had before, or it has just come in;
* `Batch.arrivals`: the entries that come in, step by step;
* `Batch.fst_addTo_eq`, `Batch.snd_addTo_eq`: a batch is added step by step, and counts what comes in;
* `Batch.mem_entries_addTo`: whatever a table has in the end it had before, or it came in;
* `Batch.of_mem_arrivals`: what waits for the classes comes in as the table in the end would give it.
-/
namespace SymbolMap

namespace Register

variable {r : Register} {e x : Entry}

theorem mem_of_mem_evict {obf : Text} (h : x ∈ (r.evict obf).toList) : x ∈ r.toList := by
  unfold evict at h
  split at h
  · exact h
  · have kept : x ∈ r.entries.filter (·.obf != obf) := Array.mem_toList_iff.mp h
    exact Array.mem_toList_iff.mpr (Array.mem_filter.mp kept).1

theorem mem_of_mem_foldl_evict {names : List Text} (h : x ∈ (names.foldl evict r).toList) :
    x ∈ r.toList := by
  induction names generalizing r with
  | nil => exact h
  | cons name names ih => exact mem_of_mem_evict (ih h)

theorem mem_of_mem_place (h : x ∈ (r.place e).toList) : x ∈ r.toList ∨ x = e := by
  unfold place at h
  split at h
  · exact (Array.mem_push.mp (Array.mem_toList_iff.mp h)).imp_left Array.mem_toList_iff.mpr
  · obtain ⟨old, mem, is⟩ := Array.mem_map.mp (Array.mem_toList_iff.mp h)
    split at is
    · exact .inr is.symm
    · exact .inl (is ▸ Array.mem_toList_iff.mpr mem)

/-- What a register has after an addition it had before, or it has just come in. -/
theorem mem_of_mem_insert {overwrite : Bool} (h : x ∈ (r.insert e overwrite).1.toList) :
    x ∈ r.toList ∨ (r.insert e overwrite).2 = true ∧ x = e := by
  unfold insert at h ⊢
  split at h
  · exact (mem_of_mem_place h).imp_right fun is => ⟨rfl, is⟩
  · split at h
    · next free =>
      rw [if_pos free]
      exact (mem_of_mem_place h).imp mem_of_mem_foldl_evict fun is => ⟨rfl, is⟩
    · exact .inl h

end Register

theorem Table.mem_entries_add {t : Table} {kind k : Kind} {e x : Entry} {overwrite : Bool}
    (h : x ∈ (t.add kind e overwrite).1.entries k) :
    x ∈ t.entries k ∨
      (t.add kind e overwrite).2 = true ∧ kind.base = k.base ∧ x = e.conform t.threeWay := by
  unfold Table.add Table.entries at h ⊢
  rw [Table.register_update] at h
  rw [Table.snd_update]
  split at h
  · next same =>
    have here : t.register k = t.register kind := by
      unfold Table.register Table.register?
      rw [same]
    rw [here]
    exact (Register.mem_of_mem_insert h).imp_right fun ⟨changed, is⟩ => ⟨changed, same.symm, is⟩
  · exact .inl h

theorem Table.register?_add {t : Table} {kind k : Kind} (other : kind.base ≠ k.base) (e : Entry)
    (overwrite : Bool) : (t.add kind e overwrite).1.register? k = t.register? k := by
  unfold Table.add
  rw [Table.register?_update]
  exact if_neg other.symm

namespace Batch

/-- An addition of an entry that the table may have a part in. -/
abbrev Step := Kind × (Table → Entry)

/-- The additions of a batch, one after the other. -/
def steps (b : Batch) : List Step :=
  b.known.map (fun (kind, e) => (kind, fun _ => e)) ++ b.waiting

variable (overwrite : Bool)

/-- The table after the additions. -/
def run (t : Table) (steps : List Step) : Table :=
  steps.foldl (fun t (kind, entryFor) => (t.add kind (entryFor t) overwrite).1) t

/-- The entries that come in, in the form that the table keeps. Some may have to go again later on. -/
def arrivals (t : Table) : List Step → List (Kind × Entry)
  | [] => []
  | (kind, entryFor) :: steps =>
    let (next, changed) := t.add kind (entryFor t) overwrite
    let here := if changed then [(kind, (entryFor t).conform t.threeWay)] else []
    here ++ arrivals next steps

theorem arrivals_cons (t : Table) (kind : Kind) (entryFor : Table → Entry) (steps : List Step) :
    arrivals overwrite t ((kind, entryFor) :: steps) =
      (if (t.add kind (entryFor t) overwrite).2 then [(kind, (entryFor t).conform t.threeWay)]
        else []) ++ arrivals overwrite (t.add kind (entryFor t) overwrite).1 steps :=
  rfl

theorem arrivals_append (t : Table) (steps more : List Step) :
    arrivals overwrite t (steps ++ more) =
      arrivals overwrite t steps ++ arrivals overwrite (run overwrite t steps) more := by
  induction steps generalizing t with
  | nil => rfl
  | cons step steps ih =>
    obtain ⟨kind, entryFor⟩ := step
    have rest := ih (t.add kind (entryFor t) overwrite).1
    rw [List.cons_append, arrivals_cons, arrivals_cons, rest, List.append_assoc]
    rfl

theorem foldl_steps (steps : List Step) (sum : Tally) :
    steps.foldl (fun sum (kind, entryFor) => add overwrite sum kind (entryFor sum.1)) sum =
      (run overwrite sum.1 steps, sum.2 + (arrivals overwrite sum.1 steps).length) := by
  induction steps generalizing sum with
  | nil => rfl
  | cons step steps ih =>
    obtain ⟨kind, entryFor⟩ := step
    obtain ⟨t, count⟩ := sum
    rw [List.foldl_cons, ih, arrivals_cons, List.length_append]
    unfold add run
    dsimp only
    rw [List.foldl_cons]
    cases (t.add kind (entryFor t) overwrite).2 <;> simp [Nat.add_assoc]

theorem addTo_eq (b : Batch) (t : Table) : b.addTo t overwrite =
    (run overwrite t b.steps, (arrivals overwrite t b.steps).length) := by
  have all := foldl_steps overwrite b.steps (t, 0)
  rw [Nat.zero_add] at all
  rw [← all]
  unfold addTo steps
  rw [List.foldl_append, List.foldl_map]

/-- A batch is added step by step. -/
theorem fst_addTo_eq (b : Batch) (t : Table) : (b.addTo t overwrite).1 = run overwrite t b.steps := by
  rw [addTo_eq]

/-- What a batch counts is what comes in. -/
theorem snd_addTo_eq (b : Batch) (t : Table) :
    (b.addTo t overwrite).2 = (arrivals overwrite t b.steps).length := by
  rw [addTo_eq]

theorem register?_run {steps : List Step} {k : Kind} (others : ∀ step ∈ steps, step.1.base ≠ k.base)
    (t : Table) : (run overwrite t steps).register? k = t.register? k := by
  induction steps generalizing t with
  | nil => rfl
  | cons step steps ih =>
    obtain ⟨kind, entryFor⟩ := step
    obtain ⟨here, later⟩ := List.forall_mem_cons.mp others
    exact (ih later _).trans (Table.register?_add here (entryFor t) overwrite)

variable {overwrite}

theorem mem_entries_run {t : Table} {steps : List Step} {k : Kind} {e : Entry}
    (h : e ∈ (run overwrite t steps).entries k) :
    e ∈ t.entries k ∨ ∃ kind, (kind, e) ∈ arrivals overwrite t steps ∧ kind.base = k.base := by
  induction steps generalizing t with
  | nil => exact .inl h
  | cons step steps ih =>
    obtain ⟨kind, entryFor⟩ := step
    rw [arrivals_cons]
    rcases ih h with now | ⟨later, mem, same⟩
    · rcases Table.mem_entries_add now with old | ⟨changed, same, rfl⟩
      · exact .inl old
      · refine .inr ⟨kind, List.mem_append_left _ ?_, same⟩
        rw [if_pos changed]
        exact List.mem_cons_self
    · exact .inr ⟨later, List.mem_append_right _ mem, same⟩

/-- Whatever a table has in the end it had before, or it came in. -/
theorem mem_entries_addTo {b : Batch} {t : Table} {k : Kind} {e : Entry}
    (h : e ∈ (b.addTo t overwrite).1.entries k) :
    e ∈ t.entries k ∨ ∃ kind, (kind, e) ∈ arrivals overwrite t b.steps ∧ kind.base = k.base := by
  rw [fst_addTo_eq] at h
  exact mem_entries_run h

theorem threeWay_run (t : Table) (steps : List Step) :
    (run overwrite t steps).threeWay = t.threeWay := by
  induction steps generalizing t with
  | nil => rfl
  | cons step steps ih => exact ih _

/-- The classes of a table are all that it has a part in, and what comes in is no class. -/
def AsksClasses (step : Step) : Prop :=
  step.1.base ≠ .class_ ∧
    ∀ t u : Table, t.register? .class_ = u.register? .class_ → step.2 t = step.2 u

theorem of_mem_arrivals_known {t : Table} {known : List (Kind × Entry)} {kind : Kind} {e : Entry}
    (h : (kind, e) ∈ arrivals overwrite t (known.map fun (kind, e) => (kind, fun _ => e))) :
    ∃ e', (kind, e') ∈ known ∧ e = e'.conform t.threeWay := by
  induction known generalizing t with
  | nil => exact absurd h List.not_mem_nil
  | cons first known ih =>
    obtain ⟨kind', e'⟩ := first
    rw [List.map_cons, arrivals_cons] at h
    rcases List.mem_append.mp h with here | later
    · split at here
      · obtain ⟨rfl, rfl⟩ := Prod.mk.inj (List.mem_singleton.mp here)
        exact ⟨e', List.mem_cons_self, rfl⟩
      · exact absurd here List.not_mem_nil
    · obtain ⟨x, mem, is⟩ := ih later
      exact ⟨x, List.mem_cons_of_mem _ mem, is⟩

/-- The classes stay as they are while what waits for them comes in, so it does not matter when they are
asked for. -/
theorem of_mem_arrivals_waiting {t : Table} {waiting : List Step}
    (asks : ∀ step ∈ waiting, AsksClasses step) {kind : Kind} {e : Entry}
    (h : (kind, e) ∈ arrivals overwrite t waiting) :
    ∃ entryFor, (kind, entryFor) ∈ waiting ∧
      e = (entryFor (run overwrite t waiting)).conform t.threeWay := by
  induction waiting generalizing t with
  | nil => exact absurd h List.not_mem_nil
  | cons step waiting ih =>
    obtain ⟨kind', entryFor⟩ := step
    obtain ⟨here, later⟩ := List.forall_mem_cons.mp asks
    rw [arrivals_cons] at h
    rcases List.mem_append.mp h with now | rest
    · split at now
      · obtain ⟨rfl, rfl⟩ := Prod.mk.inj (List.mem_singleton.mp now)
        have others : ∀ step ∈ (kind, entryFor) :: waiting, step.1.base ≠ Kind.base .class_ :=
          fun step mem => (asks step mem).1
        have kept := register?_run overwrite others t
        exact ⟨entryFor, List.mem_cons_self, congrArg (Entry.conform t.threeWay) (here.2 _ _ kept.symm)⟩
      · exact absurd now List.not_mem_nil
    · obtain ⟨entryFor', mem, is⟩ := ih later rest
      exact ⟨entryFor', List.mem_cons_of_mem _ mem, is⟩

/-- What comes in was known, or it waited for the classes and is what the table in the end makes of it. -/
theorem of_mem_arrivals {b : Batch} {t : Table} (asks : ∀ step ∈ b.waiting, AsksClasses step)
    {kind : Kind} {e : Entry} (h : (kind, e) ∈ arrivals overwrite t b.steps) :
    (∃ e', (kind, e') ∈ b.known ∧ e = e'.conform t.threeWay) ∨
    ∃ entryFor, (kind, entryFor) ∈ b.waiting ∧
      e = (entryFor (b.addTo t overwrite).1).conform t.threeWay := by
  rw [steps, arrivals_append] at h
  refine (List.mem_append.mp h).imp of_mem_arrivals_known fun waited => ?_
  obtain ⟨entryFor, mem, is⟩ := of_mem_arrivals_waiting asks waited
  rw [threeWay_run] at is
  have last : (b.addTo t overwrite).1 = run overwrite (run overwrite t _) b.waiting :=
    (b.fst_addTo_eq overwrite t).trans List.foldl_append
  exact ⟨entryFor, mem, last ▸ is⟩

end Batch
end SymbolMap
