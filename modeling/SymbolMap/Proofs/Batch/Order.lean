import Mathlib.Data.List.Nodup
import SymbolMap.Proofs.Batch
import SymbolMap.Proofs.Batch.Arrivals
import SymbolMap.Proofs.Table.Staying

/-!
Batches with the same entries in another order.

* `offers`: the entries that are offered to a table while a batch is added, whether they come in or not;
* `entries_run`: they are added to the lists of its entries;
* `offers_steps`: those that wait for the classes are offered as the table with all known names gives them;
* `entries_addTo_perm`: where only equal entries share a name the order does not matter.
-/
namespace SymbolMap.Batch

open Table (addAll ofKind)

/-- Entries in the form that a table keeps. -/
def conformAll (threeWay : Bool) (new : List (Kind × Entry)) : List (Kind × Entry) :=
  new.map fun (kind, e) => (kind, e.conform threeWay)

theorem ofKind_conformAll (threeWay : Bool) (new : List (Kind × Entry)) (k : Kind) :
    ofKind k (conformAll threeWay new) = (ofKind k new).map (·.conform threeWay) := by
  unfold conformAll
  induction new with
  | nil => rfl
  | cons first new ih =>
    obtain ⟨kind, e⟩ := first
    rw [List.map_cons, Table.ofKind_cons, Table.ofKind_cons, ih]
    split
    · rfl
    · rfl

theorem ofKind_perm {new new' : List (Kind × Entry)} (perm : new.Perm new') (k : Kind) :
    (ofKind k new).Perm (ofKind k new') :=
  perm.filterMap _

variable (overwrite : Bool)

/-- The entries that additions offer to a table, in the form that it keeps. -/
def offers (t : Table) : List Step → List (Kind × Entry)
  | [] => []
  | (kind, entryFor) :: steps =>
    (kind, (entryFor t).conform t.threeWay) :: offers (t.add kind (entryFor t) overwrite).1 steps

theorem offers_append (t : Table) (steps more : List Step) :
    offers overwrite t (steps ++ more) =
      offers overwrite t steps ++ offers overwrite (run overwrite t steps) more := by
  induction steps generalizing t with
  | nil => rfl
  | cons step steps ih => exact congrArg (_ :: ·) (ih (t.add step.1 (step.2 t) overwrite).1)

theorem sound_run {t : Table} (h : t.Sound) (steps : List Step) : (run overwrite t steps).Sound := by
  induction steps generalizing t with
  | nil => exact h
  | cons step steps ih => exact ih (h.add step.1 (step.2 t) overwrite)

/-- Additions of all kinds are, for one kind, the additions of what is offered to the list of its entries. -/
theorem entries_run {t : Table} (h : t.Sound) (steps : List Step) (k : Kind) :
    (run overwrite t steps).entries k =
      addedAll overwrite (t.entries k) (ofKind k (offers overwrite t steps)) := by
  induction steps generalizing t with
  | nil => rfl
  | cons step steps ih =>
    obtain ⟨kind, entryFor⟩ := step
    have rest := ih (h.add kind (entryFor t) overwrite)
    rw [h.entries_add] at rest
    rw [offers, Table.ofKind_cons]
    refine rest.trans ?_
    by_cases same : k.base = kind.base
    · rw [if_pos same, if_pos same.symm, t.entries_congr same]
      rfl
    · rw [if_neg same, if_neg fun eq => same eq.symm]

/-! ## Known and waiting entries -/

theorem offers_known (t : Table) (known : List (Kind × Entry)) :
    offers overwrite t (known.map fun (kind, e) => (kind, fun _ => e)) = conformAll t.threeWay known := by
  induction known generalizing t with
  | nil => rfl
  | cons first known ih => exact congrArg (_ :: ·) (ih (t.add first.1 first.2 overwrite).1)

theorem run_known (t : Table) (known : List (Kind × Entry)) :
    run overwrite t (known.map fun (kind, e) => (kind, fun _ => e)) = t.addAll overwrite known :=
  List.foldl_map

/-- The classes stay as they are while what waits for them is offered. -/
theorem offers_waiting {waiting : List Step} (waits : ∀ w ∈ waiting, Waits w.1 w.2) {t u : Table}
    (ht : t.Sound) (hu : u.Sound) (classes : ∀ e, e ∈ u.entries .class_ ↔ e ∈ t.entries .class_) :
    offers overwrite u waiting =
      conformAll u.threeWay (waiting.map fun (kind, entryFor) => (kind, entryFor t)) := by
  induction waiting generalizing u with
  | nil => rfl
  | cons first waiting ih =>
    obtain ⟨kind, entryFor⟩ := first
    obtain ⟨⟨notClass, steady⟩, others⟩ := List.forall_mem_cons.mp waits
    have now : entryFor u = entryFor t := steady u t hu ht classes
    have kept := hu.entries_add_of_ne (k := .class_) notClass (entryFor u) overwrite
    have rest := ih others (hu.add kind (entryFor u) overwrite) fun e => by rw [kept, classes]
    rw [offers, rest, now]
    rfl

/-- Tables with the same classes give the same for what waits. -/
theorem entriesAt_congr {b : Batch} (waits : ∀ w ∈ b.waiting, Waits w.1 w.2) {t u : Table} (ht : t.Sound)
    (hu : u.Sound) (classes : ∀ e, e ∈ t.entries .class_ ↔ e ∈ u.entries .class_) :
    b.entriesAt t = b.entriesAt u := by
  apply congrArg (b.known ++ ·)
  exact List.map_congr_left fun w hw => congrArg (w.1, ·) ((waits w hw).2 t u ht hu classes)

theorem offers_steps (b : Batch) (waits : ∀ w ∈ b.waiting, Waits w.1 w.2) {t : Table} (h : t.Sound) :
    offers overwrite t b.steps =
      conformAll t.threeWay (b.entriesAt (t.addAll overwrite b.known)) := by
  have named := h.addAll overwrite b.known
  have later := offers_waiting overwrite waits named named fun _ => Iff.rfl
  rw [Table.threeWay_addAll] at later
  rw [steps, offers_append, offers_known, run_known, later]
  exact List.map_append.symm

/-! ## Another order -/

section
variable {b b' : Batch} (known : b.known.Perm b'.known) (waiting : b.waiting.Perm b'.waiting)
  (waits : ∀ w ∈ b.waiting, Waits w.1 w.2) {t : Table} (h : t.Sound)
  (consistent : ∀ k, Consistent (t.entries k ++ ofKind k (offers overwrite t b.steps)))
include known waits h consistent

/-- The same classes come in. -/
theorem mem_classes_iff (e : Entry) : e ∈ (t.addAll overwrite b.known).entries .class_ ↔
    e ∈ (t.addAll overwrite b'.known).entries .class_ := by
  have same : (ofKind .class_ (conformAll t.threeWay b.known)).Perm
      (ofKind .class_ (conformAll t.threeWay b'.known)) := ofKind_perm (known.map _) .class_
  -- What is known is offered first, so its classes have no conflicts either.
  have sub : ofKind .class_ (conformAll t.threeWay b.known) ⊆ ofKind .class_ (offers overwrite t b.steps) := by
    rw [b.offers_steps overwrite waits h]
    unfold entriesAt conformAll
    rw [List.map_append, Table.ofKind_append]
    exact List.subset_append_left _ _
  have here := (consistent .class_).append_of_subset sub
  have there := here.append_of_subset same.symm.subset
  rw [h.entries_addAll, h.entries_addAll, ← ofKind_conformAll, ← ofKind_conformAll,
    mem_addedAll_iff_of_consistent here, mem_addedAll_iff_of_consistent there, same.mem_iff]

include waiting

/-- The same entries are offered. -/
theorem offers_perm : (offers overwrite t b.steps).Perm (offers overwrite t b'.steps) := by
  have waits' : ∀ w ∈ b'.waiting, Waits w.1 w.2 := fun w hw => waits w (waiting.mem_iff.mpr hw)
  have classes := mem_classes_iff overwrite known waits h consistent
  have alike := entriesAt_congr waits (h.addAll overwrite b.known) (h.addAll overwrite b'.known) classes
  rw [b.offers_steps overwrite waits h, b'.offers_steps overwrite waits' h, alike]
  exact (known.append (waiting.map _)).map _

/-- Where only equal entries share a name, of those that are there and those that are offered, another order
comes to the same. -/
theorem entries_addTo_perm (k : Kind) :
    ((b.addTo t overwrite).1.entries k).Perm ((b'.addTo t overwrite).1.entries k) := by
  have same := ofKind_perm (offers_perm overwrite known waiting waits h consistent) k
  have there := (consistent k).append_of_subset same.symm.subset
  have nodup : ∀ steps, ((run overwrite t steps).entries k).Nodup := fun steps =>
    List.Nodup.of_map _ ((sound_run overwrite h steps).sound_register k).nodup
  rw [fst_addTo_eq, fst_addTo_eq, List.perm_ext_iff_of_nodup (nodup _) (nodup _)]
  intro e
  rw [entries_run overwrite h, entries_run overwrite h, mem_addedAll_iff_of_consistent (consistent k),
    mem_addedAll_iff_of_consistent there]
  exact or_congr_right same.mem_iff

end

end SymbolMap.Batch
