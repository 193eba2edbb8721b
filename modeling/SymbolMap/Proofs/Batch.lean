import Mathlib.Data.List.Basic
import SymbolMap.Batch
import SymbolMap.Proofs.Grouping
import SymbolMap.Proofs.Table.Run

/-!
Batches that are added to a table.

* `Batch.fst_addTo`: entries that wait for the classes of a table are added as the table with all known names
  gives them;
* `Batch.entries_addTo`: what a batch gives to an empty table, if it has the classes of another one;
* `Batch.Source.ofKind_entriesAt`: the batch of declarations has the entries that each of them adds;
* `Batch.Source.entries_addTo_of_perm`: so declarations of the entries of a table give them to an empty one.
-/
namespace SymbolMap

namespace Batch

open Table (addAll ofKind)

variable (overwrite : Bool)

theorem fst_foldl_add (new : List (Kind × Entry)) (sum : Tally) :
    (new.foldl (fun sum (kind, e) => add overwrite sum kind e) sum).1 =
      sum.1.addAll overwrite new := by
  induction new generalizing sum with
  | nil => rfl
  | cons first new ih => exact ih (add overwrite sum first.1 first.2)

/-- What is added later depends on the classes of the table and on nothing else, and is no class. -/
def Waits (kind : Kind) (entryFor : Table → Entry) : Prop :=
  kind.base ≠ .class_ ∧ ∀ t u : Table, t.Sound → u.Sound →
    (∀ e, e ∈ t.entries .class_ ↔ e ∈ u.entries .class_) → entryFor t = entryFor u

theorem fst_foldl_waiting {waiting : List (Kind × (Table → Entry))}
    (waits : ∀ w ∈ waiting, Waits w.1 w.2) {t : Table} (ht : t.Sound) (sum : Tally)
    (hs : sum.1.Sound) (classes : ∀ e, e ∈ sum.1.entries .class_ ↔ e ∈ t.entries .class_) :
    (waiting.foldl (fun sum (kind, entryFor) => add overwrite sum kind (entryFor sum.1)) sum).1 =
      sum.1.addAll overwrite (waiting.map fun (kind, entryFor) => (kind, entryFor t)) := by
  induction waiting generalizing sum with
  | nil => rfl
  | cons first waiting ih =>
    obtain ⟨kind, entryFor⟩ := first
    obtain ⟨⟨notClass, steady⟩, others⟩ := List.forall_mem_cons.mp waits
    have now : entryFor sum.1 = entryFor t := steady sum.1 t hs ht classes
    have kept := hs.entries_add_of_ne (k := .class_) notClass (entryFor t) overwrite
    have next := ih others (add overwrite sum kind (entryFor t))
      (hs.add kind (entryFor t) overwrite) fun e => by
        rw [← classes e, ← kept]
        rfl
    rw [List.foldl_cons]
    dsimp only
    rw [now, next]
    rfl

/-- Entries that wait are added as the table with all known names gives them. -/
theorem fst_addTo (b : Batch) {t : Table} (h : t.Sound) (waits : ∀ w ∈ b.waiting, Waits w.1 w.2) :
    let named := t.addAll overwrite b.known
    (b.addTo t overwrite).1 =
      named.addAll overwrite (b.waiting.map fun (kind, entryFor) => (kind, entryFor named)) := by
  have first : (b.known.foldl (fun sum (kind, e) => add overwrite sum kind e) (t, 0)).1 =
      t.addAll overwrite b.known := fst_foldl_add overwrite b.known (t, 0)
  have named : (t.addAll overwrite b.known).Sound := h.addAll overwrite b.known
  have rest := fst_foldl_waiting overwrite waits named
    (b.known.foldl (fun sum (kind, e) => add overwrite sum kind e) (t, 0))
    (first ▸ named) fun e => by rw [first]
  rw [first] at rest
  exact rest

theorem sound_addTo (b : Batch) {t : Table} (h : t.Sound) (waits : ∀ w ∈ b.waiting, Waits w.1 w.2) :
    (b.addTo t overwrite).1.Sound := by
  rw [b.fst_addTo overwrite h waits]
  exact (h.addAll overwrite b.known).addAll overwrite _

theorem threeWay_addTo (b : Batch) {t : Table} (h : t.Sound) (waits : ∀ w ∈ b.waiting, Waits w.1 w.2) :
    (b.addTo t overwrite).1.threeWay = t.threeWay := by
  rw [b.fst_addTo overwrite h waits]
  simp

/-- All entries of a batch, as one table gives those that wait. -/
def entriesAt (b : Batch) (t : Table) : List (Kind × Entry) :=
  b.known ++ b.waiting.map fun (kind, entryFor) => (kind, entryFor t)

section
variable {b : Batch} (waits : ∀ w ∈ b.waiting, Waits w.1 w.2) {t : Table} (ht : t.Sound)
include waits

theorem ofKind_class_entriesAt : ofKind .class_ (b.entriesAt t) = ofKind .class_ b.known := by
  have none : ofKind .class_ (b.waiting.map fun (kind, entryFor) => (kind, entryFor t)) = [] := by
    refine Table.ofKind_eq_nil fun p hp => ?_
    obtain ⟨w, hw, rfl⟩ := List.mem_map.mp hp
    exact (waits w hw).1
  unfold entriesAt
  rw [Table.ofKind_append, none, List.append_nil]

include ht

/-- A batch that gives the classes of a table gives an empty table the entries that it gives that one. -/
theorem entries_addTo
    (classes : ((ofKind .class_ (b.entriesAt t)).map (·.conform t.threeWay)).Perm
      (t.entries .class_)) (k : Kind) :
    (b.addTo (.empty t.threeWay) overwrite).1.entries k =
      addedAll overwrite [] ((ofKind k (b.entriesAt t)).map (·.conform t.threeWay)) := by
  have start := Table.sound_of_empty t.threeWay
  have named := start.addAll overwrite b.known
  rw [ofKind_class_entriesAt waits] at classes
  have apart : List.Pairwise (fun a b : Entry => ¬a.Shares b)
      ([] ++ (ofKind .class_ b.known).map (·.conform t.threeWay)) :=
    (classes.pairwise_iff fun apart shared => apart shared.symm).mpr (ht.pairwise_entries .class_)
  have same : ∀ e, e ∈ ((Table.empty t.threeWay).addAll overwrite b.known).entries .class_ ↔
      e ∈ t.entries .class_ := by
    intro e
    rw [start.entries_addAll]
    exact (addedAll_of_apart overwrite apart) ▸ classes.mem_iff
  have alike : (b.waiting.map fun (kind, entryFor) =>
        (kind, entryFor ((Table.empty t.threeWay).addAll overwrite b.known))) =
      b.waiting.map fun (kind, entryFor) => (kind, entryFor t) :=
    List.map_congr_left fun w hw => congrArg (w.1, ·) ((waits w hw).2 _ t named ht same)
  rw [fst_addTo overwrite b start waits, named.entries_addAll, alike, start.entries_addAll,
    ← addedAll_append, Table.threeWay_addAll]
  unfold entriesAt
  rw [Table.ofKind_append, List.map_append]
  rfl

end

/-! ## Declarations -/

/-- The entry alone, or nothing if it is not of the kind that is asked for. -/
def asked (k kind : Kind) (e : Entry) : List Entry :=
  if kind.base = k.base then [e] else []

theorem flatMap_asked (k kind : Kind) (es : List Entry) :
    es.flatMap (asked k kind) = if kind.base = k.base then es else [] := by
  unfold asked
  by_cases same : kind.base = k.base
  · simp [same]
  · simp [same]

theorem flatMap_members_asked (t : Table) {k : Kind} (isMember : k = .field ∨ k = .method) :
    (t.members.flatMap fun p => asked k p.1 p.2) = t.entries k := by
  have parts : (t.members.flatMap fun p => asked k p.1 p.2) =
      (t.entries .field).flatMap (asked k .field) ++
        (t.entries .method).flatMap (asked k .method) := by
    unfold Table.members
    simp [List.flatMap_map]
  rw [parts, flatMap_asked, flatMap_asked]
  rcases isMember with rfl | rfl
  · simp [Kind.base]
  · simp [Kind.base]

/-- No class is asked for as a member. -/
theorem flatMap_members_asked_class (t : Table) :
    (t.members.flatMap fun p => asked .class_ p.1 p.2) = [] := by
  refine List.flatMap_eq_nil_iff.mpr fun p hp => ?_
  obtain ⟨kind, e⟩ := p
  obtain ⟨rfl | rfl, _⟩ := Table.mem_members.mp hp
  · rfl
  · rfl

theorem ofKind_filterMap {δ : Type} (given? : δ → Option (Kind × Entry)) (ds : List δ) (k : Kind) :
    ofKind k (ds.filterMap given?) =
      ds.flatMap fun d => (given? d).elim [] fun p => asked k p.1 p.2 := by
  induction ds with
  | nil => rfl
  | cons d ds ih =>
    rw [List.flatMap_cons, ← ih]
    cases found : given? d with
    | none =>
      rw [List.filterMap_cons_none found]
      rfl
    | some p =>
      rw [List.filterMap_cons_some found, Table.ofKind_cons]
      unfold asked
      by_cases same : p.1.base = k.base
      · simp [same]
      · simp [same]

/-- How the declarations of a dialect come into a batch. -/
structure Source (δ : Type) where
  known? : δ → Option (Kind × Entry)
  waiting? : δ → Option (Kind × (Table → Entry))

namespace Source

variable {δ : Type} (s : Source δ)

def batch (ds : List δ) : Batch := ⟨ds.filterMap s.known?, ds.filterMap s.waiting?⟩

/-- The entries of a kind that a declaration adds, as a table gives those that wait. -/
def entriesOf (t : Table) (k : Kind) (d : δ) : List Entry :=
  match s.known? d, s.waiting? d with
  | some p, _ => asked k p.1 p.2
  | none, some w => asked k w.1 (w.2 t)
  | none, none => []

/-- A declaration adds an entry. Those of methods wait for the classes, and no others do. -/
def Adds (d : δ) : Prop :=
  match s.known? d, s.waiting? d with
  | some p, none => p.1.base ≠ .method
  | none, some w => w.1.base = .method ∧ Waits w.1 w.2
  | _, _ => False

theorem waits_of_adds {ds : List δ} (adds : ∀ d ∈ ds, s.Adds d) :
    ∀ w ∈ (s.batch ds).waiting, Waits w.1 w.2 := by
  intro w hw
  obtain ⟨d, hd, is⟩ := List.mem_filterMap.mp hw
  have add := adds d hd
  unfold Adds at add
  rw [is] at add
  cases known : s.known? d with
  | some p =>
    rw [known] at add
    exact add.elim
  | none =>
    rw [known] at add
    exact add.2

theorem ofKind_known (ds : List δ) (k : Kind) : ofKind k (s.batch ds).known =
    ds.flatMap fun d => (s.known? d).elim [] fun p => asked k p.1 p.2 :=
  ofKind_filterMap s.known? ds k

theorem ofKind_waiting (ds : List δ) (t : Table) (k : Kind) :
    ofKind k ((s.batch ds).waiting.map fun (kind, entryFor) => (kind, entryFor t)) =
      ds.flatMap fun d => (s.waiting? d).elim [] fun w => asked k w.1 (w.2 t) := by
  unfold batch
  rw [List.map_filterMap, ofKind_filterMap]
  refine List.flatMap_congr fun d _ => ?_
  cases s.waiting? d with
  | none => rfl
  | some w => rfl

/-- Of all kinds only methods wait, so each kind has its entries in one of the two parts. -/
theorem parts_of_adds {d : δ} (add : s.Adds d) (t : Table) (k : Kind) :
    let known := (s.known? d).elim [] fun p => asked k p.1 p.2
    let waiting := (s.waiting? d).elim [] fun w => asked k w.1 (w.2 t)
    if k.base = .method then known = [] ∧ waiting = s.entriesOf t k d
    else known = s.entriesOf t k d ∧ waiting = [] := by
  unfold Adds at add
  unfold entriesOf
  cases known : s.known? d with
  | none =>
    cases waiting : s.waiting? d with
    | none =>
      rw [known, waiting] at add
      exact add.elim
    | some w =>
      rw [known, waiting] at add
      dsimp only [Option.elim]
      split
      · exact ⟨rfl, rfl⟩
      · next other =>
        have none : asked k w.1 (w.2 t) = [] := if_neg fun same => other (same.symm.trans add.1)
        rw [none]
        exact ⟨rfl, rfl⟩
  | some p =>
    cases waiting : s.waiting? d with
    | some w =>
      rw [known, waiting] at add
      exact add.elim
    | none =>
      rw [known, waiting] at add
      dsimp only [Option.elim]
      split
      · next base =>
        have none : asked k p.1 p.2 = [] := if_neg fun same => add (same.trans base)
        rw [none]
        exact ⟨rfl, rfl⟩
      · exact ⟨rfl, rfl⟩

/-- The batch of declarations has the entries that each of them adds, in their order. -/
theorem ofKind_entriesAt {ds : List δ} (adds : ∀ d ∈ ds, s.Adds d) (t : Table) (k : Kind) :
    ofKind k ((s.batch ds).entriesAt t) = ds.flatMap (s.entriesOf t k) := by
  unfold entriesAt
  rw [Table.ofKind_append, s.ofKind_known, s.ofKind_waiting]
  have parts := fun d hd => s.parts_of_adds (adds d hd) t k
  by_cases base : k.base = .method
  · simp only [if_pos base] at parts
    rw [List.flatMap_eq_nil_iff.mpr fun d hd => (parts d hd).1, List.nil_append]
    exact List.flatMap_congr fun d hd => (parts d hd).2
  · simp only [if_neg base] at parts
    rw [(List.flatMap_eq_nil_iff (l := ds)).mpr fun d hd => (parts d hd).2, List.append_nil]
    exact List.flatMap_congr fun d hd => (parts d hd).1

/-- Members that are grouped by their classes declare what the members of the table ask for, in the order of
the classes. -/
theorem members_perm {κ μ : Type} [Ord κ] [Std.TransOrd κ] [Std.LawfulEqOrd κ] [DecidableEq κ]
    {t : Table} {k : Kind} {place : Kind × Entry → Option (κ × μ)} (declared : κ → μ → List δ)
    {keys : List κ} (nodup : keys.Nodup) (covered : ∀ q ∈ t.members.filterMap place, q.1 ∈ keys)
    (restores : ∀ p ∈ t.members, ∃ q, place p = some q ∧
      (declared q.1 q.2).flatMap (s.entriesOf t k) = asked k p.1 p.2) :
    (keys.flatMap fun key => ((Groups.ofList (t.members.filterMap place)).group key).flatMap
      fun m => (declared key m).flatMap (s.entriesOf t k)).Perm
        (t.members.flatMap fun p => asked k p.1 p.2) := by
  have grouped := Groups.flatMap_group_perm nodup covered fun key m =>
    (declared key m).flatMap (s.entriesOf t k)
  rwa [flatMap_filterMap_of_forall restores] at grouped

section
variable {s} {ds : List δ} (adds : ∀ d ∈ ds, s.Adds d) {t : Table} (sound : t.Sound)
  (classes : (ds.flatMap (s.entriesOf t .class_)).Perm (t.entries .class_)) (overwrite : Bool)
include adds sound classes

theorem entries_addTo (k : Kind) :
    ((s.batch ds).addTo (.empty t.threeWay) overwrite).1.entries k =
      addedAll overwrite [] ((ds.flatMap (s.entriesOf t k)).map (·.conform t.threeWay)) := by
  have given : (ds.flatMap (s.entriesOf t .class_)).map (·.conform t.threeWay) =
      ds.flatMap (s.entriesOf t .class_) :=
    (List.map_congr_left fun e he => sound.conform_entries (classes.mem_iff.mp he)).trans
      (List.map_id' _)
  rw [Batch.entries_addTo overwrite (s.waits_of_adds adds) sound, s.ofKind_entriesAt adds]
  rwa [s.ofKind_entriesAt adds, given]

/-- Declarations of the entries of a table, in whatever order, give them to an empty one. -/
theorem entries_addTo_of_perm {k : Kind}
    (same : (ds.flatMap (s.entriesOf t k)).Perm (t.entries k)) :
    ((s.batch ds).addTo (.empty t.threeWay) overwrite).1.entries k =
      ds.flatMap (s.entriesOf t k) := by
  have given : (ds.flatMap (s.entriesOf t k)).map (·.conform t.threeWay) =
      ds.flatMap (s.entriesOf t k) :=
    (List.map_congr_left fun e he => sound.conform_entries (same.mem_iff.mp he)).trans
      (List.map_id' _)
  rw [entries_addTo adds sound classes overwrite k, given]
  refine addedAll_of_apart overwrite ?_
  exact (same.pairwise_iff fun apart shared => apart shared.symm).mpr (sound.pairwise_entries k)

end

end Source
end Batch
end SymbolMap
