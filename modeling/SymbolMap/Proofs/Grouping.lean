import Mathlib.Data.List.Basic
import SymbolMap.Grouping

/-!
Values that were grouped by their keys.

* `group_ofList`, `mem_group_ofList`: the group of a key has the values that came with it, in their order;
* `keys_ofList`: the keys are in the order in which they first came up;
* `flatMap_filter_perm`, `flatMap_group_perm`: all groups together have each value once.
-/
namespace SymbolMap

/-- Values that are kept and taken apart again. -/
theorem flatMap_filterMap_of_forall {α β γ : Type} {f : α → Option β} {g : β → List γ}
    {h : α → List γ} {xs : List α} (all : ∀ x ∈ xs, ∃ y, f x = some y ∧ g y = h x) :
    (xs.filterMap f).flatMap g = xs.flatMap h := by
  induction xs with
  | nil => rfl
  | cons x xs ih =>
    obtain ⟨y, is, same⟩ := all x List.mem_cons_self
    rw [List.filterMap_cons_some is, List.flatMap_cons, List.flatMap_cons, same,
      ih fun x hx => all x (List.mem_cons_of_mem _ hx)]

section
variable {κ : Type} [DecidableEq κ]

/-- A key comes after those that are there, unless it is one of them. -/
def listed (keys : List κ) (key : κ) : List κ :=
  if key ∈ keys then keys else keys ++ [key]

/-- Keys in the order in which they first come up. -/
def firsts (keys : List κ) : List κ := keys.foldl listed []

theorem mem_listed {keys : List κ} {key k : κ} : k ∈ listed keys key ↔ k ∈ keys ∨ k = key := by
  unfold listed
  split
  · next has => exact ⟨.inl, fun h => h.elim id fun eq => eq ▸ has⟩
  · rw [List.mem_append, List.mem_singleton]

theorem nodup_listed {keys : List κ} (h : keys.Nodup) (key : κ) : (listed keys key).Nodup := by
  unfold listed
  split
  · exact h
  · next new =>
    refine List.nodup_append.mpr ⟨h, by simp, fun k hk k' hk' same => new ?_⟩
    rwa [same, List.mem_singleton.mp hk'] at hk

theorem mem_foldl_listed {more keys : List κ} {k : κ} :
    k ∈ more.foldl listed keys ↔ k ∈ keys ∨ k ∈ more := by
  induction more generalizing keys with
  | nil => simp
  | cons key more ih => rw [List.foldl_cons, ih, mem_listed, List.mem_cons, or_assoc]

theorem nodup_foldl_listed (more : List κ) {keys : List κ} (h : keys.Nodup) :
    (more.foldl listed keys).Nodup := by
  induction more generalizing keys with
  | nil => exact h
  | cons key more ih => exact ih (nodup_listed h key)

theorem prefix_foldl_listed (more keys : List κ) : keys <+: more.foldl listed keys := by
  induction more generalizing keys with
  | nil => exact List.prefix_refl keys
  | cons key more ih =>
    refine List.IsPrefix.trans ?_ (ih (listed keys key))
    unfold listed
    split
    · exact List.prefix_refl keys
    · exact List.prefix_append keys [key]

theorem foldl_listed_of_nodup {more keys : List κ} (h : (keys ++ more).Nodup) :
    more.foldl listed keys = keys ++ more := by
  induction more generalizing keys with
  | nil => exact (List.append_nil keys).symm
  | cons key more ih =>
    have new : key ∉ keys := fun mem =>
      (List.nodup_append.mp h).2.2 key mem key List.mem_cons_self rfl
    have step : listed keys key = keys ++ [key] := if_neg new
    rw [List.foldl_cons, step, ih (by simpa using h), List.append_assoc, List.singleton_append]

theorem foldl_listed_of_subset {more keys : List κ} (h : ∀ k ∈ more, k ∈ keys) :
    more.foldl listed keys = keys := by
  induction more with
  | nil => rfl
  | cons key more ih =>
    have step : listed keys key = keys := if_pos (h key List.mem_cons_self)
    rw [List.foldl_cons, step, ih fun k hk => h k (List.mem_cons_of_mem _ hk)]

theorem mem_firsts {keys : List κ} {k : κ} : k ∈ firsts keys ↔ k ∈ keys := by
  simp [firsts, mem_foldl_listed]

theorem nodup_firsts (keys : List κ) : (firsts keys).Nodup :=
  nodup_foldl_listed keys List.nodup_nil

theorem firsts_append (keys more : List κ) :
    firsts (keys ++ more) = more.foldl listed (firsts keys) :=
  List.foldl_append

theorem firsts_of_nodup {keys : List κ} (h : keys.Nodup) : firsts keys = keys := by
  have all : ([] ++ keys).Nodup := h
  exact foldl_listed_of_nodup all

/-- Values taken key by key are all of the values, if no key comes twice and none is missing. -/
theorem flatMap_filter_perm {α : Type} (keyOf : α → κ) {keys : List κ} (nodup : keys.Nodup)
    {values : List α} (covered : ∀ x ∈ values, keyOf x ∈ keys) :
    (keys.flatMap fun k => values.filter (keyOf · = k)).Perm values := by
  induction keys generalizing values with
  | nil =>
    have none : values = [] := List.eq_nil_iff_forall_not_mem.mpr fun x hx =>
      absurd (covered x hx) List.not_mem_nil
    rw [none]
    exact List.Perm.refl []
  | cons key keys ih =>
    obtain ⟨new, nodup⟩ := List.nodup_cons.mp nodup
    have others : ∀ x ∈ values.filter (¬keyOf · = key), keyOf x ∈ keys := by
      intro x hx
      obtain ⟨hx, other⟩ := List.mem_filter.mp hx
      exact (List.mem_cons.mp (covered x hx)).resolve_left (of_decide_eq_true other)
    have same : (keys.flatMap fun k => (values.filter (¬keyOf · = key)).filter (keyOf · = k)) =
        keys.flatMap fun k => values.filter (keyOf · = k) := by
      refine List.flatMap_congr fun k hk => ?_
      rw [List.filter_filter]
      refine List.filter_congr fun x _ => ?_
      have apart : k ≠ key := fun eq => new (eq ▸ hk)
      by_cases is : keyOf x = k <;> simp [is, apart]
    have rest := ih nodup others
    rw [same] at rest
    rw [List.flatMap_cons]
    have split := List.filter_append_perm (fun x => decide (keyOf x = key)) values
    refine (List.Perm.append_left _ rest).trans ?_
    simpa using split

end

namespace Groups

section
variable {κ α : Type} [Ord κ]

/-- The keys are the ones that have values. -/
def Lists (g : Groups κ α) : Prop := ∀ k, g.contains k = true ↔ k ∈ g.keys.toList

theorem lists_empty : Lists ({} : Groups κ α) := by
  intro k
  simp [contains]

theorem Lists.keys_insert [DecidableEq κ] {g : Groups κ α} (h : g.Lists) (key : κ) (value : α) :
    (g.insert key value).keys.toList = listed g.keys.toList key := by
  have has := h key
  unfold insert listed
  unfold contains at has
  by_cases mem : key ∈ g.keys.toList
  · rw [if_pos mem, if_pos (has.mpr mem)]
  · rw [if_neg mem, if_neg fun contained => mem (has.mp contained), Array.toList_push]

end

variable {κ α : Type} [Ord κ] [Std.TransOrd κ] [Std.LawfulEqOrd κ] [DecidableEq κ]

theorem group_insert (g : Groups κ α) (key : κ) (value : α) (k : κ) :
    (g.insert key value).group k = g.group k ++ if key = k then [value] else [] := by
  unfold group insert
  dsimp only
  rw [Std.TreeMap.getD_alter]
  by_cases same : key = k
  · subst same
    rw [if_pos Std.ReflOrd.compare_self, if_pos rfl]
    cases found : g.values[key]? <;> simp [Std.TreeMap.getD_eq_getD_getElem?, found]
  · have other : compare key k ≠ .eq := mt Std.LawfulEqOrd.eq_of_compare same
    rw [if_neg other, if_neg same, List.append_nil]

theorem contains_insert (g : Groups κ α) (key : κ) (value : α) (k : κ) :
    (g.insert key value).contains k = true ↔ key = k ∨ g.contains k = true := by
  unfold contains insert
  dsimp only
  rw [Std.TreeMap.contains_alter]
  by_cases same : key = k
  · subst same
    simp
  · have other : compare key k ≠ .eq := mt Std.LawfulEqOrd.eq_of_compare same
    simp [other, same]

theorem Lists.insert {g : Groups κ α} (h : g.Lists) (key : κ) (value : α) :
    (g.insert key value).Lists := by
  intro k
  rw [contains_insert, h.keys_insert, mem_listed, h k]
  exact ⟨fun has => has.elim (fun eq => .inr eq.symm) .inl,
    fun has => has.elim .inr fun eq => .inl eq.symm⟩

theorem foldl_insert (pairs : List (κ × α)) {g : Groups κ α} (h : g.Lists) :
    let grown := pairs.foldl (fun g (key, value) => g.insert key value) g
    grown.Lists ∧ grown.keys.toList = (pairs.map (·.1)).foldl listed g.keys.toList ∧
      ∀ k, grown.group k = g.group k ++ (pairs.filter (·.1 = k)).map (·.2) := by
  induction pairs generalizing g with
  | nil => exact ⟨h, rfl, fun k => (List.append_nil _).symm⟩
  | cons pair pairs ih =>
    obtain ⟨key, value⟩ := pair
    obtain ⟨lists, keys, groups⟩ := ih (h.insert key value)
    refine ⟨lists, ?_, fun k => ?_⟩
    · rw [List.foldl_cons, keys, h.keys_insert, List.map_cons, List.foldl_cons]
    · rw [List.foldl_cons, groups, group_insert, List.append_assoc]
      by_cases same : key = k <;> simp [same]

theorem keys_ofList (pairs : List (κ × α)) :
    (ofList pairs).keys.toList = firsts (pairs.map (·.1)) :=
  (foldl_insert pairs lists_empty).2.1

theorem group_ofList (pairs : List (κ × α)) (k : κ) :
    (ofList pairs).group k = (pairs.filter (·.1 = k)).map (·.2) := by
  have groups := (foldl_insert pairs lists_empty).2.2 k
  have none : group ({} : Groups κ α) k = [] := by simp [group]
  rwa [none, List.nil_append] at groups

theorem mem_group_ofList {pairs : List (κ × α)} {k : κ} {x : α} :
    x ∈ (ofList pairs).group k ↔ (k, x) ∈ pairs := by
  rw [group_ofList]
  constructor
  · intro grouped
    obtain ⟨⟨k', x'⟩, kept, rfl⟩ := List.mem_map.mp grouped
    obtain ⟨mem, is⟩ := List.mem_filter.mp kept
    rwa [← of_decide_eq_true is]
  · intro mem
    exact List.mem_map.mpr ⟨(k, x), List.mem_filter.mpr ⟨mem, decide_eq_true rfl⟩, rfl⟩

theorem flatMap_group_perm {β : Type} {keys : List κ} (nodup : keys.Nodup)
    {pairs : List (κ × α)} (covered : ∀ p ∈ pairs, p.1 ∈ keys) (f : κ → α → List β) :
    (keys.flatMap fun k => ((ofList pairs).group k).flatMap (f k)).Perm
      (pairs.flatMap fun p => f p.1 p.2) := by
  have grouped : (keys.flatMap fun k => ((ofList pairs).group k).flatMap (f k)) =
      (keys.flatMap fun k => pairs.filter (·.1 = k)).flatMap fun p => f p.1 p.2 := by
    rw [List.flatMap_assoc]
    refine List.flatMap_congr fun k _ => ?_
    rw [group_ofList, List.flatMap_map]
    refine List.flatMap_congr fun p hp => ?_
    rw [of_decide_eq_true (List.mem_filter.mp hp).2]
  rw [grouped]
  exact (flatMap_filter_perm Prod.fst nodup covered).flatMap_right _

end Groups
end SymbolMap
