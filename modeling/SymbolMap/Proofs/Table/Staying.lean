import Mathlib.Data.List.Induction
import SymbolMap.Proofs.Table.Run

/-!
Which of the entries that are added one after the other stay.

* `Lasts`: an entry in a list shares no name with a later one;
* `mem_addedAll_overwriting_iff`: of those that may overwrite, the ones that last;
* `mem_addedAll_of_apart_before`: of those that may not, the ones that share no name with an earlier one;
* `mem_addedAll_iff_of_consistent`: all of them, if only equal ones share a name;
* `Table.Reachable.overwriting_keeps_last`: hence the entries of a table after additions that may overwrite.
-/
namespace SymbolMap

theorem mem_added_overwriting_iff {es : List Entry} {e x : Entry} :
    x ∈ (added es e true).1 ↔ x = e ∨ x ∈ es ∧ ¬x.Shares e := by
  rw [added_overwriting, mem_placed, List.mem_filter, decide_eq_true_eq]
  refine or_congr_right ⟨?_, ?_⟩
  · rintro ⟨⟨hx, same | apart⟩, other⟩
    · exact absurd same other
    · exact ⟨hx, apart⟩
  · rintro ⟨hx, apart⟩
    exact ⟨⟨hx, .inr apart⟩, fun same => apart (.inl same)⟩

/-- The entry stands in the list, and shares no name with one that stands after it. -/
def Lasts (es : List Entry) (x : Entry) : Prop :=
  ∃ before after, es = before ++ x :: after ∧ ∀ y ∈ after, ¬x.Shares y

theorem not_lasts_nil (x : Entry) : ¬Lasts [] x :=
  fun ⟨before, after, is, _⟩ => by simp at is

theorem lasts_concat_iff {es : List Entry} {e x : Entry} :
    Lasts (es ++ [e]) x ↔ x = e ∨ Lasts es x ∧ ¬x.Shares e := by
  constructor
  · rintro ⟨before, after, is, apart⟩
    rcases List.eq_nil_or_concat after with rfl | ⟨after, e', rfl⟩
    · obtain ⟨_, same⟩ := List.append_inj' is rfl
      exact .inl (List.singleton_inj.mp same).symm
    · rw [List.concat_eq_append] at is apart
      have is' : es ++ [e] = (before ++ x :: after) ++ [e'] := by simpa using is
      obtain ⟨rfl, same⟩ := List.append_inj' is' rfl
      obtain rfl := List.singleton_inj.mp same
      obtain ⟨earlier, last⟩ := List.forall_mem_append.mp apart
      exact .inr ⟨⟨before, after, rfl, earlier⟩, last e List.mem_cons_self⟩
  · rintro (rfl | ⟨⟨before, after, rfl, apart⟩, last⟩)
    · exact ⟨es, [], rfl, by simp⟩
    · exact ⟨before, after ++ [e], by simp, List.forall_mem_append.mpr ⟨apart, by simpa using last⟩⟩

theorem lasts_append_iff {es new : List Entry} {x : Entry} :
    Lasts (es ++ new) x ↔ (Lasts es x ∧ ∀ y ∈ new, ¬x.Shares y) ∨ Lasts new x := by
  induction new using List.reverseRecOn with
  | nil => simp [not_lasts_nil]
  | append_singleton new e ih =>
    rw [← List.append_assoc, lasts_concat_iff, ih, lasts_concat_iff, List.forall_mem_append,
      List.forall_mem_singleton]
    tauto

/-- Of entries that share no names each one lasts. -/
theorem lasts_iff_mem {es : List Entry} (apart : es.Pairwise fun a b => ¬a.Shares b) {x : Entry} :
    Lasts es x ↔ x ∈ es := by
  constructor
  · rintro ⟨before, after, rfl, _⟩
    simp
  · intro mem
    obtain ⟨before, after, rfl⟩ := List.append_of_mem mem
    have later := (List.pairwise_append.mp apart).2.1
    exact ⟨before, after, rfl, (List.pairwise_cons.mp later).1⟩

/-- An entry is there in the end if it was there before or came in, and none that came in later shares a
name with it. -/
theorem mem_addedAll_overwriting_iff {es new : List Entry} {x : Entry} :
    x ∈ addedAll true es new ↔ (x ∈ es ∧ ∀ y ∈ new, ¬x.Shares y) ∨ Lasts new x := by
  -- The last addition decides: it stays, and what shares a name with it goes.
  induction new using List.reverseRecOn with
  | nil => simp [not_lasts_nil, addedAll]
  | append_singleton new e ih =>
    have step : addedAll true es (new ++ [e]) = (added (addedAll true es new) e true).1 :=
      addedAll_append true es new [e]
    rw [step, mem_added_overwriting_iff, ih, lasts_concat_iff, List.forall_mem_append, List.forall_mem_singleton]
    tauto

/-- In one sequence of what was there and what came in, the entries that are there in the end are those that last. -/
theorem mem_addedAll_overwriting_iff_lasts {es new : List Entry} (apart : es.Pairwise fun a b => ¬a.Shares b)
    {x : Entry} : x ∈ addedAll true es new ↔ Lasts (es ++ new) x := by
  rw [mem_addedAll_overwriting_iff, lasts_append_iff, lasts_iff_mem apart]

/-- Without overwriting an entry comes in, and stays, if none before it shares a name with it. -/
theorem mem_addedAll_of_apart_before {es before after : List Entry} {x : Entry}
    (apart : ∀ y ∈ es ++ before, ¬y.Shares x) : x ∈ addedAll false es (before ++ x :: after) := by
  have earlier : ∀ y ∈ addedAll false es before, ¬y.Shares x := fun y hy =>
    apart y (List.mem_append.mpr (mem_of_mem_addedAll hy))
  have step : addedAll false es (before ++ x :: after) =
      addedAll false (added (addedAll false es before) x false).1 after :=
    addedAll_append false es before (x :: after)
  have stays := prefix_addedAll (added (addedAll false es before) x false).1 after
  rw [step]
  rw [added_of_apart earlier] at stays ⊢
  exact stays.subset (List.mem_append_right _ List.mem_cons_self)

/-! ## Entries without conflicts -/

/-- Entries that share a name are the same. -/
def Consistent (es : List Entry) : Prop := ∀ x ∈ es, ∀ y ∈ es, x.Shares y → x = y

instance (es : List Entry) : Decidable (Consistent es) :=
  inferInstanceAs (Decidable (∀ x ∈ es, ∀ y ∈ es, x.Shares y → x = y))

theorem Consistent.of_subset {es es' : List Entry} (h : Consistent es) (sub : es' ⊆ es) : Consistent es' :=
  fun x hx y hy => h x (sub hx) y (sub hy)

theorem Consistent.append_of_subset {es new new' : List Entry} (h : Consistent (es ++ new)) (sub : new' ⊆ new) :
    Consistent (es ++ new') := by
  refine h.of_subset (List.append_subset.mpr ⟨List.subset_append_left es new, ?_⟩)
  exact fun _ hx => List.mem_append_right es (sub hx)

theorem mem_added_iff_of_alike {es : List Entry} {e x : Entry} (alike : ∀ y ∈ es, y.Shares e → y = e)
    (overwrite : Bool) : x ∈ (added es e overwrite).1 ↔ x ∈ es ∨ x = e := by
  cases overwrite with
  | false =>
    by_cases shared : ∃ y ∈ es, y.Shares e
    · obtain ⟨y, hy, shares⟩ := shared
      have mem : e ∈ es := alike y hy shares ▸ hy
      rw [added_of_shares ⟨y, hy, shares⟩]
      exact ⟨.inl, fun h => h.elim id fun is => is ▸ mem⟩
    · have apart : ∀ y ∈ es, ¬y.Shares e := fun y hy shares => shared ⟨y, hy, shares⟩
      rw [added_of_apart apart, List.mem_append, List.mem_singleton]
  | true =>
    rw [mem_added_overwriting_iff]
    constructor
    · rintro (is | ⟨hx, _⟩)
      · exact .inr is
      · exact .inl hx
    · rintro (hx | is)
      · by_cases shares : x.Shares e
        · exact .inl (alike x hx shares)
        · exact .inr ⟨hx, shares⟩
      · exact .inl is

/-- Where only equal entries share a name, all come in and stay, whatever may be overwritten. -/
theorem mem_addedAll_iff_of_consistent {es new : List Entry} (consistent : Consistent (es ++ new))
    (overwrite : Bool) {x : Entry} : x ∈ addedAll overwrite es new ↔ x ∈ es ∨ x ∈ new := by
  induction new generalizing es with
  | nil => simp [addedAll]
  | cons e new ih =>
    have last : e ∈ es ++ e :: new := List.mem_append_right es List.mem_cons_self
    have alike : ∀ y ∈ es, y.Shares e → y = e := fun y hy => consistent y (List.mem_append_left _ hy) e last
    have here : ∀ y, y ∈ (added es e overwrite).1 ↔ y ∈ es ∨ y = e := fun y =>
      mem_added_iff_of_alike alike overwrite
    have sub : (added es e overwrite).1 ++ new ⊆ es ++ e :: new := by
      intro y hy
      rw [List.mem_append, here] at hy
      rw [List.mem_append, List.mem_cons]
      rwa [or_assoc] at hy
    have rest := ih (consistent.of_subset sub)
    rw [here, or_assoc, ← List.mem_cons] at rest
    exact rest

/-! ## Tables -/

namespace Table

/-- The entries of a kind are told apart by their names, so that none of them is there twice. -/
theorem Sound.nodup_entries {t : Table} (h : t.Sound) (kind : Kind) : (t.entries kind).Nodup := by
  refine (h.pairwise_entries kind).imp fun {a b} apart same => apart ?_
  rw [same]
  exact .refl b

/-- After additions that may overwrite, the entries of a kind are those of the sequence of the old ones and the
new ones, each in the form that the table keeps, that share no name with a later one. That one need not be
there in the end itself. -/
theorem Reachable.overwriting_keeps_last {t : Table} (h : t.Reachable) (new : List (Kind × Entry)) (kind : Kind) :
    ((t.addAll true new).entries kind).Nodup ∧
    ∀ x, x ∈ (t.addAll true new).entries kind ↔
      Lasts (t.entries kind ++ (ofKind kind new).map (·.conform t.threeWay)) x := by
  have sound := h.sound
  refine ⟨(sound.addAll true new).nodup_entries kind, fun x => ?_⟩
  rw [sound.entries_addAll]
  exact mem_addedAll_overwriting_iff_lasts (sound.pairwise_entries kind)

/-- A method that one constructor takes the intermediate name of, before another one drives that out. -/
theorem overwriting_keeps_last_of_three :
    let t := ((empty true).addThreeWay .method ['a'] ['i'] ['x'] false).1
    let new := [(Kind.constructor, Entry.threeWay ['b'] ['i'] ['y']), (.field, .twoWay ['a'] ['x']),
      (.constructor, .twoWay ['c'] ['y'])]
    t.Reachable ∧ (t.addAll true new).entries .method = [.threeWay ['c'] ['y'] ['y']] ∧
      Entry.threeWay ['c'] ['y'] ['y'] ∈ (t.addAll true new).entries .method ∧
      ¬Lasts [.threeWay ['a'] ['i'] ['x'], .threeWay ['b'] ['i'] ['y'], .threeWay ['c'] ['y'] ['y']]
        (.threeWay ['a'] ['i'] ['x']) := by
  dsimp only
  have reachable := (Reachable.empty true).addThreeWay .method ['a'] ['i'] ['x'] false
  have last := (reachable.overwriting_keeps_last [(.constructor, .threeWay ['b'] ['i'] ['y']),
    (.field, .twoWay ['a'] ['x']), (.constructor, .twoWay ['c'] ['y'])] .method).2
  refine ⟨reachable, by decide +kernel, (last _).mpr ?_, fun lasts => ?_⟩
  · exact ⟨[.threeWay ['a'] ['i'] ['x'], .threeWay ['b'] ['i'] ['y']], [], by decide +kernel, by simp⟩
  · exact absurd ((last _).mpr lasts) (by decide +kernel)

end Table
end SymbolMap
