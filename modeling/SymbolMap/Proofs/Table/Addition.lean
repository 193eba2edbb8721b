import SymbolMap.Proofs.Table.Reachable

/-!
An addition to a table, as an operation on the lists of its entries.

* `Sound.entries_add`: it is `added` for the entries of the kind, and leaves the others alone;
* `added_of_apart`, `added_of_shares`, `added_overwriting`: what that is in each case;
* `placed_of_new`, `placed_append_cons`: where an entry goes that may take the place of others;
* `Reachable.add_refines_list`: the cases together, for every reachable table.
-/
namespace SymbolMap

section
variable {es : List Entry} {e : Entry}

/-- The entries that are left when `e` takes the place of those that share a name with it. -/
def apartFrom (es : List Entry) (e : Entry) : List Entry :=
  es.filter fun x => ¬x.Shares e

theorem added_of_apart (apart : ∀ x ∈ es, ¬x.Shares e) (overwrite : Bool) :
    added es e overwrite = (es ++ [e], true) :=
  if_neg fun ⟨x, hx, shared⟩ => apart x hx shared

theorem added_of_shares (shared : ∃ x ∈ es, x.Shares e) : added es e false = (es, false) :=
  if_pos shared

theorem placed_of_new (new : ∀ x ∈ es, x.obf ≠ e.obf) : placed es e = es ++ [e] :=
  if_neg fun ⟨x, hx, same⟩ => new x hx same

/-- An entry that may overwrite always comes in. Of those that share a name with it at most the one with
its obfuscated name is still there, to be replaced. -/
theorem added_overwriting :
    added es e true = (placed (es.filter fun x => x.obf = e.obf ∨ ¬x.Shares e) e, true) := by
  by_cases shared : ∃ x ∈ es, x.Shares e
  · exact if_pos shared
  · have apart : ∀ x ∈ es, ¬x.Shares e := fun x hx s => shared ⟨x, hx, s⟩
    have all : (es.filter fun x => x.obf = e.obf ∨ ¬x.Shares e) = es :=
      List.filter_eq_self.mpr fun x hx => decide_eq_true (.inr (apart x hx))
    rw [added_of_apart apart, all, placed_of_new fun x hx same => apart x hx (.inl same)]

theorem filter_eq_apartFrom (new : ∀ x ∈ es, x.obf ≠ e.obf) :
    (es.filter fun x => x.obf = e.obf ∨ ¬x.Shares e) = apartFrom es e :=
  List.filter_congr fun x hx => by simp [new x hx]

theorem map_replace_eq_self (new : ∀ x ∈ es, x.obf ≠ e.obf) :
    (es.map fun x => if x.obf = e.obf then e else x) = es :=
  (List.map_congr_left fun x hx => if_neg (new x hx)).trans (List.map_id' es)

/-- An entry that replaces another one stands where that stood. -/
theorem placed_append_cons {before after : List Entry} {old : Entry} (same : old.obf = e.obf)
    (hb : ∀ x ∈ before, x.obf ≠ e.obf) (ha : ∀ x ∈ after, x.obf ≠ e.obf) :
    placed (before ++ old :: after) e = before ++ e :: after := by
  unfold placed
  rw [if_pos ⟨old, by simp, same⟩, List.map_append, List.map_cons, if_pos same,
    map_replace_eq_self hb, map_replace_eq_self ha]

theorem added_overwriting_of_new (new : ∀ x ∈ es, x.obf ≠ e.obf) :
    added es e true = (apartFrom es e ++ [e], true) := by
  have left : ∀ x ∈ apartFrom es e, x.obf ≠ e.obf :=
    fun x hx => new x (List.mem_filter.mp hx).1
  rw [added_overwriting, filter_eq_apartFrom new, placed_of_new left]

theorem added_overwriting_at {before after : List Entry} {old : Entry} (same : old.obf = e.obf)
    (hb : ∀ x ∈ before, x.obf ≠ e.obf) (ha : ∀ x ∈ after, x.obf ≠ e.obf) :
    added (before ++ old :: after) e true =
      (apartFrom before e ++ e :: apartFrom after e, true) := by
  rw [added_overwriting, List.filter_append, List.filter_cons_of_pos (by simp [same]),
    filter_eq_apartFrom hb, filter_eq_apartFrom ha]
  have left : ∀ xs : List Entry, (∀ x ∈ xs, x.obf ≠ e.obf) →
      ∀ x ∈ apartFrom xs e, x.obf ≠ e.obf :=
    fun xs other x hx => other x (List.mem_filter.mp hx).1
  rw [placed_append_cons same (left before hb) (left after ha)]

end

namespace Table

variable {t : Table}

theorem Sound.entries_add (h : t.Sound) (kind : Kind) (e : Entry) (overwrite : Bool) (k : Kind) :
    (t.add kind e overwrite).1.entries k =
      if k.base = kind.base then
        (added (t.entries kind) (e.conform t.threeWay) overwrite).1
      else t.entries k := by
  unfold Table.add Table.entries
  rw [register_update]
  split
  · exact Register.toList_insert (h.sound_register kind) _ overwrite
  · rfl

theorem Sound.entries_add_of_ne (h : t.Sound) {kind k : Kind} (other : kind.base ≠ k.base) (e : Entry)
    (overwrite : Bool) : (t.add kind e overwrite).1.entries k = t.entries k := by
  rw [h.entries_add]
  exact if_neg other.symm

theorem Sound.snd_add (h : t.Sound) (kind : Kind) (e : Entry) (overwrite : Bool) :
    (t.add kind e overwrite).2 =
      (added (t.entries kind) (e.conform t.threeWay) overwrite).2 := by
  unfold Table.add
  rw [snd_update]
  exact Register.snd_insert (h.sound_register kind) _ overwrite

/-- Of the entries of a kind no other one has the obfuscated name of a given one. -/
theorem Sound.obf_ne_of_split (h : t.Sound) {kind : Kind} {before after : List Entry} {old : Entry}
    (is : t.entries kind = before ++ old :: after) :
    (∀ x ∈ before, x.obf ≠ old.obf) ∧ ∀ x ∈ after, x.obf ≠ old.obf := by
  have nodup := (h.sound_register kind).nodup
  change ((t.entries kind).map (·.obf)).Nodup at nodup
  rw [is, List.map_append, List.map_cons] at nodup
  obtain ⟨_, right, apart⟩ := List.nodup_append.mp nodup
  have fresh := (List.nodup_cons.mp right).1
  constructor
  · intro x hx
    exact apart x.obf (List.mem_map_of_mem hx) old.obf List.mem_cons_self
  · intro x hx same
    exact fresh (same ▸ List.mem_map_of_mem hx)

/-- An addition that may not overwrite is refused if it shares a name with an entry, and comes last if it
does not. One that may overwrite comes in the place of the entry with its obfuscated name, or else last,
and all that share another name with it go. Other kinds stay as they are. -/
theorem Reachable.add_refines_list (h : t.Reachable) (kind : Kind) (e : Entry) (overwrite : Bool) :
    let new := e.conform t.threeWay
    let es := t.entries kind
    let after := (t.add kind e overwrite).1
    let changed := (t.add kind e overwrite).2
    (overwrite = false → (∃ x ∈ es, x.Shares new) →
      changed = false ∧ ∀ k, after.entries k = t.entries k) ∧
    (overwrite = false → (∀ x ∈ es, ¬x.Shares new) →
      changed = true ∧ after.entries kind = es ++ [new]) ∧
    (overwrite = true → changed = true ∧
      ((∀ x ∈ es, x.obf ≠ new.obf) → after.entries kind = apartFrom es new ++ [new]) ∧
      ∀ left old right, es = left ++ old :: right → old.obf = new.obf →
        after.entries kind = apartFrom left new ++ new :: apartFrom right new) ∧
    ∀ k, k.base ≠ kind.base → after.entries k = t.entries k := by
  have sound := h.sound
  dsimp only
  simp only [sound.entries_add, sound.snd_add, if_true]
  refine ⟨?_, ?_, ?_, fun k other => if_neg other⟩
  · rintro rfl shared
    rw [added_of_shares shared]
    refine ⟨rfl, fun k => ?_⟩
    split
    · next same => exact (t.entries_congr same).symm
    · rfl
  · rintro rfl apart
    rw [added_of_apart apart]
    exact ⟨rfl, rfl⟩
  · rintro rfl
    refine ⟨by rw [added_overwriting], fun new => ?_, fun left old right is same => ?_⟩
    · rw [added_overwriting_of_new new]
    · obtain ⟨hl, hr⟩ := sound.obf_ne_of_split is
      rw [same] at hl hr
      rw [is, added_overwriting_at same hl hr]

/-- An entry with the names of three others takes the place of the second, and the fourth stays. -/
theorem add_refines_list_with_three_holders :
    let first := ((empty true).addThreeWay .field ['a'] ['i'] ['x'] false).1
    let second := (first.addThreeWay .field ['b'] ['j'] ['y'] false).1
    let third := (second.addThreeWay .field ['c'] ['k'] ['z'] false).1
    let t := (third.addThreeWay .field ['d'] ['l'] ['w'] false).1
    t.Reachable ∧ (t.add .field (.threeWay ['b'] ['i'] ['z']) true).1.entries .field =
      [.threeWay ['b'] ['i'] ['z'], .threeWay ['d'] ['l'] ['w']] := by
  dsimp only
  have reachable := (((Reachable.empty true).addThreeWay .field ['a'] ['i'] ['x'] false
    |>.addThreeWay .field ['b'] ['j'] ['y'] false).addThreeWay .field ['c'] ['k'] ['z'] false
    ).addThreeWay .field ['d'] ['l'] ['w'] false
  have refined := reachable.add_refines_list .field (.threeWay ['b'] ['i'] ['z']) true
  refine ⟨reachable, (refined.2.2.1 rfl).2.2 [.threeWay ['a'] ['i'] ['x']]
    (.threeWay ['b'] ['j'] ['y']) [.threeWay ['c'] ['k'] ['z'], .threeWay ['d'] ['l'] ['w']]
    (by decide +kernel) (by decide)⟩

end Table
end SymbolMap
