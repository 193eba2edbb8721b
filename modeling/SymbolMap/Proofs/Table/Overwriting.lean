import SymbolMap.Proofs.Table.Copying
import SymbolMap.Proofs.Table.Staying

/-!
Copies of whole tables that may overwrite.

* `added_overwriting_of_mem`, `addedAll_overwriting_of_subset`: entries that are there already take their own places;
* `Sound.mem_entries_copyInto_overwriting`: the entries of the source last, and of the others those that share no
  name with one of them;
* `Sound.kinds_copyInto_of_subset`: a copy of kinds that are there starts no others;
* `Reachable.copyInto_overwrites`: what there is after a copy, and that a second one changes nothing.
-/
namespace SymbolMap

theorem apartFrom_eq_self {es : List Entry} {e : Entry} (apart : ∀ x ∈ es, ¬x.Shares e) : apartFrom es e = es :=
  List.filter_eq_self.mpr fun x hx => decide_eq_true (apart x hx)

/-- An entry that is there already takes its own place and drives nothing out. -/
theorem added_overwriting_of_mem {es : List Entry} {e : Entry} (apart : es.Pairwise fun a b => ¬a.Shares b)
    (mem : e ∈ es) : (added es e true).1 = es := by
  obtain ⟨before, after, rfl⟩ := List.append_of_mem mem
  obtain ⟨_, later, earlier⟩ := List.pairwise_append.mp apart
  have hb : ∀ x ∈ before, ¬x.Shares e := fun x hx => earlier x hx e List.mem_cons_self
  have ha : ∀ x ∈ after, ¬x.Shares e := fun x hx shares => (List.pairwise_cons.mp later).1 x hx shares.symm
  rw [added_overwriting_at rfl (fun x hx same => hb x hx (.inl same)) fun x hx same => ha x hx (.inl same),
    apartFrom_eq_self hb, apartFrom_eq_self ha]

theorem addedAll_overwriting_of_subset {es new : List Entry} (apart : es.Pairwise fun a b => ¬a.Shares b)
    (sub : new ⊆ es) : addedAll true es new = es :=
  foldl_eq_self fun _ mem => added_overwriting_of_mem apart (sub mem)

namespace Table

/-- No entry that is copied drives out another one, and each drives out what shares a name with it. -/
theorem Sound.mem_entries_copyInto_overwriting {source target : Table} (hs : source.Sound) (ht : target.Sound)
    (kind : Kind) (x : Entry) :
    x ∈ (source.copyInto target true).entries kind ↔
      x ∈ (source.entries kind).map (·.conform target.threeWay) ∨
      x ∈ target.entries kind ∧ ∀ y ∈ (source.entries kind).map (·.conform target.threeWay), ¬x.Shares y := by
  rw [hs.entries_copyInto ht, mem_addedAll_overwriting_iff,
    lasts_iff_mem (hs.pairwise_conform_entries kind target.threeWay)]
  exact or_comm

theorem kinds_foldl_absorb {registers : List (Kind × Register)} {t : Table} (overwrite : Bool)
    (known : ∀ kind ∈ registers.map (·.1), kind.base ∈ t.kinds) :
    (registers.foldl (fun t (kind, r) => t.absorb kind r overwrite) t).kinds = t.kinds := by
  induction registers generalizing t with
  | nil => rfl
  | cons first rest ih =>
    obtain ⟨here, later⟩ := List.forall_mem_cons.mp known
    have same : (t.absorb first.1 first.2 overwrite).kinds = t.kinds := by
      unfold Table.absorb
      rw [kinds_update, if_pos here]
    rw [List.foldl_cons]
    exact (ih (same ▸ later)).trans same

/-- A copy of kinds that are there starts no others. -/
theorem Sound.kinds_copyInto_of_subset {source target : Table} (hs : source.Sound) (overwrite : Bool)
    (known : source.kinds ⊆ target.kinds) : (source.copyInto target overwrite).kinds = target.kinds := by
  refine kinds_foldl_absorb overwrite fun kind mem => ?_
  rw [hs.base kind mem]
  exact known mem

/-- Every kind of the source is there after a copy. -/
theorem Sound.kinds_subset_copyInto {source target : Table} (hs : source.Sound) (ht : target.Sound) :
    source.kinds ⊆ (source.copyInto target true).kinds := by
  intro kind mem
  obtain ⟨base, filled⟩ := hs.mem_kinds_iff.mp mem
  obtain ⟨e, he⟩ := List.exists_mem_of_ne_nil _ filled
  have copied := (hs.mem_entries_copyInto_overwriting ht kind _).mpr (.inl (List.mem_map_of_mem he))
  exact (hs.copyInto ht true).mem_kinds_iff.mpr ⟨base, List.ne_nil_of_mem copied⟩

/-- After a copy that may overwrite, the entries of each kind are those of the source, in the form that the target
keeps, and of those that were there the ones that share no name with any of them. To copy once more leaves the
kinds and the entries of each kind in their order. -/
theorem Reachable.copyInto_overwrites {source target : Table} (hs : source.Reachable) (ht : target.Reachable) :
    let after := source.copyInto target true
    after.threeWay = target.threeWay ∧
    (∀ kind, (after.entries kind).Nodup ∧ ∀ x, x ∈ after.entries kind ↔
      x ∈ (source.entries kind).map (·.conform target.threeWay) ∨
      x ∈ target.entries kind ∧ ∀ y ∈ (source.entries kind).map (·.conform target.threeWay), ¬x.Shares y) ∧
    (source.copyInto after true).kinds = after.kinds ∧
    ∀ kind, (source.copyInto after true).entries kind = after.entries kind := by
  have sound := hs.sound.copyInto ht.sound true
  have members := hs.sound.mem_entries_copyInto_overwriting ht.sound
  refine ⟨threeWay_copyInto source target true, fun kind => ⟨sound.nodup_entries kind, members kind⟩, ?_,
    fun kind => ?_⟩
  · exact hs.sound.kinds_copyInto_of_subset true (hs.sound.kinds_subset_copyInto ht.sound)
  · -- Whatever is copied is there already, in the form of the same table.
    rw [hs.sound.entries_copyInto sound, threeWay_copyInto]
    exact addedAll_overwriting_of_subset (sound.pairwise_entries kind) fun x hx => (members kind x).mpr (.inl hx)

/-- Fields of which the first holds an obfuscated name, the second an intermediate name and the third neither. -/
def namedFields : Table :=
  (((empty true).addThreeWay .field ['a'] ['j'] ['x'] false).1.addThreeWay .field ['c'] ['i'] ['z'] false
    ).1.addThreeWay .field ['d'] ['k'] ['w'] false |>.1

/-- The first of the readable fields takes the place of the first of the named ones and drives out the second. -/
theorem copyInto_overwrites_namedFields :
    readableFields.Reachable ∧ namedFields.Reachable ∧
    (readableFields.copyInto namedFields true).entries .field =
      [.threeWay ['a'] ['i'] ['i'], .threeWay ['d'] ['k'] ['w'], .threeWay ['b'] ['y'] ['y']] ∧
    (readableFields.copyInto (readableFields.copyInto namedFields true) true).entries .field =
      (readableFields.copyInto namedFields true).entries .field ∧
    Entry.threeWay ['c'] ['i'] ['z'] ∉ (readableFields.copyInto namedFields true).entries .field := by
  have readable : readableFields.Reachable := ((Reachable.empty false).addTwoWay ..).addTwoWay ..
  have named : namedFields.Reachable := (((Reachable.empty true).addThreeWay ..).addThreeWay ..).addThreeWay ..
  obtain ⟨_, members, _, again⟩ := readable.copyInto_overwrites named
  refine ⟨readable, named, by decide +kernel, again .field, fun mem => ?_⟩
  rcases (members .field).2 _ |>.mp mem with copied | ⟨_, apart⟩
  · exact absurd copied (by decide +kernel)
  · exact apart (.threeWay ['a'] ['i'] ['i']) (by decide +kernel) (by decide)

end Table
end SymbolMap
