import SymbolMap.Proofs.Table.Run

/-!
Copies of whole tables, as additions to the lists of entries.

* `Sound.entries_copyInto`: for each kind a copy adds the entries of the source, in their order and in the form that
  the target keeps;
* `Sound.pairwise_conform_entries`: in whatever form, they share no names among themselves;
* `newcomers`, `addedAll_of_pairwise`: so without overwriting those come in that share no name with what was there;
* `Sound.copyInto_eq_self`: a copy whose entries all share a name with one of the target changes nothing;
* `Reachable.copyInto_appends`: the two together, for every copy that may not overwrite.
-/
namespace SymbolMap

/-- A fold of steps that change nothing. -/
theorem foldl_eq_self {α β : Type} {f : β → α → β} {xs : List α} {b : β} (still : ∀ x ∈ xs, f b x = b) :
    xs.foldl f b = b := by
  induction xs with
  | nil => rfl
  | cons x xs ih =>
    obtain ⟨first, others⟩ := List.forall_mem_cons.mp still
    rw [List.foldl_cons, first]
    exact ih others

namespace Register

/-- Additions to a register are additions to its list. -/
theorem toList_insertAll (overwrite : Bool) (es : List Entry) {r : Register} (h : r.Sound) :
    (Table.insertAll overwrite es r).toList = addedAll overwrite r.toList es := by
  induction es generalizing r with
  | nil => rfl
  | cons e es ih =>
    have rest := ih (h.insert e overwrite)
    rw [toList_insert h] at rest
    exact rest

/-- A register does not change if each entry that may not overwrite shares a name with one that is there. -/
theorem insertAll_eq_self {es : List Entry} {r : Register} (h : r.Sound)
    (shared : ∀ e ∈ es, ∃ x ∈ r.toList, x.Shares e) : Table.insertAll false es r = r := by
  refine foldl_eq_self fun e mem => ?_
  rw [insert_of_shares h (shared e mem)]
  rfl

end Register

/-! ## Entries in the form of another table -/

/-- Entries of one table that share a name in another form share one in their own. -/
theorem Entry.Shares.of_conform {threeWay : Bool} {a b : Entry}
    (alike : a.intermediate.isSome = b.intermediate.isSome)
    (h : (a.conform threeWay).Shares (b.conform threeWay)) : a.Shares b := by
  rcases h with obf | deobf | ⟨intermediate, named⟩
  · exact .inl obf
  · exact .inr (.inl deobf)
  · obtain ⟨obf, i, deobf⟩ := a
    obtain ⟨obf', i', deobf'⟩ := b
    cases threeWay with
    | false => exact absurd rfl named
    | true =>
      have same := Option.some.inj intermediate
      cases i with
      | none =>
        cases i' with
        | none => exact .inr (.inl same)
        | some _ => cases alike
      | some name =>
        cases i' with
        | none => cases alike
        | some _ => exact .inr (.inr ⟨congrArg some same, Option.some_ne_none name⟩)

/-- Those of the new entries that share no name with what is there. -/
def newcomers (es new : List Entry) : List Entry :=
  new.filter fun e => ∀ x ∈ es, ¬x.Shares e

theorem newcomers_cons (es new : List Entry) (e : Entry) :
    newcomers es (e :: new) = if ∃ x ∈ es, x.Shares e then newcomers es new else e :: newcomers es new := by
  unfold newcomers
  rw [List.filter_cons]
  by_cases shared : ∃ x ∈ es, x.Shares e
  · rw [if_pos shared, if_neg (by simpa using shared)]
  · rw [if_neg shared, if_pos (by simpa using shared)]

/-- An entry that has come in keeps none away that it shares no name with. -/
theorem newcomers_concat {es new : List Entry} {e : Entry} (apart : ∀ y ∈ new, ¬e.Shares y) :
    newcomers (es ++ [e]) new = newcomers es new := by
  refine List.filter_congr fun y hy => ?_
  simp [apart y hy, or_imp, forall_and]

/-- Without overwriting, of entries that share no names among themselves the newcomers come in. -/
theorem addedAll_of_pairwise {es new : List Entry} (apart : new.Pairwise fun a b => ¬a.Shares b) :
    addedAll false es new = es ++ newcomers es new := by
  induction new generalizing es with
  | nil => exact (List.append_nil es).symm
  | cons e new ih =>
    obtain ⟨first, others⟩ := List.pairwise_cons.mp apart
    have step : addedAll false es (e :: new) = addedAll false (added es e false).1 new := rfl
    rw [step, newcomers_cons]
    by_cases shared : ∃ x ∈ es, x.Shares e
    · rw [if_pos shared, added_of_shares shared, ih others]
    · have free : ∀ x ∈ es, ¬x.Shares e := fun x hx shares => shared ⟨x, hx, shares⟩
      rw [if_neg shared, added_of_apart free, ih others, newcomers_concat first, List.append_assoc,
        List.singleton_append]

namespace Table

/-! ## Copies -/

theorem Sound.entries_absorb {t : Table} (h : t.Sound) (kind : Kind) (r : Register) (overwrite : Bool) (k : Kind) :
    (t.absorb kind r overwrite).entries k =
      if k.base = kind.base then addedAll overwrite (t.entries k) (r.toList.map (·.conform t.threeWay))
      else t.entries k := by
  unfold Table.absorb Table.entries
  rw [register_update]
  split
  · next same =>
    have here : t.register k = t.register kind := by
      unfold register register?
      rw [same]
    rw [here]
    exact Register.toList_insertAll overwrite _ (h.sound_register kind)
  · rfl

@[simp] theorem threeWay_absorb (t : Table) (kind : Kind) (r : Register) (overwrite : Bool) :
    (t.absorb kind r overwrite).threeWay = t.threeWay := rfl

@[simp] theorem threeWay_copyInto (source target : Table) (overwrite : Bool) :
    (source.copyInto target overwrite).threeWay = target.threeWay := by
  unfold Table.copyInto
  induction source.registers generalizing target with
  | nil => rfl
  | cons first rest ih => exact ih (target.absorb first.1 first.2 overwrite)

/-- The registers of the source are of different kinds, so each kind is added to once at most. -/
theorem Sound.entries_foldl_absorb {registers : List (Kind × Register)} (overwrite : Bool) (k : Kind) {t : Table}
    (h : t.Sound) (kinds : (registers.map (·.1)).Nodup) (base : ∀ kind ∈ registers.map (·.1), kind.base = kind)
    (filled : ∀ kind r, (kind, r) ∈ registers → r.toList ≠ []) :
    (registers.foldl (fun t (kind, r) => t.absorb kind r overwrite) t).entries k =
      addedAll overwrite (t.entries k)
        (((registers.lookup k.base).getD {}).toList.map (·.conform t.threeWay)) := by
  induction registers generalizing t with
  | nil => rfl
  | cons first rest ih =>
    obtain ⟨kind, r⟩ := first
    obtain ⟨new, kinds⟩ := List.nodup_cons.mp kinds
    obtain ⟨isBase, base⟩ := List.forall_mem_cons.mp base
    have later := ih (h.absorb kind (filled kind r List.mem_cons_self) overwrite) kinds base
      fun kind r mem => filled kind r (List.mem_cons_of_mem _ mem)
    rw [h.entries_absorb, threeWay_absorb] at later
    rw [List.foldl_cons, lookup_cons_eq_ite]
    refine later.trans ?_
    by_cases same : k.base = kind.base
    · have none : rest.lookup k.base = none := by
        refine List.lookup_eq_none_iff.mpr fun p mem => bne_iff_ne.mpr fun eq => new ?_
        exact List.mem_map.mpr ⟨p, mem, eq.symm.trans (same.trans isBase)⟩
      rw [if_pos same, none, if_pos (same.trans isBase)]
      rfl
    · have other : ¬k.base = kind := fun eq => same (eq.trans isBase.symm)
      rw [if_neg same, if_neg other]

/-- A copy adds, for each kind, the entries that the source has of it. -/
theorem Sound.entries_copyInto {source target : Table} (hs : source.Sound) (ht : target.Sound) (overwrite : Bool)
    (k : Kind) :
    (source.copyInto target overwrite).entries k =
      addedAll overwrite (target.entries k) ((source.entries k).map (·.conform target.threeWay)) :=
  ht.entries_foldl_absorb overwrite k hs.kinds hs.base hs.filled

/-! ## Copies that may not overwrite -/

/-- In whatever form, the entries of a kind share no names. -/
theorem Sound.pairwise_conform_entries {t : Table} (h : t.Sound) (k : Kind) (threeWay : Bool) :
    ((t.entries k).map (·.conform threeWay)).Pairwise fun a b => ¬a.Shares b := by
  have named := (h.fits_register k).named
  refine List.pairwise_map.mpr ((h.pairwise_entries k).imp_of_mem fun {a b} ha hb apart shares => apart ?_)
  exact .of_conform ((named a ha).trans (named b hb).symm) shares

theorem updateIn_eq_self {kind : Kind} {f : Register → Register} {registers : List (Kind × Register)} {r : Register}
    (found : registers.lookup kind = some r) (same : f r = r) :
    (updateIn kind (fun r => (f r, ())) registers).1 = registers := by
  induction registers with
  | nil => cases found
  | cons first rest ih =>
    obtain ⟨k, r'⟩ := first
    rw [lookup_cons_eq_ite] at found
    unfold updateIn
    by_cases here : k = kind
    · rw [if_pos here.symm] at found
      rw [if_pos here, Option.some.inj found, same]
    · have other : ¬kind = k := fun eq => here eq.symm
      rw [if_neg other] at found
      rw [if_neg here]
      exact congrArg ((k, r') :: ·) (ih found)

theorem Sound.entries_of_mem {t : Table} (h : t.Sound) {kind : Kind} {r : Register}
    (mem : (kind, r) ∈ t.registers) : t.entries kind = r.toList := by
  obtain ⟨before, after, is⟩ := List.append_of_mem mem
  have kinds := h.kinds
  unfold Table.kinds at kinds
  rw [is, List.map_append, List.map_cons] at kinds
  have found : t.register? kind = some r := by
    unfold register?
    rw [h.base kind (mem_kinds_of_mem_registers mem)]
    refine List.lookup_eq_some_iff.mpr ⟨before, after, is, fun p hp => bne_iff_ne.mpr fun same => ?_⟩
    exact (List.nodup_append.mp kinds).2.2 p.1 (List.mem_map_of_mem hp) kind List.mem_cons_self same.symm
  unfold Table.entries register
  rw [found]
  rfl

/-- A table does not change if each entry that may not overwrite shares a name with one that is there. -/
theorem Sound.absorb_eq_self {t : Table} (h : t.Sound) {kind : Kind} {r : Register} (filled : r.toList ≠ [])
    (shared : ∀ e ∈ r.toList, ∃ x ∈ t.entries kind, x.Shares (e.conform t.threeWay)) :
    t.absorb kind r false = t := by
  obtain ⟨e, mem⟩ := List.exists_mem_of_ne_nil _ filled
  obtain ⟨x, hx, _⟩ := shared e mem
  have found : t.register? kind = some (t.register kind) := by
    rw [h.register?_eq, if_neg (List.ne_nil_of_mem hx)]
  have same : insertAll false (r.toList.map (·.conform t.threeWay)) (t.register kind) = t.register kind :=
    Register.insertAll_eq_self (h.sound_register kind) (List.forall_mem_map.mpr shared)
  exact congrArg (Table.mk t.threeWay) (updateIn_eq_self found same)

/-- Nor does it by a copy, if that is so for all entries of the source. -/
theorem Sound.copyInto_eq_self {source target : Table} (hs : source.Sound) (ht : target.Sound)
    (shared : ∀ kind, ∀ e ∈ source.entries kind, ∃ x ∈ target.entries kind, x.Shares (e.conform target.threeWay)) :
    source.copyInto target false = target := by
  unfold Table.copyInto
  refine foldl_eq_self fun (kind, r) mem => ?_
  have here := shared kind
  rw [hs.entries_of_mem mem] at here
  exact ht.absorb_eq_self (hs.filled kind r mem) here

/-- After a copy that may not overwrite, the entries of each kind are those that were there, and behind them, in
the order of the source, those entries of the source that share no name with one of the former. To copy once more
changes nothing at all. -/
theorem Reachable.copyInto_appends {source target : Table} (hs : source.Reachable) (ht : target.Reachable) :
    let after := source.copyInto target false
    after.threeWay = target.threeWay ∧
    (∀ kind, after.entries kind = target.entries kind ++
      newcomers (target.entries kind) ((source.entries kind).map (·.conform target.threeWay))) ∧
    source.copyInto after false = after := by
  have copied := hs.sound.entries_copyInto ht.sound false
  dsimp only
  refine ⟨threeWay_copyInto source target false, fun kind => ?_, ?_⟩
  · rw [copied]
    exact addedAll_of_pairwise (hs.sound.pairwise_conform_entries kind target.threeWay)
  · -- Each entry has come in, or was kept out by one that is still there.
    refine hs.sound.copyInto_eq_self (hs.sound.copyInto ht.sound false) fun kind e mem => ?_
    rw [copied, threeWay_copyInto]
    exact exists_shares_addedAll (List.mem_map_of_mem mem)

/-- Two fields without intermediate names, of which the first one's readable name is an intermediate name
elsewhere. -/
def readableFields : Table :=
  (((empty false).addTwoWay .field ['a'] ['i'] false).1.addTwoWay .field ['b'] ['y'] false).1

/-- A field that has the intermediate name. -/
def namedField : Table := ((empty true).addThreeWay .field ['c'] ['i'] ['x'] false).1

/-- The first field is kept out in a three-way table, and both come in where there are no intermediate names. -/
theorem copyInto_appends_readableFields :
    readableFields.Reachable ∧ namedField.Reachable ∧
    (readableFields.copyInto namedField false).entries .field =
      [.threeWay ['c'] ['i'] ['x']] ++ newcomers [.threeWay ['c'] ['i'] ['x']]
        [.threeWay ['a'] ['i'] ['i'], .threeWay ['b'] ['y'] ['y']] ∧
    newcomers [.threeWay ['c'] ['i'] ['x']] [.threeWay ['a'] ['i'] ['i'], .threeWay ['b'] ['y'] ['y']] =
      [.threeWay ['b'] ['y'] ['y']] ∧
    (namedField.copyInto readableFields false).entries .field =
      [.twoWay ['a'] ['i'], .twoWay ['b'] ['y'], .twoWay ['c'] ['x']] := by
  have readable : readableFields.Reachable := ((Reachable.empty false).addTwoWay ..).addTwoWay ..
  have named : namedField.Reachable := (Reachable.empty true).addThreeWay ..
  have forth := (readable.copyInto_appends named).2.1 .field
  have back := (named.copyInto_appends readable).2.1 .field
  refine ⟨readable, named, forth, by decide, back.trans ?_⟩
  decide +kernel

end Table
end SymbolMap
