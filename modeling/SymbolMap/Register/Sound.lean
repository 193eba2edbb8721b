import SymbolMap.Register.Basic

/-! Registers whose indexes agree with their entries. `Sound.insert` says that an addition keeps them so,
and `insert_eq_added` what it does to the list of the entries. -/
namespace SymbolMap

/-- The list with `e` in the place of the entry with its obfuscated name, or else at the end. -/
def placed (es : List Entry) (e : Entry) : List Entry :=
  if ∃ x ∈ es, x.obf = e.obf then es.map fun x => if x.obf = e.obf then e else x
  else es ++ [e]

theorem mem_placed {es : List Entry} {e x : Entry} :
    x ∈ placed es e ↔ x = e ∨ (x ∈ es ∧ x.obf ≠ e.obf) := by
  unfold placed
  split
  · next has =>
    obtain ⟨y, hy, same⟩ := has
    rw [List.mem_map]
    constructor
    · rintro ⟨z, hz, rfl⟩
      split
      · exact .inl rfl
      · next other => exact .inr ⟨hz, other⟩
    · rintro (rfl | ⟨hx, other⟩)
      · exact ⟨y, hy, if_pos same⟩
      · exact ⟨x, hx, if_neg other⟩
  · next no =>
    rw [List.mem_append, List.mem_singleton]
    constructor
    · rintro (hx | rfl)
      · exact .inr ⟨hx, fun same => no ⟨x, hx, same⟩⟩
      · exact .inl rfl
    · rintro (rfl | ⟨hx, _⟩)
      · exact .inr rfl
      · exact .inl hx

theorem map_obf_placed (es : List Entry) (e : Entry) :
    (placed es e).map (·.obf) =
      if ∃ x ∈ es, x.obf = e.obf then es.map (·.obf) else es.map (·.obf) ++ [e.obf] := by
  unfold placed
  split
  · rw [List.map_map]
    refine List.map_congr_left fun x _ => ?_
    simp only [Function.comp_apply]
    split <;> simp_all
  · simp

/-- An addition to a list of entries. It is refused if the entry shares a name with one of them, unless
the entry may take the place of all of those. -/
def added (es : List Entry) (e : Entry) (overwrite : Bool) : List Entry × Bool :=
  if ∃ x ∈ es, x.Shares e then
    if overwrite then (placed (es.filter fun x => x.obf = e.obf ∨ ¬x.Shares e) e, true)
    else (es, false)
  else (es ++ [e], true)

/-! ## Indexes -/

namespace NameIndex

theorem getElem?_remove (index : NameIndex) (removed : Option Text) (name : Text) :
    (index.remove removed)[name]? = if removed = some name then none else index[name]? := by
  cases removed <;> simp [remove, Std.TreeMap.getElem?_erase]

theorem getElem?_add (index : NameIndex) (new : Option Text) (obf name : Text) :
    (index.add new obf)[name]? = if new = some name then some obf else index[name]? := by
  cases new <;> simp [add, Std.TreeMap.getElem?_insert]

/-- The index has the names that `key` gives to the entries, and no other ones. -/
def Leads (index : NameIndex) (key : Entry → Option Text) (es : List Entry) : Prop :=
  ∀ name obf, index[name]? = some obf ↔ ∃ e ∈ es, key e = some name ∧ e.obf = obf

variable {index : NameIndex} {key : Entry → Option Text} {es : List Entry}

theorem Leads.obf_eq (h : index.Leads key es) {a b : Entry} {name : Text} (ha : a ∈ es)
    (hb : b ∈ es) (na : key a = some name) (nb : key b = some name) : a.obf = b.obf := by
  have first := (h name a.obf).2 ⟨a, ha, na, rfl⟩
  have second := (h name b.obf).2 ⟨b, hb, nb, rfl⟩
  exact Option.some.inj (first.symm.trans second)

/-- Without the name of an entry the index leads to the others. -/
theorem Leads.remove (h : index.Leads key es) {old : Entry} (mem : old ∈ es)
    (alone : ∀ x ∈ es, x.obf = old.obf → x = old) :
    (index.remove (key old)).Leads key (es.filter (·.obf != old.obf)) := by
  intro name obf
  rw [getElem?_remove]
  by_cases same : key old = some name
  · rw [if_pos same]
    refine ⟨nofun, fun ⟨x, hx, is, _⟩ => ?_⟩
    obtain ⟨hx, other⟩ := List.mem_filter.1 hx
    exact absurd (h.obf_eq hx mem is same) (bne_iff_ne.1 other)
  · rw [if_neg same, h]
    constructor
    · rintro ⟨x, hx, is, filed⟩
      refine ⟨x, List.mem_filter.2 ⟨hx, bne_iff_ne.2 fun eq => same ?_⟩, is, filed⟩
      rw [← alone x hx eq, is]
    · rintro ⟨x, hx, rest⟩
      exact ⟨x, (List.mem_filter.1 hx).1, rest⟩

/-- With the name of an entry the index leads to it in place of the one with its obfuscated name. -/
theorem Leads.add {e : Entry} (h : index.Leads key (es.filter (·.obf != e.obf)))
    (apart : ∀ x ∈ es, ∀ name, key x = some name → key e = some name → x.obf = e.obf) :
    (index.add (key e) e.obf).Leads key (placed es e) := by
  intro name obf
  rw [getElem?_add]
  by_cases same : key e = some name
  · rw [if_pos same]
    constructor
    · intro is
      cases is
      exact ⟨e, mem_placed.2 (.inl rfl), same, rfl⟩
    · rintro ⟨x, hx, is, rfl⟩
      rcases mem_placed.1 hx with rfl | ⟨hx, other⟩
      · rfl
      · exact absurd (apart x hx name is same) other
  · rw [if_neg same, h]
    constructor
    · rintro ⟨x, hx, rest⟩
      obtain ⟨hx, other⟩ := List.mem_filter.1 hx
      exact ⟨x, mem_placed.2 (.inr ⟨hx, bne_iff_ne.1 other⟩), rest⟩
    · rintro ⟨x, hx, is, filed⟩
      rcases mem_placed.1 hx with rfl | ⟨hx, other⟩
      · exact absurd is same
      · exact ⟨x, List.mem_filter.2 ⟨hx, bne_iff_ne.2 other⟩, is, filed⟩

end NameIndex

namespace Register

variable {r : Register}

/-- The indexes lead to the entries and nowhere else. -/
structure Sound (r : Register) : Prop where
  nodup : (r.toList.map (·.obf)).Nodup
  obf : ∀ obf e, r.byObf[obf]? = some e ↔ e ∈ r.toList ∧ e.obf = obf
  deobf : r.obfOfDeobf.Leads (some ·.deobf) r.toList
  intermediate : r.obfOfIntermediate.Leads (·.intermediate) r.toList

theorem sound_empty : Sound {} where
  nodup := by simp [toList]
  obf := by simp [toList]
  deobf := by simp [toList, NameIndex.Leads]
  intermediate := by simp [toList, NameIndex.Leads]

namespace Sound

theorem eq_of_obf (h : r.Sound) {a b : Entry} (ha : a ∈ r.toList) (hb : b ∈ r.toList)
    (same : a.obf = b.obf) : a = b := by
  have first := (h.obf b.obf a).2 ⟨ha, same⟩
  have second := (h.obf b.obf b).2 ⟨hb, rfl⟩
  exact Option.some.inj (first.symm.trans second)

/-- No two entries share a name. -/
theorem eq_of_shares (h : r.Sound) {a b : Entry} (ha : a ∈ r.toList) (hb : b ∈ r.toList)
    (shared : a.Shares b) : a = b := by
  refine h.eq_of_obf ha hb ?_
  rcases shared with same | same | ⟨same, named⟩
  · exact same
  · exact h.deobf.obf_eq ha hb rfl (congrArg some same.symm)
  · obtain ⟨name, is⟩ := Option.ne_none_iff_exists'.1 named
    exact h.intermediate.obf_eq ha hb is (same ▸ is)

theorem findObf?_eq_some_iff (h : r.Sound) {obf : Text} {e : Entry} :
    r.findObf? obf = some e ↔ e ∈ r.toList ∧ e.obf = obf :=
  h.obf obf e

theorem find?_eq_some_iff (h : r.Sound) {index : NameIndex} {key : Entry → Option Text}
    (leads : index.Leads key r.toList) {name : Text} {e : Entry} :
    index[name]?.bind r.findObf? = some e ↔ e ∈ r.toList ∧ key e = some name := by
  rw [Option.bind_eq_some_iff]
  constructor
  · rintro ⟨obf, indexed, filed⟩
    obtain ⟨x, hx, is, rfl⟩ := (leads name obf).1 indexed
    obtain ⟨he, same⟩ := h.findObf?_eq_some_iff.1 filed
    exact ⟨he, h.eq_of_obf hx he same.symm ▸ is⟩
  · rintro ⟨he, is⟩
    exact ⟨e.obf, (leads name e.obf).2 ⟨e, he, is, rfl⟩, h.findObf?_eq_some_iff.2 ⟨he, rfl⟩⟩

theorem findDeobf?_eq_some_iff (h : r.Sound) {deobf : Text} {e : Entry} :
    r.findDeobf? deobf = some e ↔ e ∈ r.toList ∧ e.deobf = deobf := by
  rw [findDeobf?, h.find?_eq_some_iff h.deobf, Option.some.injEq]

theorem findIntermediate?_eq_some_iff (h : r.Sound) {name : Text} {e : Entry} :
    r.findIntermediate? name = some e ↔ e ∈ r.toList ∧ e.intermediate = some name :=
  h.find?_eq_some_iff h.intermediate

/-- The holders of the names of `e` are the entries that share a name with it. -/
theorem mem_holders (h : r.Sound) {e : Entry} {obf : Text} :
    obf ∈ r.holders e ↔ ∃ x ∈ r.toList, x.Shares e ∧ x.obf = obf := by
  simp only [holders, List.mem_append, Option.mem_toList, Option.map_eq_some_iff, h.obf,
    h.deobf _ obf, Option.bind_eq_some_iff, h.intermediate _ obf, Entry.Shares]
  constructor
  · rintro ((⟨x, ⟨hx, same⟩, rfl⟩ | ⟨x, hx, same, rfl⟩) | ⟨name, is, x, hx, same, rfl⟩)
    · exact ⟨x, hx, .inl same, rfl⟩
    · exact ⟨x, hx, .inr (.inl (Option.some.inj same)), rfl⟩
    · exact ⟨x, hx, .inr (.inr ⟨same.trans is.symm, by simp [same]⟩), rfl⟩
  · rintro ⟨x, hx, same | same | ⟨same, named⟩, rfl⟩
    · exact .inl (.inl ⟨x, ⟨hx, same⟩, rfl⟩)
    · exact .inl (.inr ⟨x, hx, congrArg some same, rfl⟩)
    · obtain ⟨name, is⟩ := Option.ne_none_iff_exists'.1 named
      exact .inr ⟨name, same ▸ is, x, hx, is, rfl⟩

theorem holders_eq_nil_iff (h : r.Sound) (e : Entry) :
    r.holders e = [] ↔ ¬∃ x ∈ r.toList, x.Shares e := by
  rw [List.eq_nil_iff_forall_not_mem]
  constructor
  · rintro none ⟨x, hx, shared⟩
    exact none x.obf (h.mem_holders.2 ⟨x, hx, shared, rfl⟩)
  · intro apart obf held
    obtain ⟨x, hx, shared, _⟩ := h.mem_holders.1 held
    exact apart ⟨x, hx, shared⟩

theorem filter_eq_self (h : r.Sound) {obf : Text} (none : r.findObf? obf = none) :
    r.toList.filter (·.obf != obf) = r.toList := by
  refine List.filter_eq_self.2 fun x hx => bne_iff_ne.2 ?_
  rintro rfl
  rw [h.findObf?_eq_some_iff.2 ⟨hx, rfl⟩] at none
  cases none

end Sound

/-! ## Entries that are taken out -/

theorem evict_of_findObf? {obf : Text} {old : Entry} (found : r.findObf? obf = some old) :
    r.evict obf = { r.unlink old with
      entries := r.entries.filter (·.obf != obf)
      byObf := r.byObf.erase obf } := by
  simp [evict, found]

theorem evict_of_findObf?_none {obf : Text} (none : r.findObf? obf = none) : r.evict obf = r := by
  simp [evict, none]

theorem toList_evict (h : r.Sound) (obf : Text) :
    (r.evict obf).toList = r.toList.filter (·.obf != obf) := by
  cases found : r.findObf? obf with
  | none => rw [evict_of_findObf?_none found, h.filter_eq_self found]
  | some old =>
    rw [evict_of_findObf? found]
    simp [toList]

theorem Sound.evict (h : r.Sound) (obf : Text) : (r.evict obf).Sound := by
  have list := toList_evict h obf
  cases found : r.findObf? obf with
  | none => rwa [evict_of_findObf?_none found]
  | some old =>
    obtain ⟨mem, rfl⟩ := h.findObf?_eq_some_iff.1 found
    have alone : ∀ x ∈ r.toList, x.obf = old.obf → x = old := fun _ hx => h.eq_of_obf hx mem
    refine ⟨?_, fun obf e => ?_, ?_, ?_⟩ <;> rw [list]
    · exact (List.filter_sublist.map _).nodup h.nodup
    · rw [evict_of_findObf? found, Std.TreeMap.getElem?_erase, List.mem_filter, bne_iff_ne]
      by_cases same : old.obf = obf
      · rw [if_pos (Std.LawfulEqCmp.compare_eq_iff_eq.2 same)]
        exact ⟨nofun, fun ⟨⟨_, other⟩, is⟩ => absurd (is.trans same.symm) other⟩
      · rw [if_neg (mt Std.LawfulEqCmp.compare_eq_iff_eq.1 same), h.obf]
        exact ⟨fun ⟨he, is⟩ => ⟨⟨he, fun eq => same (eq ▸ is)⟩, is⟩, fun ⟨⟨he, _⟩, is⟩ => ⟨he, is⟩⟩
    · rw [evict_of_findObf? found]
      exact h.deobf.remove mem alone
    · rw [evict_of_findObf? found]
      exact h.intermediate.remove mem alone

/-- Evicting names takes out the entries that go by them. -/
theorem Sound.foldl_evict (h : r.Sound) (names : List Text) :
    (names.foldl Register.evict r).Sound ∧
      (names.foldl Register.evict r).toList = r.toList.filter (!names.contains ·.obf) := by
  induction names generalizing r with
  | nil => exact ⟨h, (List.filter_eq_self.2 fun _ _ => rfl).symm⟩
  | cons name names ih =>
    rw [List.foldl_cons]
    obtain ⟨sound, list⟩ := ih (h.evict name)
    refine ⟨sound, ?_⟩
    rw [list, toList_evict h, List.filter_filter]
    refine List.filter_congr fun e _ => ?_
    rw [List.contains_cons, Bool.not_or, Bool.and_comm]
    rfl

/-- Of the entries that share a name with `e`, the one with its obfuscated name is left. -/
theorem toList_evict_holders (h : r.Sound) (e : Entry) :
    (((r.holders e).filter (· != e.obf)).foldl evict r).toList =
      r.toList.filter fun x => x.obf = e.obf ∨ ¬x.Shares e := by
  rw [(h.foldl_evict _).2]
  refine List.filter_congr fun x hx => ?_
  have held : x.obf ∈ r.holders e ↔ x.Shares e := by
    rw [h.mem_holders]
    exact ⟨fun ⟨y, hy, shared, same⟩ => h.eq_of_obf hy hx same ▸ shared,
      fun shared => ⟨x, hx, shared, rfl⟩⟩
  simp only [List.contains_eq_mem, List.mem_filter, held, bne_iff_ne]
  by_cases same : x.obf = e.obf <;> simp [same]

/-! ## Entries that are put in place -/

theorem toList_place (h : r.Sound) (e : Entry) : (r.place e).toList = placed r.toList e := by
  unfold place placed
  split
  · next none =>
    rw [if_neg]
    · simp [toList, index, link]
    · rintro ⟨x, hx, same⟩
      rw [h.findObf?_eq_some_iff.2 ⟨hx, same⟩] at none
      cases none
  · next old found =>
    rw [if_pos ⟨old, h.findObf?_eq_some_iff.1 found⟩]
    simp [toList, index, link, unlink]

/-- The register without what leads to the entry that `e` is to take the place of. -/
def cleared (r : Register) (e : Entry) : Register :=
  match r.findObf? e.obf with
  | none => r
  | some old => r.unlink old

theorem Sound.cleared (h : r.Sound) (e : Entry) :
    (r.cleared e).obfOfDeobf.Leads (some ·.deobf) (r.toList.filter (·.obf != e.obf)) ∧
      (r.cleared e).obfOfIntermediate.Leads (·.intermediate)
        (r.toList.filter (·.obf != e.obf)) := by
  unfold Register.cleared
  split
  · next none =>
    rw [h.filter_eq_self none]
    exact ⟨h.deobf, h.intermediate⟩
  · next old found =>
    obtain ⟨mem, same⟩ := h.findObf?_eq_some_iff.1 found
    have alone : ∀ x ∈ r.toList, x.obf = old.obf → x = old := fun _ hx => h.eq_of_obf hx mem
    rw [← same]
    exact ⟨h.deobf.remove mem alone, h.intermediate.remove mem alone⟩

theorem place_byObf (r : Register) (e : Entry) : (r.place e).byObf = r.byObf.insert e.obf e := by
  unfold place
  split <;> simp [index, link, unlink]

theorem place_obfOfDeobf (r : Register) (e : Entry) :
    (r.place e).obfOfDeobf = (r.cleared e).obfOfDeobf.add (some e.deobf) e.obf := by
  cases found : r.findObf? e.obf <;> simp [place, cleared, found, index, link]

theorem place_obfOfIntermediate (r : Register) (e : Entry) :
    (r.place e).obfOfIntermediate =
      (r.cleared e).obfOfIntermediate.add e.intermediate e.obf := by
  cases found : r.findObf? e.obf <;> simp [place, cleared, found, index, link]

/-- An entry can be put in place if no other one shares a name with it. -/
theorem Sound.place (h : r.Sound) {e : Entry}
    (apart : ∀ x ∈ r.toList, x.Shares e → x.obf = e.obf) : (r.place e).Sound := by
  refine ⟨?_, fun obf x => ?_, ?_, ?_⟩ <;> rw [toList_place h e]
  · rw [map_obf_placed]
    split
    · exact h.nodup
    · next no =>
      refine List.nodup_append.2 ⟨h.nodup, by simp, fun name hn other ho same => ?_⟩
      obtain ⟨x, hx, rfl⟩ := List.mem_map.1 hn
      exact no ⟨x, hx, same.trans (List.mem_singleton.1 ho)⟩
  · rw [place_byObf, Std.TreeMap.getElem?_insert, mem_placed]
    by_cases same : e.obf = obf
    · rw [if_pos (Std.LawfulEqCmp.compare_eq_iff_eq.2 same)]
      constructor
      · intro is
        cases is
        exact ⟨.inl rfl, same⟩
      · rintro ⟨rfl | ⟨_, other⟩, is⟩
        · rfl
        · exact absurd (is.trans same.symm) other
    · rw [if_neg (mt Std.LawfulEqCmp.compare_eq_iff_eq.1 same), h.obf]
      constructor
      · rintro ⟨hx, rfl⟩
        exact ⟨.inr ⟨hx, fun eq => same eq.symm⟩, rfl⟩
      · rintro ⟨rfl | ⟨hx, _⟩, is⟩
        · exact absurd is same
        · exact ⟨hx, is⟩
  · rw [place_obfOfDeobf]
    refine (h.cleared e).1.add fun x hx name is new => apart x hx (.inr (.inl ?_))
    exact Option.some.inj (is.trans new.symm)
  · rw [place_obfOfIntermediate]
    refine (h.cleared e).2.add fun x hx name is new => apart x hx (.inr (.inr ⟨?_, ?_⟩))
    · exact is.trans new.symm
    · rw [is]
      exact Option.some_ne_none name

/-! ## Additions -/

theorem insert_of_apart (h : r.Sound) {e : Entry} (apart : ¬∃ x ∈ r.toList, x.Shares e)
    (overwrite : Bool) : r.insert e overwrite = (r.place e, true) := by
  rw [insert, (h.holders_eq_nil_iff e).2 apart]

theorem insert_of_shares (h : r.Sound) {e : Entry} (shared : ∃ x ∈ r.toList, x.Shares e)
    (overwrite : Bool) :
    r.insert e overwrite =
      if overwrite then ((((r.holders e).filter (· != e.obf)).foldl evict r).place e, true)
      else (r, false) := by
  unfold insert
  split
  · next none => exact absurd shared ((h.holders_eq_nil_iff e).1 none)
  · rfl

theorem Sound.insert (h : r.Sound) (e : Entry) (overwrite : Bool) :
    (r.insert e overwrite).1.Sound := by
  by_cases shared : ∃ x ∈ r.toList, x.Shares e
  · rw [insert_of_shares h shared]
    cases overwrite
    · exact h
    · refine (h.foldl_evict _).1.place fun x hx s => ?_
      rw [toList_evict_holders h] at hx
      have left := of_decide_eq_true (List.mem_filter.1 hx).2
      exact left.resolve_right fun apart => apart s
  · rw [insert_of_apart h shared]
    exact h.place fun x hx s => absurd ⟨x, hx, s⟩ shared

theorem insert_eq_added (h : r.Sound) (e : Entry) (overwrite : Bool) :
    ((r.insert e overwrite).1.toList, (r.insert e overwrite).2) = added r.toList e overwrite := by
  unfold added
  split
  · next shared =>
    rw [insert_of_shares h shared]
    cases overwrite
    · rfl
    · simp only [if_true]
      rw [toList_place (h.foldl_evict _).1, toList_evict_holders h]
  · next apart =>
    rw [insert_of_apart h apart]
    dsimp only
    rw [toList_place h, placed, if_neg fun ⟨x, hx, same⟩ => apart ⟨x, hx, .inl same⟩]

end Register
end SymbolMap
