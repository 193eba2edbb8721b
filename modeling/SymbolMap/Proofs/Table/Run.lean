import SymbolMap.Proofs.Table.Addition

/-!
Additions to a table one after the other.

* `Sound.entries_addAll`: for each kind they are additions to the list of its entries;
* `addedAll_of_apart`: entries that share no names all come in, whatever may be overwritten;
* `prefix_addedAll`, `exists_shares_addedAll`: without overwriting, what is there stays in front, and what does
  not come in shares a name with what has;
* `Sound.pairwise_entries`, `Sound.conform_entries`: what the entries of a kind are like.
-/
namespace SymbolMap

/-- Additions to a list of entries one after the other. -/
def addedAll (overwrite : Bool) (es new : List Entry) : List Entry :=
  new.foldl (fun es e => (added es e overwrite).1) es

theorem addedAll_of_apart (overwrite : Bool) {es new : List Entry}
    (apart : (es ++ new).Pairwise fun a b => ¬a.Shares b) :
    addedAll overwrite es new = es ++ new := by
  induction new generalizing es with
  | nil => exact (List.append_nil es).symm
  | cons e new ih =>
    have first : ∀ x ∈ es, ¬x.Shares e := fun x hx =>
      (List.pairwise_append.mp apart).2.2 x hx e List.mem_cons_self
    unfold addedAll
    rw [List.foldl_cons, added_of_apart first]
    have apart' : (es ++ [e] ++ new).Pairwise fun a b => ¬a.Shares b := by simpa using apart
    have rest := ih apart'
    rwa [List.append_assoc, List.singleton_append] at rest

theorem addedAll_append (overwrite : Bool) (es new more : List Entry) :
    addedAll overwrite es (new ++ more) = addedAll overwrite (addedAll overwrite es new) more :=
  List.foldl_append

theorem prefix_addedAll (es new : List Entry) : es <+: addedAll false es new := by
  induction new generalizing es with
  | nil => exact List.prefix_refl es
  | cons e new ih =>
    refine List.IsPrefix.trans ?_ (ih (added es e false).1)
    unfold added
    split
    · exact List.prefix_refl es
    · exact List.prefix_append es [e]

/-- Without overwriting, what does not come in shares a name with what has. -/
theorem exists_shares_addedAll {es new : List Entry} {x : Entry} (h : x ∈ new) :
    ∃ e ∈ addedAll false es new, e.Shares x := by
  induction new generalizing es with
  | nil => exact absurd h List.not_mem_nil
  | cons first new ih =>
    rcases List.mem_cons.mp h with rfl | later
    · have stays := prefix_addedAll (added es x false).1 new
      have step : addedAll false es (x :: new) = addedAll false (added es x false).1 new := rfl
      rw [step]
      by_cases shared : ∃ e ∈ es, e.Shares x
      · obtain ⟨e, he, shares⟩ := shared
        rw [added_of_shares ⟨e, he, shares⟩] at stays ⊢
        exact ⟨e, stays.subset he, shares⟩
      · have apart : ∀ e ∈ es, ¬e.Shares x := fun e he shares => shared ⟨e, he, shares⟩
        rw [added_of_apart apart] at stays ⊢
        exact ⟨x, stays.subset (List.mem_append_right es List.mem_cons_self), .refl x⟩
    · exact ih later

theorem mem_of_mem_addedAll {overwrite : Bool} {es new : List Entry} {x : Entry}
    (h : x ∈ addedAll overwrite es new) : x ∈ es ∨ x ∈ new := by
  induction new generalizing es with
  | nil => exact .inl h
  | cons e new ih =>
    rcases ih h with old | later
    · rcases mem_of_mem_added old with rfl | old
      · exact .inr List.mem_cons_self
      · exact .inl old
    · exact .inr (List.mem_cons_of_mem _ later)

namespace Table

def addAll (overwrite : Bool) (t : Table) (new : List (Kind × Entry)) : Table :=
  new.foldl (fun t (kind, e) => (t.add kind e overwrite).1) t

theorem addAll_append (overwrite : Bool) (t : Table) (new more : List (Kind × Entry)) :
    t.addAll overwrite (new ++ more) = (t.addAll overwrite new).addAll overwrite more :=
  List.foldl_append

/-- The entries of a kind among those to be added. -/
def ofKind (k : Kind) (new : List (Kind × Entry)) : List Entry :=
  new.filterMap fun (kind, e) => if kind.base = k.base then some e else none

theorem ofKind_cons (k kind : Kind) (e : Entry) (new : List (Kind × Entry)) :
    ofKind k ((kind, e) :: new) =
      if kind.base = k.base then e :: ofKind k new else ofKind k new := by
  unfold ofKind
  rw [List.filterMap_cons]
  by_cases same : kind.base = k.base <;> simp [same]

@[simp] theorem threeWay_add (t : Table) (kind : Kind) (e : Entry) (overwrite : Bool) :
    (t.add kind e overwrite).1.threeWay = t.threeWay := rfl

@[simp] theorem threeWay_addAll (overwrite : Bool) (t : Table) (new : List (Kind × Entry)) :
    (t.addAll overwrite new).threeWay = t.threeWay := by
  induction new generalizing t with
  | nil => rfl
  | cons first new ih => exact ih (t.add first.1 first.2 overwrite).1

theorem Sound.addAll {t : Table} (h : t.Sound) (overwrite : Bool) (new : List (Kind × Entry)) :
    (t.addAll overwrite new).Sound := by
  induction new generalizing t with
  | nil => exact h
  | cons first new ih => exact ih (h.add first.1 first.2 overwrite)

/-- Additions of all kinds are, for one kind, the additions to the list of its entries. -/
theorem Sound.entries_addAll {t : Table} (h : t.Sound) (overwrite : Bool)
    (new : List (Kind × Entry)) (k : Kind) :
    (t.addAll overwrite new).entries k =
      addedAll overwrite (t.entries k) ((ofKind k new).map (·.conform t.threeWay)) := by
  induction new generalizing t with
  | nil => rfl
  | cons first new ih =>
    obtain ⟨kind, e⟩ := first
    have rest := ih (h.add kind e overwrite)
    rw [h.entries_add, threeWay_add] at rest
    unfold Table.addAll
    rw [List.foldl_cons]
    refine rest.trans ?_
    rw [ofKind_cons]
    by_cases same : k.base = kind.base
    · rw [if_pos same, if_pos same.symm, t.entries_congr same]
      rfl
    · have other : ¬kind.base = k.base := fun eq => same eq.symm
      rw [if_neg same, if_neg other]

theorem ofKind_append (k : Kind) (a b : List (Kind × Entry)) :
    ofKind k (a ++ b) = ofKind k a ++ ofKind k b :=
  List.filterMap_append

theorem ofKind_map (k kind : Kind) (es : List Entry) :
    ofKind k (es.map (kind, ·)) = if kind.base = k.base then es else [] := by
  induction es with
  | nil => split <;> rfl
  | cons e es ih =>
    rw [List.map_cons, ofKind_cons, ih]
    split <;> rfl

theorem mem_ofKind {k : Kind} {new : List (Kind × Entry)} {e : Entry} :
    e ∈ ofKind k new ↔ ∃ kind, (kind, e) ∈ new ∧ kind.base = k.base := by
  unfold ofKind
  rw [List.mem_filterMap]
  constructor
  · rintro ⟨⟨kind, e'⟩, mem, is⟩
    obtain ⟨same, is⟩ := Option.ite_none_right_eq_some.mp is
    cases is
    exact ⟨kind, mem, same⟩
  · rintro ⟨kind, mem, same⟩
    exact ⟨(kind, e), mem, if_pos same⟩

/-- Of what all kinds give a kind gets its own part. -/
theorem ofKind_storable (es : Kind → List Entry) (k : Kind) :
    ofKind k (Kind.storable.flatMap fun kind => (es kind).map (kind, ·)) = es k.base := by
  simp only [Kind.storable, List.flatMap_cons, List.flatMap_nil, List.append_nil, ofKind_append,
    ofKind_map]
  cases k <;> simp [Kind.base]

theorem ofKind_eq_nil {k : Kind} {new : List (Kind × Entry)}
    (other : ∀ p ∈ new, p.1.base ≠ k.base) : ofKind k new = [] :=
  List.filterMap_eq_nil_iff.mpr fun p hp => if_neg (other p hp)

theorem mem_written {t : Table} {kind : Kind} {e : Entry} :
    (kind, e) ∈ t.written ↔ kind ∈ Kind.storable ∧ e ∈ t.entries kind := by
  unfold written
  simp [List.mem_flatMap, List.mem_map, Prod.ext_iff]

/-- What is in a table that was empty has been added, in whatever form it was given. -/
theorem exists_of_mem_addAll {threeWay overwrite : Bool} {new : List (Kind × Entry)} {k : Kind}
    {e : Entry} (h : e ∈ ((empty threeWay).addAll overwrite new).entries k) :
    ∃ kind e', (kind, e') ∈ new ∧ kind.base = k.base ∧ e = e'.conform threeWay := by
  rw [(sound_of_empty threeWay).entries_addAll] at h
  have given := (mem_of_mem_addedAll h).resolve_left List.not_mem_nil
  obtain ⟨e', mem, rfl⟩ := List.mem_map.mp given
  obtain ⟨kind, mem, same⟩ := mem_ofKind.mp mem
  exact ⟨kind, e', mem, same, rfl⟩

/-- The entries of a kind share no names. -/
theorem Sound.pairwise_entries {t : Table} (h : t.Sound) (k : Kind) :
    (t.entries k).Pairwise fun a b => ¬a.Shares b := by
  have sound := h.sound_register k
  refine (List.pairwise_map.mp sound.nodup).imp_of_mem fun ha hb apart shared => ?_
  exact apart (congrArg Entry.obf (sound.eq_of_shares ha hb shared))

/-- The entries of a table are in the form that it keeps. -/
theorem Sound.conform_entries {t : Table} (h : t.Sound) {k : Kind} {e : Entry}
    (mem : e ∈ t.entries k) : e.conform t.threeWay = e := by
  have named := (h.fits_register k).named e mem
  obtain ⟨obf, intermediate, deobf⟩ := e
  rw [← named]
  cases intermediate <;> rfl

/-- A table that was empty has only kinds that something was added of. -/
theorem exists_of_mem_kinds_addAll {threeWay overwrite : Bool} {new : List (Kind × Entry)} {k : Kind}
    (h : k ∈ ((empty threeWay).addAll overwrite new).kinds) : ∃ p ∈ new, p.1.base = k := by
  have sound := (sound_of_empty threeWay).addAll overwrite new
  obtain ⟨base, filled⟩ := sound.mem_kinds_iff.mp h
  obtain ⟨e, mem⟩ := List.exists_mem_of_ne_nil _ filled
  obtain ⟨kind, e', given, same, _⟩ := exists_of_mem_addAll mem
  exact ⟨(kind, e'), given, same.trans base⟩

/-- The entries of one kind, added to an empty table of the same type, are its entries. -/
theorem Sound.entries_addAll_kind {t : Table} (h : t.Sound) (overwrite : Bool) {form : Entry → Entry}
    {kind : Kind} (forms : ∀ e ∈ t.entries kind, (form e).conform t.threeWay = e) :
    ((empty t.threeWay).addAll overwrite (((t.entries kind).map form).map (kind, ·))).entries kind =
      t.entries kind := by
  have conformed : ((t.entries kind).map form).map (·.conform t.threeWay) = t.entries kind := by
    rw [List.map_map]
    exact (List.map_congr_left fun e he => forms e he).trans (List.map_id' _)
  rw [(sound_of_empty t.threeWay).entries_addAll, ofKind_map, if_pos rfl]
  change addedAll overwrite [] (((t.entries kind).map form).map (·.conform t.threeWay)) = _
  rw [conformed]
  exact addedAll_of_apart overwrite (h.pairwise_entries kind)

/-- The entries of a table, added to an empty one of its type, are its entries. -/
theorem Sound.entries_addAll_written {t : Table} (h : t.Sound) (overwrite : Bool)
    {form : Entry → Entry} (forms : ∀ kind, ∀ e ∈ t.entries kind, (form e).conform t.threeWay = e)
    (k : Kind) :
    ((empty t.threeWay).addAll overwrite (t.written.map fun (kind, e) => (kind, form e))).entries k =
      t.entries k := by
  have parts : (t.written.map fun (kind, e) => (kind, form e)) =
      Kind.storable.flatMap fun kind => ((t.entries kind).map form).map (kind, ·) := by
    unfold written
    simp only [List.map_flatMap, List.map_map]
    rfl
  have conformed : ((t.entries k).map form).map (·.conform t.threeWay) = t.entries k := by
    rw [List.map_map]
    exact (List.map_congr_left fun e he => forms k e he).trans (List.map_id' _)
  rw [(sound_of_empty t.threeWay).entries_addAll, parts,
    ofKind_storable fun kind => (t.entries kind).map form, t.entries_congr k.base_base]
  change addedAll overwrite [] (((t.entries k).map form).map (·.conform t.threeWay)) = _
  rw [conformed]
  exact addedAll_of_apart overwrite (h.pairwise_entries k)

end Table

end SymbolMap
