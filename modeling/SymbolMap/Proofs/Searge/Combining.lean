import Mathlib.Data.List.Forall2
import SymbolMap.Proofs.Searge.Parts
import SymbolMap.Proofs.Table.Lookup
import SymbolMap.Proofs.Table.Staying

/-!
The table that a combination gives.

* `fst_combine`: it is made by additions, which overwrite nothing;
* `rename_inj`: renamed entries differ if the entries differ, as long as no readable name is taken for a
  searge name or for more than a local name;
* `entries_combine_of_apart`: hence no entry is refused;
* `Reachable.combine_keeps_all`: each entry is there with its readable name.
-/
namespace SymbolMap.Searge

variable {srg names : Table} {kind : Kind}

/-! ## Readable names -/

theorem nameOf?_eq_some_iff (h : names.Sound) {searge name : Text} :
    nameOf? names kind searge = some name ↔
      ∃ r ∈ names.entries kind, r.obf = searge ∧ r.deobf = name := by
  unfold nameOf?
  rw [h.register?_eq, Option.map_eq_some_iff]
  split
  · next none => simp [none]
  · simp only [Option.bind_some, h.findObf?_iff, and_assoc]

theorem nameOf?_eq_none_iff (h : names.Sound) {searge : Text} :
    nameOf? names kind searge = none ↔ ∀ r ∈ names.entries kind, r.obf ≠ searge := by
  rw [Option.eq_none_iff_forall_ne_some]
  simp only [ne_eq, nameOf?_eq_some_iff h]
  constructor
  · intro no r hr is
    exact no r.deobf ⟨r, hr, is, rfl⟩
  · rintro no name ⟨r, hr, is, _⟩
    exact no r hr is

/-- No readable name of the kind is taken for a searge name or for more than a local name. -/
structure Apart (srg names : Table) (kind : Kind) : Prop where
  plain : ∀ r ∈ names.entries kind, Parts.Plain r.deobf
  fresh : ∀ r ∈ names.entries kind, ∀ e ∈ srg.entries kind, ∀ p : Parts, p.Of e.deobf →
    r.deobf ≠ p.searge

theorem apart_of_split (plain : ∀ r ∈ names.entries kind, Parts.Plain r.deobf)
    (fresh : ∀ r ∈ names.entries kind, ∀ e ∈ srg.entries kind, r.deobf ≠ (split e.deobf).searge) :
    Apart srg names kind :=
  ⟨plain, fun r hr e he _ hp => hp.eq_split ▸ fresh r hr e he⟩

/-- What comes in the place of a searge name. -/
def readable (names : Table) (kind : Kind) (searge : Text) : Text :=
  (nameOf? names kind searge).getD searge

theorem readable_cases (h : names.Sound) (kind : Kind) (searge : Text) :
    (∃ r ∈ names.entries kind, r.obf = searge ∧ readable names kind searge = r.deobf) ∨
      (∀ r ∈ names.entries kind, r.obf ≠ searge) ∧ readable names kind searge = searge := by
  unfold readable
  cases found : nameOf? names kind searge with
  | none => exact .inr ⟨(nameOf?_eq_none_iff h).mp found, rfl⟩
  | some name =>
    obtain ⟨r, hr, is, deobf⟩ := (nameOf?_eq_some_iff h).mp found
    exact .inl ⟨r, hr, is, deobf.symm⟩

namespace Apart

variable (apart : Apart srg names kind) (sound : names.Sound)
include apart sound

theorem fits (searge : Text) :
    Parts.Plain (readable names kind searge) ∨ readable names kind searge = searge := by
  rcases readable_cases sound kind searge with ⟨r, hr, _, is⟩ | ⟨_, is⟩
  · exact .inl (is ▸ apart.plain r hr)
  · exact .inr is

/-- The readable name of a searge name is not that of another one. -/
theorem readable_inj {a b : Entry} (ha : a ∈ srg.entries kind) (hb : b ∈ srg.entries kind)
    {p q : Parts} (hp : p.Of a.deobf) (hq : q.Of b.deobf)
    (same : readable names kind p.searge = readable names kind q.searge) :
    p.searge = q.searge := by
  rcases readable_cases sound kind p.searge with ⟨r, hr, obf, isP⟩ | ⟨_, isP⟩ <;>
    rcases readable_cases sound kind q.searge with ⟨r', hr', obf', isQ⟩ | ⟨_, isQ⟩ <;>
    rw [isP, isQ] at same
  · have one := (sound.sound_register kind).eq_of_shares hr hr' (.inr (.inl same))
    rw [← obf, ← obf', one]
  · exact absurd same (apart.fresh r hr b hb q hq)
  · exact absurd same.symm (apart.fresh r' hr' a ha p hp)
  · exact same

theorem rename_inj (soundSrg : srg.Sound) {a b : Entry} (ha : a ∈ srg.entries kind)
    (hb : b ∈ srg.entries kind) (same : (rename names kind a).deobf = (rename names kind b).deobf) :
    a = b := by
  have hp := of_split a.deobf
  have hq := of_split b.deobf
  obtain ⟨owner, name, descriptor⟩ :=
    hp.eq_of_withName_eq hq (apart.fits sound _) (apart.fits sound _) same
  have searge := apart.readable_inj sound ha hb hp hq name
  have deobf : a.deobf = b.deobf := by
    rw [← hp.whole, ← hq.whole, Parts.withName, Parts.withName, owner, searge, descriptor]
  exact (soundSrg.sound_register kind).eq_of_shares ha hb (.inr (.inl deobf))

end Apart

/-! ## Additions -/

/-- What is added for an entry. -/
def given (names : Table) (kind : Kind) (e : Entry) : Entry :=
  if kind.isMember then rename names kind e else .twoWay e.obf e.deobf

/-- All that is added, in order. -/
def additions (srg names : Table) : List (Kind × Entry) :=
  Kind.storable.flatMap fun kind => ((srg.entries kind).map (given names kind)).map (kind, ·)

theorem addAll_eq (kind : Kind) (es : List Entry) (t : Table) :
    addAll kind es t = t.addAll false (es.map (kind, ·)) := by
  unfold addAll Table.addAll
  rw [List.foldl_map]

/-- A combination adds the entries of all kinds to an empty table, and overwrites nothing. -/
theorem fst_combine (srg names : Table) :
    (combine srg names).1 = (Table.empty true).addAll false (additions srg names) := by
  unfold combine additions Table.addAll
  simp only [addAll_eq, Table.addAll]
  simp only [Kind.storable, List.flatMap_cons, List.flatMap_nil, List.foldl_append, List.append_nil]
  rfl

theorem ofKind_additions (isStorable : kind ∈ Kind.storable) :
    Table.ofKind kind (additions srg names) = (srg.entries kind).map (given names kind) := by
  unfold additions
  rw [Table.ofKind_storable fun kind => (srg.entries kind).map (given names kind),
    (Kind.mem_storable_iff kind).mp isStorable]

/-- An entry in the form in which the combined table keeps it. -/
def combined (names : Table) (kind : Kind) (e : Entry) : Entry :=
  .threeWay e.obf e.deobf (if kind.isMember then (rename names kind e).deobf else e.deobf)

theorem conform_given (names : Table) (kind : Kind) (e : Entry) :
    (given names kind e).conform true = combined names kind e := by
  unfold given combined
  split <;> rfl

theorem combined_of_member (isMember : kind.isMember = true) (e : Entry) :
    combined names kind e = rename names kind e := by
  unfold combined
  rw [if_pos isMember]
  rfl

theorem combined_of_not_member (isMember : kind.isMember = false) (e : Entry) :
    combined names kind e = .threeWay e.obf e.deobf e.deobf := by
  unfold combined
  rw [isMember]
  rfl

/-- Only through their new names can entries come to share one. -/
theorem not_shares_combined_of_ne {a b : Entry} (differ : ¬a.Shares b)
    (deobf : (combined names kind a).deobf ≠ (combined names kind b).deobf) :
    ¬(combined names kind a).Shares (combined names kind b) := by
  rintro (obf | same | ⟨intermediate, _⟩)
  · exact differ (.inl obf)
  · exact deobf same
  · exact differ (.inr (.inl (Option.some.inj intermediate)))

/-- Entries that share no names share none in their combined form. -/
theorem not_shares_combined (soundSrg : srg.Sound) (sound : names.Sound)
    (apart : kind.isMember = true → Apart srg names kind) {a b : Entry}
    (ha : a ∈ srg.entries kind) (hb : b ∈ srg.entries kind) (differ : ¬a.Shares b) :
    ¬(combined names kind a).Shares (combined names kind b) := by
  apply not_shares_combined_of_ne differ
  intro deobf
  cases isMember : kind.isMember with
  | false =>
    rw [combined_of_not_member isMember, combined_of_not_member isMember] at deobf
    exact differ (.inr (.inl deobf))
  | true =>
    rw [combined_of_member isMember, combined_of_member isMember] at deobf
    have one := (apart isMember).rename_inj sound soundSrg ha hb deobf
    exact differ (one ▸ .refl a)

theorem sound_combine (srg names : Table) : (combine srg names).1.Sound :=
  fst_combine srg names ▸ (Table.sound_of_empty true).addAll false (additions srg names)

theorem entries_combine (isStorable : kind ∈ Kind.storable) :
    (combine srg names).1.entries kind =
      addedAll false [] ((srg.entries kind).map (combined names kind)) := by
  have added := (Table.sound_of_empty true).entries_addAll false (additions srg names) kind
  rw [ofKind_additions isStorable, List.map_map] at added
  rw [fst_combine, added]
  exact congrArg (addedAll false []) (List.map_congr_left fun e _ => conform_given names kind e)

/-- No entry is refused. -/
theorem entries_combine_of_apart (soundSrg : srg.Sound) (sound : names.Sound)
    (isStorable : kind ∈ Kind.storable) (apart : kind.isMember = true → Apart srg names kind) :
    (combine srg names).1.entries kind = (srg.entries kind).map (combined names kind) := by
  have pairwise : ((srg.entries kind).map (combined names kind)).Pairwise fun a b => ¬a.Shares b :=
    List.pairwise_map.mpr ((soundSrg.pairwise_entries kind).imp_of_mem
      (not_shares_combined soundSrg sound apart))
  rw [entries_combine isStorable, addedAll_of_apart false pairwise, List.nil_append]

/-- What a combination makes of an entry: the readable name is in the place of the searge name, if there
is one for it, and the whole name with the searge name is the intermediate one. -/
structure Renamed (names : List Entry) (e x : Entry) : Prop where
  obf : x.obf = e.obf
  intermediate : x.intermediate = some e.deobf
  deobf : ∃ p : Parts, p.Of e.deobf ∧
    ((∃ r ∈ names, r.obf = p.searge ∧ x.deobf = p.withName r.deobf) ∨
      (∀ r ∈ names, r.obf ≠ p.searge) ∧ x.deobf = e.deobf)

theorem renamed_rename (sound : names.Sound) (e : Entry) :
    Renamed (names.entries kind) e (rename names kind e) where
  obf := rfl
  intermediate := rfl
  deobf := by
    have parts := of_split e.deobf
    have deobf : (rename names kind e).deobf =
      (split e.deobf).withName (readable names kind (split e.deobf).searge) := rfl
    refine ⟨split e.deobf, parts, ?_⟩
    rw [deobf]
    rcases readable_cases sound kind (split e.deobf).searge with ⟨r, hr, obf, is⟩ | ⟨none, is⟩
    · rw [is]
      exact .inl ⟨r, hr, obf, rfl⟩
    · rw [is]
      exact .inr ⟨none, parts.whole⟩

/-- The names leave no choice. -/
theorem Renamed.eq_rename (sound : names.Sound) {e x : Entry}
    (h : Renamed (names.entries kind) e x) : x = rename names kind e := by
  obtain ⟨p, hp, deobf⟩ := h.deobf
  have given : x.deobf = p.withName (readable names kind p.searge) := by
    rcases readable_cases sound kind p.searge with ⟨r, hr, obf, is⟩ | ⟨none, is⟩
    · rcases deobf with ⟨r', hr', obf', is'⟩ | ⟨none, _⟩
      · have one := (sound.sound_register kind).eq_of_obf hr hr' (obf.trans obf'.symm)
        rw [is, is', one]
      · exact absurd obf (none r hr)
    · rcases deobf with ⟨r', hr', obf', _⟩ | ⟨_, is'⟩
      · exact absurd obf' (none r' hr')
      · rw [is, is', hp.whole]
  obtain ⟨obf, intermediate, new⟩ := x
  obtain rfl : obf = e.obf := h.obf
  obtain rfl : intermediate = some e.deobf := h.intermediate
  obtain rfl : new = p.withName (readable names kind p.searge) := given
  rw [hp.eq_split]
  rfl

/-- An entry comes in if no other one gets its name. -/
theorem entryByObf_combine (soundSrg : srg.Sound) (sound : names.Sound)
    (isStorable : kind ∈ Kind.storable) (isMember : kind.isMember = true) {e x : Entry}
    (mem : e ∈ srg.entries kind) (renamed : Renamed (names.entries kind) e x)
    (alone : ∀ e' ∈ srg.entries kind, e' ≠ e → ∀ x', Renamed (names.entries kind) e' x' →
      x'.deobf ≠ x.deobf) :
    (combine srg names).1.entryByObf kind e.obf = .ok (some x) := by
  obtain ⟨before, after, is⟩ := List.append_of_mem mem
  have pairwise := soundSrg.pairwise_entries kind
  rw [is, List.pairwise_append] at pairwise
  have here : combined names kind e = x :=
    (combined_of_member isMember e).trans (renamed.eq_rename sound).symm
  have apart : ∀ y ∈ [] ++ before.map (combined names kind), ¬y.Shares (combined names kind e) := by
    intro y hy
    obtain ⟨e', he', rfl⟩ := List.mem_map.mp hy
    have differ := pairwise.2.2 e' he' e List.mem_cons_self
    have other : e' ≠ e := fun same => differ (same ▸ .refl e')
    apply not_shares_combined_of_ne differ
    rw [here, combined_of_member isMember]
    exact alone e' (by simp [is, he']) other _ (renamed_rename sound e')
  have comes : combined names kind e ∈ (combine srg names).1.entries kind := by
    rw [entries_combine isStorable, is, List.map_append, List.map_cons]
    exact mem_addedAll_of_apart_before apart
  have soundT := sound_combine srg names
  rw [soundT.entryByObf_eq, Table.ifKnown_eq_ok_iff, soundT.findObf?_iff]
  exact ⟨List.ne_nil_of_mem comes, here ▸ comes, renamed.obf⟩

end SymbolMap.Searge

namespace SymbolMap.Table

open Searge

/-- A combination loses nothing: packages and classes are as they were, with their names for intermediate
ones, and each field and each method is there with its readable name. -/
theorem Reachable.combine_keeps_all {srg names : Table} (hs : srg.Reachable) (hn : names.Reachable)
    (field : Apart srg names .field) (method : Apart srg names .method) :
    let t := (combine srg names).1
    t.threeWay = true ∧
    (∀ kind ∈ [Kind.package, .class_],
      t.entries kind = (srg.entries kind).map fun e => .threeWay e.obf e.deobf e.deobf) ∧
    ∀ kind ∈ [Kind.field, .method],
      List.Forall₂ (Renamed (names.entries kind)) (srg.entries kind) (t.entries kind) := by
  dsimp only
  refine ⟨by rw [fst_combine, threeWay_addAll]; rfl, fun kind hk => ?_, fun kind hk => ?_⟩
  · have plain : kind ∈ Kind.storable ∧ kind.isMember = false :=
      (by decide : ∀ k ∈ [Kind.package, .class_], k ∈ Kind.storable ∧ k.isMember = false) kind hk
    rw [entries_combine_of_apart hs.sound hn.sound plain.1 (by simp [plain.2])]
    exact List.map_congr_left fun e _ => combined_of_not_member plain.2 e
  · have member : kind ∈ Kind.storable ∧ kind.isMember = true :=
      (by decide : ∀ k ∈ [Kind.field, .method], k ∈ Kind.storable ∧ k.isMember = true) kind hk
    have apart : Apart srg names kind := by
      rcases List.mem_pair.mp hk with rfl | rfl
      · exact field
      · exact method
    rw [entries_combine_of_apart hs.sound hn.sound member.1 fun _ => apart,
      List.forall₂_map_right_iff, List.forall₂_same]
    intro e _
    rw [combined_of_member member.2]
    exact renamed_rename hn.sound e

/-- A field and two methods that share a searge name. -/
def overloads : Table :=
  let field := ((empty false).addTwoWay .field "a.x".toList "p.C.field_1".toList false).1
  let one := (field.addTwoWay .method "a.m ()V".toList "p.C.func_1 ()V".toList false).1
  (one.addTwoWay .method "a.m (I)V".toList "p.C.func_1 (I)V".toList false).1

/-- A readable name for the methods of `overloads`. -/
def oneName : Table :=
  ((empty false).addTwoWay .method "func_1".toList "run".toList true).1

/-- Both methods get the readable name, and the field keeps its searge name. -/
theorem combine_keeps_all_with_overloads :
    overloads.Reachable ∧ oneName.Reachable ∧
      Apart overloads oneName .field ∧ Apart overloads oneName .method ∧
      List.Forall₂ (Renamed (oneName.entries .method)) (overloads.entries .method)
        ((combine overloads oneName).1.entries .method) := by
  have reachable : overloads.Reachable :=
    (((Reachable.empty false).addTwoWay ..).addTwoWay ..).addTwoWay ..
  have named : oneName.Reachable := (Reachable.empty false).addTwoWay ..
  have field : Apart overloads oneName .field :=
    apart_of_split (by decide +kernel) (by decide +kernel)
  have method : Apart overloads oneName .method :=
    apart_of_split (by decide +kernel) (by decide +kernel)
  have kept := reachable.combine_keeps_all named field method
  exact ⟨reachable, named, field, method, kept.2.2 .method (by decide)⟩

end SymbolMap.Table
