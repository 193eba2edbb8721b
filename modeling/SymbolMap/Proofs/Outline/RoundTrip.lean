import Mathlib.Data.List.Nodup
import Mathlib.Data.List.Perm.Basic
import SymbolMap.Proofs.Outline.Canonical
import SymbolMap.Proofs.Outline.Declares

/-!
Tables that are written as outlines and loaded again.

* `Canonical.writable`: every name of a canonical table can stand on its line;
* `Canonical.declared_perm`: what the outline declares are the entries of the table, and its packages;
* `Canonical.loadText_restores`: an empty table gets all of them.
-/
namespace SymbolMap.Outline

open Batch (asked)
open Declaration (source)

theorem Member.Readable.kind_mem {m : Member} (h : m.Readable) : m.kind ∈ memberOrder := by
  cases h with
  | field | method | constructor => simp [memberOrder]

/-- A class declares its own entry and those of its members, in an order of their kinds. -/
theorem classDeclarations_perm {t : Table} (k : Kind) {members : Groups Triple Member}
    {c : ClassNames} (readable : ∀ m ∈ members.group c.full, m.Readable) :
    ((classDeclarations members c).flatMap (source.entriesOf t k)).Perm
      (asked k .class_ c.full.toEntry ++
        (members.group c.full).flatMap fun m => (m.declared c.full).flatMap (source.entriesOf t k)) := by
  have nodup : memberOrder.Nodup := by decide
  have kinds := flatMap_filter_perm Member.kind nodup fun m hm => (readable m hm).kind_mem
  unfold classDeclarations
  rw [List.flatMap_cons]
  refine List.Perm.append_left _ ?_
  rw [← List.flatMap_assoc, List.flatMap_assoc]
  exact kinds.flatMap_right _

theorem flatMap_packageDeclarations (t : Table) (k : Kind) (package : Triple) :
    (packageDeclarations t package).flatMap (source.entriesOf t k) =
      asked k .package package.toEntry ++
        ((Groups.ofList (classes t)).group package).flatMap fun c =>
          (classDeclarations (membersByClass t) c).flatMap (source.entriesOf t k) := by
  unfold packageDeclarations
  rw [List.flatMap_cons, List.flatMap_assoc]
  rfl

theorem Triple.nodup_map_ofEntry {t : Table} (sound : t.Sound) (k : Kind) :
    ((t.entries k).map Triple.ofEntry).Nodup := by
  refine List.Nodup.of_map Triple.obf ?_
  rw [List.map_map]
  exact (sound.sound_register k).nodup

theorem Triple.toEntry_ofEntry_of_mem {t : Table} (sound : t.Sound) (threeWay : t.threeWay = true)
    {k : Kind} {e : Entry} (mem : e ∈ t.entries k) : (Triple.ofEntry e).toEntry = e :=
  Triple.toEntry_ofEntry (((sound.fits_register k).named e mem).trans threeWay)

namespace Canonical

variable {t : Table} (h : Canonical t)
include h

theorem classes_eq : Outline.classes t = (t.entries .class_).map fun e =>
    ((Triple.ofEntry e).owner, ⟨.ofEntry e, (Triple.ofEntry e).localNames⟩) := by
  unfold Outline.classes
  rw [← List.filterMap_eq_map]
  refine List.filterMap_congr fun e he => ?_
  unfold classOfEntry
  rw [Triple.split_eq (h.classes e he).named]
  rfl

theorem packages_eq_firsts : Outline.packages t =
    firsts ((t.entries .package).map Triple.ofEntry ++
      (t.entries .class_).map fun e => (Triple.ofEntry e).owner) := by
  unfold Outline.packages
  rw [Groups.keys_ofList, List.map_map, h.classes_eq, List.map_map]
  exact congrArg firsts (List.map_id _)

theorem mem_packages {package : Triple} : package ∈ Outline.packages t ↔
    (∃ e ∈ t.entries .package, Triple.ofEntry e = package) ∨
      ∃ e ∈ t.entries .class_, (Triple.ofEntry e).owner = package := by
  rw [h.packages_eq_firsts, mem_firsts, List.mem_append, List.mem_map, List.mem_map]

theorem nodup_packages : (Outline.packages t).Nodup := by
  rw [h.packages_eq_firsts]
  exact nodup_firsts _

variable (sound : t.Sound) (threeWay : t.threeWay = true)
include sound threeWay

theorem readable_and_inside {owner : Triple} {m : Member} (mem : (owner, m) ∈ memberPairs t) :
    m.Readable ∧ ∃ c ∈ t.entries .class_, owner = Triple.ofEntry c := by
  obtain ⟨⟨kind, e⟩, he, is⟩ := List.mem_filterMap.mp mem
  obtain ⟨owner', m', restores⟩ := h.restores sound threeWay he
  have same := Option.some.inj (restores.written.symm.trans is)
  obtain ⟨rfl, rfl⟩ := Prod.mk.inj same
  exact ⟨restores.readable, restores.inside⟩

theorem writable : Writable t where
  packages package mem := by
    rcases h.mem_packages.mp mem with ⟨e, he, rfl⟩ | ⟨e, he, rfl⟩
    · obtain ⟨clean, closed⟩ := h.packages e he
      exact ⟨clean, closed, fun other => absurd rfl other, fun _ => rfl⟩
    · exact (h.classes e he).readable_owner
  classes package c mem := by
    rw [h.classes_eq] at mem
    obtain ⟨e, he, is⟩ := List.mem_map.mp mem
    cases is
    exact ⟨(h.classes e he).readable_localNames (.inr rfl), (h.classes e he).qualify⟩
  members owner m mem := (h.readable_and_inside sound threeWay mem).1

/-- The members of all classes declare the members of the table. -/
theorem members_perm (k : Kind) :
    ((Outline.classes t).flatMap fun p => ((membersByClass t).group p.2.full).flatMap fun m =>
      (m.declared p.2.full).flatMap (source.entriesOf t k)).Perm
      (t.members.flatMap fun p => asked k p.1 p.2) := by
  have nodup := Triple.nodup_map_ofEntry sound .class_
  have covered : ∀ p ∈ memberPairs t, p.1 ∈ (t.entries .class_).map Triple.ofEntry := by
    intro p hp
    obtain ⟨c, hc, is⟩ := (h.readable_and_inside sound threeWay hp).2
    exact List.mem_map.mpr ⟨c, hc, is.symm⟩
  have restores : ∀ p ∈ t.members, ∃ q, Member.ofEntry p.1 p.2 = some q ∧
      (Member.declared q.1 q.2).flatMap (source.entriesOf t k) = asked k p.1 p.2 := by
    intro p hp
    obtain ⟨owner, m, restores⟩ := h.restores sound threeWay hp
    exact ⟨(owner, m), restores.written, restores.declares k⟩
  have grouped := source.members_perm Member.declared nodup covered restores
  rw [List.flatMap_map] at grouped
  rw [h.classes_eq, List.flatMap_map]
  exact grouped

/-- The outline declares the entries of the table, and its packages. -/
theorem declared_perm (k : Kind) :
    ((declarations t).flatMap (source.entriesOf t k)).Perm
      (((Outline.packages t).flatMap fun p => asked k .package p.toEntry) ++
        ((t.entries .class_).flatMap (asked k .class_) ++
          t.members.flatMap fun p => asked k p.1 p.2)) := by
  have covered : ∀ p ∈ Outline.classes t, p.1 ∈ Outline.packages t := by
    intro p hp
    rw [h.classes_eq] at hp
    obtain ⟨e, he, rfl⟩ := List.mem_map.mp hp
    exact h.mem_packages.mpr (.inr ⟨e, he, rfl⟩)
  have inside : ((Outline.packages t).flatMap fun p =>
      ((Groups.ofList (Outline.classes t)).group p).flatMap fun c =>
        (classDeclarations (membersByClass t) c).flatMap (source.entriesOf t k)).Perm
      ((Outline.classes t).flatMap fun p =>
        (classDeclarations (membersByClass t) p.2).flatMap (source.entriesOf t k)) :=
    Groups.flatMap_group_perm h.nodup_packages covered fun _ c =>
      (classDeclarations (membersByClass t) c).flatMap (source.entriesOf t k)
  have own : ((Outline.classes t).flatMap fun p => asked k .class_ p.2.full.toEntry) =
      (t.entries .class_).flatMap (asked k .class_) := by
    rw [h.classes_eq, List.flatMap_map]
    refine List.flatMap_congr fun e he => ?_
    dsimp only
    rw [Triple.toEntry_ofEntry_of_mem sound threeWay he]
  unfold declarations
  rw [List.flatMap_assoc,
    List.flatMap_congr fun p _ => flatMap_packageDeclarations t k p]
  refine (List.flatMap_append_perm _ _ _).symm.trans (List.Perm.append_left _ ?_)
  refine inside.trans ?_
  refine (List.Perm.flatMap_left _ fun p _ => classDeclarations_perm k fun m hm =>
    (h.readable_and_inside sound threeWay (Groups.mem_group_ofList.mp hm)).1).trans ?_
  refine (List.flatMap_append_perm _ _ _).symm.trans ?_
  rw [own]
  exact List.Perm.append_left _ (h.members_perm sound threeWay k)

/-- The packages are declared in their order. -/
theorem declared_packages :
    (declarations t).flatMap (source.entriesOf t .package) = (Outline.packages t).map Triple.toEntry := by
  unfold declarations
  rw [List.flatMap_assoc, List.map_eq_flatMap]
  refine List.flatMap_congr fun p _ => ?_
  rw [flatMap_packageDeclarations, List.flatMap_eq_nil_iff.mpr, List.append_nil]
  · rfl
  · intro c _
    have readable : ∀ m ∈ (membersByClass t).group c.full, m.Readable := fun m hm =>
      (h.readable_and_inside sound threeWay (Groups.mem_group_ofList.mp hm)).1
    have members : ((membersByClass t).group c.full).flatMap (fun m =>
        (m.declared c.full).flatMap (source.entriesOf t .package)) = [] :=
      List.flatMap_eq_nil_iff.mpr fun m hm => (readable m hm).flatMap_package c.full t
    have all := classDeclarations_perm (t := t) .package readable
    rw [members] at all
    exact List.Perm.eq_nil all

/-- Of classes and members the outline declares those of the table. -/
theorem declared_entries_perm {k : Kind} (notPackage : k = .class_ ∨ k = .field ∨ k = .method) :
    ((declarations t).flatMap (source.entriesOf t k)).Perm (t.entries k) := by
  have all := h.declared_perm sound threeWay k
  have packages : ((Outline.packages t).flatMap fun p => asked k .package p.toEntry) = [] := by
    refine List.flatMap_eq_nil_iff.mpr fun p _ => ?_
    rcases notPackage with rfl | rfl | rfl
    · rfl
    · rfl
    · rfl
  rw [packages, Batch.flatMap_asked, List.nil_append] at all
  rcases notPackage with rfl | rfl | rfl
  · rwa [Batch.flatMap_members_asked_class, List.append_nil] at all
  · rwa [Batch.flatMap_members_asked t (.inl rfl)] at all
  · rwa [Batch.flatMap_members_asked t (.inr rfl)] at all

end Canonical

/-! ## The round trip -/

/-- The package that a class stands in. -/
def packageOf (c : Entry) : Entry := (Triple.ofEntry c).owner.toEntry

/-- A table that was loaded has the classes and members of another one. Its packages are those of the other
one and of the classes there; of packages that share names only the first or the last is kept. -/
structure Restored (t loaded : Table) (overwrite : Bool) : Prop where
  classes : (loaded.entries .class_).Perm (t.entries .class_)
  fields : (loaded.entries .field).Perm (t.entries .field)
  methods : (loaded.entries .method).Perm (t.entries .method)
  named : ∀ e ∈ loaded.entries .package,
    e ∈ t.entries .package ∨ ∃ c ∈ t.entries .class_, packageOf c = e
  kept : overwrite = false → t.entries .package <+: loaded.entries .package ∧
    ∀ c ∈ t.entries .class_, ∃ e ∈ loaded.entries .package, e.Shares (packageOf c)
  apart :
    let all := t.entries .package ++ (t.entries .class_).map packageOf
    (∀ a ∈ all, ∀ b ∈ all, a.Shares b → a = b) →
      t.entries .package <+: loaded.entries .package ∧
        ∀ e, e ∈ loaded.entries .package ↔ e ∈ all
  same : (∀ c ∈ t.entries .class_, packageOf c ∈ t.entries .package) →
    loaded.entries .package = t.entries .package

namespace Canonical

variable {t : Table} (h : Canonical t) (sound : t.Sound) (threeWay : t.threeWay = true)
include h sound threeWay

/-- The packages stand before those that only classes name. -/
theorem packages_eq_append : ∃ more : List Triple,
    (Outline.packages t).map Triple.toEntry = t.entries .package ++ more.map Triple.toEntry ∧
      ((∀ c ∈ t.entries .class_, packageOf c ∈ t.entries .package) → more = []) := by
  have own : ((t.entries .package).map Triple.ofEntry).map Triple.toEntry = t.entries .package := by
    rw [List.map_map]
    refine (List.map_congr_left fun e he => ?_).trans (List.map_id' _)
    exact Triple.toEntry_ofEntry_of_mem sound threeWay he
  have nodup := Triple.nodup_map_ofEntry sound .package
  have listed := h.packages_eq_firsts
  rw [firsts_append, firsts_of_nodup nodup] at listed
  obtain ⟨more, is⟩ := prefix_foldl_listed
    ((t.entries .class_).map fun e => (Triple.ofEntry e).owner)
    ((t.entries .package).map Triple.ofEntry)
  refine ⟨more, ?_, fun inside => ?_⟩
  · rw [listed, ← is, List.map_append, own]
  · have subset : ∀ p ∈ (t.entries .class_).map fun e => (Triple.ofEntry e).owner,
        p ∈ (t.entries .package).map Triple.ofEntry := by
      intro p hp
      obtain ⟨c, hc, rfl⟩ := List.mem_map.mp hp
      exact List.mem_map.mpr ⟨packageOf c, inside c hc, rfl⟩
    rw [foldl_listed_of_subset subset] at is
    simpa using is

theorem mem_map_packages {e : Entry} : e ∈ (Outline.packages t).map Triple.toEntry ↔
    e ∈ t.entries .package ++ (t.entries .class_).map packageOf := by
  have own : ∀ e ∈ t.entries .package, (Triple.ofEntry e).toEntry = e := fun _ he =>
    Triple.toEntry_ofEntry_of_mem sound threeWay he
  rw [List.mem_map, List.mem_append, List.mem_map]
  constructor
  · rintro ⟨p, hp, rfl⟩
    rcases h.mem_packages.mp hp with ⟨e, he, rfl⟩ | ⟨c, hc, rfl⟩
    · rw [own e he]
      exact .inl he
    · exact .inr ⟨c, hc, rfl⟩
  · rintro (he | ⟨c, hc, rfl⟩)
    · exact ⟨Triple.ofEntry e, h.mem_packages.mpr (.inl ⟨e, he, rfl⟩), own e he⟩
    · exact ⟨_, h.mem_packages.mpr (.inr ⟨c, hc, rfl⟩), rfl⟩

/-- Packages that share no names are all loaded. -/
theorem addedAll_packages (overwrite : Bool)
    (apart : ∀ a ∈ t.entries .package ++ (t.entries .class_).map packageOf,
      ∀ b ∈ t.entries .package ++ (t.entries .class_).map packageOf, a.Shares b → a = b) :
    addedAll overwrite [] ((Outline.packages t).map Triple.toEntry) =
      (Outline.packages t).map Triple.toEntry := by
  refine addedAll_of_apart overwrite (List.pairwise_map.mpr (h.nodup_packages.imp_of_mem ?_))
  intro a b ha hb differ shared
  have same := apart a.toEntry ((h.mem_map_packages sound threeWay).mp (List.mem_map_of_mem ha))
    b.toEntry ((h.mem_map_packages sound threeWay).mp (List.mem_map_of_mem hb)) shared
  obtain ⟨obf, intermediate, deobf⟩ := a
  obtain ⟨obf', intermediate', deobf'⟩ := b
  cases same
  exact differ rfl

/-- A load adds the declarations of the outline, and finds no changes of access and no imports. -/
theorem loadText_eq (i : Importer) (u : Table) (overwrite : Bool) : ∃ events,
    loadText i (Listing.text (list t)) u overwrite =
      ⟨((source.batch (declarations t)).addTo u overwrite).1, events, .ok ⟨[], []⟩⟩ := by
  have writable := h.writable sound threeWay
  unfold loadText loadFrom
  rw [writable.readText_text]
  dsimp only
  rw [Declaration.transformations_of_adds writable.adds]
  exact ⟨_, rfl⟩

theorem restored (overwrite : Bool) : Restored t
    ((source.batch (declarations t)).addTo (.empty t.threeWay) overwrite).1 overwrite := by
  have adds := (h.writable sound threeWay).adds
  have classes := h.declared_entries_perm sound threeWay (.inl rfl)
  have main : ∀ k, k = .class_ ∨ k = .field ∨ k = .method →
      (((source.batch (declarations t)).addTo (.empty t.threeWay) overwrite).1.entries k).Perm
        (t.entries k) := by
    intro k notPackage
    have same := h.declared_entries_perm sound threeWay notPackage
    rw [Batch.Source.entries_addTo_of_perm adds sound classes overwrite same]
    exact same
  have packages := Batch.Source.entries_addTo adds sound classes overwrite .package
  rw [h.declared_packages sound threeWay, List.map_map, threeWay] at packages
  change _ = addedAll overwrite [] ((Outline.packages t).map Triple.toEntry) at packages
  rw [← threeWay] at packages
  obtain ⟨more, own, none⟩ := h.packages_eq_append sound threeWay
  have apartOwn : addedAll overwrite [] (t.entries .package) = t.entries .package :=
    addedAll_of_apart overwrite (sound.pairwise_entries .package)
  refine ⟨main .class_ (.inl rfl), main .field (.inr (.inl rfl)), main .method (.inr (.inr rfl)),
    ?_, ?_, ?_, ?_⟩
  · intro e he
    rw [packages] at he
    have given := (mem_of_mem_addedAll he).resolve_left List.not_mem_nil
    rwa [h.mem_map_packages sound threeWay, List.mem_append, List.mem_map] at given
  · rintro rfl
    rw [packages]
    constructor
    · rw [own, addedAll_append, apartOwn]
      exact prefix_addedAll _ _
    · intro c hc
      refine exists_shares_addedAll ((h.mem_map_packages sound threeWay).mpr ?_)
      exact List.mem_append_right _ (List.mem_map_of_mem hc)
  · intro all apart
    rw [packages, h.addedAll_packages sound threeWay overwrite apart]
    exact ⟨own ▸ List.prefix_append _ _, fun e => h.mem_map_packages sound threeWay⟩
  · intro inside
    rw [packages, own, none inside, List.map_nil, List.append_nil, apartOwn]

end Canonical

/-- The outline of a canonical table is loaded without a fault, and gives an empty table all that the first
one has. -/
theorem Canonical.loadText_restores {t : Table} (h : Canonical t) (reachable : t.Reachable)
    (threeWay : t.threeWay = true) (i : Importer) (overwrite : Bool) :
    let load := loadText i (Listing.text (list t)) (.empty true) overwrite
    load.result = .ok ⟨[], []⟩ ∧ Restored t load.table overwrite := by
  have sound := reachable.sound
  obtain ⟨events, is⟩ := h.loadText_eq sound threeWay i (.empty true) overwrite
  have restored := h.restored sound threeWay overwrite
  rw [threeWay] at restored
  rw [is]
  exact ⟨rfl, restored⟩

/-- A class in a package, with a field, a constructor and a method that takes the class. -/
def smallTable : Table :=
  let t := (Table.empty true).addThreeWay .package ['p'] ['q'] ['q'] false
  let t := t.1.addThreeWay .class_ "p.a".toList "q.C".toList "q.T".toList false
  let t := t.1.addThreeWay .field "p.a.b".toList "q.C.field_1".toList "q.T.n".toList false
  let t := t.1.addThreeWay .method "p.a.<init> ()V".toList "q.C.<init> ()V".toList
    "q.T.<init> ()V".toList false
  (t.1.addThreeWay .method "p.a.c (Lp/a;)V".toList "q.C.func_2 (Lq/T;)V".toList
    "q.T.m (Lq/T;)V".toList false).1

theorem classes_smallTable : smallTable.entries .class_ =
    [.threeWay "p.a".toList "q.C".toList "q.T".toList] := by
  decide +kernel

theorem canonical_smallTable : Canonical smallTable where
  packages := by decide +kernel
  classes := by
    rw [classes_smallTable]
    decide
  fields := by
    have entries : smallTable.entries .field =
        [.threeWay "p.a.b".toList "q.C.field_1".toList "q.T.n".toList] := by
      decide +kernel
    rw [entries, classes_smallTable]
    decide
  methods := by
    have entries : smallTable.entries .method =
        [.threeWay "p.a.<init> ()V".toList "q.C.<init> ()V".toList "q.T.<init> ()V".toList,
        .threeWay "p.a.c (Lp/a;)V".toList "q.C.func_2 (Lq/T;)V".toList
          "q.T.m (Lq/T;)V".toList] := by
      decide +kernel
    rw [entries, classes_smallTable]
    refine List.forall_mem_cons.mpr ⟨?_, List.forall_mem_singleton.mpr ?_⟩
    · refine ⟨⟨"p.a.<init>".toList, "q.C.<init>".toList, "q.T.<init>".toList⟩, "()V".toList,
        ⟨[], ⟨0, .primitive .void⟩⟩, by decide, by decide, by decide +kernel, by decide, by decide,
        by decide, .inl (by decide)⟩
    · have obfuscated : (Descriptor.obfuscate smallTable
          ⟨[⟨0, .reference "q/T".toList⟩], ⟨0, .primitive .void⟩⟩).render =
          "(Lp/a;)V".toList := by
        decide +kernel
      refine ⟨⟨"p.a.c".toList, "q.C.func_2".toList, "q.T.m".toList⟩, "(Lq/T;)V".toList,
        ⟨[⟨0, .reference "q/T".toList⟩], ⟨0, .primitive .void⟩⟩, ?_⟩
      rw [obfuscated]
      exact ⟨by decide, by decide, by decide +kernel, by decide, by decide, by decide,
        .inr (by decide)⟩

theorem loadText_restores_smallTable :
    (smallTable.entries .class_).length = 1 ∧
      Restored smallTable
        (loadText .empty (Listing.text (list smallTable)) (.empty true) true).table true := by
  have reachable : smallTable.Reachable :=
    ((((Table.Reachable.empty true).addThreeWay _ _ _ _ _).addThreeWay _ _ _ _ _).addThreeWay
      _ _ _ _ _ |>.addThreeWay _ _ _ _ _).addThreeWay _ _ _ _ _
  refine ⟨by rw [classes_smallTable]; rfl, ?_⟩
  exact (canonical_smallTable.loadText_restores reachable rfl .empty true).2

end SymbolMap.Outline
