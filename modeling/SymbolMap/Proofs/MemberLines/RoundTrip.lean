import Mathlib.Data.List.Nodup
import Mathlib.Data.List.Perm.Basic
import SymbolMap.Proofs.Grouping
import SymbolMap.Proofs.Listing
import SymbolMap.Proofs.MemberLines.Canonical
import SymbolMap.Proofs.Table.Lookup

/-!
Tables that are written with a line for each member and loaded again.

* `Canonical.declares`: the lines of a canonical table declare `declarations`;
* `Canonical.declared_classes`, `Canonical.declared_perm`: those are the entries of the table;
* `Canonical.load_restores`: an empty table gets all of them.
-/
namespace SymbolMap.MemberLines

open Batch (asked)
open Declaration (source)

def memberPairs (t : Table) : List (Text × Member) :=
  t.members.filterMap fun (kind, e) => Member.ofEntry kind e

/-- The classes that only members name. -/
def unmapped (t : Table) : List Text :=
  (membersByClass t).keys.toList.filter fun o => !t.hasObf .class_ o

/-- The classes that are written, in their order. -/
def owners (t : Table) : List Text := (t.entries .class_).map (·.obf) ++ unmapped t

def memberDeclarations (t : Table) (o : Text) : List Declaration :=
  ((membersByClass t).group o).flatMap (Member.declared o)

/-- What the lines of a table declare. -/
def declarations (t : Table) : List Declaration :=
  ((t.entries .class_).flatMap fun e =>
      .names .class_ e.obf e.deobf :: memberDeclarations t e.obf) ++
    (unmapped t).flatMap (memberDeclarations t)

theorem flatMap_unmappedClass (t : Table) :
    ((membersByClass t).toList.filter fun (o, _) => !t.hasObf .class_ o).flatMap
        (fun (o, group) => unmappedClass o group) =
      (unmapped t).flatMap fun o => unmappedClass o ((membersByClass t).group o) := by
  unfold unmapped Groups.toList
  rw [List.filter_map, List.flatMap_map]
  rfl

namespace Canonical

variable {t : Table} (h : Canonical t) (sound : t.Sound)
include h sound

theorem restores_of_mem {o : Text} {m : Member} (mem : m ∈ (membersByClass t).group o) :
    ∃ kind e, (kind, e) ∈ t.members ∧ Member.Restores t kind e o m := by
  obtain ⟨⟨kind, e⟩, he, is⟩ := List.mem_filterMap.mp (Groups.mem_group_ofList.mp mem)
  obtain ⟨o', m', restores⟩ := h.restores sound he
  obtain ⟨rfl, rfl⟩ := Prod.mk.inj (Option.some.inj (restores.written.symm.trans is))
  exact ⟨kind, e, he, restores⟩

omit h in
theorem mem_unmapped {o : Text} : o ∈ unmapped t ↔
    o ∈ (memberPairs t).map (·.1) ∧ ∀ c ∈ t.entries .class_, c.obf ≠ o := by
  have keys : (membersByClass t).keys.toList = firsts ((memberPairs t).map (·.1)) :=
    Groups.keys_ofList (memberPairs t)
  have mapped := sound.hasObf_iff .class_ o
  unfold unmapped
  rw [List.mem_filter, keys, mem_firsts, Bool.not_eq_true', Bool.eq_false_iff, ne_eq, mapped]
  simp

theorem declares_members {o d : Text} (calls : Calls t o d) :
    Declares (some ⟨o, d⟩)
      (Listing.lineTexts (((membersByClass t).group o).map (memberPiece d)))
      (some ⟨o, d⟩) (memberDeclarations t o) := by
  rw [List.map_eq_flatMap, Listing.lineTexts_flatMap]
  refine Reads.flatMap_const fun m hm => ?_
  obtain ⟨kind, e, _, restores⟩ := h.restores_of_mem sound hm
  obtain ⟨text, is, line⟩ := (restores.readable d calls).declared_line o
  rw [is]
  exact .single line

theorem declares_mapped {e : Entry} (mem : e ∈ t.entries .class_) (s : Option Owner) :
    Declares s (Listing.lineTexts (mappedClass (membersByClass t) e)) (some ⟨e.obf, e.deobf⟩)
      (.names .class_ e.obf e.deobf :: memberDeclarations t e.obf) := by
  obtain ⟨named, plain⟩ := h.classes e mem
  have members := h.declares_members sound (.inl ⟨e, mem, rfl, rfl⟩)
  exact Reads.cons (declared_mapped named.toPlain plain named.start s) members

theorem declares_unmapped {o : Text} (mem : o ∈ unmapped t) (s : Option Owner) :
    Declares s (Listing.lineTexts (unmappedClass o ((membersByClass t).group o))) (some ⟨o, o⟩)
      (memberDeclarations t o) := by
  obtain ⟨has, none⟩ := (mem_unmapped sound).mp mem
  obtain ⟨⟨o, m⟩, hp, rfl⟩ := List.mem_map.mp has
  have grouped : m ∈ (membersByClass t).group o := Groups.mem_group_ofList.mpr hp
  obtain ⟨kind, e, _, restores⟩ := h.restores_of_mem sound grouped
  have members := h.declares_members sound (.inr ⟨none, rfl⟩)
  have whole :=
    Reads.cons (declared_unmapped restores.owner.toPlain restores.owner.start s) members
  rw [List.nil_append] at whole
  exact whole

/-- The lines of the table declare its classes, and the members of those and of other classes. -/
theorem declares : ∃ s, Declares none (Listing.lineTexts (list t)) s (declarations t) := by
  unfold list declarations
  dsimp only
  rw [flatMap_unmappedClass, Listing.lineTexts_append, Listing.lineTexts_append,
    Listing.lineTexts_map_told, List.nil_append, Listing.lineTexts_flatMap,
    Listing.lineTexts_flatMap]
  obtain ⟨s, _, mapped⟩ := Reads.flatMap (p := fun _ => True)
    (fun e he s _ => ⟨_, trivial, h.declares_mapped sound he s⟩) (s := none) trivial
  obtain ⟨s', _, rest⟩ := Reads.flatMap (p := fun _ => True)
    (fun o ho s _ => ⟨_, trivial, h.declares_unmapped sound ho s⟩) (s := s) trivial
  exact ⟨s', mapped.append rest⟩

theorem readText_text : readText (Listing.text (list t)) = .ok (declarations t) := by
  obtain ⟨s, all⟩ := h.declares sound
  have lines : Text.lines (Listing.text (list t)) = Listing.lineTexts (list t) :=
    Listing.lines_text (all.forall_mem fun _ _ _ _ first => first.whole)
  have texts : (Text.meaningful (Listing.text (list t))).map (·.text) =
      Listing.lineTexts (list t) := by
    rw [Text.map_text_meaningful, lines]
    rw [lines]
    exact all.forall_mem fun _ _ _ _ first => first.isComment_eq_false
  unfold readText
  rw [all.readLines texts, List.nil_append]

/-! ## What the lines add -/

theorem readable_of_mem {o : Text} {m : Member} (mem : m ∈ (membersByClass t).group o) :
    ∃ d, m.Readable d := by
  obtain ⟨kind, e, _, restores⟩ := h.restores_of_mem sound mem
  by_cases mapped : ∃ c ∈ t.entries .class_, c.obf = o
  · obtain ⟨c, hc, is⟩ := mapped
    exact ⟨c.deobf, restores.readable c.deobf (.inl ⟨c, hc, is, rfl⟩)⟩
  · refine ⟨o, restores.readable o (.inr ⟨fun c hc is => mapped ⟨c, hc, is⟩, rfl⟩)⟩

theorem adds : ∀ d ∈ declarations t, source.Adds d := by
  have members : ∀ o, ∀ d ∈ memberDeclarations t o, source.Adds d := by
    intro o d hd
    obtain ⟨m, hm, hd⟩ := List.mem_flatMap.mp hd
    obtain ⟨_, readable⟩ := h.readable_of_mem sound hm
    exact readable.adds o d hd
  intro d hd
  rcases List.mem_append.mp hd with mapped | rest
  · obtain ⟨e, _, hd⟩ := List.mem_flatMap.mp mapped
    rcases List.mem_cons.mp hd with rfl | hd
    · exact Declaration.adds_names (by decide) e.obf e.deobf
    · exact members e.obf d hd
  · obtain ⟨o, _, hd⟩ := List.mem_flatMap.mp rest
    exact members o d hd

theorem flatMap_memberDeclarations {k : Kind} (notField : k.base ≠ .field)
    (notMethod : k.base ≠ .method) (o : Text) :
    (memberDeclarations t o).flatMap (source.entriesOf t k) = [] := by
  unfold memberDeclarations
  rw [List.flatMap_assoc]
  refine List.flatMap_eq_nil_iff.mpr fun m hm => ?_
  obtain ⟨_, readable⟩ := h.readable_of_mem sound hm
  exact readable.flatMap_eq_nil o t notField notMethod

/-- The classes are declared in their order. -/
theorem declared_classes (twoWay : t.threeWay = false) :
    (declarations t).flatMap (source.entriesOf t .class_) = t.entries .class_ := by
  have members := h.flatMap_memberDeclarations sound (k := .class_) (by decide) (by decide)
  have kept : ∀ e ∈ t.entries .class_, (Declaration.names .class_ e.obf e.deobf ::
      memberDeclarations t e.obf).flatMap (source.entriesOf t .class_) = [e] := by
    intro e he
    have entry : Entry.twoWay e.obf e.deobf = e := by
      have form := sound.conform_entries he
      rwa [twoWay] at form
    rw [List.flatMap_cons, members, List.append_nil]
    change [Entry.twoWay e.obf e.deobf] = [e]
    rw [entry]
  unfold declarations
  rw [List.flatMap_append, List.flatMap_assoc, List.flatMap_assoc, List.flatMap_congr kept,
    List.flatMap_eq_nil_iff.mpr fun o _ => members o, List.append_nil, List.flatMap_singleton']

theorem declared_packages : (declarations t).flatMap (source.entriesOf t .package) = [] := by
  have members := h.flatMap_memberDeclarations sound (k := .package) (by decide) (by decide)
  unfold declarations
  rw [List.flatMap_append, List.flatMap_assoc, List.flatMap_assoc,
    List.flatMap_eq_nil_iff.mpr, List.flatMap_eq_nil_iff.mpr fun o _ => members o, List.append_nil]
  intro e _
  rw [List.flatMap_cons, members, List.append_nil]
  rfl

omit h in
theorem nodup_owners : (owners t).Nodup := by
  refine List.nodup_append.mpr ⟨(sound.sound_register .class_).nodup, ?_, ?_⟩
  · refine List.Nodup.filter _ ?_
    unfold membersByClass
    rw [Groups.keys_ofList]
    exact nodup_firsts _
  · intro o mapped o' rest same
    obtain ⟨c, hc, is⟩ := List.mem_map.mp mapped
    exact ((mem_unmapped sound).mp rest).2 c hc (is.trans same)

omit h in
theorem mem_owners {p : Text × Member} (mem : p ∈ memberPairs t) : p.1 ∈ owners t := by
  by_cases mapped : ∃ c ∈ t.entries .class_, c.obf = p.1
  · obtain ⟨c, hc, is⟩ := mapped
    exact List.mem_append_left _ (List.mem_map.mpr ⟨c, hc, is⟩)
  · refine List.mem_append_right _ ((mem_unmapped sound).mpr ⟨List.mem_map_of_mem mem, ?_⟩)
    exact fun c hc is => mapped ⟨c, hc, is⟩

/-- The members of all classes, mapped or not, declare the members of the table. -/
theorem declared_perm {k : Kind} (isMember : k = .field ∨ k = .method) :
    ((declarations t).flatMap (source.entriesOf t k)).Perm (t.entries k) := by
  have restores : ∀ p ∈ t.members, ∃ q, Member.ofEntry p.1 p.2 = some q ∧
      (Member.declared q.1 q.2).flatMap (source.entriesOf t k) = asked k p.1 p.2 := by
    intro p hp
    obtain ⟨o, m, restores⟩ := h.restores sound hp
    exact ⟨(o, m), restores.written, restores.declares k⟩
  have grouped := source.members_perm Member.declared (nodup_owners sound)
    (fun _ hp => mem_owners sound hp) restores
  unfold owners at grouped
  rw [Batch.flatMap_members_asked t isMember, List.flatMap_append, List.flatMap_map] at grouped
  have noClass : ∀ e : Entry, source.entriesOf t k (.names .class_ e.obf e.deobf) = [] := by
    intro e
    rcases isMember with rfl | rfl
    · rfl
    · rfl
  unfold declarations
  rw [List.flatMap_append, List.flatMap_assoc, List.flatMap_assoc]
  simp only [List.flatMap_cons, noClass, List.nil_append]
  unfold memberDeclarations
  simp only [List.flatMap_assoc]
  exact grouped

/-! ## The round trip -/

end Canonical

/-- The lines of a canonical table are loaded without a fault, and give an empty table the same classes in
the same order and the same members, whether or not it may overwrite. -/
theorem Canonical.load_restores {t : Table} (h : Canonical t) (reachable : t.Reachable)
    (twoWay : t.threeWay = false) (overwrite : Bool) :
    let loaded := load (Listing.text (list t)) (.empty false) overwrite
    loaded.result = .ok () ∧
      loaded.table.entries .package = [] ∧
      loaded.table.entries .class_ = t.entries .class_ ∧
      (loaded.table.entries .field).Perm (t.entries .field) ∧
      (loaded.table.entries .method).Perm (t.entries .method) := by
  have sound := reachable.sound
  have adds := h.adds sound
  have classes := h.declared_classes sound twoWay
  have classesPerm := List.Perm.of_eq classes
  have given : ∀ k, ((declarations t).flatMap (source.entriesOf t k)).Perm (t.entries k) →
      ((Declaration.batch (declarations t)).addTo (.empty false) overwrite).1.entries k =
        (declarations t).flatMap (source.entriesOf t k) := by
    intro k same
    have all := Batch.Source.entries_addTo_of_perm adds sound classesPerm overwrite same
    rw [twoWay] at all
    exact all
  have packages :=
    Batch.Source.entries_addTo adds sound classesPerm overwrite .package
  rw [h.declared_packages sound, twoWay] at packages
  unfold load
  rw [h.readText_text sound]
  dsimp only
  refine ⟨rfl, packages, (given .class_ classesPerm).trans classes, ?_, ?_⟩
  · have same := h.declared_perm sound (.inl rfl)
    rw [given .field same]
    exact same
  · have same := h.declared_perm sound (.inr rfl)
    rw [given .method same]
    exact same

/-- A class with its constructor, and a field of a class without a new name that moves to the first one. -/
def smallTable : Table :=
  let t := (Table.empty false).addTwoWay .class_ ['a'] "q.A".toList false
  let t := t.1.addTwoWay .field "p.b.c".toList "q.A.n".toList false
  (t.1.addTwoWay .method "a.<init> (La;)V".toList "q.A.<init> (Lq/A;)V".toList false).1

theorem classes_smallTable : smallTable.entries .class_ = [.twoWay ['a'] "q.A".toList] := by
  decide +kernel

theorem methods_smallTable : smallTable.entries .method =
    [.twoWay "a.<init> (La;)V".toList "q.A.<init> (Lq/A;)V".toList] := by
  decide +kernel

theorem canonical_smallTable : Canonical smallTable where
  classes := by
    rw [classes_smallTable]
    decide
  fields := by
    have entries : smallTable.entries .field = [.twoWay "p.b.c".toList "q.A.n".toList] := by
      decide +kernel
    rw [entries]
    refine List.forall_mem_singleton.mpr ⟨"p.b".toList, ['c'], "q.A".toList, ['n'], ?_, by decide⟩
    exact ⟨by decide, by decide, by decide, by decide, fun is => absurd is (by decide)⟩
  methods := by
    have deobfuscated : (Descriptor.deobfuscate smallTable
        ⟨[⟨0, .reference ['a']⟩], ⟨0, .primitive .void⟩⟩).render = "(Lq/A;)V".toList := by
      decide +kernel
    have calls : Calls smallTable ['a'] "q.A".toList := by
      refine .inl ⟨.twoWay ['a'] "q.A".toList, ?_, rfl, rfl⟩
      rw [classes_smallTable]
      exact List.mem_singleton.mpr rfl
    rw [methods_smallTable]
    refine List.forall_mem_singleton.mpr ⟨['a'], MemberName.init, "q.A".toList, MemberName.init,
      "(La;)V".toList, ⟨[⟨0, .reference ['a']⟩], ⟨0, .primitive .void⟩⟩, ?_, by decide +kernel,
      (by decide : Text.IsWord "(La;)V".toList).2, by decide +kernel, ?_⟩
    · exact ⟨by decide, Member.local_init, by decide, Member.local_init, fun _ => ⟨rfl, calls⟩⟩
    · rw [deobfuscated]
      rfl

theorem load_restores_smallTable :
    let loaded := load (Listing.text (list smallTable)) (.empty false) false
    loaded.result = .ok () ∧ (loaded.table.entries .method).Perm
      [.twoWay "a.<init> (La;)V".toList "q.A.<init> (Lq/A;)V".toList] := by
  have reachable : smallTable.Reachable :=
    (((Table.Reachable.empty false).addTwoWay _ _ _ _).addTwoWay _ _ _ _).addTwoWay _ _ _ _
  have restored := canonical_smallTable.load_restores reachable rfl false
  rw [methods_smallTable] at restored
  exact ⟨restored.1, restored.2.2.2.2⟩

end SymbolMap.MemberLines
