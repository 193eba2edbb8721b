import Mathlib.Data.List.Forall2
import SymbolMap.Proofs.Descriptor.Grammar
import SymbolMap.Proofs.Descriptor.Renaming
import SymbolMap.Proofs.Table.Lookup

/-!
Descriptors that are renamed by a table and renamed back.

* `Descriptor.Renamed`: a descriptor that is another one but for its classes;
* `mapClasses_mapClasses`, `WellFormed.mapClasses`, `renamed_mapClasses`: what a renaming of classes comes to;
* `newName_newName`: a class has its name again, if the table knows it or nothing else has taken its name;
* `Table.Reachable.descriptors_come_back`: so it is with whole descriptors, in both directions.
-/
namespace SymbolMap

/-- The name of a class after a renaming. -/
def newName (rename : Text → Option Text) (className : Text) : Text :=
  (rename className).getD className

/-- The same letter, or a class in the place of another one. -/
inductive ElementType.Renamed (new : Text → Text → Prop) : ElementType → ElementType → Prop
  | primitive (p : Primitive) : Renamed new (.primitive p) (.primitive p)
  | reference {old name : Text} : new old name → Renamed new (.reference old) (.reference name)

namespace TypeToken

def Renamed (new : Text → Text → Prop) (a b : TypeToken) : Prop :=
  a.depth = b.depth ∧ a.element.Renamed new b.element

variable {rename back : Text → Option Text} {t : TypeToken}

theorem mapClass_reference (depth : Nat) (className : Text) :
    mapClass rename ⟨depth, .reference className⟩ = ⟨depth, .reference (newName rename className)⟩ := rfl

theorem mapClass_mapClass (h : ∀ c ∈ t.className?, newName back (newName rename c) = c) :
    (t.mapClass rename).mapClass back = t := by
  obtain ⟨depth, element⟩ := t
  cases element with
  | primitive p => rfl
  | reference className => rw [mapClass_reference, mapClass_reference, h className rfl]

theorem WellFormed.mapClass (formed : t.WellFormed)
    (names : ∀ c ∈ t.className?, newName rename c ≠ [] ∧ ';' ∉ newName rename c) :
    (t.mapClass rename).WellFormed := by
  obtain ⟨depth, element⟩ := t
  cases element with
  | primitive p => exact formed
  | reference className =>
    rw [mapClass_reference]
    exact ⟨names className rfl, nofun⟩

theorem isVoid_mapClass (rename : Text → Option Text) (t : TypeToken) : (t.mapClass rename).isVoid = t.isVoid := by
  obtain ⟨depth, element⟩ := t
  cases element with
  | primitive p => rfl
  | reference className =>
    rw [mapClass_reference]
    simp [isVoid]

theorem renamed_mapClass {new : Text → Text → Prop} (h : ∀ c ∈ t.className?, new c (newName rename c)) :
    t.Renamed new (t.mapClass rename) := by
  obtain ⟨depth, element⟩ := t
  cases element with
  | primitive p => exact ⟨rfl, .primitive p⟩
  | reference className => exact ⟨rfl, .reference (h className rfl)⟩

end TypeToken

namespace Descriptor

open MemberName (dotted slashed)

/-- As many parameters, and each type as it was but for the class in it. -/
def Renamed (new : Text → Text → Prop) (a b : Descriptor) : Prop :=
  List.Forall₂ (TypeToken.Renamed new) a.params b.params ∧ a.result.Renamed new b.result

theorem mem_classes {d : Descriptor} {c : Text} :
    c ∈ d.classes ↔ (∃ t ∈ d.params, c ∈ t.className?) ∨ c ∈ d.result.className? := by
  simp [classes, tokens, List.mem_filterMap]

variable {rename back : Text → Option Text} {d : Descriptor}

/-- What holds of the classes of a descriptor holds of those in each of its types. -/
theorem forall_classes_iff {P : Text → Prop} :
    (∀ c ∈ d.classes, P c) ↔ (∀ t ∈ d.params, ∀ c ∈ t.className?, P c) ∧ ∀ c ∈ d.result.className?, P c := by
  simp only [mem_classes]
  constructor
  · intro all
    exact ⟨fun t ht c hc => all c (.inl ⟨t, ht, hc⟩), fun c hc => all c (.inr hc)⟩
  · rintro ⟨params, result⟩ c (⟨t, ht, hc⟩ | hc)
    · exact params t ht c hc
    · exact result c hc

theorem mapClasses_mapClasses (h : ∀ c ∈ d.classes, newName back (newName rename c) = c) :
    (d.mapClasses rename).mapClasses back = d := by
  obtain ⟨params, result⟩ := forall_classes_iff.mp h
  unfold mapClasses
  rw [List.map_map, TypeToken.mapClass_mapClass result]
  congr 1
  exact (List.map_congr_left fun t ht => TypeToken.mapClass_mapClass (params t ht)).trans (List.map_id' _)

theorem WellFormed.mapClasses (formed : d.WellFormed)
    (names : ∀ c ∈ d.classes, newName rename c ≠ [] ∧ ';' ∉ newName rename c) :
    (d.mapClasses rename).WellFormed := by
  obtain ⟨params, result⟩ := forall_classes_iff.mp names
  refine ⟨List.forall_mem_map.mpr fun t ht => ?_, formed.2.mapClass result⟩
  rw [TypeToken.isVoid_mapClass]
  exact ⟨(formed.1 t ht).1.mapClass (params t ht), (formed.1 t ht).2⟩

theorem renamed_mapClasses {new : Text → Text → Prop} (h : ∀ c ∈ d.classes, new c (newName rename c)) :
    d.Renamed new (d.mapClasses rename) := by
  obtain ⟨params, result⟩ := forall_classes_iff.mp h
  refine ⟨?_, TypeToken.renamed_mapClass result⟩
  unfold mapClasses
  rw [List.forall₂_map_right_iff, List.forall₂_same]
  exact fun t ht => TypeToken.renamed_mapClass (params t ht)

theorem WellFormed.classes (formed : d.WellFormed) : ∀ c ∈ d.classes, c ≠ [] ∧ ';' ∉ c := by
  have names : ∀ t : TypeToken, t.WellFormed → ∀ c ∈ t.className?, c ≠ [] ∧ ';' ∉ c := by
    rintro ⟨depth, primitive | reference⟩ formed c is
    · cases is
    · cases is
      exact formed.1
  exact forall_classes_iff.mpr ⟨fun t ht => names t (formed.1 t ht).1, names d.result formed.2⟩

/-! ## By the classes of a table -/

/-- The class is known under its name in dots and gets the other one in slashes, or is unknown and stays. -/
def NamedBy (classes : List Entry) (key name : Entry → Text) (old new : Text) : Prop :=
  (∃ e ∈ classes, key e = dotted old ∧ new = slashed (name e)) ∨
    (∀ e ∈ classes, key e ≠ dotted old) ∧ new = old

/-- The name of a class that a descriptor can refer to with slashes for its dots. -/
def IsClassName (name : Text) : Prop := name ≠ [] ∧ '/' ∉ name ∧ ';' ∉ name

instance (name : Text) : Decidable (IsClassName name) :=
  inferInstanceAs (Decidable (_ ∧ _ ∧ _))

section
variable {t : Table} (h : t.Sound) {find? : Register → Text → Option Entry} {key : Entry → Text}
  (finds : ∀ r : Register, r.Sound → ∀ x e, find? r x = some e ↔ e ∈ r.toList ∧ key e = x)
include h finds

theorem namedBy_newName (name : Entry → Text) (c : Text) :
    NamedBy (t.entries .class_) key name c (newName (renameBy find? name t) c) := by
  have iff := renameBy_eq_some_iff h finds name c
  unfold newName
  cases is : renameBy find? name t c with
  | some new =>
    obtain ⟨e, he, known, same⟩ := (iff new).mp is
    exact .inl ⟨e, he, known, same.symm⟩
  | none =>
    refine .inr ⟨fun e he known => ?_, rfl⟩
    have found := (iff (slashed (name e))).mpr ⟨e, he, known, rfl⟩
    rw [is] at found
    cases found

variable {back? : Register → Text → Option Entry} {name : Entry → Text}
  (backs : ∀ r : Register, r.Sound → ∀ x e, back? r x = some e ↔ e ∈ r.toList ∧ name e = x)
include backs

/-- A class gets its name back, unless it kept one that is another's on the other side. -/
theorem newName_newName {c : Text} (noDot : '.' ∉ c) (noSlash : ∀ e ∈ t.entries .class_, '/' ∉ name e)
    (free : (∃ e ∈ t.entries .class_, key e = dotted c) ∨ ∀ e ∈ t.entries .class_, name e ≠ dotted c) :
    newName (renameBy back? key t) (newName (renameBy find? name t) c) = c := by
  rcases namedBy_newName h finds name c with ⟨e, he, known, new⟩ | ⟨unknown, same⟩
  · rw [new]
    have own : dotted (slashed (name e)) = name e := MemberName.dotted_slashed (noSlash e he)
    have found : renameBy back? key t (slashed (name e)) = some c :=
      (renameBy_eq_some_iff h backs key _ c).mpr ⟨e, he, own.symm, by rw [known, MemberName.slashed_dotted noDot]⟩
    rw [newName, found]
    rfl
  · rw [same]
    have apart := free.resolve_left fun ⟨e, he, known⟩ => unknown e he known
    rcases namedBy_newName h backs key c with ⟨e, he, taken, _⟩ | ⟨_, same⟩
    · exact absurd taken (apart e he)
    · exact same

/-- The text of a renamed descriptor is read as that, and the other renaming gives the first one back. -/
theorem renamed_comes_back {d : Descriptor} (formed : d.WellFormed) (noDots : ∀ c ∈ d.classes, '.' ∉ c)
    (names : ∀ e ∈ t.entries .class_, IsClassName (name e))
    (free : ∀ c ∈ d.classes,
      (∃ e ∈ t.entries .class_, key e = dotted c) ∨ ∀ e ∈ t.entries .class_, name e ≠ dotted c) :
    let renamed := d.mapClasses (renameBy find? name t)
    read renamed.render = .ok renamed ∧ d.Renamed (NamedBy (t.entries .class_) key name) renamed ∧
      renamed.mapClasses (renameBy back? key t) = d := by
  have given := formed.classes
  refine ⟨read_render (formed.mapClasses fun c hc => ?_), renamed_mapClasses fun c _ => ?_,
    mapClasses_mapClasses fun c hc => ?_⟩
  · rcases namedBy_newName h finds name c with ⟨e, he, _, new⟩ | ⟨_, same⟩
    · obtain ⟨filled, _, noEnd⟩ := names e he
      rw [new]
      refine ⟨by simpa [slashed, Text.replaceChar] using filled, fun inside => ?_⟩
      rcases MemberName.mem_slashed inside with slash | own
      · cases slash
      · exact noEnd own
    · rw [same]
      exact given c hc
  · exact namedBy_newName h finds name c
  · exact newName_newName h finds backs (noDots c hc) (fun e he => (names e he).2.1) (free c hc)

end

/-- The text of a descriptor is renamed into that of another one, and that back into the first text. -/
def ComesBack (forth back : Text → Except InvalidDescriptor Text) (new : Text → Text → Prop) (text : Text)
    (d : Descriptor) : Prop :=
  ∃ text' d', forth text = .ok text' ∧ read text' = .ok d' ∧ d.Renamed new d' ∧ back text' = .ok text

theorem comesBack_of_renamed {text : Text} {d : Descriptor} (valid : read text = .ok d)
    {rename back : Descriptor → Descriptor} {new : Text → Text → Prop}
    (renamed : read (rename d).render = .ok (rename d) ∧ d.Renamed new (rename d) ∧ back (rename d) = d) :
    ComesBack (fun text => (read text).map fun d => (rename d).render)
      (fun text => (read text).map fun d => (back d).render) new text d := by
  obtain ⟨again, alike, same⟩ := renamed
  refine ⟨(rename d).render, rename d, ?_, again, alike, ?_⟩
  · dsimp only
    rw [valid]
    rfl
  · dsimp only
    rw [again, Except.map, same, render_of_read valid]

end Descriptor

namespace Table

open Descriptor
open MemberName (dotted)

/-- If each class of a descriptor is known on this side, or its name is not one of the other side, then the names
of the other side can be put in and taken out again. -/
theorem Reachable.descriptors_come_back {t : Table} (h : t.Reachable)
    (names : ∀ e ∈ t.entries .class_, IsClassName e.obf ∧ IsClassName e.deobf) {text : Text} {d : Descriptor}
    (valid : read text = .ok d) (noDots : ∀ c ∈ d.classes, '.' ∉ c) :
    ((∀ c ∈ d.classes, t.hasDeobf .class_ (dotted c) ∨ ¬t.hasObf .class_ (dotted c)) →
      ComesBack (obfuscateText t) (deobfuscateText t) (NamedBy (t.entries .class_) (·.deobf) (·.obf)) text d) ∧
    ((∀ c ∈ d.classes, t.hasObf .class_ (dotted c) ∨ ¬t.hasDeobf .class_ (dotted c)) →
      ComesBack (deobfuscateText t) (obfuscateText t) (NamedBy (t.entries .class_) (·.obf) (·.deobf)) text d) := by
  have sound := h.sound
  have answers := sound.answers .class_
  have formed := wellFormed_of_read valid
  have byDeobf : ∀ r : Register, r.Sound → ∀ x e, r.findDeobf? x = some e ↔ e ∈ r.toList ∧ e.deobf = x :=
    fun _ hr _ _ => hr.findDeobf?_eq_some_iff
  have byObf : ∀ r : Register, r.Sound → ∀ x e, r.findObf? x = some e ↔ e ∈ r.toList ∧ e.obf = x :=
    fun _ hr _ _ => hr.findObf?_eq_some_iff
  simp only [answers.hasObf, answers.hasDeobf, not_exists, not_and]
  refine ⟨fun free => comesBack_of_renamed valid ?_, fun free => comesBack_of_renamed valid ?_⟩
  · exact renamed_comes_back sound byDeobf byObf formed noDots (fun e he => (names e he).1) free
  · exact renamed_comes_back sound byObf byDeobf formed noDots (fun e he => (names e he).2) free

/-- Two classes that have each other's names, and a third one. -/
def swappedClasses : Table :=
  let one := ((empty false).addTwoWay .class_ "a.b".toList "x.y".toList false).1
  let two := (one.addTwoWay .class_ "x.y".toList "a.b".toList false).1
  (two.addTwoWay .class_ "c".toList "net.World".toList false).1

/-- A descriptor that refers to the two classes, to `third` and to an unknown class. -/
def swappedDescriptor (first third last : Text) : Descriptor where
  params := [⟨0, .reference first⟩, ⟨2, .reference third⟩, ⟨0, .primitive .int⟩, ⟨0, .reference "foo/Bar".toList⟩]
  result := ⟨0, .reference last⟩

theorem descriptors_come_back_swapped :
    let d := swappedDescriptor "a/b".toList "net/World".toList "x/y".toList
    let d' := swappedDescriptor "x/y".toList "c".toList "a/b".toList
    let entries := swappedClasses.entries .class_
    swappedClasses.Reachable ∧ d.obfuscate swappedClasses = d' ∧
    ComesBack (obfuscateText swappedClasses) (deobfuscateText swappedClasses) (NamedBy entries (·.deobf) (·.obf))
      "(La/b;[[Lnet/World;ILfoo/Bar;)Lx/y;".toList d ∧
    ComesBack (deobfuscateText swappedClasses) (obfuscateText swappedClasses) (NamedBy entries (·.obf) (·.deobf))
      "(Lx/y;[[Lc;ILfoo/Bar;)La/b;".toList d' := by
  dsimp only
  have reachable : swappedClasses.Reachable :=
    (((Reachable.empty false).addTwoWay ..).addTwoWay ..).addTwoWay ..
  have names : ∀ e ∈ swappedClasses.entries .class_, IsClassName e.obf ∧ IsClassName e.deobf := by decide +kernel
  refine ⟨reachable, by decide +kernel, ?_, ?_⟩
  · exact (reachable.descriptors_come_back names (toOption_eq_some_iff.mp (by decide +kernel))
      (by decide +kernel)).1 (by decide +kernel)
  · exact (reachable.descriptors_come_back names (toOption_eq_some_iff.mp (by decide +kernel))
      (by decide +kernel)).2 (by decide +kernel)

end Table
end SymbolMap
