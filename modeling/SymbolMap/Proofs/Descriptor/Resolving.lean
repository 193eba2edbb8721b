import SymbolMap.Proofs.Batch.Arrivals
import SymbolMap.Proofs.MemberLines.Names
import SymbolMap.Proofs.Outline.Names
import SymbolMap.Proofs.Outline.Visits

/-!
Descriptors that wait for the classes of a table.

* `Descriptor.obfuscate_of_classes`, `Descriptor.deobfuscate_of_classes`: nothing but the classes is asked for;
* `Entry.ObfuscatedBy`, `Entry.DeobfuscatedBy`: the names of a method as the classes of a table relate them;
* `Batch.Resolves`: what a load adds, with the methods as the classes in the end relate their names;
* `Outline.resolves_of_batch`, `MemberLines.resolves_of_batch`: so it is for the two dialects with descriptors
  that wait;
* `loads_resolve_by_final_classes`: the results together, for every load that succeeds.
-/
namespace SymbolMap

namespace Descriptor

variable {t u : Table} (classes : t.register? .class_ = u.register? .class_)
include classes

theorem obfuscate_of_classes (d : Descriptor) : d.obfuscate t = d.obfuscate u := by
  unfold obfuscate renameBy
  rw [classes]

theorem deobfuscate_of_classes (d : Descriptor) : d.deobfuscate t = d.deobfuscate u := by
  unfold deobfuscate renameBy
  rw [classes]

end Descriptor

namespace Entry

/-- The deobfuscated name ends in a text that is read as a descriptor, as does the intermediate one where the
table has such names, and the obfuscated name ends in what the classes of the table make of that descriptor. -/
def ObfuscatedBy (t : Table) (e : Entry) : Prop :=
  ∃ (n : Outline.Triple) (word : Text) (d : Descriptor), Descriptor.read word = .ok d ∧
    MemberName.splitDescriptor e.deobf = (n.deobf, some word) ∧
    e.intermediate.map MemberName.splitDescriptor =
      (if t.threeWay then some (n.intermediate, some word) else none) ∧
    e.obf = n.obf ++ ' ' :: (d.obfuscate t).render

/-- The obfuscated name ends in a text that is read as a descriptor, and the deobfuscated one in what the classes
of the table make of it. -/
def DeobfuscatedBy (t : Table) (e : Entry) : Prop :=
  ∃ (obf deobf word : Text) (d : Descriptor), Descriptor.read word = .ok d ∧
    MemberName.splitDescriptor e.obf = (obf, some word) ∧
    e.deobf = deobf ++ ' ' :: (d.deobfuscate t).render

end Entry

/-- A batch is added to a table: what is there then was there before or came in, and the methods that came in
are right. -/
structure Batch.Resolves (t : Table) (overwrite : Bool) (b : Batch) (right : Entry → Prop) : Prop where
  counted : (b.addTo t overwrite).2 = (arrivals overwrite t b.steps).length
  came : ∀ k, ∀ e ∈ (b.addTo t overwrite).1.entries k,
    e ∈ t.entries k ∨ ∃ kind, (kind, e) ∈ arrivals overwrite t b.steps ∧ kind.base = k.base
  methods : ∀ kind e, (kind, e) ∈ arrivals overwrite t b.steps → kind.base = .method → right e

theorem Batch.threeWay_addTo_eq (b : Batch) (t : Table) (overwrite : Bool) :
    (b.addTo t overwrite).1.threeWay = t.threeWay := by
  rw [fst_addTo_eq, threeWay_run]

/-- If only methods wait, and they wait for the classes, then it does not matter what else is added. -/
theorem Batch.resolves {b : Batch} {t : Table} {overwrite : Bool} {right : Entry → Prop}
    (known : ∀ kind e, (kind, e) ∈ b.known → kind.base ≠ .method)
    (asks : ∀ step ∈ b.waiting, AsksClasses step)
    (made : ∀ kind entryFor, (kind, entryFor) ∈ b.waiting →
      right ((entryFor (b.addTo t overwrite).1).conform (b.addTo t overwrite).1.threeWay)) :
    b.Resolves t overwrite right where
  counted := b.snd_addTo_eq overwrite t
  came _ _ mem := mem_entries_addTo mem
  methods kind e came base := by
    rcases of_mem_arrivals asks came with ⟨e', mem, _⟩ | ⟨entryFor, mem, rfl⟩
    · exact absurd base (known kind e' mem)
    · have right := made kind entryFor mem
      rwa [b.threeWay_addTo_eq] at right

/-- In a table that had no methods before, all of them are right. -/
theorem Batch.Resolves.of_no_methods {b : Batch} {t : Table} {overwrite : Bool} {right : Entry → Prop}
    (h : b.Resolves t overwrite right) (none : t.entries .method = []) :
    ∀ e ∈ (b.addTo t overwrite).1.entries .method, right e := by
  intro e mem
  rcases h.came .method e mem with old | ⟨kind, came, base⟩
  · rw [none] at old
    exact absurd old List.not_mem_nil
  · exact h.methods kind e came base

namespace Outline

open MemberName (splitDescriptor splitDescriptor_of_describes)

theorem obfuscatedBy_methodEntry (n : Triple) {d : Descriptor}
    (describes : MemberName.Describes d.render) (again : Descriptor.read d.render = .ok d) (t : Table) :
    ((Declaration.methodEntry n d t).conform t.threeWay).ObfuscatedBy t := by
  refine ⟨n, d.render, d, again, splitDescriptor_of_describes n.deobf describes, ?_, rfl⟩
  have split := splitDescriptor_of_describes n.intermediate describes
  cases is : t.threeWay with
  | false => rfl
  | true => exact congrArg some split

/-- What an outline declares is added with the descriptors that the classes of the table in the end give. -/
theorem resolves_of_batch {ds : List Declaration} (neat : ∀ d ∈ ds, d.Neat) (t : Table) (overwrite : Bool) :
    (Declaration.batch ds).Resolves t overwrite
      (Entry.ObfuscatedBy ((Declaration.batch ds).addTo t overwrite).1) := by
  apply Batch.resolves
  · intro kind e mem base
    obtain ⟨d, hd, is⟩ := List.mem_filterMap.mp mem
    cases neat d hd with
    | names other =>
      cases is
      exact other base
    | method | access => cases is
  · intro step mem
    obtain ⟨d, hd, is⟩ := List.mem_filterMap.mp mem
    cases neat d hd with
    | @method kind n d base =>
      cases is
      refine ⟨by rw [base]; decide, fun t u classes => ?_⟩
      change Declaration.methodEntry n d t = Declaration.methodEntry n d u
      unfold Declaration.methodEntry
      rw [Descriptor.obfuscate_of_classes classes]
    | names | access => cases is
  · intro kind entryFor mem
    obtain ⟨d, hd, is⟩ := List.mem_filterMap.mp mem
    cases neat d hd with
    | method base names filled describes spoken again =>
      cases is
      exact obfuscatedBy_methodEntry _ describes again _
    | names | access => cases is

end Outline

namespace MemberLines

/-- What member lines declare is added with the descriptors that the classes of the table in the end give. -/
theorem resolves_of_batch {ds : List Declaration} (neat : ∀ d ∈ ds, d.Neat) (t : Table) (overwrite : Bool) :
    (Declaration.batch ds).Resolves t overwrite
      (Entry.DeobfuscatedBy ((Declaration.batch ds).addTo t overwrite).1) := by
  apply Batch.resolves
  · intro kind e mem base
    obtain ⟨d, hd, is⟩ := List.mem_filterMap.mp mem
    cases neat d hd with
    | names other =>
      cases is
      exact other base
    | method => cases is
  · intro step mem
    obtain ⟨d, hd, is⟩ := List.mem_filterMap.mp mem
    cases neat d hd with
    | @method kind obf deobf d base =>
      cases is
      refine ⟨by rw [base]; decide, fun t u classes => ?_⟩
      change Declaration.methodEntry obf deobf d t = Declaration.methodEntry obf deobf d u
      unfold Declaration.methodEntry
      rw [Descriptor.deobfuscate_of_classes classes]
    | names => cases is
  · intro kind entryFor mem
    obtain ⟨d, hd, is⟩ := List.mem_filterMap.mp mem
    cases neat d hd with
    | @method kind obf deobf d _ describes again =>
      cases is
      exact ⟨obf, deobf, d.render, d, again, MemberName.splitDescriptor_of_describes obf describes, rfl⟩
    | names => cases is

theorem of_load {text : Text} {t t' : Table} {overwrite : Bool} {events : List Event}
    (h : load text t overwrite = ⟨t', events, .ok ()⟩) :
    ∃ ds, readText text = .ok ds ∧ t' = ((Declaration.batch ds).addTo t overwrite).1 := by
  unfold load at h
  split at h
  · cases h
  · next ds read =>
    cases h
    exact ⟨ds, read, rfl⟩

end MemberLines

/-- Wherever the classes of a descriptor are declared, before the method or after it, in an import or in the
table before, it is the classes of the table in the end that obfuscate it in an outline, whichever way its imports
are opened, and that deobfuscate it on member lines. That holds of each method that came in with the load, and all
that is in the table came in with it or was there before. -/
theorem loads_resolve_by_final_classes (t : Table) (overwrite : Bool) :
    (∀ i base seen text t' events r,
      Outline.loadFrom i base seen text t overwrite = ⟨t', events, .ok r⟩ →
      ∃ s ds, Outline.readText i base seen text = (s, .ok ds) ∧
        t' = ((Outline.Declaration.batch ds).addTo t overwrite).1 ∧
        (Outline.Declaration.batch ds).Resolves t overwrite (Entry.ObfuscatedBy t')) ∧
    (∀ (o : Opener) base seen text s ds,
      Outline.Reading o base {} { seen } (Text.numbered text) s (.ok ds) →
      (Outline.Declaration.batch ds).Resolves t overwrite
        (Entry.ObfuscatedBy ((Outline.Declaration.batch ds).addTo t overwrite).1)) ∧
    ∀ text t' events, MemberLines.load text t overwrite = ⟨t', events, .ok ()⟩ →
      ∃ ds, MemberLines.readText text = .ok ds ∧
        t' = ((MemberLines.Declaration.batch ds).addTo t overwrite).1 ∧
        (MemberLines.Declaration.batch ds).Resolves t overwrite (Entry.DeobfuscatedBy t') := by
  refine ⟨?_, ?_, ?_⟩
  · intro i base seen text t' events r loaded
    obtain ⟨s, ds, read, rfl, _⟩ := Outline.of_loadFrom loaded
    exact ⟨s, ds, read, rfl, Outline.resolves_of_batch (Outline.neat_of_readText read) t overwrite⟩
  · intro o base seen text s ds reading
    exact Outline.resolves_of_batch reading.neat t overwrite
  · intro text t' events loaded
    obtain ⟨ds, read, rfl⟩ := MemberLines.of_load loaded
    exact ⟨ds, read, rfl, MemberLines.resolves_of_batch (MemberLines.neat_of_readText read) t overwrite⟩

/-- A table that knows a class by a name that it loses to an imported one. -/
def staleTable : Table :=
  ((Table.empty true).addThreeWay .class_ "z".toList "p.D".toList "p.D".toList false).1

/-- A method before the import of the two classes that its descriptor refers to. -/
def forwardText : Text := "a:p\n\tb:C\n\t\tm:run (Lp/D;Lp/E;)V\n>>x\n".toList

def forwardFiles : Importer := .memory [(⟨"x".toList⟩, "a:p\n\tc:D\n\td:E\n".toList)]

def forwardLoad : Load Outline.Report :=
  Outline.loadText forwardFiles forwardText staleTable true

/-- A method before the lines of the two classes that its descriptor refers to. -/
def forwardLines : Text :=
  "CLASS a/b p/C\n\tMETHOD m run (La/c;La/d;)V\nCLASS a/c p/D\nCLASS a/d p/E\n".toList

def forwardLinesLoad : Load Unit := MemberLines.load forwardLines (.empty false) false

theorem loads_resolve_by_final_classes_forward :
    (∃ r, forwardLoad.result = .ok r) ∧
    forwardLoad.table.entries .class_ = [.threeWay "a.b".toList "p.C".toList "p.C".toList,
      .threeWay "a.c".toList "p.D".toList "p.D".toList, .threeWay "a.d".toList "p.E".toList "p.E".toList] ∧
    forwardLoad.table.entries .method = [.threeWay "a.b.m (La/c;La/d;)V".toList
      "p.C.run (Lp/D;Lp/E;)V".toList "p.C.run (Lp/D;Lp/E;)V".toList] ∧
    (∀ e ∈ forwardLoad.table.entries .method, e.ObfuscatedBy forwardLoad.table) ∧
    (∃ s ds, Outline.Reading forwardFiles.fetch none {} { seen := [] } (Text.numbered forwardText) s (.ok ds) ∧
      (Outline.Declaration.batch ds).Resolves staleTable true (Entry.ObfuscatedBy forwardLoad.table)) ∧
    forwardLinesLoad.result = .ok () ∧
    forwardLinesLoad.table.entries .method =
      [.twoWay "a.b.m (La/c;La/d;)V".toList "p.C.run (Lp/D;Lp/E;)V".toList] ∧
    ∀ e ∈ forwardLinesLoad.table.entries .method, e.DeobfuscatedBy forwardLinesLoad.table := by
  have noMethods : staleTable.entries .method = [] := by decide +kernel
  have loads : ∃ r, forwardLoad.result = .ok r := error?_eq_none_iff.mp (by decide +kernel)
  have lines : forwardLinesLoad.result = .ok () := toOption_eq_some_iff.mp (by decide +kernel)
  obtain ⟨r, loaded⟩ := loads
  obtain ⟨named, opened, _⟩ := loads_resolve_by_final_classes staleTable true
  obtain ⟨s, ds, read, is, resolves⟩ := named forwardFiles none [] forwardText forwardLoad.table
    forwardLoad.events r (congrArg (Load.mk forwardLoad.table forwardLoad.events) loaded)
  have reading := Outline.reading_readText forwardFiles none [] forwardText
  rw [read] at reading
  have again := opened forwardFiles.fetch none [] forwardText s ds reading
  rw [← is] at again
  have resolved := resolves.of_no_methods noMethods
  rw [← is] at resolved
  have resolved' : ∀ e ∈ forwardLinesLoad.table.entries .method,
      e.DeobfuscatedBy forwardLinesLoad.table := by
    obtain ⟨ds, _, is, resolves⟩ := (loads_resolve_by_final_classes (.empty false) false).2.2
      forwardLines forwardLinesLoad.table forwardLinesLoad.events
      (congrArg (Load.mk forwardLinesLoad.table forwardLinesLoad.events) lines)
    have all := resolves.of_no_methods rfl
    rwa [← is] at all
  exact ⟨⟨r, loaded⟩, by decide +kernel, by decide +kernel, resolved, ⟨s, ds, reading, again⟩, lines,
    by decide +kernel, resolved'⟩

end SymbolMap
