import SymbolMap.Proofs.Outline.Additions
import SymbolMap.Proofs.Outline.Names
import SymbolMap.Proofs.Outline.Visits
import SymbolMap.Proofs.ThreeWay.Reloading

/-!
Tables that were loaded from outlines, written in the three-way flat dialect.

* `exists_of_mem_addTo`: each entry of the table is that of a declaration;
* `named_toEntry_iff`, `named_methodEntry_iff`: which of them can stand on a line;
* `alike_methodEntry_iff`: the descriptors of a method can be split from its names again, if the obfuscated
  one got no spaces;
* `threeWay_restores_outline_iff`: that is all that it takes for the table to be restored.
-/
namespace SymbolMap.Outline

open MemberName (splitDescriptor)
open ThreeWay (Alike Named names)

/-! ## Entries of declarations -/

theorem waits_of_neat {ds : List Declaration} (neat : ∀ d ∈ ds, d.Neat) :
    ∀ w ∈ (Declaration.batch ds).waiting, Batch.Waits w.1 w.2 := by
  intro w hw
  obtain ⟨d, hd, is⟩ := List.mem_filterMap.mp hw
  cases neat d hd with
  | names => cases is
  | method base =>
    cases is
    exact (Declaration.adds_method base _ _).2
  | access => cases is

/-- An entry of a table that was empty is that of a declaration, for a method with the classes of a table that
have been declared. -/
theorem exists_of_mem_addTo {ds : List Declaration} (neat : ∀ d ∈ ds, d.Neat) {overwrite : Bool}
    {kind : Kind} {e : Entry}
    (mem : e ∈ ((Declaration.batch ds).addTo (.empty true) overwrite).1.entries kind) :
    (∃ kind' n, .names kind' n ∈ ds ∧ kind'.base = kind.base ∧ e = n.toEntry) ∨
      ∃ kind' n d t, .method kind' n d ∈ ds ∧ kind'.base = kind.base ∧ e = Declaration.methodEntry n d t ∧
        t.Sound ∧ ∀ x ∈ t.entries .class_, ∃ kind' n', .names kind' n' ∈ ds ∧ x = n'.toEntry := by
  have known : ∀ {kind' e'}, (kind', e') ∈ (Declaration.batch ds).known →
      ∃ n, .names kind' n ∈ ds ∧ e' = n.toEntry := by
    intro kind' e' mem
    obtain ⟨d, hd, is⟩ := List.mem_filterMap.mp mem
    cases d with
    | names kind n =>
      cases is
      exact ⟨n, hd, rfl⟩
    | method kind n d => cases is
    | access t => cases is
  have start := Table.sound_of_empty true
  rw [Batch.fst_addTo overwrite _ start (waits_of_neat neat)] at mem
  dsimp only at mem
  rw [← Table.addAll_append] at mem
  obtain ⟨kind', e', given, base, rfl⟩ := Table.exists_of_mem_addAll mem
  rcases List.mem_append.mp given with first | later
  · obtain ⟨n, hd, rfl⟩ := known first
    exact .inl ⟨kind', n, hd, base, rfl⟩
  · obtain ⟨w, hw, is⟩ := List.mem_map.mp later
    obtain ⟨d, hd, waits⟩ := List.mem_filterMap.mp hw
    cases d with
    | names kind n => cases waits
    | access t => cases waits
    | method kind n d =>
      cases waits
      cases is
      refine .inr ⟨kind, n, d, _, hd, base, rfl, start.addAll overwrite _, fun x hx => ?_⟩
      obtain ⟨kind', e', given, _, rfl⟩ := Table.exists_of_mem_addAll hx
      obtain ⟨n', hd', rfl⟩ := known given
      exact ⟨kind', n', hd', rfl⟩

theorem named_toEntry_iff {n : Triple} (neat : n.Neat) : Named n.toEntry ↔ [] ∉ n.toList :=
  ⟨fun named none => named.filled [] none rfl,
    fun filled => ⟨fun _ hn => ne_of_mem_of_not_mem hn filled, neat.colon, neat.whole, neat.last⟩⟩

/-- A descriptor that is split from behind a name leaves something of the name. -/
theorem paired_append {name word : Text} (filled : name ≠ [])
    (some : (splitDescriptor (name ++ ' ' :: word)).2 ≠ none) : ThreeWay.Paired (name ++ ' ' :: word) := by
  refine ⟨?_, some⟩
  rcases MemberName.splitDescriptor_cases (name ++ ' ' :: word) with
    ⟨before, last, is, describes, split⟩ | ⟨_, split⟩
  · rw [split]
    rintro rfl
    obtain ⟨c, rest, rfl⟩ := List.exists_cons_of_ne_nil filled
    rw [List.cons_append, List.nil_append] at is
    obtain ⟨_, rfl⟩ := List.cons.inj is
    exact describes.2 (by simp)
  · rw [split] at some
    exact absurd rfl some

theorem names_methodEntry (n : Triple) (d : Descriptor) (t : Table) :
    names (Declaration.methodEntry n d t) =
      [n.obf ++ ' ' :: (d.obfuscate t).render, n.intermediate ++ ' ' :: d.render,
        n.deobf ++ ' ' :: d.render] :=
  rfl

section
variable {kind : Kind} {n : Triple} {d : Descriptor} (neat : Declaration.Neat (.method kind n d))
  (t : Table)
include neat

theorem alike_methodEntry_iff : Alike (Declaration.methodEntry n d t) ↔
    (splitDescriptor (Declaration.methodEntry n d t).obf).2 ≠ none := by
  cases neat with
  | method _ _ filled describes _ =>
    simp only [Triple.toList, List.mem_cons, List.not_mem_nil, or_false, not_or] at filled
    have last : ∀ name, (splitDescriptor (name ++ ' ' :: d.render)).2 ≠ none := by
      intro name
      rw [MemberName.splitDescriptor_of_describes name describes]
      exact Option.some_ne_none _
    unfold Alike
    rw [names_methodEntry]
    simp only [List.forall_mem_cons]
    constructor
    · rintro (⟨paired, _⟩ | ⟨_, _, single, _⟩)
      · exact paired.2
      · exact absurd single (last n.deobf)
    · intro some
      refine .inl ⟨paired_append (Ne.symm filled.1) some, ?_, ?_, by simp⟩
      · exact paired_append (Ne.symm filled.2.1) (last n.intermediate)
      · exact paired_append (Ne.symm filled.2.2) (last n.deobf)

/-- The classes of a descriptor are all that a colon can be in. -/
theorem named_methodEntry_iff (sound : t.Sound)
    (classes : ∀ x ∈ t.entries .class_, ':' ∉ x.obf ∧ '\n' ∉ x.obf) :
    Named (Declaration.methodEntry n d t) ↔ ':' ∉ (Declaration.methodEntry n d t).deobf := by
  cases neat with
  | method _ triple _ _ spoken =>
    constructor
    · intro named
      exact named.colon _ (by simp [names])
    · intro colon
      have own : ':' ∉ d.render := fun mem =>
        colon (List.mem_append_right n.deobf (List.mem_cons_of_mem ' ' mem))
      -- A class of the table brings neither a colon nor a line feed into the obfuscated descriptor.
      have renamed : ':' ∉ (d.obfuscate t).render ∧ '\n' ∉ (d.obfuscate t).render := by
        constructor
        · intro mem
          rcases Descriptor.mem_render_obfuscate sound mem with old | slash | ⟨x, hx, inside⟩
          · exact own old
          · cases slash
          · exact (classes x hx).1 inside
        · intro mem
          rcases Descriptor.mem_render_obfuscate sound mem with old | slash | ⟨x, hx, inside⟩
          · exact spoken.whole old
          · cases slash
          · exact (classes x hx).2 inside
      obtain ⟨colons, wholes, _⟩ := triple
      simp only [Triple.toList, List.forall_mem_cons] at colons wholes
      have described : d.render ≠ [] := by simp [Descriptor.render]
      constructor
      · simp [names_methodEntry]
      · simp [names_methodEntry, colons, own, renamed.1]
      · simp [names_methodEntry, wholes, spoken.whole, renamed.2]
      · intro c hc
        change c ∈ (n.deobf ++ ' ' :: d.render).getLast? at hc
        rw [Text.getLast?_append_cons n.deobf ' ' described] at hc
        exact spoken.last c hc

end

/-! ## Tables -/

theorem exists_of_load {disk : Disk} {text : Text} {t : Table} {overwrite : Bool}
    (loaded : (Dialect.outline.load disk text t overwrite).result = .ok ()) :
    ∃ ds, (∀ d ∈ ds, d.Neat) ∧ (Dialect.outline.load disk text t overwrite).table =
      ((Declaration.batch ds).addTo t overwrite).1 := by
  have rows : Dialect.outline.rows? text = none := rfl
  unfold Dialect.load at loaded ⊢
  rw [rows] at loaded ⊢
  dsimp only at loaded ⊢
  rw [if_pos rfl] at loaded ⊢
  unfold Load.andTell at loaded ⊢
  rcases run : loadText (.disk disk) text t overwrite with ⟨table, events, fault | report⟩
  · rw [run] at loaded
    cases loaded
  · obtain ⟨s, ds, read, is, _⟩ := of_loadFrom run
    exact ⟨ds, neat_of_readText read, is⟩

section
variable {ds : List Declaration} (neat : ∀ d ∈ ds, d.Neat) {overwrite : Bool}
include neat

/-- A method of the table is one that was declared, with a descriptor that has only declared classes in it. -/
theorem exists_of_mem_methods {kind : Kind} (base : kind.base = .method) {e : Entry}
    (mem : e ∈ ((Declaration.batch ds).addTo (.empty true) overwrite).1.entries kind) :
    ∃ kind' n d t, Declaration.Neat (.method kind' n d) ∧ e = Declaration.methodEntry n d t ∧ t.Sound ∧
      ∀ x ∈ t.entries .class_, ':' ∉ x.obf ∧ '\n' ∉ x.obf := by
  rcases exists_of_mem_addTo neat mem with ⟨kind', n, hd, same, _⟩ | ⟨kind', n, d, t, hd, _, is, sound, given⟩
  · cases neat _ hd with
    | names other => exact absurd (same.trans base) other
  · refine ⟨kind', n, d, t, neat _ hd, is, sound, fun x hx => ?_⟩
    obtain ⟨_, n', hd', rfl⟩ := given x hx
    cases neat _ hd' with
    | names _ triple => exact ⟨triple.colon n'.obf List.mem_cons_self, triple.whole n'.obf List.mem_cons_self⟩

/-- Any other entry can stand on a line, unless it is a package with an empty name. -/
theorem named_of_mem_others {kind : Kind} (base : kind.base ≠ .method) {e : Entry}
    (mem : e ∈ ((Declaration.batch ds).addTo (.empty true) overwrite).1.entries kind)
    (filled : kind.base = .package → [] ∉ names e) : Named e := by
  rcases exists_of_mem_addTo neat mem with ⟨kind', n, hd, same, rfl⟩ | ⟨kind', _, _, _, hd, same, _⟩
  · cases neat _ hd with
    | names _ triple named =>
      rw [named_toEntry_iff triple]
      by_cases package : kind' = .package
      · rw [package] at same
        exact filled same.symm
      · exact named package
  · cases neat _ hd with
    | method isMethod => exact absurd (same.symm.trans isMethod) base

end

/-- A table that was loaded from an outline is restored by the three-way flat dialect exactly if it has no package
with an empty name, no descriptors with colons, and no obfuscated ones that cannot be split from their names
again, as the name of a class brought a space in. -/
theorem threeWay_restores_outline_iff (disk : Disk) (text : Text) (overwrite : Bool)
    (loaded : (Dialect.outline.load disk text (.empty true) overwrite).result = .ok ()) :
    (Dialect.outline.load disk text (.empty true) overwrite).table.threeWay = true ∧
      ((Dialect.threeWay false).Restores
          (Dialect.outline.load disk text (.empty true) overwrite).table ↔
        (∀ e ∈ (Dialect.outline.load disk text (.empty true) overwrite).table.entries .package,
            [] ∉ names e) ∧
          ∀ e ∈ (Dialect.outline.load disk text (.empty true) overwrite).table.entries .method,
            ':' ∉ e.deobf ∧ (splitDescriptor e.obf).2 ≠ none) := by
  obtain ⟨ds, neat, is⟩ := exists_of_load loaded
  have start := Table.sound_of_empty true
  have sound := Batch.sound_addTo overwrite (Declaration.batch ds) start (waits_of_neat neat)
  rw [is]
  refine ⟨Batch.threeWay_addTo overwrite _ start (waits_of_neat neat), ?_⟩
  rw [ThreeWay.restores_iff sound]
  constructor
  · rintro ⟨named, alike⟩
    refine ⟨fun e mem none => (named .package e mem).filled [] none rfl, fun e mem => ?_⟩
    have line := named .method e mem
    have descriptors := alike e mem
    obtain ⟨_, n, d, t, method, rfl, _⟩ := exists_of_mem_methods neat rfl mem
    exact ⟨line.colon _ (by simp [names]), (alike_methodEntry_iff method t).mp descriptors⟩
  · rintro ⟨packages, methods⟩
    constructor
    · intro kind e mem
      have among : ∀ k : Kind, kind.base = k.base →
          e ∈ ((Declaration.batch ds).addTo (.empty true) overwrite).1.entries k := by
        intro k same
        rwa [← Table.entries_congr _ same]
      by_cases base : kind.base = .method
      · have written := methods e (among .method base)
        obtain ⟨_, n, d, t, method, rfl, sound, classes⟩ := exists_of_mem_methods neat base mem
        exact (named_methodEntry_iff method t sound classes).mpr written.1
      · refine named_of_mem_others neat base mem fun package => ?_
        exact packages e (among .package package)
    · intro e mem
      have written := methods e mem
      obtain ⟨_, n, d, t, method, rfl, _⟩ := exists_of_mem_methods neat rfl mem
      exact (alike_methodEntry_iff method t).mpr written.2

/-- Classes in each other's descriptors, a constructor, comments, changes of access and names with odd
characters. -/
def classesText : Text :=
  ["a:net.minecraft", "\tb:World # comment", "\t\tpublic!c:1_c:time",
    "\t\t<init> (Lnet/minecraft/World;)V", "\t\td:2_d:tick (Lnet/minecraft/World;[La(;)V", "\te (:Entity",
    "\t\tf:spawn it (Lnet/minecraft/World;)Lnet/minecraft/Entity;"].flatMap fun line => line.toList ++ ['\n']

def classesLoad : Load Unit := Dialect.outline.load (.ofFiles []) classesText (.empty true) false

theorem threeWay_restores_classes :
    classesLoad.result = .ok () ∧ classesLoad.table.size = 7 ∧
      (Dialect.threeWay false).Restores classesLoad.table := by
  have checked : classesLoad.result.isOk = true ∧ classesLoad.table.size = 7 := by decide +kernel
  have loaded : classesLoad.result = .ok () := eq_ok_of_isOk checked.1
  have restored := (threeWay_restores_outline_iff (.ofFiles []) classesText false loaded).2
  exact ⟨loaded, checked.2, restored.mpr (by decide +kernel)⟩

/-- A package of which the obfuscated name is the default one. -/
def defaultLoad : Load Unit := Dialect.outline.load (.ofFiles []) ":net\n".toList (.empty true) false

/-- It is written with an empty part, and such a line is refused. -/
theorem defaultLoad_not_restored :
    defaultLoad.result = .ok () ∧
      (Dialect.threeWay false).store defaultLoad.table = "PACKAGE::net:net\n".toList ∧
      ¬(Dialect.threeWay false).Restores defaultLoad.table := by
  have checked : defaultLoad.result.isOk = true := by decide +kernel
  refine ⟨eq_ok_of_isOk checked, by decide +kernel, fun restores => ?_⟩
  have read := congrArg Except.isOk (restores (.ofFiles []) false).1
  exact absurd read (by decide +kernel)

end SymbolMap.Outline
