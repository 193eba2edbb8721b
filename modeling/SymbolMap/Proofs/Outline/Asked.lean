import SymbolMap.Proofs.Outline.Names
import SymbolMap.Proofs.Outline.Opening
import SymbolMap.Proofs.Outline.Order
import SymbolMap.Proofs.Outline.Sorts
import SymbolMap.Proofs.Table.Lookup
import SymbolMap.Proofs.Table.Size

/-!
The changes of access that a load reports.

* `Transformation.Belongs`: a change of access is asked of a class for its members, or of a member;
* `Yields.belongs`: so it is for one line;
* `TakenIn`, `Reading.declaredIn`: what is collected was declared in a text that was imported as a whole;
* `loadFrom_access_belongs`: so each change belongs to something that was collected with it, and what it belongs
  to is found in the table if all of it could be added and kept.
-/
namespace SymbolMap.Outline

/-! ## One line -/

/-- What a change of access is asked of: a class for all its members of a kind, or one member. -/
inductive Transformation.Belongs (t : Transformation) : Declaration → Prop
  | class_ {n : Triple} : t.isGlobal = true → t.target = n.deobf → Belongs t (.names .class_ n)
  | field {n : Triple} : t.isGlobal = false → t.kind = .field → t.target = n.deobf →
      Belongs t (.names .field n)
  | method {n : Triple} {kind : Kind} {d : Descriptor} : t.isGlobal = false → t.kind = kind →
      kind.base = .method → t.target = n.deobf ++ ' ' :: d.render → Belongs t (.method kind n d)

theorem of_mem_classChanges {directive : Option Text} {target : Text} {changes : List Transformation}
    (h : classChanges directive target = some changes) :
    ∀ t ∈ changes, t.isGlobal = true ∧ t.target = target := by
  cases directive with
  | none =>
    cases h
    exact fun t mem => absurd mem List.not_mem_nil
  | some directive =>
    change Access.readClass directive target = some changes at h
    unfold Access.readClass at h
    dsimp only at h
    split at h
    · cases h
    · obtain ⟨kinds, _, rfl⟩ := Option.map_eq_some_iff.mp h
      exact List.forall_mem_map.mpr fun kind _ => ⟨rfl, rfl⟩

theorem of_mem_memberChanges {directive : Option Text} {target : Text} {kind : Kind} :
    ∀ t ∈ memberChanges directive target kind, t.isGlobal = false ∧ t.kind = kind ∧ t.target = target :=
  List.forall_mem_map.mpr fun _ _ => ⟨rfl, rfl, rfl⟩

theorem Yields.belongs {c c' : Context} {line : Text} {changes : List Transformation} {d : Declaration}
    (h : Yields c line c' changes d) : ∀ t ∈ changes, t.Belongs d := by
  intro t mem
  cases h with
  | package => exact absurd mem List.not_mem_nil
  | class_ _ _ _ asked =>
    obtain ⟨isGlobal, target⟩ := of_mem_classChanges asked t mem
    exact .class_ isGlobal target
  | field =>
    obtain ⟨isMember, kind, target⟩ := of_mem_memberChanges t mem
    exact .field isMember kind target
  | method _ _ sort other =>
    obtain ⟨isMember, kind, target⟩ := of_mem_memberChanges t mem
    have base := Declaration.base_memberKind (sort ▸ other)
    rw [sort] at base
    exact .method isMember kind base target

theorem mem_transformations_iff {ds : List Declaration} {t : Transformation} :
    t ∈ ds.filterMap Declaration.transformation? ↔ .access t ∈ ds := by
  rw [List.mem_filterMap]
  constructor
  · rintro ⟨d, mem, is⟩
    cases d with
    | access t' => exact Option.some.inj is ▸ mem
    | names | method => cases is
  · exact fun mem => ⟨_, mem, rfl⟩

/-- Each change of access belongs to something that is declared with it. -/
def Asked (ds : List Declaration) : Prop :=
  ∀ t, .access t ∈ ds → ∃ d ∈ ds, t.Belongs d

theorem asked_nil : Asked [] := fun _ mem => absurd mem List.not_mem_nil

theorem Asked.append {a b : List Declaration} (ha : Asked a) (hb : Asked b) : Asked (a ++ b) := by
  intro t mem
  rcases List.mem_append.mp mem with first | second
  · obtain ⟨d, hd, belongs⟩ := ha t first
    exact ⟨d, List.mem_append_left b hd, belongs⟩
  · obtain ⟨d, hd, belongs⟩ := hb t second
    exact ⟨d, List.mem_append_right a hd, belongs⟩

theorem asked_of_ownLine {c c' : Context} {line : Text} {ds : List Declaration}
    (h : ownLine c line = .ok (c', ds)) : Asked ds := by
  rcases yields_of_ownLine h with ⟨_, _, rfl⟩ | ⟨changes, d, yields, rfl⟩
  · exact asked_nil
  · intro t mem
    refine ⟨d, List.mem_append_right _ (List.mem_singleton_self d), ?_⟩
    rcases List.mem_append.mp mem with change | last
    · obtain ⟨t', mem', is⟩ := List.mem_map.mp change
      cases is
      exact yields.belongs t mem'
    · cases List.mem_singleton.mp last
      cases yields

/-! ## Lines and their imports -/

/-- The texts that a text takes in: itself, and each file that one of them imports if it can be opened and all of
its lines can be read. -/
inductive TakenIn (o : Opener) (base : Option Path) (text : Text) : Option Path → Text → Prop
  | main : TakenIn o base text base text
  | inner {from_ : Option Path} {x name : Text} {source : Source} {own : List (List Declaration)} :
      TakenIn o base text from_ x → name ∈ importedNames x → o from_ name = .ok source →
      ownLines {} (Text.numbered source.text) = .ok own → TakenIn o base text source.base source.text

/-- One of the texts that are taken in declares it on a line of its own. -/
def DeclaredIn (o : Opener) (base : Option Path) (text : Text) (d : Declaration) : Prop :=
  ∃ from_ x own, TakenIn o base text from_ x ∧ ownLines {} (Text.numbered x) = .ok own ∧ d ∈ own.flatten

namespace Reading

variable {o : Opener} {base from_ : Option Path} {c : Context} {s s' : Imports} {lines : List Line}
  {r : Except FormatError (List Declaration)}

/-- The lines themselves can be read then, and what they do not declare was declared in a text that one of them
takes in. -/
theorem declaredIn {text : Text} (h : Reading o from_ c s lines s' r) :
    ∀ ds, r = .ok ds → ∃ own, ownLines c lines = .ok own ∧
      ∀ x, TakenIn o base text from_ x → Within (importedNames x) lines →
        ∀ d ∈ ds, d ∈ own.flatten ∨ DeclaredIn o base text d := by
  induction h with
  | done =>
    rintro _ ⟨⟩
    exact ⟨[], rfl, fun _ _ _ d mem => absurd mem List.not_mem_nil⟩
  | invalid => nofun
  | @declared _ _ _ _ _ line lines here _ _ own _ ih =>
    intro ds is
    obtain ⟨rest, read, rfl⟩ := map_eq_ok_iff.mp is
    obtain ⟨later, lines, declared⟩ := ih rest read
    refine ⟨here :: later, by rw [ownLines_of_ok own, lines]; rfl, fun x taken named d mem => ?_⟩
    rw [List.flatten_cons]
    rcases List.mem_append.mp mem with first | second
    · exact .inl (List.mem_append_left _ first)
    · exact (declared x taken (List.forall_mem_cons.mp named).2 d second).imp_left (List.mem_append_right here)
  | repeated is _ _ ih | unopened is _ _ _ ih =>
    intro ds read
    obtain ⟨later, lines, declared⟩ := ih ds read
    refine ⟨[] :: later, by rw [ownLines_of_ok (ownLine_of_inclusion is), lines]; rfl, ?_⟩
    exact fun x taken named => declared x taken (List.forall_mem_cons.mp named).2
  | @opened _ _ _ _ _ line lines name source read _ is _ fetched _ _ first later =>
    intro ds all
    obtain ⟨rest, others, rfl⟩ := map_eq_ok_iff.mp all
    obtain ⟨own, lines, declared⟩ := later rest others
    refine ⟨[] :: own, by rw [ownLines_of_ok (ownLine_of_inclusion is), lines]; rfl, fun x taken named d mem => ?_⟩
    obtain ⟨here, below⟩ := List.forall_mem_cons.mp named
    rcases List.mem_append.mp mem with imported | other
    · refine .inr ?_
      cases read with
      | error e => exact absurd imported List.not_mem_nil
      | ok inner =>
        obtain ⟨inside, readable, given⟩ := first inner rfl
        have within := TakenIn.inner taken (here name is) fetched readable
        exact (given source.text within (named_numbered fun _ => id) d imported).elim
          (fun mem => ⟨source.base, source.text, inside, within, readable, mem⟩) id
    · exact declared x taken below d other

end Reading

/-- Whatever is opened, all that is collected from a text was declared in one that it takes in. -/
theorem declaredIn_of_reading {o : Opener} {base : Option Path} {seen : List Text} {text : Text}
    {s : Imports} {ds : List Declaration}
    (h : Reading o base {} { seen } (Text.numbered text) s (.ok ds)) :
    ∀ d ∈ ds, DeclaredIn o base text d := by
  obtain ⟨own, lines, declared⟩ := h.declaredIn ds rfl
  intro d mem
  exact (declared text .main (named_numbered fun _ => id) d mem).elim
    (fun here => ⟨base, text, own, .main, lines, here⟩) id

theorem asked_of_reading {o : Opener} {base : Option Path} {seen : List Text} {text : Text}
    {s : Imports} {ds : List Declaration}
    (h : Reading o base {} { seen } (Text.numbered text) s (.ok ds)) : Asked ds :=
  h.collects (q := fun _ => True) asked_nil (fun _ _ => Asked.append) trivial
    (fun _ _ _ _ _ _ own => ⟨trivial, asked_of_ownLine own⟩) trivial whole_of_mem_numbered ds rfl

/-- An import that fails declares nothing, whatever it has imported itself by then. -/
theorem importFile_of_failed {i : Importer} {n : Nat} {base : Option Path} {name : Text} {s s' : Imports}
    {fault : ImportFault} (failed : (importFile i n base name s).1 = s'.fail name fault) :
    (importFile i n base name s).2 = [] := by
  cases n with
  | zero => rfl
  | succ n =>
    by_cases old : name ∈ s.seen
    · rw [importFile_of_seen old]
    · cases fetched : i.fetch base name with
      | error e => rw [importFile_of_unopened old fetched]
      | ok source =>
        rw [importFile_of_opened old fetched] at failed ⊢
        rcases read : readLines (importFile i n source.base) {} #[] (s.opened base name)
          (Text.numbered source.text) with ⟨u, e | declared⟩
        · rfl
        · rw [read] at failed
          exact absurd failed (Imports.told_ne_fail nofun)

/-! ## Tables -/

/-- The kind of the entry that a change of access is asked of. -/
def Transformation.holder (t : Transformation) : Kind :=
  if t.isGlobal then .class_ else t.kind

/-- What a change belongs to is added under its target, whatever the table gives for the other names. -/
theorem Transformation.Belongs.exists_step {t : Transformation} {d : Declaration} (h : t.Belongs d)
    {ds : List Declaration} (mem : d ∈ ds) :
    ∃ step ∈ (Declaration.batch ds).steps, step.1 = t.holder ∧ ∀ u, (step.2 u).deobf = t.target := by
  have known {kind : Kind} {n : Triple} (mem : .names kind n ∈ ds) :
      (kind, fun _ => n.toEntry) ∈ (Declaration.batch ds).steps :=
    List.mem_append_left _ (List.mem_map.mpr ⟨_, List.mem_filterMap.mpr ⟨_, mem, rfl⟩, rfl⟩)
  unfold holder
  cases h with
  | class_ isGlobal target => exact ⟨_, known mem, (if_pos isGlobal).symm, fun _ => target.symm⟩
  | field isMember kind target =>
    refine ⟨_, known mem, ?_, fun _ => target.symm⟩
    rw [isMember, kind]
    rfl
  | method isMember kind _ target =>
    refine ⟨_, List.mem_append_right _ (List.mem_filterMap.mpr ⟨_, mem, rfl⟩), ?_, fun _ => target.symm⟩
    rw [isMember, kind]
    rfl

/-- Where all that was collected is added to an empty table and nothing has to go again, the table has what the
changes of access are asked of. -/
theorem hasDeobf_of_room {ds : List Declaration} (asked : Asked ds) {w overwrite : Bool}
    (all : ((Declaration.batch ds).addTo (.empty w) overwrite).2 = (Declaration.batch ds).steps.length)
    (room : Batch.departures overwrite (.empty w) (Declaration.batch ds).steps = []) :
    ∀ t ∈ ds.filterMap Declaration.transformation?,
      ((Declaration.batch ds).addTo (.empty w) overwrite).1.hasDeobf t.holder t.target = true := by
  intro t mem
  obtain ⟨d, mem, belongs⟩ := asked t (mem_transformations_iff.mp mem)
  obtain ⟨step, hs, kind, deobf⟩ := belongs.exists_step mem
  have sound := Table.sound_of_empty w
  rw [Batch.snd_addTo_eq] at all
  obtain ⟨u, there⟩ := (Batch.mem_entries_run_of_room overwrite sound all room).2 step hs
  rw [Batch.fst_addTo_eq, ← kind]
  have answers := (Batch.sound_run overwrite sound (Declaration.batch ds).steps).answers step.1
  exact (answers.hasDeobf t.target).mpr ⟨_, there, deobf u⟩

/-! ## Loads -/

/-- Each change of access that a load reports belongs to a class or to a member that it has collected, and was
asked for in a text that was taken in as a whole, whichever way files are opened. Where all that was collected can
be added to an empty table, and nothing has to go again, the table has what the changes are asked of. -/
theorem loadFrom_access_belongs (base : Option Path) (seen : List Text) (text : Text) :
    (∀ (o : Opener) s ds, Reading o base {} { seen } (Text.numbered text) s (.ok ds) →
        Asked ds ∧ ∀ d ∈ ds, DeclaredIn o base text d) ∧
    (∀ (i : Importer) n base name (s s' : Imports) fault,
      (importFile i n base name s).1 = s'.fail name fault → (importFile i n base name s).2 = []) ∧
    ∀ (i : Importer) t overwrite r, (loadFrom i base seen text t overwrite).result = .ok r → ∃ ds,
      (readText i base seen text).2 = .ok ds ∧
      (loadFrom i base seen text t overwrite).table = ((Declaration.batch ds).addTo t overwrite).1 ∧
      r.transformations = ds.filterMap Declaration.transformation? ∧
      (∀ x ∈ r.transformations, ∃ d ∈ ds, x.Belongs d) ∧ (∀ d ∈ ds, DeclaredIn i.fetch base text d) ∧
      ((∃ w, t = .empty w) →
        ((Declaration.batch ds).addTo t overwrite).2 = (Declaration.batch ds).steps.length →
        (overwrite = false ∨ Batch.departures overwrite t (Declaration.batch ds).steps = []) →
        ∀ x ∈ r.transformations,
          (loadFrom i base seen text t overwrite).table.hasDeobf x.holder x.target = true) := by
  refine ⟨fun o s ds reading => ⟨asked_of_reading reading, declaredIn_of_reading reading⟩,
    fun i n base name s s' fault => importFile_of_failed, fun i t overwrite r loaded => ?_⟩
  obtain ⟨ds, read⟩ := exists_readText_of_loadFrom loaded
  have reading := reading_readText i base seen text
  rw [read] at reading
  obtain ⟨r', loaded', collected⟩ := loadFrom_of_readText t overwrite read
  obtain rfl := Except.ok.inj (loaded'.symm.trans loaded)
  have asked := asked_of_reading reading
  have table : (loadFrom i base seen text t overwrite).table = ((Declaration.batch ds).addTo t overwrite).1 :=
    table_loadFrom_of_readText read
  rw [table, collected]
  refine ⟨ds, read, rfl, rfl, fun x mem => asked x (mem_transformations_iff.mp mem),
    declaredIn_of_reading reading, ?_⟩
  · rintro ⟨w, rfl⟩ all room
    have stays : Batch.departures overwrite (.empty w) (Declaration.batch ds).steps = [] := by
      rcases room with rfl | room
      · exact Batch.departures_of_not_overwriting _ _
      · exact room
    exact hasDeobf_of_room asked all stays

/-- A class and its members with changes of access, and between them two imports. The second one fails after it
has imported another file. -/
def askingText : Text := "a:p\n\tpublicf!b:C\n\t\tprivate!c:m ()V\n>>x\n>>y\n\t\tprotected!d:f\n".toList

def askingFiles : List (Path × Text) :=
  [(⟨['x']⟩, "q:r\n\t-fm!e:E\n".toList), (⟨['y']⟩, ">>z\n\tu:U\n".toList),
    (⟨['z']⟩, "s:t\n\tpublicf!v:V\n".toList)]

theorem loadFrom_access_belongs_beside_failure :
    let i := Importer.memory askingFiles
    let l := loadFrom i none [] askingText (.empty true) false
    ∃ r ds, l.result = .ok r ∧ (readText i none [] askingText).2 = .ok ds ∧
      r.transformations = [⟨"public".toList, "p.C".toList, .field, true⟩,
        ⟨"private".toList, "p.C.m ()V".toList, .method, false⟩, ⟨"-f".toList, "r.E".toList, .method, true⟩,
        ⟨"protected".toList, "p.C.f".toList, .field, false⟩] ∧
      Asked ds ∧ (∀ d ∈ ds, DeclaredIn i.fetch none askingText d) ∧
      (∀ x ∈ r.transformations, l.table.hasDeobf x.holder x.target = true) ∧
      (importFile i 2 none ['y'] { seen := [] }).2 = [] := by
  intro i l
  have loads : ∃ r, l.result = .ok r := error?_eq_none_iff.mp (by decide +kernel)
  obtain ⟨r, loaded⟩ := loads
  obtain ⟨reads, fails, reports⟩ := loadFrom_access_belongs none [] askingText
  obtain ⟨ds, read, _, collected, _, _, found⟩ := reports i (.empty true) false r loaded
  have reading := reading_readText i none [] askingText
  rw [read] at reading
  obtain ⟨asked, declared⟩ := reads i.fetch _ ds reading
  have changes : ((readText i none [] askingText).2.toOption.map (·.filterMap Declaration.transformation?)) =
      some [⟨"public".toList, "p.C".toList, .field, true⟩,
        ⟨"private".toList, "p.C.m ()V".toList, .method, false⟩, ⟨"-f".toList, "r.E".toList, .method, true⟩,
        ⟨"protected".toList, "p.C.f".toList, .field, false⟩] := by
    decide +kernel
  have counted : ((readText i none [] askingText).2.toOption.map fun ds =>
      decide (((Declaration.batch ds).addTo (.empty true) false).2 = (Declaration.batch ds).steps.length)) =
        some true := by
    decide +kernel
  rw [read] at changes counted
  have failed : (importFile i 2 none ['y'] { seen := [] }).1 =
      (importFile i 1 (some ⟨[]⟩) ['z'] (Imports.opened { seen := [] } none ['y'])).1.fail ['y']
        (.invalid ⟨⟨2, "\tu:U".toList⟩, .classBeforePackage⟩) := by
    rfl
  refine ⟨r, ds, loaded, read, collected.trans (Option.some.inj changes), asked, declared, ?_, ?_⟩
  · exact found ⟨true, rfl⟩ (of_decide_eq_true (Option.some.inj counted)) (.inl rfl)
  · exact fails i 2 none ['y'] _ _ _ failed

/-- A class whose obfuscated name is given to another one later. -/
def evictingText : Text := "a:p\n\tpublicf!b:C\n\tb:D\n".toList

/-- Where entries may overwrite each other, all of them come in, and still a class that was asked to change its
access is not there in the end. -/
theorem overwriting_load_evicts_holder :
    let l := loadFrom .empty none [] evictingText (.empty true) true
    ∃ r ds, l.result = .ok r ∧ (readText .empty none [] evictingText).2 = .ok ds ∧
      ((Declaration.batch ds).addTo (.empty true) true).2 = (Declaration.batch ds).steps.length ∧
      ∃ x ∈ r.transformations, l.table.hasDeobf x.holder x.target = false := by
  intro l
  have reads : (readText .empty none [] evictingText).2 =
      .ok [.names .package ⟨['a'], ['p'], ['p']⟩, .access ⟨"public".toList, "p.C".toList, .field, true⟩,
        .names .class_ ⟨"a.b".toList, "p.C".toList, "p.C".toList⟩,
        .names .class_ ⟨"a.b".toList, "p.D".toList, "p.D".toList⟩] :=
    toOption_eq_some_iff.mp (by decide +kernel)
  obtain ⟨r, loaded, collected⟩ := loadFrom_of_readText (.empty true) true reads
  refine ⟨r, _, loaded, reads, by decide +kernel, ⟨"public".toList, "p.C".toList, .field, true⟩, ?_, ?_⟩
  · rw [collected]
    exact List.mem_cons_self
  · decide +kernel

end SymbolMap.Outline
