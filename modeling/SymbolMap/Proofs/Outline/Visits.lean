import SymbolMap.Dialect.Outline.Loading
import SymbolMap.Proofs.Outcome
import SymbolMap.Proofs.Outline.Importing

/-!
The files that a named load collects.

* `Visit`, `Reaches`: the files that import lines lead to, each under the name by which it is opened;
* `Accounts`: what was imported between two states is what the visited files declare themselves, and no
  name is visited twice;
* `importFile_accounts`: that holds of every import;
* `loadNamed_collects`: a load by name collects no file twice that is reached under one name only.
-/
namespace SymbolMap.Outline

/-- A file that is opened: by what name, at what path, and what is found there. -/
structure Visit where
  name : Text
  path : Path
  source : Source

/-- The files that a file leads to. Names are resolved from the base of the file that they stand in. -/
inductive Reaches (i : Importer) (main : Text) : Visit → Prop
  | start {source : Source} : i.fetch none main = .ok source → Reaches i main ⟨main, ⟨main⟩, source⟩
  | next {v : Visit} {name : Text} {source : Source} : Reaches i main v →
      name ∈ importedNames v.source.text → i.fetch v.source.base name = .ok source →
      Reaches i main ⟨name, Path.resolve v.source.base name, source⟩

/-- Imports nothing. -/
def skip : Text → Import := fun _ s => (s, [])

/-- What the lines of a text declare that import nothing. -/
def ownDeclarations (text : Text) : List Declaration :=
  (readLines skip {} #[] { seen := [] } (Text.numbered text)).2.toOption.getD []

/-- What the files declare themselves. -/
def collected (visits : List Visit) : List Declaration :=
  visits.flatMap fun v => ownDeclarations v.source.text

/-- What was imported between two states is what the visited files declare themselves, though in the order
of the lines, and all of them were visited under new names. -/
structure Accounts (i : Importer) (main : Text) (s s' : Imports) (visits : List Visit)
    (ds : List Declaration) : Prop where
  reached : ∀ v ∈ visits, Reaches i main v
  nodup : (visits.map (·.name)).Nodup
  fresh : ∀ v ∈ visits, v.name ∉ s.seen
  seen : ∀ v ∈ visits, v.name ∈ s'.seen
  grown : s.seen <+: s'.seen
  declared : ds.Perm (collected visits)

namespace Accounts

variable {i : Importer} {main : Text} {s s' s'' : Imports} {visits visits' : List Visit}
  {ds ds' : List Declaration}

theorem nothing (grown : s.seen <+: s'.seen) : Accounts i main s s' [] [] where
  reached _ hv := absurd hv List.not_mem_nil
  nodup := List.nodup_nil
  fresh _ hv := absurd hv List.not_mem_nil
  seen _ hv := absurd hv List.not_mem_nil
  grown := grown
  declared := .nil

theorem append (h : Accounts i main s s' visits ds) (h' : Accounts i main s' s'' visits' ds') :
    Accounts i main s s'' (visits ++ visits') (ds ++ ds') where
  reached := List.forall_mem_append.mpr ⟨h.reached, h'.reached⟩
  nodup := by
    rw [List.map_append, List.nodup_append]
    refine ⟨h.nodup, h'.nodup, fun name hn name' hn' same => ?_⟩
    obtain ⟨v, hv, rfl⟩ := List.mem_map.mp hn
    obtain ⟨v', hv', rfl⟩ := List.mem_map.mp hn'
    exact h'.fresh v' hv' (same ▸ h.seen v hv)
  fresh := List.forall_mem_append.mpr
    ⟨h.fresh, fun v hv old => h'.fresh v hv (h.grown.subset old)⟩
  seen := List.forall_mem_append.mpr ⟨fun v hv => h'.grown.subset (h.seen v hv), h'.seen⟩
  grown := h.grown.trans h'.grown
  declared := by
    unfold collected
    rw [List.flatMap_append]
    exact h.declared.append h'.declared

/-- What is told makes no difference. -/
theorem told (h : Accounts i main s s' visits ds) (e : Event) :
    Accounts i main s (s'.told e) visits ds :=
  ⟨h.reached, h.nodup, h.fresh, h.seen, h.grown, h.declared⟩

/-- A file that was opened under a new name, and what was imported inside of it. -/
theorem visit {v : Visit} (reached : Reaches i main v) (new : v.name ∉ s.seen) {u : Imports}
    (sees : u.seen = s.seen ++ [v.name]) (h : Accounts i main u s' visits ds)
    (declared : ds'.Perm (ownDeclarations v.source.text ++ ds)) :
    Accounts i main s s' (v :: visits) ds' where
  reached := List.forall_mem_cons.mpr ⟨reached, h.reached⟩
  nodup := by
    rw [List.map_cons, List.nodup_cons]
    refine ⟨fun mem => ?_, h.nodup⟩
    obtain ⟨w, hw, same⟩ := List.mem_map.mp mem
    apply h.fresh w hw
    rw [sees, same]
    exact List.mem_append_right _ List.mem_cons_self
  fresh := by
    refine List.forall_mem_cons.mpr ⟨new, fun w hw old => h.fresh w hw ?_⟩
    rw [sees]
    exact List.mem_append_left _ old
  seen := by
    refine List.forall_mem_cons.mpr ⟨h.grown.subset ?_, h.seen⟩
    rw [sees]
    exact List.mem_append_right _ List.mem_cons_self
  grown := (sees ▸ List.prefix_append s.seen [v.name]).trans h.grown
  declared := declared.trans (h.declared.append_left _)

end Accounts

/-! ## Lines -/

section
variable {i : Importer} {main : Text} {f : Text → Import} {c c' : Context} {s s' : Imports}

/-- A line either declares something itself or imports a file. -/
theorem readLine_accounts {text : Text} {ds : List Declaration}
    (imports : ∀ name, Item.read text = .ok (.inclusion name) →
      ∃ visits, Accounts i main s (f name s).1 visits (f name s).2)
    (h : readLine f c s text = (s', .ok (c', ds))) :
    ∃ own visits imported, (∀ u, readLine skip c u text = (u, .ok (c', own))) ∧
      Accounts i main s s' visits imported ∧ ds = own ++ imported := by
  unfold readLine at h ⊢
  split at h
  · cases h
  · cases h
    exact ⟨[], [], [], fun _ => rfl, .nothing List.prefix_rfl, rfl⟩
  · next name is =>
    cases h
    obtain ⟨visits, accounts⟩ := imports name is
    exact ⟨[], visits, _, fun _ => rfl, accounts, rfl⟩
  · next is =>
    obtain ⟨rfl, read⟩ := Prod.mk.inj h
    exact ⟨ds, [], [], fun _ => by rw [read], .nothing List.prefix_rfl, (List.append_nil ds).symm⟩

/-- Lines declare what they declare themselves and what they import. -/
theorem readLines_accounts {lines : List Line} {declared : Array Declaration}
    {ds : List Declaration}
    (imports : ∀ line ∈ lines, ∀ name, Item.read line.text = .ok (.inclusion name) →
      ∀ s, ∃ visits, Accounts i main s (f name s).1 visits (f name s).2)
    (h : readLines f c declared s lines = (s', .ok ds)) :
    ∃ own visits imported,
      (∀ (declared : Array Declaration) u,
        readLines skip c declared u lines = (u, .ok (declared.toList ++ own))) ∧
      Accounts i main s s' visits imported ∧ ds.Perm (declared.toList ++ (own ++ imported)) := by
  induction lines generalizing c declared s with
  | nil =>
    obtain ⟨rfl, is⟩ := Prod.mk.inj h
    obtain rfl := Except.ok.inj is
    exact ⟨[], [], [], fun declared u => by rw [readLines, List.append_nil],
      .nothing List.prefix_rfl, by rw [List.append_nil, List.append_nil]⟩
  | cons line lines ih =>
    obtain ⟨here, later⟩ := List.forall_mem_cons.mp imports
    rcases first : readLine f c s line.text with ⟨next, fault | ⟨c', more⟩⟩
    · rw [readLines_of_error first] at h
      cases h
    · rw [readLines_of_ok first] at h
      obtain ⟨own, visits, imported, skipped, accounts, rfl⟩ :=
        readLine_accounts (fun name is => here name is s) first
      obtain ⟨own', visits', imported', skipped', accounts', perm⟩ := ih later h
      refine ⟨own ++ own', visits ++ visits', imported ++ imported', fun declared u => ?_,
        accounts.append accounts', perm.trans ?_⟩
      · rw [readLines_of_ok (skipped u), skipped', Array.toList_appendList, List.append_assoc]
      · rw [Array.toList_appendList, List.append_assoc]
        refine List.Perm.append_left _ ?_
        rw [List.append_assoc, List.append_assoc]
        exact (List.perm_append_comm_assoc imported own' imported').append_left own

end

theorem ownDeclarations_eq {text : Text} {own : List Declaration}
    (skipped : ∀ (declared : Array Declaration) u,
      readLines skip {} declared u (Text.numbered text) = (u, .ok (declared.toList ++ own))) :
    ownDeclarations text = own := by
  unfold ownDeclarations
  rw [skipped]
  rfl

/-! ## Files -/

section
variable {i : Importer} {main : Text}

/-- A file that is visited declares what it declares itself and what it imports. -/
theorem readFile_accounts {n : Nat} {v : Visit} (reached : Reaches i main v) {s u s' : Imports}
    {ds : List Declaration} (new : v.name ∉ s.seen) (sees : u.seen = s.seen ++ [v.name])
    (imports : ∀ name ∈ importedNames v.source.text, ∀ s, ∃ visits,
      Accounts i main s (importFile i n v.source.base name s).1 visits
        (importFile i n v.source.base name s).2)
    (h : readLines (importFile i n v.source.base) {} #[] u (Text.numbered v.source.text) =
      (s', .ok ds)) :
    ∃ visits, Accounts i main s s' (v :: visits) ds := by
  obtain ⟨own, visits, imported, skipped, accounts, perm⟩ := readLines_accounts
    (fun line mem name is => imports name (named_numbered (fun _ => id) line mem name is)) h
  refine ⟨visits, accounts.visit reached new sees ?_⟩
  rw [ownDeclarations_eq skipped]
  exact perm

theorem importFile_accounts {v : Visit} (reached : Reaches i main v) {name : Text}
    (named : name ∈ importedNames v.source.text) (n : Nat) (s : Imports) :
    ∃ visits, Accounts i main s (importFile i n v.source.base name s).1 visits
      (importFile i n v.source.base name s).2 := by
  induction n generalizing v name s with
  | zero => exact ⟨[], .nothing List.prefix_rfl⟩
  | succ n ih =>
    have grown := prefix_importFile i (n + 1) v.source.base name s
    by_cases old : name ∈ s.seen
    · rw [importFile_of_seen old] at grown ⊢
      exact ⟨[], .nothing grown⟩
    · cases fetched : i.fetch v.source.base name with
      | error e =>
        rw [importFile_of_unopened old fetched] at grown ⊢
        exact ⟨[], .nothing grown⟩
      | ok source =>
        rw [importFile_of_opened old fetched] at grown ⊢
        have visited := reached.next named fetched
        rcases read : readLines (importFile i n source.base) {} #[] (s.opened v.source.base name)
          (Text.numbered source.text) with ⟨s', e | ds⟩
        · rw [read] at grown
          exact ⟨[], .nothing grown⟩
        · obtain ⟨visits, accounts⟩ := readFile_accounts visited old rfl
            (fun name named s => ih visited named s) read
          exact ⟨_, accounts.told _⟩

theorem readText_accounts {v : Visit} (reached : Reaches i main v) {s' : Imports}
    {ds : List Declaration} (h : readText i v.source.base [v.name] v.source.text = (s', .ok ds)) :
    ∃ visits, Accounts i main { seen := [] } s' (v :: visits) ds :=
  readFile_accounts reached List.not_mem_nil rfl (fun _ named s => importFile_accounts reached named _ s) h

theorem of_loadFrom {base : Option Path} {seen : List Text} {text : Text} {t t' : Table}
    {overwrite : Bool} {events : List Event} {r : Report}
    (h : loadFrom i base seen text t overwrite = ⟨t', events, .ok r⟩) :
    ∃ s ds, readText i base seen text = (s, .ok ds) ∧
      t' = ((Declaration.batch ds).addTo t overwrite).1 ∧
      r.transformations = ds.filterMap Declaration.transformation? := by
  unfold loadFrom at h
  rcases read : readText i base seen text with ⟨s, e | ds⟩
  · rw [read] at h
    cases h
  · rw [read] at h
    cases h
    exact ⟨s, ds, rfl, rfl, rfl⟩

/-- A load by name collects the files that import lines lead to, and none of them twice under the same
name: the table and the changes of access come from what these files declare themselves. So if no file is
reached by two names, none is collected twice. -/
theorem loadNamed_collects {t t' : Table} {overwrite : Bool} {events : List Event} {r : Report}
    (h : loadNamed i main t overwrite = ⟨t', events, .ok r⟩) :
    ∃ visits ds, (∀ v ∈ visits, Reaches i main v) ∧ (visits.map (·.name)).Nodup ∧
      ds.Perm (collected visits) ∧ t' = ((Declaration.batch ds).addTo t overwrite).1 ∧
      r.transformations = ds.filterMap Declaration.transformation? ∧
      ((∀ v w, Reaches i main v → Reaches i main w → v.path.key = w.path.key → v.name = w.name) →
        (visits.map (·.path.key)).Nodup) := by
  unfold loadNamed at h
  cases fetched : i.fetch none main with
  | error e =>
    rw [fetched] at h
    cases h
  | ok source =>
    rw [fetched] at h
    obtain ⟨s, ds, read, table, transformations⟩ := of_loadFrom h
    have reached : Reaches i main ⟨main, ⟨main⟩, source⟩ := .start fetched
    obtain ⟨visits, accounts⟩ := readText_accounts reached read
    refine ⟨_, ds, accounts.reached, accounts.nodup, accounts.declared, table, transformations,
      fun single => ?_⟩
    refine List.pairwise_map.mpr ((List.pairwise_map.mp accounts.nodup).imp_of_mem ?_)
    intro v w hv hw differ same
    exact differ (single v w (accounts.reached v hv) (accounts.reached w hw) same)

end

/-! ## Files that import each other -/

/-- A field that is to be public, and an import of the file that imports this one. -/
def firstOfTwo : Text := "a:p\n\tb:C\n\t\tpublic!c:f\n>>b.onf\n".toList

def secondOfTwo : Text := ">>a.onf\n".toList

def sideBySide : Importer :=
  .memory [(⟨"a.onf".toList⟩, firstOfTwo), (⟨"b.onf".toList⟩, secondOfTwo)]

/-- An opened file that lies in no directory. -/
def bareSource (text : Text) : Source := ⟨text, some ⟨[]⟩⟩

theorem reaches_sideBySide {v : Visit} (h : Reaches sideBySide "a.onf".toList v) :
    v = ⟨"a.onf".toList, ⟨"a.onf".toList⟩, bareSource firstOfTwo⟩ ∨
      v = ⟨"b.onf".toList, ⟨"b.onf".toList⟩, bareSource secondOfTwo⟩ := by
  have opens (base : Option Path) (here : base = none ∨ base = some ⟨[]⟩) :
      Path.resolve base "a.onf".toList = ⟨"a.onf".toList⟩ ∧
      Path.resolve base "b.onf".toList = ⟨"b.onf".toList⟩ ∧
      sideBySide.fetch base "a.onf".toList = .ok (bareSource firstOfTwo) ∧
      sideBySide.fetch base "b.onf".toList = .ok (bareSource secondOfTwo) := by
    refine ⟨?_, ?_, toOption_eq_some_iff.mp ?_, toOption_eq_some_iff.mp ?_⟩ <;>
      rcases here with rfl | rfl <;> decide +kernel
  induction h with
  | start fetched =>
    rw [(opens none (.inl rfl)).2.2.1] at fetched
    cases fetched
    exact .inl rfl
  | next _ named fetched ih =>
    obtain ⟨toFirst, toSecond, first, second⟩ := opens (some ⟨[]⟩) (.inr rfl)
    rcases ih with rfl | rfl
    · have names : importedNames firstOfTwo = ["b.onf".toList] := by decide +kernel
      obtain rfl := List.mem_singleton.mp (names ▸ named)
      have found := second.symm.trans fetched
      cases found
      exact .inr (by rw [← toSecond]; rfl)
    · have names : importedNames secondOfTwo = ["a.onf".toList] := by decide +kernel
      obtain rfl := List.mem_singleton.mp (names ▸ named)
      have found := first.symm.trans fetched
      cases found
      exact .inl (by rw [← toFirst]; rfl)

/-- Next to each other both files are collected once. -/
theorem loadNamed_collects_sideBySide :
    (∀ v w, Reaches sideBySide "a.onf".toList v → Reaches sideBySide "a.onf".toList w →
      v.path.key = w.path.key → v.name = w.name) ∧
    ∃ t events r, ∃ visits : List Visit, ∃ ds : List Declaration,
      loadNamed sideBySide "a.onf".toList (.empty true) false = ⟨t, events, .ok r⟩ ∧
      ds.Perm (collected visits) ∧ r.transformations = ds.filterMap Declaration.transformation? ∧
      (visits.map (·.path.key)).Nodup := by
  have single : ∀ v w, Reaches sideBySide "a.onf".toList v →
      Reaches sideBySide "a.onf".toList w → v.path.key = w.path.key → v.name = w.name := by
    intro v w hv hw same
    have apart : Path.key ⟨"a.onf".toList⟩ ≠ Path.key ⟨"b.onf".toList⟩ := by decide +kernel
    rcases reaches_sideBySide hv with rfl | rfl <;> rcases reaches_sideBySide hw with rfl | rfl
    · rfl
    · exact absurd same apart
    · exact absurd same.symm apart
    · rfl
  have read : (loadNamed sideBySide "a.onf".toList (.empty true) false).result.isOk = true := by
    decide +kernel
  rcases load : loadNamed sideBySide "a.onf".toList (.empty true) false with ⟨t, events, e | r⟩
  · rw [load] at read
    cases read
  · obtain ⟨visits, ds, _, _, perm, _, transformations, once⟩ := loadNamed_collects load
    exact ⟨single, t, events, r, visits, ds, rfl, perm, transformations, once single⟩

/-- The same two files in a directory. -/
def inDirectory : Importer :=
  .memory [(⟨"d/a.onf".toList⟩, firstOfTwo), (⟨"d/b.onf".toList⟩, secondOfTwo)]

/-- The second file calls the first one by another name than the load does, and it is collected twice: what
it asks for once is asked for twice. -/
theorem looped_file_is_collected_twice :
    let change : Transformation := ⟨"public".toList, "p.C.f".toList, .field, false⟩
    (ownDeclarations firstOfTwo).filterMap Declaration.transformation? = [change] ∧
    ownDeclarations secondOfTwo = [] ∧
    (loadNamed inDirectory "d/a.onf".toList (.empty true) false).result.toOption.map
      (·.transformations) = some [change, change] := by
  decide +kernel

end SymbolMap.Outline
