import SymbolMap.Dialect.Outline.Loading
import SymbolMap.Proofs.Outcome
import SymbolMap.Proofs.Outline.Importing

/-!
What a text declares itself, whatever it imports.

* `ownLines`, `importedAt`: the declarations of the lines of a text, and what its imports come to;
* `readLines_eq_woven`: reading with imports puts what is imported between these, and fails where they do;
* `Placed`: each declaration is in the package and the class that stand last above it;
* `placed_ownLines`: so it is for what a text declares itself;
* `loadFrom_keeps_own`: the results together, for a load.
-/
namespace SymbolMap.Outline

/-- What the lines declare themselves, for each line. -/
def ownLines (c : Context) : List Line → Except FormatError (List (List Declaration))
  | [] => .ok []
  | line :: lines =>
    match ownLine c line.text with
    | .error fault => .error ⟨line, fault⟩
    | .ok (c, own) => (ownLines c lines).map (own :: ·)

theorem ownLines_of_error {c : Context} {line : Line} {lines : List Line} {fault : Fault}
    (h : ownLine c line.text = .error fault) : ownLines c (line :: lines) = .error ⟨line, fault⟩ := by
  rw [ownLines, h]

theorem ownLines_of_ok {c c' : Context} {line : Line} {lines : List Line} {own : List Declaration}
    (h : ownLine c line.text = .ok (c', own)) :
    ownLines c (line :: lines) = (ownLines c' lines).map (own :: ·) := by
  rw [ownLines, h]

/-- Lines can be read if the first one can, and the others after it. -/
theorem ownLines_cons_eq_ok_iff {c : Context} {line : Line} {lines : List Line}
    {own : List (List Declaration)} : ownLines c (line :: lines) = .ok own ↔
      ∃ c' here later, ownLine c line.text = .ok (c', here) ∧ ownLines c' lines = .ok later ∧
        here :: later = own := by
  cases first : ownLine c line.text with
  | error fault =>
    rw [ownLines_of_error first]
    constructor
    · intro h
      cases h
    · rintro ⟨_, _, _, h, _⟩
      cases h
  | ok next =>
    rw [ownLines_of_ok first, map_eq_ok_iff]
    constructor
    · rintro ⟨later, read, is⟩
      exact ⟨next.1, next.2, later, rfl, read, is⟩
    · rintro ⟨_, _, later, h, read, is⟩
      cases h
      exact ⟨later, read, is⟩

/-! ## Between the lines -/

/-- After each line what was imported there. -/
def woven (own imported : List (List Declaration)) : List Declaration :=
  (List.zipWith (· ++ ·) own imported).flatten

/-- What is imported at each line: at an import line what the import comes to, from the state that the
imports above it leave, and elsewhere nothing. -/
def importedAt (importName : Text → Import) : Imports → List Line → List (List Declaration)
  | _, [] => []
  | s, line :: lines =>
    match Item.read line.text with
    | .ok (.inclusion name) => (importName name s).2 :: importedAt importName (importName name s).1 lines
    | _ => [] :: importedAt importName s lines

section
variable {importName : Text → Import} {s : Imports} {line : Line} {lines : List Line}

theorem importedAt_of_inclusion {name : Text} (is : Item.read line.text = .ok (.inclusion name)) :
    importedAt importName s (line :: lines) =
      (importName name s).2 :: importedAt importName (importName name s).1 lines := by
  rw [importedAt, is]

theorem importedAt_of_alone (alone : ∀ name, Item.read line.text ≠ .ok (.inclusion name)) :
    importedAt importName s (line :: lines) = [] :: importedAt importName s lines := by
  rw [importedAt]
  split
  · next name is => exact absurd is (alone name)
  · rfl

theorem length_importedAt (importName : Text → Import) (s : Imports) (lines : List Line) :
    (importedAt importName s lines).length = lines.length := by
  induction lines generalizing s with
  | nil => rfl
  | cons line lines ih =>
    by_cases imports : ∃ name, Item.read line.text = .ok (.inclusion name)
    · obtain ⟨name, is⟩ := imports
      rw [importedAt_of_inclusion is, List.length_cons, ih, List.length_cons]
    · rw [importedAt_of_alone (not_exists.mp imports), List.length_cons, ih, List.length_cons]

theorem eq_nil_of_mem_importedAt (nothing : ∀ name s, (importName name s).2 = []) (s : Imports)
    (lines : List Line) : ∀ ds ∈ importedAt importName s lines, ds = [] := by
  induction lines generalizing s with
  | nil => exact fun ds mem => absurd mem List.not_mem_nil
  | cons line lines ih =>
    by_cases imports : ∃ name, Item.read line.text = .ok (.inclusion name)
    · obtain ⟨name, is⟩ := imports
      rw [importedAt_of_inclusion is]
      exact List.forall_mem_cons.mpr ⟨nothing name s, ih _⟩
    · rw [importedAt_of_alone (not_exists.mp imports)]
      exact List.forall_mem_cons.mpr ⟨rfl, ih s⟩

end

/-- Reading with imports comes to what the lines declare themselves, with what is imported after the import
lines. It fails where the lines fail by themselves, and in the same way. -/
theorem readLines_eq_woven (importName : Text → Import) (c : Context) (declared : Array Declaration)
    (s : Imports) (lines : List Line) :
    (readLines importName c declared s lines).2 =
      (ownLines c lines).map (declared.toList ++ woven · (importedAt importName s lines)) := by
  induction lines generalizing c declared s with
  | nil => simp [readLines, ownLines, woven, Except.map]
  | cons line lines ih =>
    rcases line_cases c line.text with ⟨name, is⟩ | ⟨fault, invalid⟩ | ⟨c', own, alone, declares⟩
    · rw [readLines_of_inclusion is, ih, ownLines_of_ok (ownLine_of_inclusion is), importedAt_of_inclusion is]
      cases ownLines c lines with
      | error e => rfl
      | ok own => simp [Except.map, woven]
    · rw [readLines_of_invalid invalid, ownLines_of_error invalid]
      rfl
    · rw [readLines_of_own alone declares, ih, ownLines_of_ok declares, importedAt_of_alone alone]
      cases ownLines c' lines with
      | error e => rfl
      | ok own => simp [Except.map, woven]

theorem woven_of_nothing {own imported : List (List Declaration)}
    (lengths : own.length = imported.length) (nothing : ∀ ds ∈ imported, ds = []) :
    woven own imported = own.flatten := by
  induction own generalizing imported with
  | nil => rfl
  | cons ds own ih =>
    cases imported with
    | nil => cases lengths
    | cons more imported =>
      obtain ⟨here, later⟩ := List.forall_mem_cons.mp nothing
      have rest := ih (Nat.succ.inj lengths) later
      unfold woven at rest ⊢
      rw [List.zipWith_cons_cons, List.flatten_cons, List.flatten_cons, rest, here, List.append_nil]

/-- What is imported comes in between, and nothing is lost to it. -/
theorem sublist_woven {own imported : List (List Declaration)} (lengths : own.length = imported.length) :
    own.flatten.Sublist (woven own imported) := by
  induction own generalizing imported with
  | nil => exact List.nil_sublist _
  | cons ds own ih =>
    cases imported with
    | nil => cases lengths
    | cons more imported =>
      have rest := ih (Nat.succ.inj lengths)
      unfold woven at rest ⊢
      rw [List.zipWith_cons_cons, List.flatten_cons, List.flatten_cons]
      exact (List.sublist_append_left ds more).append rest

theorem length_of_ownLines {c : Context} {lines : List Line} {own : List (List Declaration)}
    (h : ownLines c lines = .ok own) : own.length = lines.length := by
  induction lines generalizing c own with
  | nil =>
    cases h
    rfl
  | cons line lines ih =>
    obtain ⟨_, _, _, _, later, rfl⟩ := ownLines_cons_eq_ok_iff.mp h
    exact congrArg (· + 1) (ih later)

/-- Without files there is nothing to import. -/
theorem importFile_empty (n : Nat) (base : Option Path) (name : Text) (s : Imports) :
    (importFile .empty n base name s).2 = [] := by
  cases n with
  | zero => rfl
  | succ n =>
    by_cases old : name ∈ s.seen
    · rw [importFile_of_seen old]
    · rw [importFile_of_unopened old rfl]

/-- What is imported at the lines of a text. -/
def importedBy (i : Importer) (base : Option Path) (seen : List Text) (text : Text) :
    List (List Declaration) :=
  importedAt (importFile i (levels i text) base) { seen } (Text.numbered text)

theorem readText_eq_woven (i : Importer) (base : Option Path) (seen : List Text) (text : Text) :
    (readText i base seen text).2 =
      (ownLines {} (Text.numbered text)).map (woven · (importedBy i base seen text)) :=
  readLines_eq_woven (importFile i (levels i text) base) {} #[] { seen } (Text.numbered text)

theorem length_importedBy_of_ownLines {own : List (List Declaration)} {text : Text}
    (h : ownLines {} (Text.numbered text) = .ok own) (i : Importer) (base : Option Path) (seen : List Text) :
    own.length = (importedBy i base seen text).length :=
  (length_of_ownLines h).trans (length_importedAt _ _ _).symm

theorem readText_of_nothing {i : Importer} {base : Option Path} {seen : List Text} {text : Text}
    (nothing : ∀ ds ∈ importedBy i base seen text, ds = []) :
    (readText i base seen text).2 = (ownLines {} (Text.numbered text)).map List.flatten := by
  rw [readText_eq_woven]
  cases declared : ownLines {} (Text.numbered text) with
  | error e => rfl
  | ok own =>
    have lengths := length_importedBy_of_ownLines declared i base seen
    exact congrArg Except.ok (woven_of_nothing lengths nothing)

/-- Without files a text comes to what its lines declare themselves. -/
theorem readText_empty (base : Option Path) (seen : List Text) (text : Text) :
    (readText .empty base seen text).2 = (ownLines {} (Text.numbered text)).map List.flatten :=
  readText_of_nothing
    (eq_nil_of_mem_importedAt (importFile_empty (levels .empty text) base) { seen } (Text.numbered text))

/-! ## Packages and classes -/

/-- The package and the class that what comes next is in. -/
def Context.after (c : Context) : Declaration → Context
  | .names .package package => { package }
  | .names .class_ owner => { c with owner }
  | _ => c

/-- Names inside those of the package or of the class. A change of access is asked for by the deobfuscated
name: a class asks for its members, and a member for itself. -/
inductive Declaration.Inside (c : Context) : Declaration → Prop
  | package (n : Triple) : Inside c (.names .package n)
  | class_ {package : Triple} (n : Triple) : package ∈ c.package →
      Inside c (.names .class_ (package.qualify n))
  | members {package : Triple} (n : Triple) (t : Transformation) : package ∈ c.package →
      t.target = (package.qualify n).deobf → Inside c (.access t)
  | field {owner : Triple} (n : Triple) : owner ∈ c.owner → Inside c (.names .field (owner.qualify n))
  | method {owner : Triple} (n : Triple) (kind : Kind) (d : Descriptor) : owner ∈ c.owner →
      Inside c (.method kind (owner.qualify n) d)
  | member {owner : Triple} (n : Triple) (descriptor : Text) (t : Transformation) : owner ∈ c.owner →
      t.target = (owner.qualify n).deobf ++ descriptor → Inside c (.access t)

/-- Each declaration is inside the package and the class that stand last above it. -/
def Placed (c : Context) : List Declaration → Prop
  | [] => True
  | d :: ds => d.Inside c ∧ Placed (c.after d) ds

namespace Placed

variable {c : Context} {ds ds' : List Declaration}

theorem append (h : Placed c ds) (h' : Placed (ds.foldl Context.after c) ds') : Placed c (ds ++ ds') := by
  induction ds generalizing c with
  | nil => exact h'
  | cons d ds ih => exact ⟨h.1, ih h.2 h'⟩

theorem inside {before : List Declaration} {d : Declaration} {after : List Declaration}
    (h : Placed c (before ++ d :: after)) : d.Inside (before.foldl Context.after c) := by
  induction before generalizing c with
  | nil => exact h.1
  | cons first before ih => exact ih h.2

/-- Changes of access leave the package and the class as they are. -/
theorem foldl_access (c : Context) (changes : List Transformation) :
    (changes.map Declaration.access).foldl Context.after c = c := by
  induction changes with
  | nil => rfl
  | cons t changes ih => exact ih

theorem access_cons {changes : List Transformation} {d : Declaration}
    (asked : ∀ t ∈ changes, (Declaration.access t).Inside c) (inside : d.Inside c) :
    Placed c (changes.map .access ++ [d]) := by
  apply append
  · induction changes with
    | nil => exact trivial
    | cons t changes ih =>
      obtain ⟨here, later⟩ := List.forall_mem_cons.mp asked
      exact ⟨here, ih later⟩
  · rw [foldl_access]
    exact ⟨inside, trivial⟩

end Placed

namespace Declaration

theorem accessOf_eq (directive : Option Text) (target : Text) (kind : Kind) :
    ∃ changes : List Transformation, accessOf directive target kind = changes.map .access ∧
      ∀ t ∈ changes, t.target = target := by
  refine ⟨directive.toList.map (⟨·, target, kind, false⟩), by rw [List.map_map]; rfl, ?_⟩
  intro t mem
  obtain ⟨_, _, rfl⟩ := List.mem_map.mp mem
  rfl

theorem target_of_readClass {directive target : Text} {changes : List Transformation}
    (h : Access.readClass directive target = some changes) : ∀ t ∈ changes, t.target = target := by
  unfold Access.readClass at h
  dsimp only at h
  split at h
  · cases h
  · obtain ⟨kinds, _, rfl⟩ := Option.map_eq_some_iff.mp h
    intro t mem
    obtain ⟨_, _, rfl⟩ := List.mem_map.mp mem
    rfl

variable {c c' : Context} {directive : Option Text} {text : Text} {ds : List Declaration}

theorem placed_of_readPackage (h : readPackage directive text = .ok (c', ds)) :
    Placed c ds ∧ c' = ds.foldl Context.after c := by
  unfold readPackage at h
  split at h
  · cases h
  · obtain ⟨package, _, h⟩ := bind_eq_ok_iff.mp h
    cases h
    exact ⟨⟨.package package, trivial⟩, rfl⟩

theorem placed_of_readClass (h : readClass c directive text = .ok (c', ds)) :
    Placed c ds ∧ c' = ds.foldl Context.after c := by
  unfold readClass at h
  split at h
  · cases h
  · next package is =>
    obtain ⟨n, _, h⟩ := bind_eq_ok_iff.mp h
    dsimp only at h
    split at h
    · cases h
      exact ⟨⟨.class_ n is, trivial⟩, rfl⟩
    · split at h
      · cases h
      · next changes asked =>
        cases h
        constructor
        · exact Placed.access_cons (fun t mem => .members n t is (target_of_readClass asked t mem))
            (.class_ n is)
        · rw [List.foldl_append, Placed.foldl_access]
          rfl

section
variable {owner : Triple} (is : owner ∈ c.owner)
include is

theorem placed_of_readField (h : readField owner directive text = .ok ds) :
    Placed c ds ∧ ds.foldl Context.after c = c := by
  obtain ⟨n, _, h⟩ := bind_eq_ok_iff.mp h
  cases h
  obtain ⟨changes, asked, target⟩ := accessOf_eq directive (owner.qualify n).deobf .field
  rw [asked]
  constructor
  · refine Placed.access_cons (fun t mem => ?_) (.field n is)
    exact .member n [] t is ((target t mem).trans (List.append_nil _).symm)
  · rw [List.foldl_append, Placed.foldl_access]
    rfl

theorem placed_of_readMethod {kind : Kind} (h : readMethod owner kind directive text = .ok ds) :
    Placed c ds ∧ ds.foldl Context.after c = c := by
  unfold readMethod at h
  split at h
  · cases h
  · obtain ⟨d, _, h⟩ := bind_eq_ok_iff.mp h
    obtain ⟨n, _, h⟩ := bind_eq_ok_iff.mp h
    cases h
    obtain ⟨changes, asked, target⟩ :=
      accessOf_eq directive ((owner.qualify n).deobf ++ ' ' :: d.render) kind
    rw [asked]
    constructor
    · exact Placed.access_cons (fun t mem => .member n _ t is (target t mem)) (.method n kind d is)
    · rw [List.foldl_append, Placed.foldl_access]
      rfl

end

theorem placed_of_readMember (h : readMember c directive text = .ok (c', ds)) :
    Placed c ds ∧ c' = ds.foldl Context.after c := by
  unfold readMember at h
  dsimp only at h
  split at h
  · cases h
  · next owner is =>
    obtain ⟨_, read, pair⟩ := map_eq_ok_iff.mp h
    cases pair
    split at read
    · exact (placed_of_readField is read).imp_right Eq.symm
    · exact (placed_of_readMethod is read).imp_right Eq.symm

theorem placed_of_read {depth : Nat} (h : read c depth directive text = .ok (c', ds)) :
    Placed c ds ∧ c' = ds.foldl Context.after c := by
  unfold read at h
  split at h
  · exact placed_of_readPackage h
  · exact placed_of_readClass h
  · exact placed_of_readMember h

end Declaration

theorem placed_ownLine {c c' : Context} {text : Text} {ds : List Declaration}
    (h : ownLine c text = .ok (c', ds)) : Placed c ds ∧ c' = ds.foldl Context.after c := by
  unfold ownLine at h
  split at h
  · cases h
  · exact Declaration.placed_of_read h
  · cases h
    exact ⟨trivial, rfl⟩

/-- What lines declare themselves is in the package and the class that they declare themselves. -/
theorem placed_ownLines {c : Context} {lines : List Line} {own : List (List Declaration)}
    (h : ownLines c lines = .ok own) : Placed c own.flatten := by
  induction lines generalizing c own with
  | nil =>
    cases h
    exact trivial
  | cons line lines ih =>
    obtain ⟨_, _, _, first, later, rfl⟩ := ownLines_cons_eq_ok_iff.mp h
    obtain ⟨placed, rfl⟩ := placed_ownLine first
    exact placed.append (ih later)

/-! ## Loads -/

/-- A load whose imports come to what `importName` makes of them, wherever it has its files from. -/
def loadBy (importName : Text → Import) (s : Imports) (text : Text) (t : Table) (overwrite : Bool) :
    Load Report :=
  match readLines importName {} #[] s (Text.numbered text) with
  | (s, .error e) => ⟨t, s.events, .error (.format e)⟩
  | (s, .ok ds) =>
    let batch := Declaration.batch ds
    let (loaded, added) := batch.addTo t overwrite
    ⟨loaded,
      s.events ++ [.loadedOutline added batch.waiting.length (max s.seen.length 1)],
      .ok ⟨ds.filterMap Declaration.transformation?, s.failures⟩⟩

theorem loadFrom_eq_loadBy (i : Importer) (base : Option Path) (seen : List Text) (text : Text) (t : Table)
    (overwrite : Bool) : loadFrom i base seen text t overwrite =
      loadBy (importFile i (levels i text) base) { seen } text t overwrite :=
  rfl

section
variable {i : Importer} {base : Option Path} {seen : List Text} {text : Text} (t : Table)
  (overwrite : Bool)

theorem loadFrom_eq_error_iff {e : LoadError} :
    (loadFrom i base seen text t overwrite).result = .error e ↔
      ∃ invalid, (readText i base seen text).2 = .error invalid ∧ e = .format invalid := by
  unfold loadFrom
  rcases readText i base seen text with ⟨s, invalid | ds⟩
  · constructor
    · intro h
      cases h
      exact ⟨invalid, rfl, rfl⟩
    · rintro ⟨_, h, rfl⟩
      cases h
      rfl
  · constructor
    · intro h
      cases h
    · rintro ⟨_, h, _⟩
      cases h

theorem loadFrom_of_readText {ds : List Declaration} (h : (readText i base seen text).2 = .ok ds) :
    ∃ r, (loadFrom i base seen text t overwrite).result = .ok r ∧
      r.transformations = ds.filterMap Declaration.transformation? := by
  unfold loadFrom
  rcases read : readText i base seen text with ⟨s, invalid | _⟩
  · rw [read] at h
    cases h
  · rw [read] at h
    cases h
    exact ⟨_, rfl, rfl⟩

end

/-- A load with an importer that came to `r`, beside one without files that came to `r₀`: it collects what the
other one does, with what was imported in between, and what the text declares itself is in its own package and
class. -/
structure OwnKept (i : Importer) (base : Option Path) (seen : List Text) (text : Text) (r₀ r : Report)
    (own : List (List Declaration)) : Prop where
  declared : ownLines {} (Text.numbered text) = .ok own
  alone : (readText .empty base seen text).2 = .ok own.flatten
  whole : (readText i base seen text).2 = .ok (woven own (importedBy i base seen text))
  known : (Declaration.batch own.flatten).known.Sublist
    (Declaration.batch (woven own (importedBy i base seen text))).known
  waiting : (Declaration.batch own.flatten).waiting.Sublist
    (Declaration.batch (woven own (importedBy i base seen text))).waiting
  transformations : r₀.transformations.Sublist r.transformations
  inside : ∀ before d after, own.flatten = before ++ d :: after → d.Inside (before.foldl Context.after {})

/-- Imports have no part in how a text itself is read, whichever way they are opened. A load fails with them
where it fails without, and for the same reason. Otherwise it collects what it does without them, and what was
imported in between. -/
theorem loadFrom_keeps_own (base : Option Path) (seen : List Text) (text : Text) (t : Table)
    (overwrite : Bool) :
    (∀ (importName : Text → Import) (s : Imports),
      (readLines importName {} #[] s (Text.numbered text)).2 =
        (ownLines {} (Text.numbered text)).map
          (woven · (importedAt importName s (Text.numbered text)))) ∧
    ∀ i : Importer,
      (∀ e, (loadFrom i base seen text t overwrite).result = .error e ↔
        (loadFrom .empty base seen text t overwrite).result = .error e) ∧
      ∀ r, (loadFrom i base seen text t overwrite).result = .ok r → ∃ r₀ own,
        (loadFrom .empty base seen text t overwrite).result = .ok r₀ ∧
        OwnKept i base seen text r₀ r own := by
  refine ⟨fun importName s => readLines_eq_woven importName {} #[] s (Text.numbered text), fun i => ?_⟩
  have alone := readText_empty base seen text
  have whole := readText_eq_woven i base seen text
  cases declared : ownLines {} (Text.numbered text) with
  | error invalid =>
    rw [declared] at whole alone
    constructor
    · intro e
      rw [loadFrom_eq_error_iff, loadFrom_eq_error_iff, whole, alone]
      rfl
    · intro r loaded
      have fails := (loadFrom_eq_error_iff t overwrite).mpr ⟨invalid, whole, rfl⟩
      rw [fails] at loaded
      cases loaded
  | ok own =>
    rw [declared] at whole alone
    have kept := sublist_woven (length_importedBy_of_ownLines declared i base seen)
    obtain ⟨r₀, loaded₀, collected₀⟩ := loadFrom_of_readText t overwrite alone
    obtain ⟨r', loaded', collected⟩ := loadFrom_of_readText t overwrite whole
    constructor
    · intro e
      rw [loaded₀, loaded']
      exact ⟨nofun, nofun⟩
    · intro r loaded
      obtain rfl := Except.ok.inj (loaded'.symm.trans loaded)
      refine ⟨r₀, own, loaded₀, declared, alone, whole, kept.filterMap _, kept.filterMap _, ?_, ?_⟩
      · rw [collected₀, collected]
        exact kept.filterMap _
      · intro before d after split
        have placed := placed_ownLines declared
        rw [split] at placed
        exact placed.inside

/-- A class with a field, and between them the import of another class. -/
def partedText : Text := "a:p\n\tb:C\n>>x\n\t\tc:f\n".toList

def betweenFiles : List (Path × Text) := [(⟨"x".toList⟩, "q:r\n\td:E\n".toList)]

/-- What it declares itself before and after the import. -/
def partedClass : List Declaration :=
  [.names .package ⟨"a".toList, "p".toList, "p".toList⟩,
    .names .class_ ⟨"a.b".toList, "p.C".toList, "p.C".toList⟩]

def partedField : Declaration := .names .field ⟨"a.b.c".toList, "p.C.f".toList, "p.C.f".toList⟩

def betweenClass : List Declaration :=
  [.names .package ⟨"q".toList, "r".toList, "r".toList⟩,
    .names .class_ ⟨"q.d".toList, "r.E".toList, "r.E".toList⟩]

theorem loadFrom_keeps_own_between :
    ∃ r r₀ own,
      (loadFrom (.memory betweenFiles) none [] partedText (.empty true) false).result = .ok r ∧
      (loadFrom .empty none [] partedText (.empty true) false).result = .ok r₀ ∧
      OwnKept (.memory betweenFiles) none [] partedText r₀ r own ∧
      own.flatten = partedClass ++ [partedField] ∧
      woven own (importedBy (.memory betweenFiles) none [] partedText) =
        partedClass ++ betweenClass ++ [partedField] := by
  have reads : (readText (.memory betweenFiles) none [] partedText).2 =
      .ok (partedClass ++ betweenClass ++ [partedField]) :=
    toOption_eq_some_iff.mp (by decide +kernel)
  have reads₀ : (readText .empty none [] partedText).2 = .ok (partedClass ++ [partedField]) :=
    toOption_eq_some_iff.mp (by decide +kernel)
  obtain ⟨r, loaded, _⟩ := loadFrom_of_readText (.empty true) false reads
  obtain ⟨_, alike⟩ := loadFrom_keeps_own none [] partedText (.empty true) false
  obtain ⟨r₀, own, loaded₀, kept⟩ := (alike (.memory betweenFiles)).2 r loaded
  have alone := Except.ok.inj (kept.alone.symm.trans reads₀)
  have whole := Except.ok.inj (kept.whole.symm.trans reads)
  exact ⟨r, r₀, own, loaded, loaded₀, kept, alone, whole⟩

end SymbolMap.Outline
