import SymbolMap.Proofs.Outline.Order
import SymbolMap.Proofs.Outline.Sorts

/-!
What the lines above a line of an outline mean for it.

* `LastPackage`, `LastClass`: the last lines of a package and of a class, in terms of the lines alone;
* `DeclaredUnder`: what a line declares under the ones above it;
* `Context.Stands`: the context that lines leave is what stands last above;
* `Context.Stands.next`, `Told.stands`: each line keeps that, so all of them do;
* `loadFrom_declares_under_last`: hence a text is declared line by line, or one of its lines misses what it has
  to be in.
-/
namespace SymbolMap.Outline

/-! ## The lines above -/

/-- One of the items starts something, and those after it keep it. -/
def Since {α : Type} (start keep : α → Prop) (xs : List α) : Prop :=
  ∃ before x after, xs = before ++ x :: after ∧ start x ∧ ∀ later ∈ after, keep later

theorem since_concat_iff {α : Type} {start keep : α → Prop} {xs : List α} {x : α} :
    Since start keep (xs ++ [x]) ↔ start x ∨ Since start keep xs ∧ keep x := by
  constructor
  · rintro ⟨before, own, after, split, starts, kept⟩
    rcases List.eq_nil_or_concat after with rfl | ⟨after, last, rfl⟩
    · obtain ⟨_, same⟩ := List.append_inj' split rfl
      exact .inl (List.singleton_inj.mp same ▸ starts)
    · rw [List.concat_eq_append] at split kept
      have split' : xs ++ [x] = (before ++ own :: after) ++ [last] := by simpa using split
      obtain ⟨rfl, same⟩ := List.append_inj' split' rfl
      obtain rfl := List.singleton_inj.mp same
      obtain ⟨earlier, here⟩ := List.forall_mem_append.mp kept
      exact .inr ⟨⟨before, own, after, rfl, starts, earlier⟩, here x (List.mem_singleton_self x)⟩
  · rintro (starts | ⟨⟨before, own, after, rfl, starts, kept⟩, here⟩)
    · exact ⟨xs, x, [], rfl, starts, fun _ mem => absurd mem List.not_mem_nil⟩
    · refine ⟨before, own, after ++ [x], ?_, starts, ?_⟩
      · rw [List.append_assoc, List.cons_append]
      · exact List.forall_mem_append.mpr ⟨kept, List.forall_mem_singleton.mpr here⟩

theorem not_since_nil {α : Type} (start keep : α → Prop) : ¬Since start keep [] :=
  fun ⟨before, _, _, split, _⟩ => by cases before <;> cases split

/-- Lines, each with what it declares. -/
abbrev Account := List (Text × List Declaration)

def Account.lines (told : Account) : List Text := told.map (·.1)

def Account.declared (told : Account) : List Declaration := told.flatMap (·.2)

/-- A line of the sort that declares the names, after the changes of access that it asks for. -/
def Begins (sort : Text → Prop) (kind : Kind) (n : Triple) (told : Text × List Declaration) : Prop :=
  sort told.1 ∧ ∃ changes : List Transformation, told.2 = changes.map .access ++ [.names kind n]

/-- The last line of a package has the names. -/
def LastPackage (told : Account) (n : Triple) : Prop :=
  Since (Begins IsPackageLine .package n) (fun later => ¬IsPackageLine later.1) told

/-- The last line of a class has the names, and no other package has begun after it. -/
def LastClass (told : Account) (n : Triple) : Prop :=
  Since (Begins IsClassLine .class_ n) (fun later => ¬IsPackageLine later.1 ∧ ¬IsClassLine later.1) told

def InPackage (before : List Text) : Prop := ∃ line ∈ before, IsPackageLine line

/-- There is a line of a class after the last one of a package. -/
def InClass (before : List Text) : Prop := Since IsClassLine (fun later => ¬IsPackageLine later) before

theorem LastPackage.inPackage {told : Account} {n : Triple} (h : LastPackage told n) : InPackage told.lines := by
  obtain ⟨before, above, after, rfl, ⟨is, _⟩, _⟩ := h
  exact ⟨above.1, List.mem_map_of_mem (List.mem_append_right before List.mem_cons_self), is⟩

theorem LastClass.inClass {told : Account} {n : Triple} (h : LastClass told n) : InClass told.lines := by
  obtain ⟨before, above, after, rfl, ⟨is, _⟩, kept⟩ := h
  refine ⟨Account.lines before, above.1, Account.lines after, by simp [Account.lines], is, ?_⟩
  exact List.forall_mem_map.mpr fun later mem => (kept later mem).1

theorem inPackage_concat_iff {before : List Text} {line : Text} :
    InPackage (before ++ [line]) ↔ InPackage before ∨ IsPackageLine line := by
  simp [InPackage, or_and_right, exists_or]

/-! ## What a line declares under them -/

/-- Each name stands inside of the owner's, and is the same where the owner has none. -/
structure Triple.Within (owner n full : Triple) : Prop where
  obf : full.obf = if owner.obf = [] then n.obf else owner.obf ++ '.' :: n.obf
  intermediate : full.intermediate =
    if owner.intermediate = [] then n.intermediate else owner.intermediate ++ '.' :: n.intermediate
  deobf : full.deobf = if owner.deobf = [] then n.deobf else owner.deobf ++ '.' :: n.deobf

theorem Triple.within_qualify (owner n : Triple) : Triple.Within owner n (owner.qualify n) where
  obf := by simp [Triple.qualify, MemberName.qualify]
  intermediate := by simp [Triple.qualify, MemberName.qualify]
  deobf := by simp [Triple.qualify, MemberName.qualify]

/-- What a line declares under the lines before it: a class inside of the last package, and a member inside of
the last class. -/
inductive DeclaredUnder (before : Account) (line : Text) : List Declaration → Prop
  | nothing : ¬IsDeclaration line → DeclaredUnder before line []
  | package {n : Triple} : IsPackageLine line → Triple.read .package (declaredBy line) = .ok n →
      DeclaredUnder before line [.names .package n]
  | class_ {package n full : Triple} (changes : List Transformation) : IsClassLine line →
      LastPackage before package → Triple.read .class_ (declaredBy line) = .ok n →
      Triple.Within package n full →
      DeclaredUnder before line (changes.map .access ++ [.names .class_ full])
  | field {owner n full : Triple} (changes : List Transformation) : IsMemberLine line →
      LastClass before owner → Declaration.memberKind (declaredBy line) = .field →
      Triple.read .field (declaredBy line) = .ok n → Triple.Within owner n full →
      DeclaredUnder before line (changes.map .access ++ [.names .field full])
  | method {owner n full : Triple} {kind : Kind} {name word : Text} {d : Descriptor}
      (changes : List Transformation) : IsMemberLine line →
      LastClass before owner → Declaration.memberKind (declaredBy line) = kind → kind ≠ .field →
      MemberName.splitDescriptor (declaredBy line) = (name, some word) → Descriptor.read word = .ok d →
      Triple.read kind (Text.trim name) = .ok n → Triple.Within owner n full →
      DeclaredUnder before line (changes.map .access ++ [.method kind full d])

namespace DeclaredUnder

variable {before : Account} {line : Text} {ds : List Declaration} (h : DeclaredUnder before line ds)
include h

theorem inPackage (is : IsClassLine line) : InPackage before.lines := by
  cases h with
  | nothing not => exact absurd is.toIsDeclaration not
  | package other => exact absurd is other.not_class
  | class_ _ _ last => exact last.inPackage
  | field _ other | method _ other => exact absurd is other.not_class

theorem inClass (is : IsMemberLine line) : InClass before.lines := by
  cases h with
  | nothing not => exact absurd is.toIsDeclaration not
  | package other => exact absurd other is.not_package
  | class_ _ other => exact absurd other is.not_class
  | field _ _ last | method _ _ last => exact last.inClass

end DeclaredUnder

/-! ## One line after another -/

/-- Lines that can be read, with what each of them declares. -/
inductive Told : Context → Account → Context → Prop
  | nil (c : Context) : Told c [] c
  | cons {c c' c'' : Context} {line : Text} {ds : List Declaration} {rest : Account} :
      ownLine c line = .ok (c', ds) → Told c' rest c'' → Told c ((line, ds) :: rest) c''

theorem exists_told_of_ownLines {c : Context} {lines : List Line} {own : List (List Declaration)}
    (h : ownLines c lines = .ok own) : ∃ (told : Account) (c' : Context),
      Told c told c' ∧ told.lines = lines.map (·.text) ∧ told.declared = own.flatten := by
  induction lines generalizing c own with
  | nil =>
    cases h
    exact ⟨[], c, .nil c, rfl, rfl⟩
  | cons line lines ih =>
    obtain ⟨c', here, later, first, rest, rfl⟩ := ownLines_cons_eq_ok_iff.mp h
    obtain ⟨told, last, run, texts, declared⟩ := ih rest
    exact ⟨(line.text, here) :: told, last, .cons first run, congrArg (line.text :: ·) texts,
      congrArg (here ++ ·) declared⟩

/-- The lines before one that cannot be read. -/
theorem exists_told_of_error {c : Context} {lines : List Line} {e : FormatError}
    (h : ownLines c lines = .error e) : ∃ (before after : List Line) (told : Account) (c' : Context),
      lines = before ++ e.line :: after ∧ Told c told c' ∧ told.lines = before.map (·.text) ∧
      ownLine c' e.line.text = .error e.fault := by
  induction lines generalizing c with
  | nil => cases h
  | cons line lines ih =>
    cases first : ownLine c line.text with
    | error fault =>
      rw [ownLines_of_error first] at h
      cases h
      exact ⟨[], lines, [], c, rfl, .nil c, rfl, first⟩
    | ok next =>
      rw [ownLines_of_ok first, map_eq_error_iff] at h
      obtain ⟨before, after, told, last, rfl, run, texts, refused⟩ := ih h
      exact ⟨line :: before, after, (line.text, next.2) :: told, last, rfl, .cons first run,
        congrArg (line.text :: ·) texts, refused⟩

/-- The context is what stands above: it has the names of the last package and of the last class inside of it,
and where it has none there is no such line. -/
structure Context.Stands (told : Account) (c : Context) : Prop where
  package : ∀ n, c.package = some n → LastPackage told n
  owner : ∀ n, c.owner = some n → LastClass told n
  noPackage : c.package = none → ¬InPackage told.lines
  noOwner : c.owner = none → ¬InClass told.lines

theorem Context.stands_empty : Context.Stands [] {} where
  package := nofun
  owner := nofun
  noPackage := fun _ ⟨_, mem, _⟩ => absurd mem List.not_mem_nil
  noOwner := fun _ => not_since_nil _ _

theorem Account.lines_concat (told : Account) (line : Text) (ds : List Declaration) :
    Account.lines (told ++ [(line, ds)]) = told.lines ++ [line] :=
  List.map_append

namespace Context.Stands

variable {told : Account} {c c' : Context} {line : Text} {ds : List Declaration} (h : c.Stands told)
include h

/-- A line that opens nothing leaves what stands above as it is. -/
theorem pass (notPackage : ¬IsPackageLine line) (notClass : ¬IsClassLine line) (ds : List Declaration) :
    c.Stands (told ++ [(line, ds)]) where
  package n is := since_concat_iff.mpr (.inr ⟨h.package n is, notPackage⟩)
  owner n is := since_concat_iff.mpr (.inr ⟨h.owner n is, notPackage, notClass⟩)
  noPackage none := by
    rw [Account.lines_concat, inPackage_concat_iff]
    exact not_or.mpr ⟨h.noPackage none, notPackage⟩
  noOwner none := by
    rw [Account.lines_concat, InClass, since_concat_iff]
    exact not_or.mpr ⟨notClass, fun inside => h.noOwner none inside.1⟩

theorem next_of_yields {changes : List Transformation} {d : Declaration} (yields : Yields c line c' changes d) :
    c'.Stands (told ++ [(line, changes.map .access ++ [d])]) := by
  cases yields with
  | package is =>
    refine ⟨?_, nofun, nofun, fun _ => ?_⟩
    · rintro _ ⟨⟩
      exact since_concat_iff.mpr (.inl ⟨is, [], rfl⟩)
    · rw [Account.lines_concat, InClass, since_concat_iff]
      exact not_or.mpr ⟨is.not_class, fun inside => inside.2 is⟩
  | class_ is inside =>
    refine ⟨fun n same => ?_, ?_, fun none => ?_, nofun⟩
    · exact since_concat_iff.mpr (.inr ⟨h.package n same, is.not_package⟩)
    · rintro _ ⟨⟩
      exact since_concat_iff.mpr (.inl ⟨is, changes, rfl⟩)
    · cases inside.symm.trans none
  | field is | method is => exact h.pass is.not_package is.not_class _

/-- A line that can be read leaves a context that is what stands above the next one. -/
theorem next (read : ownLine c line = .ok (c', ds)) : c'.Stands (told ++ [(line, ds)]) := by
  rcases yields_of_ownLine read with ⟨not, rfl, rfl⟩ | ⟨changes, d, yields, rfl⟩
  · exact h.pass (fun is => not is.toIsDeclaration) (fun is => not is.toIsDeclaration) []
  · exact h.next_of_yields yields

theorem declaredUnder (read : ownLine c line = .ok (c', ds)) : DeclaredUnder told line ds := by
  rcases yields_of_ownLine read with ⟨not, rfl, rfl⟩ | ⟨changes, d, yields, rfl⟩
  · exact .nothing not
  · cases yields with
    | package is _ named => exact .package is named
    | class_ is inside named => exact .class_ _ is (h.package _ inside) named (Triple.within_qualify _ _)
    | field is inside sort named =>
      exact .field _ is (h.owner _ inside) sort named (Triple.within_qualify _ _)
    | method is inside sort member split described named =>
      exact .method _ is (h.owner _ inside) sort member split described named (Triple.within_qualify _ _)

end Context.Stands

/-- Lines lead from what stands above them to what stands above the next ones. -/
theorem Told.stands {c c' : Context} {before told : Account} (h : Told c told c') (start : c.Stands before) :
    c'.Stands (before ++ told) := by
  induction h generalizing before with
  | nil => rwa [List.append_nil]
  | cons first _ ih =>
    have rest := ih (start.next first)
    rwa [List.append_assoc] at rest

theorem Told.split {c c' : Context} {before after : Account} {line : Text} {ds : List Declaration}
    (h : Told c (before ++ (line, ds) :: after) c') :
    ∃ own next, Told c before own ∧ ownLine own line = .ok (next, ds) := by
  induction before generalizing c with
  | nil =>
    cases h with
    | cons first _ => exact ⟨c, _, .nil c, first⟩
  | cons above before ih =>
    cases h with
    | cons first rest =>
      obtain ⟨own, next, run, here⟩ := ih rest
      exact ⟨own, next, .cons first run, here⟩

/-- Each line is declared under the ones before it. -/
theorem Told.declaredUnder {c : Context} {told before after : Account} {line : Text} {ds : List Declaration}
    (h : Told {} told c) (split : told = before ++ (line, ds) :: after) : DeclaredUnder before line ds := by
  subst split
  obtain ⟨own, next, run, here⟩ := h.split
  exact (run.stands Context.stands_empty).declaredUnder here

/-! ## What is written of a line that misses what it has to be in -/

section
variable {fault : Fault}

def initials (reason : String) : Text := reason.toList.take 2

/-- A reason starts as its first part does. -/
theorem initials_append {a : String} {start : Text} (is : initials a = start) (long : start.length = 2)
    (b : String) : initials (a ++ b) = start := by
  subst is
  unfold initials at *
  rw [List.length_take] at long
  rw [String.toList_append, List.take_append_of_le_length (by omega)]

/-- How the reasons start that have to do with what stands above, that of a class first. -/
def missingInitials : List Text := ["Cl", "Fi", "Co", "Me"].map String.toList

/-- No other reason starts in one of these ways. -/
theorem fault_of_initials (h : initials fault.reason ∈ missingInitials) :
    fault = .classBeforePackage ∨ ∃ kind, fault = .memberBeforeClass kind := by
  have other {start : Text} (is : initials fault.reason = start) (not : start ∉ missingInitials) : False :=
    not (is ▸ h)
  cases fault with
  | classBeforePackage => exact .inl rfl
  | memberBeforeClass kind => exact .inr ⟨kind, rfl⟩
  | unrecognizedKind => exact (other (initials_append rfl rfl _) (by decide +kernel)).elim
  | missingDescriptor | missingColumn | duplicateColumn =>
    exact (other (initials_append (initials_append rfl rfl _) rfl _) (by decide +kernel)).elim
  | partCount | sectionCount | columnCount | invalidField | invalidDescriptor =>
    exact (other (initials_append (initials_append (initials_append rfl rfl _) rfl _) rfl _)
      (by decide +kernel)).elim
  | _ => exact (other rfl (by decide +kernel)).elim

theorem reason_eq_classBeforePackage_iff :
    fault.reason = "Class before package" ↔ fault = .classBeforePackage := by
  refine ⟨fun h => ?_, fun h => h ▸ rfl⟩
  have start : initials fault.reason ∈ missingInitials := by
    rw [h]
    decide +kernel
  rcases fault_of_initials start with is | ⟨kind, rfl⟩
  · exact is
  · have other : initials (Fault.memberBeforeClass kind).reason ≠ initials "Class before package" := by
      cases kind <;> decide +kernel
    exact absurd (congrArg initials h) other

theorem exists_memberBeforeClass_of_reason {kind : Kind}
    (h : fault.reason = Fault.memberLabel kind ++ " before class") : ∃ kind, fault = .memberBeforeClass kind := by
  have start : initials fault.reason ∈ missingInitials.tail := by
    rw [h]
    cases kind <;> decide +kernel
  rcases fault_of_initials (List.mem_of_mem_tail start) with rfl | is
  · exact absurd start (by decide +kernel)
  · exact is

end

/-! ## Loads -/

section
variable {i : Importer} {base : Option Path} {seen : List Text} {text : Text} {t : Table} {overwrite : Bool}

theorem exists_told_of_loadFrom (alone : importedNames text = []) {r : Report}
    (loaded : (loadFrom i base seen text t overwrite).result = .ok r) : ∃ (told : Account) (c : Context),
      Told {} told c ∧ told.lines = Text.lines text ∧ (readText i base seen text).2 = .ok told.declared := by
  obtain ⟨ds, read⟩ := exists_readText_of_loadFrom loaded
  rw [readText_of_alone alone] at read
  obtain ⟨own, lines, _⟩ := map_eq_ok_iff.mp read
  obtain ⟨told, c, run, texts, declared⟩ := exists_told_of_ownLines lines
  refine ⟨told, c, run, texts.trans (Text.map_text_numbered text), ?_⟩
  rw [readText_of_alone alone, lines, declared]
  rfl

/-- The line at which a load fails, under the lines before it. -/
theorem exists_refused_of_loadFrom {e : FormatError}
    (failed : (loadFrom i base seen text t overwrite).result = .error (.format e)) :
    ∃ (before after : List Text) (c : Context) (told : Account), Text.lines text = before ++ e.line.text :: after ∧
      e.line.number = before.length + 1 ∧ told.lines = before ∧ c.Stands told ∧
      ownLine c e.line.text = .error e.fault := by
  obtain ⟨_, read, same⟩ := (loadFrom_eq_error_iff t overwrite).mp failed
  obtain rfl := LoadError.format.inj same
  rw [readText_eq_woven, map_eq_error_iff] at read
  obtain ⟨before, after, told, c, split, run, texts, refused⟩ := exists_told_of_error read
  refine ⟨told.lines, after.map (·.text), c, told, ?_, ?_, rfl, run.stands Context.stands_empty, refused⟩
  · rw [texts, ← Text.map_text_numbered, split, List.map_append, List.map_cons]
  · rw [texts, List.length_map]
    exact (Text.getElem?_lines_of_split split).1

end

/-- In a text without imports that is accepted, each line of a class declares it inside of the last package
before it, and each line of a member inside of the last class before it, so there is one. A text is refused for a
class or a member that stands before what it has to be in only at a line that has none before it. -/
theorem loadFrom_declares_under_last (i : Importer) (base : Option Path) (seen : List Text) {text : Text}
    (alone : importedNames text = []) (t : Table) (overwrite : Bool) :
    let l := loadFrom i base seen text t overwrite
    (∀ r, l.result = .ok r →
      (∃ told : Account, told.lines = Text.lines text ∧ (readText i base seen text).2 = .ok told.declared ∧
        l.table = ((Declaration.batch told.declared).addTo t overwrite).1 ∧
        ∀ before line ds after, told = before ++ (line, ds) :: after → DeclaredUnder before line ds) ∧
      ∀ before line after, Text.lines text = before ++ line :: after →
        (IsClassLine line → InPackage before) ∧ (IsMemberLine line → InClass before)) ∧
    ∀ e, l.result = .error (.format e) → ∃ before after,
      Text.lines text = before ++ e.line.text :: after ∧ e.line.number = before.length + 1 ∧
      (e.reason = "Class before package" → IsClassLine e.line.text ∧ ¬InPackage before) ∧
      ∀ kind, e.reason = Fault.memberLabel kind ++ " before class" →
        IsMemberLine e.line.text ∧ ¬InClass before := by
  intro l
  constructor
  · intro r loaded
    obtain ⟨told, c, run, texts, read⟩ := exists_told_of_loadFrom alone loaded
    have under {before after : Account} {line : Text} {ds : List Declaration}
        (split : told = before ++ (line, ds) :: after) : DeclaredUnder before line ds := run.declaredUnder split
    refine ⟨⟨told, texts, read, table_loadFrom_of_readText read, fun _ _ _ _ => under⟩, ?_⟩
    intro before line after split
    obtain ⟨above, rest, is, rfl, here⟩ := List.map_eq_append_iff.mp (texts.trans split)
    obtain ⟨⟨_, ds⟩, below, rfl, rfl, rfl⟩ := List.map_eq_cons_iff.mp here
    exact ⟨(under is).inPackage, (under is).inClass⟩
  · intro e failed
    obtain ⟨before, after, c, told, split, number, rfl, stands, refused⟩ := exists_refused_of_loadFrom failed
    have missing := missing_of_ownLine refused
    refine ⟨told.lines, after, split, number, fun reason => ?_, fun kind reason => ?_⟩
    · rw [reason_eq_classBeforePackage_iff.mp reason] at missing
      exact ⟨missing.1, stands.noPackage missing.2⟩
    · obtain ⟨_, is⟩ := exists_memberBeforeClass_of_reason reason
      rw [is] at missing
      exact ⟨missing.1, stands.noOwner missing.2.1⟩

/-- Two packages, the second one without an obfuscated name, each with a class, and between them comments. -/
def twoPackages : Text := "a:p\n\tb:C # C\n// f\n\t\tpublic!c:f\n:q\n\td:D\n\t\te:g (I)V\n".toList

def strayClass : Text := "// C\n\tb:C\n".toList

/-- A field after a package that has no class yet, though the one before it has. -/
def strayField : Text := "a:p\n\tb:C\nc:q\n\t\td:f\n".toList

theorem loadFrom_declares_under_last_strays :
    (∃ told : Account, told.lines = Text.lines twoPackages ∧
      (readText .empty none [] twoPackages).2 = .ok told.declared ∧
      ∀ before line ds after, told = before ++ (line, ds) :: after → DeclaredUnder before line ds) ∧
    (IsClassLine "\tb:C".toList ∧ ¬InPackage ["// C".toList]) ∧
    (IsMemberLine "\t\td:f".toList ∧ ¬InClass ["a:p".toList, "\tb:C".toList, "c:q".toList]) := by
  have alone : importedNames twoPackages = [] ∧ importedNames strayClass = [] ∧ importedNames strayField = [] := by
    decide +kernel
  have loads : ∃ r, (loadFrom .empty none [] twoPackages (.empty true) false).result = .ok r :=
    error?_eq_none_iff.mp (by decide +kernel)
  have noPackage : (loadFrom .empty none [] strayClass (.empty true) false).result =
      .error (.format ⟨⟨2, "\tb:C".toList⟩, .classBeforePackage⟩) :=
    error?_eq_some_iff.mp (by decide +kernel)
  have noClass : (loadFrom .empty none [] strayField (.empty true) false).result =
      .error (.format ⟨⟨4, "\t\td:f".toList⟩, .memberBeforeClass .field⟩) :=
    error?_eq_some_iff.mp (by decide +kernel)
  refine ⟨?_, ?_, ?_⟩
  · obtain ⟨r, loaded⟩ := loads
    obtain ⟨⟨told, texts, read, _, under⟩, _⟩ :=
      (loadFrom_declares_under_last .empty none [] alone.1 (.empty true) false).1 r loaded
    exact ⟨told, texts, read, under⟩
  · obtain ⟨before, after, split, number, stray, _⟩ :=
      (loadFrom_declares_under_last .empty none [] alone.2.1 (.empty true) false).2 _ noPackage
    have first : before = (Text.lines strayClass).take 1 := by
      rw [split, List.take_left' (Nat.succ.inj number).symm]
    have is : before = ["// C".toList] := first.trans (by decide +kernel)
    exact is ▸ stray rfl
  · obtain ⟨before, after, split, number, _, stray⟩ :=
      (loadFrom_declares_under_last .empty none [] alone.2.2 (.empty true) false).2 _ noClass
    have first : before = (Text.lines strayField).take 3 := by
      rw [split, List.take_left' (Nat.succ.inj number).symm]
    have is : before = ["a:p".toList, "\tb:C".toList, "c:q".toList] := first.trans (by decide +kernel)
    exact is ▸ stray .field rfl

end SymbolMap.Outline
