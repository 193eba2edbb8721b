import SymbolMap.Dialect.Outline.Reading
import SymbolMap.Proofs.Text.Cut

/-!
Reading with imports.

* `ownLine`, `line_cases`: what a line declares itself, and what else it can come to;
* `readLines_append`: a text that is read in two parts;
* `readLines_agree`: ways to import that agree on states that belong together read the same;
* `importFile_of_seen`, `importFile_of_unopened`, `importFile_of_opened`: what an import can come to;
* `prefix_importFile`: names stay seen;
* `readLines_eq_of_unseen`, `readText_eq_readLines`: imports never go deeper than there are names that have
  not been seen.
-/
namespace SymbolMap.Outline

namespace Imports

section
variable (s : Imports) (base : Option Path) (name : Text)

@[simp] theorem seen_opened : (s.opened base name).seen = s.seen ++ [name] := rfl

@[simp] theorem attempts_opened :
    (s.opened base name).attempts = s.attempts ++ [⟨base, name, true⟩] := rfl

@[simp] theorem seen_missed (e : FileError) : (s.missed base name e).seen = s.seen := rfl

@[simp] theorem attempts_missed (e : FileError) :
    (s.missed base name e).attempts = s.attempts ++ [⟨base, name, false⟩] := rfl

end

theorem fail_inj {s u : Imports} {name : Text} {fault fault' : ImportFault}
    (h : s.fail name fault = u.fail name fault') : s = u ∧ fault = fault' := by
  obtain ⟨seen, failures, events, attempts⟩ := s
  obtain ⟨seen', failures', events', attempts'⟩ := u
  simp only [fail, mk.injEq] at h
  obtain ⟨rfl, failed, told, rfl⟩ := h
  obtain ⟨rfl, last⟩ := List.append_inj' failed rfl
  obtain ⟨rfl, _⟩ := List.append_inj' told rfl
  exact ⟨rfl, (ImportFailure.mk.inj (List.singleton_inj.mp last)).2⟩

theorem told_ne_fail {s u : Imports} {e : Event} {name : Text} {fault : ImportFault}
    (other : e ≠ .skippedImport name fault) : s.told e ≠ u.fail name fault := by
  intro same
  have events : s.events ++ [e] = u.events ++ [.skippedImport name fault] :=
    congrArg Imports.events same
  exact other (List.singleton_inj.mp (List.append_inj' events rfl).2)

end Imports

/-- The names that lines import. -/
def namesIn (lines : List Text) : List Text :=
  lines.filterMap fun line =>
    match Item.read line with
    | .ok (.inclusion name) => some name
    | _ => none

theorem importedNames_eq (text : Text) : importedNames text = namesIn (Text.lines text) := rfl

theorem namesIn_append (a b : List Text) : namesIn (a ++ b) = namesIn a ++ namesIn b :=
  List.filterMap_append

theorem namesIn_of_inclusion {line name : Text} {lines : List Text}
    (is : Item.read line = .ok (.inclusion name)) : namesIn (line :: lines) = name :: namesIn lines :=
  List.filterMap_cons_some (by rw [is])

theorem mem_importedNames {text name : Text} :
    name ∈ importedNames text ↔ ∃ line ∈ Text.lines text, Item.read line = .ok (.inclusion name) := by
  rw [importedNames_eq, namesIn, List.mem_filterMap]
  refine exists_congr fun line => and_congr_right fun _ => ?_
  split
  · next found is => simp [is]
  · next other => exact ⟨nofun, fun is => (other name is).elim⟩

/-! ## Lines -/

/-- What one line comes to: the context and the state for the next one, and what it declares. -/
def readLine (importName : Text → Import) (c : Context) (s : Imports) (text : Text) :
    Imports × Except Fault (Context × List Declaration) :=
  match Item.read text with
  | .error fault => (s, .error fault)
  | .ok .nothing => (s, .ok (c, []))
  | .ok (.inclusion name) => ((importName name s).1, .ok (c, (importName name s).2))
  | .ok (.declaration depth directive text) => (s, Declaration.read c depth directive text)

theorem readLine_of_inclusion {importName : Text → Import} {c : Context} {s : Imports}
    {text name : Text} (is : Item.read text = .ok (.inclusion name)) :
    readLine importName c s text = ((importName name s).1, .ok (c, (importName name s).2)) := by
  unfold readLine
  rw [is]

/-- What a line declares itself, and the context for the next one. Where files come from has no part in it. -/
def ownLine (c : Context) (text : Text) : Except Fault (Context × List Declaration) :=
  match Item.read text with
  | .error fault => .error fault
  | .ok (.declaration depth directive text) => Declaration.read c depth directive text
  | .ok _ => .ok (c, [])

theorem ownLine_of_inclusion {c : Context} {text name : Text}
    (is : Item.read text = .ok (.inclusion name)) : ownLine c text = .ok (c, []) := by
  unfold ownLine
  rw [is]

/-- A line that imports nothing comes to what it declares itself. -/
theorem readLine_of_alone {importName : Text → Import} {text : Text}
    (alone : ∀ name, Item.read text ≠ .ok (.inclusion name)) (c : Context) (s : Imports) :
    readLine importName c s text = (s, ownLine c text) := by
  unfold readLine ownLine
  cases item : Item.read text with
  | error fault => rfl
  | ok found =>
    cases found with
    | nothing => rfl
    | inclusion name => exact absurd item (alone name)
    | declaration depth directive text => rfl

/-- A line imports a file, or it is invalid, or it declares something itself. -/
theorem line_cases (c : Context) (text : Text) :
    (∃ name, Item.read text = .ok (.inclusion name)) ∨ (∃ fault, ownLine c text = .error fault) ∨
      ∃ c' own, (∀ name, Item.read text ≠ .ok (.inclusion name)) ∧ ownLine c text = .ok (c', own) := by
  by_cases imports : ∃ name, Item.read text = .ok (.inclusion name)
  · exact .inl imports
  · refine .inr ?_
    cases own : ownLine c text with
    | error fault => exact .inl ⟨fault, rfl⟩
    | ok next => exact .inr ⟨next.1, next.2, fun name is => imports ⟨name, is⟩, rfl⟩

section
variable {importName : Text → Import} {c c' : Context} {declared : Array Declaration}
  {s s' : Imports} {line : Line} {lines : List Line}

theorem readLines_of_ok {more : List Declaration}
    (h : readLine importName c s line.text = (s', .ok (c', more))) :
    readLines importName c declared s (line :: lines) =
      readLines importName c' (declared ++ more) s' lines := by
  unfold readLine at h
  rw [readLines]
  cases item : Item.read line.text with
  | error fault =>
    rw [item] at h
    cases h
  | ok found =>
    rw [item] at h
    cases found with
    | nothing =>
      cases h
      simp
    | inclusion name =>
      cases h
      rfl
    | declaration depth directive text =>
      obtain ⟨rfl, read⟩ := Prod.mk.inj h
      dsimp only
      rw [read]

theorem readLines_of_error {fault : Fault}
    (h : readLine importName c s line.text = (s', .error fault)) :
    readLines importName c declared s (line :: lines) = (s', .error ⟨line, fault⟩) := by
  unfold readLine at h
  rw [readLines]
  cases item : Item.read line.text with
  | error fault =>
    rw [item] at h
    cases h
    rfl
  | ok found =>
    rw [item] at h
    cases found with
    | nothing => cases h
    | inclusion name => cases h
    | declaration depth directive text =>
      obtain ⟨rfl, read⟩ := Prod.mk.inj h
      dsimp only
      rw [read]

theorem readLines_of_inclusion {name : Text} (is : Item.read line.text = .ok (.inclusion name)) :
    readLines importName c declared s (line :: lines) =
      readLines importName c (declared ++ (importName name s).2) (importName name s).1 lines :=
  readLines_of_ok (readLine_of_inclusion is)

theorem readLines_of_own {own : List Declaration}
    (alone : ∀ name, Item.read line.text ≠ .ok (.inclusion name))
    (declares : ownLine c line.text = .ok (c', own)) :
    readLines importName c declared s (line :: lines) =
      readLines importName c' (declared ++ own) s lines := by
  apply readLines_of_ok
  rw [readLine_of_alone alone, declares]

/-- A line that is invalid imports nothing. -/
theorem readLines_of_invalid {fault : Fault} (invalid : ownLine c line.text = .error fault) :
    readLines importName c declared s (line :: lines) = (s, .error ⟨line, fault⟩) := by
  have alone : ∀ name, Item.read line.text ≠ .ok (.inclusion name) := by
    intro name is
    rw [ownLine_of_inclusion is] at invalid
    cases invalid
  apply readLines_of_error
  rw [readLine_of_alone alone, invalid]

/-- Lines that can be read leave a state from which the lines after them are read. -/
theorem readLines_append {xs : List Line} {ds : List Declaration}
    (h : readLines importName c declared s xs = (s', .ok ds)) :
    ∃ c', ∀ ys, readLines importName c declared s (xs ++ ys) =
      readLines importName c' ds.toArray s' ys := by
  induction xs generalizing c declared s with
  | nil =>
    obtain ⟨rfl, is⟩ := Prod.mk.inj h
    obtain rfl := Except.ok.inj is
    exact ⟨c, fun ys => by simp⟩
  | cons line xs ih =>
    rcases first : readLine importName c s line.text with ⟨next, fault | ⟨c', more⟩⟩
    · rw [readLines_of_error first] at h
      cases h
    · rw [readLines_of_ok first] at h
      obtain ⟨last, rest⟩ := ih h
      exact ⟨last, fun ys => (readLines_of_ok first).trans (rest ys)⟩

/-- Lines after one that cannot be read do not count. -/
theorem readLines_append_of_error {xs : List Line} {e : FormatError}
    (h : readLines importName c declared s xs = (s', .error e)) (ys : List Line) :
    readLines importName c declared s (xs ++ ys) = (s', .error e) := by
  induction xs generalizing c declared s with
  | nil => cases h
  | cons line xs ih =>
    rcases first : readLine importName c s line.text with ⟨next, fault | ⟨c', more⟩⟩
    · rw [readLines_of_error first] at h
      exact (readLines_of_error first).trans h
    · rw [readLines_of_ok first] at h
      exact (readLines_of_ok first).trans (ih h)

/-- Whatever holds from one import to the next holds from one line to the next. -/
theorem readLine_keeps {r : Imports → Imports → Prop} (refl : ∀ s, r s s)
    (keeps : ∀ name s, r s (importName name s).1) (c : Context) (s : Imports) (text : Text) :
    r s (readLine importName c s text).1 := by
  unfold readLine
  split
  · exact refl s
  · exact refl s
  · exact keeps _ s
  · exact refl s

theorem prefix_readLines (grows : ∀ name s, s.seen <+: (importName name s).1.seen)
    (c : Context) (declared : Array Declaration) (s : Imports) (lines : List Line) :
    s.seen <+: (readLines importName c declared s lines).1.seen := by
  induction lines generalizing c declared s with
  | nil => exact List.prefix_refl s.seen
  | cons line lines ih =>
    have here := readLine_keeps (r := fun s u => s.seen <+: u.seen)
      (fun s => List.prefix_refl s.seen) grows c s line.text
    rcases first : readLine importName c s line.text with ⟨next, fault | ⟨c', more⟩⟩
    · rw [readLines_of_error first]
      rwa [first] at here
    · rw [readLines_of_ok first]
      rw [first] at here
      exact here.trans (ih c' (declared ++ more) next)

end

/-! ## Two ways to import -/

/-- Both give the same and leave states that belong together, if the second one fits. -/
def Agree {α : Type} (r : Imports → Imports → Prop) (fits : Imports → Prop) (a b : Imports × α) :
    Prop :=
  fits b.1 → a.2 = b.2 ∧ r a.1 b.1

section
variable {r : Imports → Imports → Prop} {fits : Imports → Prop} {f g : Text → Import}
  {s u : Imports}

theorem readLine_agree {text : Text} (c : Context) (related : r s u)
    (imports : ∀ name, Item.read text = .ok (.inclusion name) → Agree r fits (f name s) (g name u)) :
    Agree r fits (readLine f c s text) (readLine g c u text) := by
  intro fit
  unfold readLine at fit ⊢
  split at fit
  · exact ⟨rfl, related⟩
  · exact ⟨rfl, related⟩
  · next name is =>
    obtain ⟨same, kept⟩ := imports name is fit
    exact ⟨by rw [same], kept⟩
  · exact ⟨rfl, related⟩

/-- Ways to import that agree, for the names that the lines import, read the lines alike. A state fits
only if the ones before it do. -/
theorem readLines_agree {lines : List Line}
    (back : ∀ c declared u lines, fits (readLines g c declared u lines).1 → fits u)
    (imports : ∀ line ∈ lines, ∀ name, Item.read line.text = .ok (.inclusion name) →
      ∀ s u, r s u → Agree r fits (f name s) (g name u))
    (c : Context) (declared : Array Declaration) (related : r s u) :
    Agree r fits (readLines f c declared s lines) (readLines g c declared u lines) := by
  induction lines generalizing c declared s u with
  | nil => exact fun _ => ⟨rfl, related⟩
  | cons line lines ih =>
    obtain ⟨here, later⟩ := List.forall_mem_cons.mp imports
    have first := readLine_agree c related fun name is => here name is s u related
    rcases isG : readLine g c u line.text with ⟨u', fault | ⟨c', more⟩⟩
    · rw [isG] at first
      rw [readLines_of_error isG]
      intro fit
      obtain ⟨same, kept⟩ := first fit
      have isF : readLine f c s line.text = (_, .error fault) := Prod.ext rfl same
      rw [readLines_of_error isF]
      exact ⟨rfl, kept⟩
    · rw [isG] at first
      rw [readLines_of_ok isG]
      intro fit
      obtain ⟨same, kept⟩ := first (back c' (declared ++ more) u' lines fit)
      have isF : readLine f c s line.text = (_, .ok (c', more)) := Prod.ext rfl same
      rw [readLines_of_ok isF]
      exact ih later c' (declared ++ more) kept fit

end

/-! ## Files -/

/-- How an import ends that has opened its file. -/
def settled (name : Text) :
    Imports × Except FormatError (List Declaration) → Imports × List Declaration
  | (s, .error e) => (s.fail name (.invalid e), [])
  | (s, .ok declared) =>
    (s.told (.imported (declared.filter Declaration.isMapping).length name), declared)

section
variable (name : Text) (read : Imports × Except FormatError (List Declaration))

@[simp] theorem seen_settled : (settled name read).1.seen = read.1.seen := by
  rcases read with ⟨s, e | declared⟩ <;> rfl

@[simp] theorem attempts_settled : (settled name read).1.attempts = read.1.attempts := by
  rcases read with ⟨s, e | declared⟩ <;> rfl

end

section
variable {i : Importer} {n : Nat} {base : Option Path} {name : Text} {s : Imports}

theorem importFile_of_seen (old : name ∈ s.seen) :
    importFile i (n + 1) base name s = (s.told (.repeatedImport name), []) := by
  rw [importFile, if_pos (List.contains_iff_mem.mpr old)]

theorem importFile_of_unopened {e : FileError} (new : name ∉ s.seen)
    (fetched : i.fetch base name = .error e) :
    importFile i (n + 1) base name s = (s.missed base name e, []) := by
  rw [importFile, if_neg (mt List.contains_iff_mem.mp new), fetched]

theorem importFile_of_opened {source : Source} (new : name ∉ s.seen)
    (fetched : i.fetch base name = .ok source) :
    importFile i (n + 1) base name s = settled name
      (readLines (importFile i n source.base) {} #[] (s.opened base name)
        (Text.numbered source.text)) := by
  rw [importFile, if_neg (mt List.contains_iff_mem.mp new), fetched]
  dsimp only
  rcases readLines (importFile i n source.base) {} #[] (s.opened base name)
    (Text.numbered source.text) with ⟨u, e | declared⟩
  · rfl
  · rfl

end

/-- Names stay seen. -/
theorem prefix_importFile (i : Importer) (n : Nat) (base : Option Path) (name : Text)
    (s : Imports) : s.seen <+: (importFile i n base name s).1.seen := by
  induction n generalizing base name s with
  | zero => exact List.prefix_refl s.seen
  | succ n ih =>
    by_cases old : name ∈ s.seen
    · rw [importFile_of_seen old]
      exact List.prefix_refl s.seen
    · cases fetched : i.fetch base name with
      | error e =>
        rw [importFile_of_unopened old fetched]
        exact List.prefix_refl s.seen
      | ok source =>
        rw [importFile_of_opened old fetched, seen_settled]
        exact (List.prefix_append s.seen [name]).trans
          (prefix_readLines (ih source.base) {} #[] (s.opened base name) _)

/-! ## Enough levels -/

/-- How many of the names have not been seen. -/
def unseen (names : List Text) (s : Imports) : Nat :=
  names.countP fun name => !s.seen.contains name

theorem unseen_le_of_prefix (names : List Text) {s u : Imports} (grown : s.seen <+: u.seen) :
    unseen names u ≤ unseen names s := by
  refine List.countP_mono_left fun name _ new => ?_
  have later : name ∉ u.seen := by simpa using new
  have earlier : name ∉ s.seen := fun old => later (grown.subset old)
  simpa using earlier

theorem unseen_opened_lt {names : List Text} {name : Text} {s : Imports} (base : Option Path)
    (mem : name ∈ names) (new : name ∉ s.seen) :
    unseen names (s.opened base name) < unseen names s := by
  obtain ⟨before, after, rfl⟩ := List.append_of_mem mem
  have grown : s.seen <+: (s.opened base name).seen := List.prefix_append s.seen [name]
  have first := unseen_le_of_prefix before grown
  have second := unseen_le_of_prefix after grown
  have news : (!s.seen.contains name) = true := by simpa using new
  have olds : (!(s.opened base name).seen.contains name) = false := by simp
  unfold unseen at first second ⊢
  rw [List.countP_append, List.countP_append, List.countP_cons, List.countP_cons, news, olds]
  simp only [if_true, Bool.false_eq_true, if_false]
  omega

/-- Names among which are all that the texts import. -/
def Covers (i : Importer) (names : List Text) : Prop :=
  ∀ text ∈ i.texts, ∀ name ∈ importedNames text, name ∈ names

theorem named_numbered {text : Text} {names : List Text}
    (named : ∀ name ∈ importedNames text, name ∈ names) :
    ∀ line ∈ Text.numbered text, ∀ name, Item.read line.text = .ok (.inclusion name) →
      name ∈ names := by
  intro line mem name is
  refine named name (mem_importedNames.mpr ⟨line.text, ?_, is⟩)
  rw [← Text.map_text_numbered]
  exact List.mem_map_of_mem mem

/-- Levels beyond the number of names that have not been seen change nothing, for lines that import some
of the names, if they change nothing for an import. -/
theorem readLines_eq_of_importFile_eq {i : Importer} {names : List Text} {n m : Nat}
    {base : Option Path} {lines : List Line}
    (named : ∀ line ∈ lines, ∀ name, Item.read line.text = .ok (.inclusion name) → name ∈ names)
    (same : ∀ name ∈ names, ∀ s, unseen names s < n → unseen names s < m →
      importFile i n base name s = importFile i m base name s)
    (c : Context) (declared : Array Declaration) {s : Imports} (hn : unseen names s < n)
    (hm : unseen names s < m) :
    readLines (importFile i n base) c declared s lines =
      readLines (importFile i m base) c declared s lines := by
  have agree : Agree (fun s u => s = u ∧ unseen names u < n ∧ unseen names u < m) (fun _ => True)
      (readLines (importFile i n base) c declared s lines)
      (readLines (importFile i m base) c declared s lines) := by
    refine readLines_agree (fun _ _ _ _ => id) ?_ c declared ⟨rfl, hn, hm⟩
    rintro line mem name is s u ⟨rfl, hn, hm⟩ -
    have grown := unseen_le_of_prefix names (prefix_importFile i m base name s)
    rw [same name (named line mem name is) s hn hm]
    exact ⟨rfl, rfl, by omega, by omega⟩
  obtain ⟨results, states, _⟩ := agree trivial
  exact Prod.ext states results

section
variable {i : Importer} {names : List Text} (covers : Covers i names)
include covers

theorem importFile_eq_of_unseen {n m : Nat} {base : Option Path} {name : Text} (mem : name ∈ names)
    {s : Imports} (hn : unseen names s < n) (hm : unseen names s < m) :
    importFile i n base name s = importFile i m base name s := by
  induction n generalizing m base name s with
  | zero => exact absurd hn (Nat.not_lt_zero _)
  | succ n ih =>
    cases m with
    | zero => exact absurd hm (Nat.not_lt_zero _)
    | succ m =>
      by_cases old : name ∈ s.seen
      · rw [importFile_of_seen old, importFile_of_seen old]
      · cases fetched : i.fetch base name with
        | error e => rw [importFile_of_unopened old fetched, importFile_of_unopened old fetched]
        | ok source =>
          have fewer := unseen_opened_lt base mem old
          rw [importFile_of_opened old fetched, importFile_of_opened old fetched]
          have named := covers source.text (i.mem_texts base name source fetched)
          exact congrArg (settled name) (readLines_eq_of_importFile_eq (named_numbered named)
            (fun name mem s hn hm => ih mem hn hm) _ _ (by omega) (by omega))

/-- Levels beyond the number of names that have not been seen change nothing. -/
theorem readLines_eq_of_unseen {n m : Nat} {base : Option Path} {lines : List Line}
    (named : ∀ line ∈ lines, ∀ name, Item.read line.text = .ok (.inclusion name) → name ∈ names)
    (c : Context) (declared : Array Declaration) {s : Imports} (hn : unseen names s < n)
    (hm : unseen names s < m) :
    readLines (importFile i n base) c declared s lines =
      readLines (importFile i m base) c declared s lines :=
  readLines_eq_of_importFile_eq named
    (fun _ mem _ hn hm => importFile_eq_of_unseen covers mem hn hm) c declared hn hm

end

/-- More levels than a text needs change nothing. -/
theorem readText_eq_readLines {i : Importer} {text : Text} {n : Nat} (enough : levels i text ≤ n)
    (base : Option Path) (seen : List Text) :
    readText i base seen text =
      readLines (importFile i n base) {} #[] { seen } (Text.numbered text) := by
  have covers : Covers i ((text :: i.texts).flatMap importedNames) := fun other mem name named =>
    List.mem_flatMap.mpr ⟨other, List.mem_cons_of_mem text mem, named⟩
  have most : unseen ((text :: i.texts).flatMap importedNames) { seen } < levels i text :=
    Nat.lt_succ_of_le List.countP_le_length
  exact readLines_eq_of_unseen covers (named_numbered fun name named =>
    List.mem_flatMap.mpr ⟨text, List.mem_cons_self, named⟩) {} #[] most (by omega)

end SymbolMap.Outline
