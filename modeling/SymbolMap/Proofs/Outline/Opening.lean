import Mathlib.Data.List.Dedup
import Mathlib.Data.List.Perm.Subperm
import SymbolMap.Proofs.Outcome
import SymbolMap.Proofs.Outline.Importing
import SymbolMap.Proofs.Text.Words

/-!
The files that reading an outline asks for.

* `Reading`: lines and the files that they import, read with nothing to bound how deep that goes;
* `Asks`, `Reading.asks`: the attempts to open a file that are recorded on the way. A name is seen once a file
  was opened by it, and is then not asked for again;
* `Reading.collects`: what holds of each line holds of all that is collected;
* `exists_reading`: if only so many texts can be opened, reading always comes to an end;
* `Reading.readLines_eq`: with as many levels as there are names left, this is how a text is read;
* `opens_each_name_once`: the results together, for any way to open files.
-/
namespace SymbolMap.Outline

/-- The names by which a file could be opened, in order. -/
def openedNames (attempts : List Attempt) : List Text :=
  (attempts.filter (·.opened)).map (·.name)

theorem openedNames_append (as bs : List Attempt) :
    openedNames (as ++ bs) = openedNames as ++ openedNames bs := by
  unfold openedNames
  rw [List.filter_append, List.map_append]

theorem openedNames_cons (a : Attempt) (attempts : List Attempt) :
    openedNames (a :: attempts) = openedNames [a] ++ openedNames attempts :=
  openedNames_append [a] attempts

theorem openedNames_singleton (a : Attempt) : openedNames [a] = if a.opened then [a.name] else [] := by
  unfold openedNames
  cases is : a.opened <;> simp [is]

/-- No file is asked for by a name that has been seen, or by which one was opened before. -/
def Fresh (seen : List Text) : List Attempt → Prop
  | [] => True
  | a :: attempts => a.name ∉ seen ∧ Fresh (seen ++ openedNames [a]) attempts

namespace Fresh

variable {seen : List Text}

theorem append {as bs : List Attempt} (h : Fresh seen as) (h' : Fresh (seen ++ openedNames as) bs) :
    Fresh seen (as ++ bs) := by
  induction as generalizing seen with
  | nil =>
    have none : seen ++ openedNames [] = seen := List.append_nil seen
    rwa [none] at h'
  | cons a as ih =>
    rw [openedNames_cons, ← List.append_assoc] at h'
    exact ⟨h.1, ih h.2 h'⟩

theorem of_append {before : List Attempt} {a : Attempt} {after : List Attempt}
    (h : Fresh seen (before ++ a :: after)) : a.name ∉ seen ∧ a.name ∉ openedNames before := by
  induction before generalizing seen with
  | nil => exact ⟨h.1, List.not_mem_nil⟩
  | cons b before ih =>
    obtain ⟨new, other⟩ := ih h.2
    refine ⟨fun old => new (List.mem_append_left _ old), fun mem => ?_⟩
    rw [openedNames_cons] at mem
    rcases List.mem_append.mp mem with here | later
    · exact new (List.mem_append_right seen here)
    · exact other later

theorem nodup {attempts : List Attempt} (h : Fresh seen attempts) :
    (openedNames attempts).Nodup ∧ ∀ name ∈ openedNames attempts, name ∉ seen := by
  induction attempts generalizing seen with
  | nil => exact ⟨List.nodup_nil, fun _ mem => absurd mem List.not_mem_nil⟩
  | cons a attempts ih =>
    obtain ⟨nodup, later⟩ := ih h.2
    rw [openedNames_cons]
    constructor
    · refine List.nodup_append.mpr ⟨?_, nodup, fun name mem name' mem' same => ?_⟩
      · rw [openedNames_singleton]
        split <;> simp
      · exact later name' mem' (List.mem_append_right seen (same ▸ mem))
    · intro name mem old
      rcases List.mem_append.mp mem with here | rest
      · rw [openedNames_singleton] at here
        split at here
        · exact h.1 (List.mem_singleton.mp here ▸ old)
        · exact absurd here List.not_mem_nil
      · exact later name rest (List.mem_append_left _ old)

end Fresh

/-- The attempts that were recorded between two states: they come out as the files have it, and a name that has
been seen is not asked for. The names that are seen are those that were, and those by which files were opened. -/
structure Asks (o : Opener) (s s' : Imports) (attempts : List Attempt) : Prop where
  recorded : s'.attempts = s.attempts ++ attempts
  seen : s'.seen = s.seen ++ openedNames attempts
  fresh : Fresh s.seen attempts
  opened : ∀ a ∈ attempts, a.opened = (o a.base a.name).isOk

namespace Asks

variable {o : Opener} {s s' s'' : Imports} {base : Option Path} {name : Text}

theorem nothing (recorded : s'.attempts = s.attempts) (seen : s'.seen = s.seen) : Asks o s s' [] where
  recorded := recorded.trans (List.append_nil _).symm
  seen := seen.trans (List.append_nil _).symm
  fresh := trivial
  opened _ mem := absurd mem List.not_mem_nil

theorem telling (e : Event) : Asks o s (s.told e) [] := .nothing rfl rfl

theorem settling (name : Text) (read : Except FormatError (List Declaration)) :
    Asks o s (settled name (s, read)).1 [] :=
  .nothing (attempts_settled name (s, read)) (seen_settled name (s, read))

theorem append {as bs : List Attempt} (h : Asks o s s' as) (h' : Asks o s' s'' bs) :
    Asks o s s'' (as ++ bs) where
  recorded := by rw [h'.recorded, h.recorded, List.append_assoc]
  seen := by rw [h'.seen, h.seen, openedNames_append, List.append_assoc]
  fresh := h.fresh.append (h.seen ▸ h'.fresh)
  opened := List.forall_mem_append.mpr ⟨h.opened, h'.opened⟩

theorem missing {e : FileError} (new : name ∉ s.seen) (fetched : o base name = .error e) :
    Asks o s (s.missed base name e) [⟨base, name, false⟩] where
  recorded := rfl
  seen := (List.append_nil _).symm
  fresh := ⟨new, trivial⟩
  opened := List.forall_mem_singleton.mpr (by rw [fetched]; rfl)

theorem opening {source : Source} (new : name ∉ s.seen) (fetched : o base name = .ok source) :
    Asks o s (s.opened base name) [⟨base, name, true⟩] where
  recorded := rfl
  seen := rfl
  fresh := ⟨new, trivial⟩
  opened := List.forall_mem_singleton.mpr (by rw [fetched]; rfl)

end Asks

/-! ## Reading without a bound -/

/-- Lines are read up to the first invalid one, and a file that a line imports is read before the next line.
A derivation is a finite tree with an inner one for each file that was opened, so if there is one, then the
reading ends. -/
inductive Reading (o : Opener) : Option Path → Context → Imports → List Line → Imports →
    Except FormatError (List Declaration) → Prop
  | done {base : Option Path} {c : Context} {s : Imports} : Reading o base c s [] s (.ok [])
  | invalid {base : Option Path} {c : Context} {s : Imports} {line : Line} {lines : List Line}
      {fault : Fault} : ownLine c line.text = .error fault →
      Reading o base c s (line :: lines) s (.error ⟨line, fault⟩)
  | declared {base : Option Path} {c c' : Context} {s s' : Imports} {line : Line} {lines : List Line}
      {own : List Declaration} {r : Except FormatError (List Declaration)} :
      (∀ name, Item.read line.text ≠ .ok (.inclusion name)) → ownLine c line.text = .ok (c', own) →
      Reading o base c' s lines s' r → Reading o base c s (line :: lines) s' (r.map (own ++ ·))
  | repeated {base : Option Path} {c : Context} {s s' : Imports} {line : Line} {lines : List Line}
      {name : Text} {r : Except FormatError (List Declaration)} :
      Item.read line.text = .ok (.inclusion name) → name ∈ s.seen →
      Reading o base c (s.told (.repeatedImport name)) lines s' r → Reading o base c s (line :: lines) s' r
  | unopened {base : Option Path} {c : Context} {s s' : Imports} {line : Line} {lines : List Line}
      {name : Text} {e : FileError} {r : Except FormatError (List Declaration)} :
      Item.read line.text = .ok (.inclusion name) → name ∉ s.seen → o base name = .error e →
      Reading o base c (s.missed base name e) lines s' r → Reading o base c s (line :: lines) s' r
  | opened {base : Option Path} {c : Context} {s u s' : Imports} {line : Line} {lines : List Line}
      {name : Text} {source : Source} {read r : Except FormatError (List Declaration)} :
      Item.read line.text = .ok (.inclusion name) → name ∉ s.seen → o base name = .ok source →
      Reading o source.base {} (s.opened base name) (Text.numbered source.text) u read →
      Reading o base c (settled name (u, read)).1 lines s' r →
      Reading o base c s (line :: lines) s' (r.map ((settled name (u, read)).2 ++ ·))

section
variable {o : Opener} {base : Option Path} {c : Context} {s s' : Imports} {lines : List Line}
  {r : Except FormatError (List Declaration)}

theorem Reading.asks (h : Reading o base c s lines s' r) : ∃ attempts, Asks o s s' attempts := by
  induction h with
  | done | invalid => exact ⟨[], .nothing rfl rfl⟩
  | declared _ _ _ ih => exact ih
  | repeated _ _ _ ih =>
    obtain ⟨attempts, later⟩ := ih
    exact ⟨_, (Asks.telling _).append later⟩
  | unopened _ new fetched _ ih =>
    obtain ⟨attempts, later⟩ := ih
    exact ⟨_, (Asks.missing new fetched).append later⟩
  | opened _ new fetched _ _ first rest =>
    obtain ⟨inner, inside⟩ := first
    obtain ⟨attempts, later⟩ := rest
    exact ⟨_, (Asks.opening new fetched).append (inside.append ((Asks.settling _ _).append later))⟩

theorem Reading.grown (h : Reading o base c s lines s' r) : s.seen <+: s'.seen := by
  obtain ⟨attempts, asks⟩ := h.asks
  exact ⟨openedNames attempts, asks.seen.symm⟩

/-- A file that has been read leaves no more names unseen than there were. -/
theorem Reading.unseen_settled_le (h : Reading o base c s lines s' r) (names : List Text) (name : Text)
    (read : Except FormatError (List Declaration)) :
    unseen names (settled name (s', read)).1 ≤ unseen names s := by
  apply unseen_le_of_prefix
  rw [seen_settled]
  exact h.grown

theorem whole_of_mem_numbered {text : Text} : ∀ line ∈ Text.numbered text, '\n' ∉ line.text :=
  fun _ mem => Text.whole_of_mem_lines (Text.text_mem_lines mem)

/-- What holds of nothing, of what a line declares in a context that is right, and of two such lists together,
holds of all that is collected. An import that failed has collected nothing. -/
theorem Reading.collects {p : List Declaration → Prop} {q : Context → Prop} (none : p [])
    (append : ∀ a b, p a → p b → p (a ++ b)) (empty : q {})
    (line : ∀ c text c' own, '\n' ∉ text → q c → ownLine c text = .ok (c', own) → q c' ∧ p own)
    (h : Reading o base c s lines s' r) (inside : q c) (whole : ∀ line ∈ lines, '\n' ∉ line.text) :
    ∀ ds, r = .ok ds → p ds := by
  induction h with
  | done =>
    rintro _ ⟨⟩
    exact none
  | invalid => nofun
  | declared _ own _ ih =>
    intro ds is
    obtain ⟨here, later⟩ := List.forall_mem_cons.mp whole
    obtain ⟨rest, read, rfl⟩ := map_eq_ok_iff.mp is
    obtain ⟨context, own⟩ := line _ _ _ _ here inside own
    exact append _ rest own (ih context later rest read)
  | repeated _ _ _ ih | unopened _ _ _ _ ih => exact ih inside (List.forall_mem_cons.mp whole).2
  | @opened _ _ _ _ _ _ _ _ _ read _ _ _ _ _ _ first later =>
    intro ds is
    obtain ⟨rest, others, rfl⟩ := map_eq_ok_iff.mp is
    refine append _ rest ?_ (later inside (List.forall_mem_cons.mp whole).2 rest others)
    cases read with
    | error e => exact none
    | ok imported => exact first empty whole_of_mem_numbered imported rfl

end

/-! ## Names -/

/-- The lines import nothing but some of the names. -/
def Within (names : List Text) (lines : List Line) : Prop :=
  ∀ line ∈ lines, ∀ name, Item.read line.text = .ok (.inclusion name) → name ∈ names

/-- All files that can be opened import nothing but some of the names. -/
def OpensWithin (o : Opener) (names : List Text) : Prop :=
  ∀ base name source, o base name = .ok source → Within names (Text.numbered source.text)

section
variable {o : Opener} {names : List Text} (within : OpensWithin o names)
include within

/-- Nothing but these names is asked for. -/
theorem Reading.name_mem {base : Option Path} {c : Context} {s s' : Imports} {lines : List Line}
    {r : Except FormatError (List Declaration)} (h : Reading o base c s lines s' r)
    (named : Within names lines) (before : ∀ a ∈ s.attempts, a.name ∈ names) :
    ∀ a ∈ s'.attempts, a.name ∈ names := by
  induction h with
  | done | invalid => exact before
  | declared _ _ _ ih | repeated _ _ _ ih => exact ih (List.forall_mem_cons.mp named).2 before
  | unopened is _ _ _ ih =>
    obtain ⟨here, later⟩ := List.forall_mem_cons.mp named
    refine ih later ?_
    rw [Imports.attempts_missed]
    exact List.forall_mem_append.mpr ⟨before, List.forall_mem_singleton.mpr (here _ is)⟩
  | opened is _ fetched _ _ first rest =>
    obtain ⟨here, later⟩ := List.forall_mem_cons.mp named
    refine rest later ?_
    rw [attempts_settled]
    refine first (within _ _ _ fetched) ?_
    rw [Imports.attempts_opened]
    exact List.forall_mem_append.mpr ⟨before, List.forall_mem_singleton.mpr (here _ is)⟩

/-- Reading always comes to an end. With each file that is opened fewer names are left that have not been
seen, and within a file each line leaves fewer lines. -/
theorem exists_reading {n : Nat} {s : Imports} (left : unseen names s < n) (base : Option Path)
    (c : Context) {lines : List Line} (named : Within names lines) :
    ∃ s' r, Reading o base c s lines s' r := by
  induction n generalizing s base c lines with
  | zero => exact absurd left (Nat.not_lt_zero _)
  | succ n deeper =>
    induction lines generalizing s c with
    | nil => exact ⟨s, .ok [], .done⟩
    | cons line lines further =>
      obtain ⟨here, later⟩ := List.forall_mem_cons.mp named
      rcases line_cases c line.text with ⟨name, is⟩ | ⟨fault, invalid⟩ | ⟨c', own, alone, declares⟩
      · by_cases old : name ∈ s.seen
        · obtain ⟨s', r, rest⟩ := further (s := s.told (.repeatedImport name)) left c later
          exact ⟨_, _, .repeated is old rest⟩
        · cases fetched : o base name with
          | error e =>
            obtain ⟨s', r, rest⟩ := further (s := s.missed base name e) left c later
            exact ⟨_, _, .unopened is old fetched rest⟩
          | ok source =>
            have fewer := unseen_opened_lt base (here name is) old
            obtain ⟨u, read, first⟩ := deeper (s := s.opened base name) (by omega) source.base {}
              (within base name source fetched)
            have kept := first.unseen_settled_le names name read
            obtain ⟨s', r, rest⟩ := further (s := (settled name (u, read)).1) (by omega) c later
            exact ⟨_, _, .opened is old fetched first rest⟩
      · exact ⟨_, _, .invalid invalid⟩
      · obtain ⟨s', r, rest⟩ := further left c' later
        exact ⟨_, _, .declared alone declares rest⟩

end

/-! ## Reading with so many levels -/

theorem map_append_map (own : List Declaration) (declared : Array Declaration)
    (r : Except FormatError (List Declaration)) :
    (r.map (own ++ ·)).map (declared.toList ++ ·) = r.map ((declared ++ own).toList ++ ·) := by
  cases r with
  | error e => rfl
  | ok ds => simp [Except.map]

theorem map_nothing_append (r : Except FormatError (List Declaration)) :
    r.map ((#[] : Array Declaration).toList ++ ·) = r := by
  cases r <;> rfl

/-- With more levels than there are names left, lines are read in this way. -/
theorem Reading.readLines_eq {i : Importer} {names : List Text} (within : OpensWithin i.fetch names)
    {base : Option Path} {c : Context} {s s' : Imports} {lines : List Line}
    {r : Except FormatError (List Declaration)} (h : Reading i.fetch base c s lines s' r)
    (named : Within names lines) {n : Nat} (enough : unseen names s < n)
    (declared : Array Declaration) :
    readLines (importFile i n base) c declared s lines = (s', r.map (declared.toList ++ ·)) := by
  induction h generalizing n declared with
  | done => simp [readLines, Except.map]
  | invalid invalid => exact readLines_of_invalid invalid
  | declared alone own _ ih =>
    have later := (List.forall_mem_cons.mp named).2
    rw [readLines_of_own alone own, ih later enough, map_append_map]
  | repeated is old _ ih =>
    have later := (List.forall_mem_cons.mp named).2
    obtain ⟨n, rfl⟩ := Nat.exists_eq_succ_of_ne_zero (Nat.ne_zero_of_lt enough)
    rw [readLines_of_inclusion is, importFile_of_seen old, ih later enough]
    simp
  | unopened is new fetched _ ih =>
    have later := (List.forall_mem_cons.mp named).2
    obtain ⟨n, rfl⟩ := Nat.exists_eq_succ_of_ne_zero (Nat.ne_zero_of_lt enough)
    rw [readLines_of_inclusion is, importFile_of_unopened new fetched, ih later enough]
    simp
  | @opened base _ s u _ _ _ name source read _ is new fetched inside _ first rest =>
    obtain ⟨here, later⟩ := List.forall_mem_cons.mp named
    obtain ⟨n, rfl⟩ := Nat.exists_eq_succ_of_ne_zero (Nat.ne_zero_of_lt enough)
    have fewer := unseen_opened_lt base (here _ is) new
    have inner := first (within _ _ _ fetched) (n := n) (by omega) #[]
    have imported : importFile i (n + 1) base name s = settled name (u, read) := by
      rw [importFile_of_opened new fetched, inner, map_nothing_append]
    have kept := inside.unseen_settled_le names name read
    rw [readLines_of_inclusion is, imported, rest later (by omega), map_append_map]

/-- A text and the texts that can be opened import nothing but the names on their own lines. -/
theorem within_of_finite {o : Opener} {files : List Text}
    (finite : ∀ base name source, o base name = .ok source → source.text ∈ files) (text : Text) :
    OpensWithin o ((text :: files).flatMap importedNames) ∧
      Within ((text :: files).flatMap importedNames) (Text.numbered text) := by
  have named : ∀ other ∈ text :: files, ∀ name ∈ importedNames other,
      name ∈ (text :: files).flatMap importedNames :=
    fun other mem name own => List.mem_flatMap.mpr ⟨other, mem, own⟩
  refine ⟨fun base name source fetched => named_numbered (named _ ?_),
    named_numbered (named text List.mem_cons_self)⟩
  exact List.mem_cons_of_mem text (finite base name source fetched)

/-- A text with all its imports is read in this way. -/
theorem Reading.readText_eq {i : Importer} {base : Option Path} {seen : List Text} {text : Text}
    {s : Imports} {r : Except FormatError (List Declaration)}
    (h : Reading i.fetch base {} { seen } (Text.numbered text) s r) :
    readText i base seen text = (s, r) := by
  obtain ⟨within, lines⟩ := within_of_finite i.mem_texts text
  have most : unseen ((text :: i.texts).flatMap importedNames) { seen } < levels i text :=
    Nat.lt_succ_of_le List.countP_le_length
  have read := h.readLines_eq within lines most #[]
  rw [map_nothing_append] at read
  exact read

/-- With an importer that comes to an end for every text. -/
theorem reading_readText (i : Importer) (base : Option Path) (seen : List Text) (text : Text) :
    Reading i.fetch base {} { seen } (Text.numbered text) (readText i base seen text).1
      (readText i base seen text).2 := by
  obtain ⟨within, lines⟩ := within_of_finite i.mem_texts text
  obtain ⟨s, r, reading⟩ := exists_reading within (Nat.lt_succ_self (unseen _ { seen })) base {} lines
  rw [reading.readText_eq]
  exact reading

/-- What is said of the attempts to open a file: they come out as the files have it, none is made by a name that
was seen before or that has opened a file, and no name opens two. So no more files are opened than there are names
on the import lines of the texts. -/
structure OpensOnce (o : Opener) (seen : List Text) (texts : List Text) (attempts : List Attempt) : Prop where
  opened : ∀ a ∈ attempts, a.opened = (o a.base a.name).isOk
  fresh : ∀ before a after, attempts = before ++ a :: after → a.name ∉ seen ∧ a.name ∉ openedNames before
  once : (openedNames attempts).Nodup
  few : (openedNames attempts).length ≤ (texts.flatMap importedNames).dedup.length

/-- Whatever imports what, reading a text comes to an end if the files that can be opened hold only so many
texts, and by the record that it keeps no name opens two files on the way. That is how a text is read with an
importer. -/
theorem opens_each_name_once (o : Opener) {files : List Text}
    (finite : ∀ base name source, o base name = .ok source → source.text ∈ files)
    (base : Option Path) (seen : List Text) (text : Text) :
    ∃ s r, Reading o base {} { seen } (Text.numbered text) s r ∧
      OpensOnce o seen (text :: files) s.attempts ∧ s.seen = seen ++ openedNames s.attempts ∧
      ∀ i : Importer, i.fetch = o → readText i base seen text = (s, r) := by
  obtain ⟨within, lines⟩ := within_of_finite finite text
  obtain ⟨s, r, reading⟩ :=
    exists_reading within (Nat.lt_succ_self (unseen _ { seen })) base {} lines
  obtain ⟨attempts, asks⟩ := reading.asks
  obtain rfl : s.attempts = attempts := asks.recorded
  have named := reading.name_mem within lines fun _ mem => absurd mem List.not_mem_nil
  have mem : openedNames s.attempts ⊆ ((text :: files).flatMap importedNames).dedup := by
    intro name opened
    obtain ⟨a, kept, rfl⟩ := List.mem_map.mp opened
    exact List.mem_dedup.mpr (named a (List.mem_filter.mp kept).1)
  obtain ⟨once, _⟩ := asks.fresh.nodup
  refine ⟨s, r, reading, ⟨asks.opened, ?_, once, (List.subperm_of_subset once mem).length_le⟩,
    asks.seen, ?_⟩
  · intro before a after is
    have fresh := asks.fresh
    rw [is] at fresh
    exact fresh.of_append
  · rintro i rfl
    exact reading.readText_eq

/-- Two files that import each other and themselves, one of them under two names, and a name that opens a
file from one base only. -/
def loopedFiles : List (Path × Text) :=
  [(⟨"d/a".toList⟩, ">>b\n>>d/a\n>>x\n".toList), (⟨"d/b".toList⟩, ">>a\n".toList),
    (⟨"x".toList⟩, ">>x\n>>d/a\n".toList)]

def loopedText : Text := ">>d/a\n>>x\n".toList

theorem opens_each_name_once_looped :
    let i := Importer.memory loopedFiles
    (∀ base name source, i.fetch base name = .ok source → source.text ∈ loopedFiles.map (·.2)) ∧
    ∃ s r, Reading i.fetch none {} { seen := [] } (Text.numbered loopedText) s r ∧
      readText i none [] loopedText = (s, r) ∧
      openedNames s.attempts = ["d/a".toList, "b".toList, "a".toList, "x".toList] ∧
      (openedNames s.attempts).length ≤ 4 := by
  intro i
  obtain ⟨s, r, reading, once, _, read⟩ := opens_each_name_once i.fetch i.mem_texts none [] loopedText
  have run := read i rfl
  have names : openedNames (readText i none [] loopedText).1.attempts =
      ["d/a".toList, "b".toList, "a".toList, "x".toList] := by
    decide +kernel
  have distinct : ((loopedText :: loopedFiles.map (·.2)).flatMap importedNames).dedup.length = 4 := by
    decide +kernel
  rw [run] at names
  exact ⟨i.mem_texts, s, r, reading, run, names, distinct ▸ once.few⟩

end SymbolMap.Outline
