import SymbolMap.Dialect.Outline.Loading
import SymbolMap.Proofs.Outcome
import SymbolMap.Proofs.Outline.Importing

/-!
Imports that are left out.

* `Knows`, `importFile_agree`: names that one of two loads has seen before make no difference, as long as
  the other one opens no file by them;
* `LeftOut.readText_eq`, `LeftOut.loadText_blanked`: a failed import comes to the same as an empty line in
  its place, as long as no file is opened later by a name that was seen in it.
-/
namespace SymbolMap.Outline

variable {extra : Text → Prop} {s u : Imports}

/-- One state has seen some names more than the other. -/
def Knows (extra : Text → Prop) (s u : Imports) : Prop :=
  ∀ x, x ∈ s.seen ↔ x ∈ u.seen ∨ extra x

theorem knows_of_prefix (grown : u.seen <+: s.seen) :
    Knows (fun x => x ∈ s.seen ∧ x ∉ u.seen) s u := by
  intro x
  constructor
  · intro mem
    by_cases old : x ∈ u.seen
    · exact .inl old
    · exact .inr ⟨mem, old⟩
  · rintro (old | ⟨mem, _⟩)
    · exact grown.subset old
    · exact mem

/-- None of the names has been seen. -/
def Avoids (extra : Text → Prop) (u : Imports) : Prop :=
  ∀ x, extra x → x ∉ u.seen

theorem Avoids.of_prefix {u' : Imports} (h : Avoids extra u') (grown : u.seen <+: u'.seen) :
    Avoids extra u :=
  fun x hx mem => h x hx (grown.subset mem)

theorem Knows.opened (h : Knows extra s u) (base : Option Path) (name : Text) :
    Knows extra (s.opened base name) (u.opened base name) := by
  intro x
  rw [Imports.seen_opened, Imports.seen_opened, List.mem_append, List.mem_append, h x, or_right_comm]

theorem Agree.settled {name : Text} {a b : Imports × Except FormatError (List Declaration)}
    (h : Agree (Knows extra) (Avoids extra) a b) :
    Agree (Knows extra) (Avoids extra) (settled name a) (settled name b) := by
  intro fits
  rw [Avoids, seen_settled] at fits
  obtain ⟨same, known⟩ := h fits
  obtain ⟨s, read⟩ := a
  obtain ⟨u, read'⟩ := b
  obtain rfl : read = read' := same
  cases read with
  | error e => exact ⟨rfl, known⟩
  | ok declared => exact ⟨rfl, known⟩

/-- Names that were seen before only change what is imported if a file is opened by one of them. -/
theorem importFile_agree (i : Importer) (n : Nat) (base : Option Path) (name : Text)
    (known : Knows extra s u) :
    Agree (Knows extra) (Avoids extra) (importFile i n base name s) (importFile i n base name u) := by
  induction n generalizing base name s u with
  | zero => exact fun _ => ⟨rfl, known⟩
  | succ n ih =>
    by_cases old : name ∈ u.seen
    · rw [importFile_of_seen old, importFile_of_seen ((known name).mpr (.inl old))]
      exact fun _ => ⟨rfl, known⟩
    · cases fetched : i.fetch base name with
      | error e =>
        rw [importFile_of_unopened old fetched]
        by_cases hidden : name ∈ s.seen
        · rw [importFile_of_seen hidden]
          exact fun _ => ⟨rfl, known⟩
        · rw [importFile_of_unopened hidden fetched]
          exact fun _ => ⟨rfl, known⟩
      | ok source =>
        rw [importFile_of_opened old fetched]
        by_cases hidden : name ∈ s.seen
        · -- The second load opens a file by a name that it must not have seen.
          intro fits
          have opened := prefix_readLines (prefix_importFile i n source.base) {} #[] (u.opened base name)
            (Text.numbered source.text)
          have mem : name ∈ (u.opened base name).seen := List.mem_append_right _ List.mem_cons_self
          have isExtra := ((known name).mp hidden).resolve_left old
          rw [Avoids, seen_settled] at fits
          exact absurd (opened.subset mem) (fits name isExtra)
        · rw [importFile_of_opened hidden fetched]
          refine Agree.settled (readLines_agree ?_ ?_ {} #[] (known.opened base name))
          · exact fun c declared u lines fits =>
              fits.of_prefix (prefix_readLines (prefix_importFile i n source.base) c declared u lines)
          · exact fun _ _ name _ s u known => ih source.base name known

theorem readLines_importFile_agree (i : Importer) (n : Nat) (base : Option Path)
    (known : Knows extra s u) (c : Context) (declared : Array Declaration) (lines : List Line) :
    Agree (Knows extra) (Avoids extra) (readLines (importFile i n base) c declared s lines)
      (readLines (importFile i n base) c declared u lines) :=
  readLines_agree
    (fun c declared u lines fits =>
      fits.of_prefix (prefix_readLines (prefix_importFile i n base) c declared u lines))
    (fun _ _ name _ _ _ known => importFile_agree i n base name known) c declared known

/-- The table of a load and the changes of access depend on what the text declares only. -/
theorem loadText_congr {i : Importer} {a b : Text}
    (same : (readText i none [] a).2 = (readText i none [] b).2) (t : Table) (overwrite : Bool)
    {r : Report} (loaded : (loadText i a t overwrite).result = .ok r) :
    ∃ r', (loadText i b t overwrite).result = .ok r' ∧ r'.transformations = r.transformations ∧
      (loadText i b t overwrite).table = (loadText i a t overwrite).table := by
  unfold loadText loadFrom at loaded ⊢
  generalize readText i none [] a = readA at *
  generalize readText i none [] b = readB at *
  obtain ⟨s, result⟩ := readA
  obtain ⟨u, result'⟩ := readB
  obtain rfl : result = result' := same
  cases result with
  | error e => cases loaded
  | ok ds =>
    cases loaded
    exact ⟨_, rfl, rfl, rfl⟩

/-! ## A line that is left out -/

/-- A line of a text that imports a file and fails to. `s` is what is known of the imports before the line,
and `s'` what is known when it fails. -/
structure LeftOut (i : Importer) (before line after name : Text) (s s' : Imports)
    (fault : ImportFault) : Prop where
  ended : before = [] ∨ before.getLast? = some '\n'
  whole : '\n' ∉ line
  follows : Text.Follows line after
  names : Item.read line = .ok (.inclusion name)
  reached : (readText i none [] before).1 = s
  fails : importFile i (levels i (before ++ line ++ after)) none name s = (s'.fail name fault, [])

namespace LeftOut

variable {i : Importer} {before line after name : Text} {s s' : Imports} {fault : ImportFault}
  (h : LeftOut i before line after name s s' fault)
include h

/-- The lines around the one that is left out. -/
theorem lines_eq : ∃ rest,
    Text.lines (before ++ line ++ after) = Text.lines before ++ line :: rest ∧
    (Text.lines (before ++ after) = Text.lines before ++ [] :: rest ∨
      Text.lines (before ++ after) = Text.lines before ∧ rest = []) := by
  have filled : line ≠ [] := fun none => by
    have is := h.names
    rw [none] at is
    cases is
  obtain ⟨rest, here, blanked⟩ := Text.lines_of_follows h.whole filled h.follows
  refine ⟨rest, by rw [List.append_assoc, Text.lines_append h.ended, here], ?_⟩
  rw [Text.lines_append h.ended]
  rcases blanked with is | ⟨is, none⟩
  · exact .inl (by rw [is])
  · exact .inr ⟨by rw [is, List.append_nil], none⟩

theorem numbered_eq : ∃ number rest,
    Text.numbered (before ++ line ++ after) = Text.numbered before ++ ⟨number, line⟩ :: rest ∧
    (Text.numbered (before ++ after) = Text.numbered before ++ ⟨number, []⟩ :: rest ∨
      Text.numbered (before ++ after) = Text.numbered before ∧ rest = []) := by
  obtain ⟨rest, here, blanked⟩ := h.lines_eq
  unfold Text.numbered
  rw [here, List.mapIdx_append, List.mapIdx_cons]
  refine ⟨_, _, rfl, ?_⟩
  rcases blanked with is | ⟨is, rfl⟩
  · rw [is, List.mapIdx_append, List.mapIdx_cons]
    exact .inl rfl
  · rw [is]
    exact .inr ⟨rfl, rfl⟩

/-- The text imports no less than what is before the line, and no less than the text without it. -/
theorem levels_le : levels i before ≤ levels i (before ++ line ++ after) ∧
    levels i (before ++ after) ≤ levels i (before ++ line ++ after) := by
  obtain ⟨rest, here, blanked⟩ := h.lines_eq
  have inText : importedNames (before ++ line ++ after) =
      importedNames before ++ name :: namesIn rest := by
    rw [importedNames_eq, here, namesIn_append, namesIn_of_inclusion h.names, importedNames_eq]
  have inBlanked : importedNames (before ++ after) = importedNames before ++ namesIn rest := by
    rw [importedNames_eq, importedNames_eq]
    rcases blanked with is | ⟨is, rfl⟩
    · rw [is, namesIn_append]
      rfl
    · rw [is]
      exact (List.append_nil _).symm
  unfold levels
  rw [List.flatMap_cons, List.flatMap_cons, List.flatMap_cons, inText, inBlanked]
  simp only [List.length_append, List.length_cons]
  omega

/-- A failed import comes to the same as an empty line in its place, as long as no file is opened later by
a name that was seen in it. -/
theorem readText_eq
    (fresh : ∀ x ∈ s'.seen, x ∉ s.seen → x ∉ (readText i none [] (before ++ after)).1.seen) :
    (readText i none [] (before ++ line ++ after)).2 = (readText i none [] (before ++ after)).2 := by
  obtain ⟨number, rest, text, blanked⟩ := h.numbered_eq
  obtain ⟨enough, enough'⟩ := h.levels_le
  have reached := h.reached
  have fails := h.fails
  have grown := prefix_importFile i (levels i (before ++ line ++ after)) none name s
  rw [fails] at grown
  rw [readText_eq_readLines enough'] at fresh ⊢
  rw [readText_eq_readLines enough] at reached
  unfold readText
  generalize levels i (before ++ line ++ after) = n at *
  rw [text]
  rcases start : readLines (importFile i n none) {} #[] { seen := [] } (Text.numbered before) with
    ⟨u, e | ds⟩
  · rw [readLines_append_of_error start]
    rcases blanked with is | ⟨is, _⟩
    · rw [is, readLines_append_of_error start]
    · rw [is, start]
  · rw [start] at reached
    obtain rfl : u = s := reached
    obtain ⟨c, continue_⟩ := readLines_append start
    have here : readLine (importFile i n none) c u line = (s'.fail name fault, .ok (c, [])) := by
      rw [readLine_of_inclusion h.names, fails]
    have nothing : readLines (importFile i n none) {} #[] { seen := [] }
        (Text.numbered (before ++ after)) =
        readLines (importFile i n none) c (ds.toArray ++ ([] : List Declaration)) u rest := by
      rcases blanked with is | ⟨is, rfl⟩
      · rw [is, continue_]
        exact readLines_of_ok rfl
      · rw [is, start]
        simp [readLines]
    rw [nothing] at fresh ⊢
    rw [continue_, readLines_of_ok here]
    have known := knows_of_prefix grown
    exact (readLines_importFile_agree i n none known c _ rest fun x extra =>
      fresh x extra.1 extra.2).1

/-- A file that cannot be opened leaves nothing seen. -/
theorem seen_eq_of_unopened {e : FileError} (unopened : fault = .unopened e) : s'.seen = s.seen := by
  subst unopened
  have fails := h.fails
  unfold levels at fails
  by_cases old : name ∈ s.seen
  · rw [importFile_of_seen old] at fails
    exact (congrArg Imports.seen (Prod.mk.inj fails).1).symm
  · cases fetched : i.fetch none name with
    | error e' =>
      rw [importFile_of_unopened old fetched] at fails
      exact (congrArg Imports.seen (Prod.mk.inj fails).1).symm
    | ok source =>
      rw [importFile_of_opened old fetched] at fails
      rcases read : readLines (importFile i _ source.base) {} #[] (s.opened none name)
        (Text.numbered source.text) with ⟨u, e' | ds⟩
      · rw [read] at fails
        cases (Imports.fail_inj (Prod.mk.inj fails).1).2
      · rw [read] at fails
        exact absurd (Prod.mk.inj fails).1 (Imports.told_ne_fail nofun)

/-- A load gives the same table and the same changes of access whether an import fails in it or there is an
empty line in the place of the import. Of a file that was opened and could not be read, no name that was
seen in it may be the one by which a file is opened without it. -/
theorem loadText_blanked
    (fresh : ∀ e, fault = .invalid e → ∀ x ∈ s'.seen, x ∉ s.seen →
      x ∉ (readText i none [] (before ++ after)).1.seen)
    (t : Table) (overwrite : Bool) {r : Report}
    (loaded : (loadText i (before ++ line ++ after) t overwrite).result = .ok r) :
    ∃ r', (loadText i (before ++ after) t overwrite).result = .ok r' ∧
      r'.transformations = r.transformations ∧
      (loadText i (before ++ after) t overwrite).table =
        (loadText i (before ++ line ++ after) t overwrite).table := by
  refine loadText_congr (h.readText_eq fun x mem new => ?_) t overwrite loaded
  cases failed : fault with
  | unopened e => exact absurd (h.seen_eq_of_unopened failed ▸ mem) new
  | invalid e => exact fresh e failed x mem new

end LeftOut

/-- A file that imports another one and cannot be read itself. -/
def failingFiles : Importer :=
  .memory [(⟨"bad.onf".toList⟩, ">>good.onf\n\tx\n".toList),
    (⟨"good.onf".toList⟩, "a:p\n\tb:C\n\t\tpublic!c:f\n".toList)]

/-- What the other file asks for. -/
def madePublic : Transformation := ⟨"public".toList, "p.C.f".toList, .field, false⟩

/-- The changes of access that a load into an empty table asks for, if it succeeds. -/
def transformationsOf (i : Importer) (text : Text) : Option (List Transformation) :=
  (loadText i text (.empty true) false).result.toOption.map (·.transformations)

deriving instance DecidableEq for Imports

/-- The second file was imported before, and the failure of the first one takes nothing away. -/
theorem loadText_blanked_after_import :
    ∃ s s' fault, LeftOut failingFiles ">>good.onf\n".toList ">>bad.onf".toList ['\n']
        "bad.onf".toList s s' fault ∧
      ∃ r, (loadText failingFiles ">>good.onf\n\n".toList (.empty true) false).result = .ok r ∧
        r.transformations = [madePublic] := by
  have leftOut : LeftOut failingFiles ">>good.onf\n".toList ">>bad.onf".toList ['\n']
      "bad.onf".toList
      ⟨["good.onf".toList], [], [.imported 3 "good.onf".toList], [⟨none, "good.onf".toList, true⟩]⟩
      ⟨["good.onf".toList, "bad.onf".toList], [],
        [.imported 3 "good.onf".toList, .repeatedImport "good.onf".toList],
        [⟨none, "good.onf".toList, true⟩, ⟨none, "bad.onf".toList, true⟩]⟩
      (.invalid ⟨⟨2, "\tx".toList⟩, .classBeforePackage⟩) :=
    ⟨by decide, by decide, .inr (.inl ⟨[], rfl, by decide⟩), rfl, by decide +kernel,
      by decide +kernel⟩
  have fresh : ∀ x ∈ ["good.onf".toList, "bad.onf".toList], x ∉ ["good.onf".toList] →
      x ∉ (readText failingFiles none [] (">>good.onf\n".toList ++ ['\n'])).1.seen := by
    decide +kernel
  have given : transformationsOf failingFiles (">>good.onf\n".toList ++ ">>bad.onf".toList ++ ['\n']) =
      some [madePublic] := by
    decide +kernel
  obtain ⟨r, loaded, asked⟩ := Option.map_eq_some_iff.mp given
  obtain ⟨r', is, same, _⟩ := leftOut.loadText_blanked (fun _ _ => fresh) (.empty true) false
    (toOption_eq_some_iff.mp loaded)
  exact ⟨_, _, _, leftOut, r', is, same.trans asked⟩

/-- The second file is only seen in the first one, and left out with it; its own import is then passed
over. -/
theorem failed_import_hides_another :
    let text := ">>bad.onf\n>>good.onf\n".toList
    let blanked := "\n>>good.onf\n".toList
    (∃ s s' fault, LeftOut failingFiles [] ">>bad.onf".toList blanked "bad.onf".toList s s' fault) ∧
    transformationsOf failingFiles text = some [] ∧
    transformationsOf failingFiles blanked = some [madePublic] ∧
    (loadText failingFiles text (.empty true) false).table.entries .field = [] ∧
    (loadText failingFiles blanked (.empty true) false).table.entries .field =
      [.threeWay "a.b.c".toList "p.C.f".toList "p.C.f".toList] := by
  have leftOut : LeftOut failingFiles [] ">>bad.onf".toList "\n>>good.onf\n".toList
      "bad.onf".toList ⟨[], [], [], []⟩
      ⟨["bad.onf".toList, "good.onf".toList], [], [.imported 3 "good.onf".toList],
        [⟨none, "bad.onf".toList, true⟩, ⟨some ⟨[]⟩, "good.onf".toList, true⟩]⟩
      (.invalid ⟨⟨2, "\tx".toList⟩, .classBeforePackage⟩) :=
    ⟨.inl rfl, by decide, .inr (.inl ⟨">>good.onf\n".toList, by decide, by decide⟩), rfl,
      by decide +kernel, by decide +kernel⟩
  exact ⟨⟨_, _, _, leftOut⟩, by decide +kernel, by decide +kernel, by decide +kernel,
    by decide +kernel⟩

end SymbolMap.Outline
