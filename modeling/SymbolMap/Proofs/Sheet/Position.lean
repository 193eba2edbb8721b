import SymbolMap.Proofs.Dialect.Lines
import SymbolMap.Proofs.Sheet.RoundTrip

/-!
Where the fault of a sheet is said to be.

* `Text.exists_mem_piece`, `Text.exists_split_of_mem`: a character is on the line that has as many line feeds
  before it;
* `exists_split_readFrom`: a record is looked for from the end of the one before it, and found after the line ends
  that stand there;
* `Sought`: what has been read when the reader looks for a record, and `Names`: what line is named for it;
* `Sought.isComment_iff`: the search begins on a comment if it begins where a line starts that is passed over;
* `error_names_line_of_search`: a load that fails names the line on which the search for the record began;
* `comment_is_named`: which is not that of the record if comments are passed over.
-/
namespace SymbolMap

theorem prefix_or_mem_of_prefix_append {α : Type} {a l m : List α} {c : α} (h : a ++ [c] <+: l ++ m) :
    a ++ [c] <+: l ∨ c ∈ m := by
  rcases List.prefix_or_prefix_of_prefix h (List.prefix_append l m) with first | ⟨more, is⟩
  · exact .inl first
  · rcases List.eq_nil_or_concat more with rfl | ⟨front, last, rfl⟩
    · rw [← is, List.append_nil]
      exact .inl (List.prefix_refl _)
    · rw [List.concat_eq_append, ← List.append_assoc] at is
      obtain ⟨_, same⟩ := List.append_inj' is rfl
      obtain rfl := List.singleton_inj.mp same
      rw [← is, List.append_assoc] at h
      exact .inr (((List.prefix_append_right_inj l).mp h).subset
        (List.mem_append_right front (List.mem_singleton_self _)))

/-! ## Characters on lines -/

namespace Text

section
variable {pieces : List Text} (whole : ∀ piece ∈ pieces, '\n' ∉ piece)
include whole

/-- A character is on the line that has as many line feeds before it. -/
theorem exists_mem_piece {a b : Text} {c : Char} (inside : c ≠ '\n') (split : join '\n' pieces = a ++ c :: b) :
    ∃ piece, pieces[a.count '\n']? = some piece ∧ c ∈ piece := by
  induction pieces generalizing a with
  | nil =>
    have none : join '\n' [] = [] := rfl
    rw [none] at split
    simp at split
  | cons first pieces ih =>
    obtain ⟨here, later⟩ := List.forall_mem_cons.mp whole
    have onFirst : ∀ {b'}, first = a ++ c :: b' →
        ∃ piece, (first :: pieces)[a.count '\n']? = some piece ∧ c ∈ piece := by
      rintro b' rfl
      have none : a.count '\n' = 0 :=
        List.count_eq_zero.mpr fun mem => here (List.mem_append_left _ mem)
      rw [none]
      exact ⟨_, rfl, by simp⟩
    cases pieces with
    | nil =>
      have alone : join '\n' [first] = first := by simp [join]
      exact onFirst (alone.symm.trans split)
    | cons second pieces =>
      rw [join_cons_cons] at split
      -- the first line feed stands before the character, or the character is on the first line
      rcases List.append_eq_append_iff.mp split with ⟨more, rfl, rest⟩ | ⟨more, is, rest⟩
      · cases more with
        | nil => exact absurd (List.cons.inj rest).1.symm inside
        | cons feed more =>
          obtain ⟨rfl, joined⟩ := List.cons.inj rest
          obtain ⟨piece, is, mem⟩ := ih later joined
          have none : first.count '\n' = 0 := List.count_eq_zero.mpr here
          rw [List.count_append, none, Nat.zero_add, List.count_cons_self, List.getElem?_cons_succ]
          exact ⟨piece, is, mem⟩
      · cases more with
        | nil => exact absurd (List.cons.inj rest).1 inside
        | cons own more =>
          obtain ⟨rfl, _⟩ := List.cons.inj rest
          exact onFirst is

/-- Each character of a line has as many line feeds before it as there are lines before. -/
theorem exists_split_of_mem {k : Nat} {piece : Text} (is : pieces[k]? = some piece) {c : Char} (mem : c ∈ piece) :
    ∃ a b, join '\n' pieces = a ++ c :: b ∧ a.count '\n' = k := by
  induction pieces generalizing k with
  | nil => cases is
  | cons first pieces ih =>
    obtain ⟨here, later⟩ := List.forall_mem_cons.mp whole
    cases k with
    | zero =>
      obtain rfl := Option.some.inj is
      obtain ⟨a, b, rfl⟩ := List.append_of_mem mem
      obtain ⟨more, joined⟩ := exists_join_cons '\n' (a ++ c :: b) pieces
      refine ⟨a, b ++ more, by rw [joined]; simp, ?_⟩
      exact List.count_eq_zero.mpr fun inside => here (List.mem_append_left _ inside)
    | succ k =>
      rw [List.getElem?_cons_succ] at is
      obtain ⟨a, b, joined, number⟩ := ih later is
      cases pieces with
      | nil => cases is
      | cons second pieces =>
        have none : first.count '\n' = 0 := List.count_eq_zero.mpr here
        refine ⟨first ++ '\n' :: a, b, by rw [join_cons_cons, joined]; simp, ?_⟩
        rw [List.count_append, none, List.count_cons_self, number, Nat.zero_add]

end
end Text

namespace Sheet

open Text (lines isComment)

/-! ## Lines of a sheet -/

/-- What stands in the place of a line. -/
def withoutComment (line : Text) : Text := if isComment line then [] else line

theorem whole_withoutComment (text : Text) : ∀ piece ∈ (lines text).map withoutComment, '\n' ∉ piece := by
  intro piece mem
  obtain ⟨line, hl, rfl⟩ := List.mem_map.mp mem
  unfold withoutComment
  split
  · exact List.not_mem_nil
  · exact Text.whole_of_mem_lines hl

/-- What is left stands on a line that is no comment. -/
theorem exists_line_of_split {text a b : Text} {c : Char} (inside : c ≠ '\n')
    (split : blankComments text = a ++ c :: b) :
    ∃ line, (lines text)[a.count '\n']? = some line ∧ isComment line = false := by
  obtain ⟨piece, is, mem⟩ := Text.exists_mem_piece (whole_withoutComment text) inside split
  rw [List.getElem?_map, Option.map_eq_some_iff] at is
  obtain ⟨line, found, rfl⟩ := is
  refine ⟨line, found, ?_⟩
  unfold withoutComment at mem
  split at mem
  · cases mem
  · next meaningful => exact Bool.not_eq_true _ ▸ meaningful

/-- Of a line that is no comment something is left, and not white space only. -/
theorem exists_split_of_line {text line : Text} {k : Nat} (is : (lines text)[k]? = some line)
    (meaningful : isComment line = false) :
    ∃ a c b, blankComments text = a ++ c :: b ∧ a.count '\n' = k ∧ isBlank c = false := by
  have kept : withoutComment line = line := if_neg (by simp [meaningful])
  have filled : ∃ c ∈ line, isBlank c = false := by
    cases blank : line.all isBlank with
    | true =>
      unfold isComment at meaningful
      rw [Text.trim_of_blank (List.all_eq_true.mp blank)] at meaningful
      cases meaningful
    | false => simpa using blank
  obtain ⟨c, mem, notBlank⟩ := filled
  have piece : ((lines text).map withoutComment)[k]? = some line := by
    rw [List.getElem?_map, is, Option.map_some, kept]
  obtain ⟨a, b, joined, number⟩ := Text.exists_split_of_mem (whole_withoutComment text) piece mem
  exact ⟨a, c, b, joined, number, notBlank⟩

/-! ## Records -/

variable {p : Partial} {t : Text}

/-- How the reader keeps count: inside a record it remembers where the search for it began, and at the end of one
the search for the next begins. -/
def Counts (p : Partial) : Option Record × Partial → Prop
  | (none, q) => q.start = p.start ∧ q.line = p.line
  | (some r, q) => r.line = p.start ∧ q = { start := p.line, line := p.line }

theorem counts_readPlain (p : Partial) (c : Char) : Counts p (readPlain p c) := by
  unfold readPlain
  split
  · exact ⟨rfl, rfl⟩
  · split
    · exact ⟨rfl, rfl⟩
    · exact ⟨rfl, rfl⟩

theorem counts_readChar (p : Partial) (c : Char) : Counts p (readChar p c) := by
  unfold readChar
  split
  · split
    · exact ⟨rfl, rfl⟩
    · split
      · exact ⟨rfl, rfl⟩
      · exact counts_readPlain p c
  · split
    · exact ⟨rfl, rfl⟩
    · exact counts_readPlain p c
  · exact counts_readPlain p c
  · split
    · exact ⟨rfl, rfl⟩
    · exact ⟨rfl, rfl⟩
  · split
    · exact ⟨rfl, rfl⟩
    · exact counts_readPlain p c

theorem line_of_readFrom {r : Record} {later : List Record} (h : readFrom p t = r :: later) : r.line = p.start := by
  induction t generalizing p with
  | nil =>
    rw [readFrom] at h
    split at h
    · cases h
    · cases h
      rfl
  | cons c t ih =>
    have counts := counts_readChar { p with line := p.line + (c == '\n').toNat } c
    rw [readFrom] at h
    split at h
    · next q is =>
      rw [is] at counts
      exact (ih h).trans counts.1
    · next first q is =>
      rw [is] at counts
      obtain ⟨rfl, _⟩ := List.cons.inj h
      exact counts.1

/-- A record after which another one is read has an end, and from there on the next one is looked for. -/
theorem exists_end_of_readFrom {r next : Record} {later : List Record} (h : readFrom p t = r :: next :: later) :
    ∃ here rest, t = here ++ rest ∧ ∀ more, readFrom p (here ++ more) = r ::
      readFrom { start := p.line + here.count '\n', line := p.line + here.count '\n' } more := by
  -- what ends a record leaves nothing of it behind but the count of the lines
  induction t generalizing p with
  | nil =>
    rw [readFrom] at h
    split at h
    · cases h
    · cases h
  | cons c t ih =>
    have counts := counts_readChar { p with line := p.line + (c == '\n').toNat } c
    have line : ∀ text : Text, p.line + (c == '\n').toNat + text.count '\n' = p.line + (c :: text).count '\n' := by
      intro text
      by_cases feed : c = '\n'
      · simp [feed]
        omega
      · simp [feed]
    rw [readFrom] at h
    split at h
    · next q is =>
      rw [is] at counts
      obtain ⟨here, rest, rfl, read⟩ := ih h
      refine ⟨c :: here, rest, rfl, fun more => ?_⟩
      rw [List.cons_append, readFrom_cons is, read, counts.2, line]
    · next first q is =>
      rw [is] at counts
      obtain ⟨rfl, _⟩ := List.cons.inj h
      refine ⟨[c], t, rfl, fun more => ?_⟩
      rw [List.singleton_append, readFrom, is, counts.2, ← line []]
      rfl

/-- Each record is looked for from the end of the one before it. -/
theorem exists_split_readFrom {n : Nat} {earlier later : List Record} {r : Record}
    (h : readFrom { start := n, line := n } t = earlier ++ r :: later) :
    ∃ before after, t = before ++ after ∧ readFrom { start := n, line := n } before = earlier ∧
      r.line = n + before.count '\n' ∧ readFrom { start := r.line, line := r.line } after = r :: later := by
  induction earlier generalizing n t with
  | nil =>
    obtain rfl : r.line = n := line_of_readFrom h
    exact ⟨[], t, rfl, rfl, rfl, h⟩
  | cons first earlier ih =>
    obtain ⟨next, others, is⟩ := List.exists_cons_of_ne_nil
      (List.append_ne_nil_of_right_ne_nil earlier (List.cons_ne_nil r later))
    rw [List.cons_append, is] at h
    obtain ⟨here, rest, rfl, read⟩ := exists_end_of_readFrom h
    rw [read rest, ← is] at h
    obtain ⟨before, after, rfl, own, line, found⟩ := ih (List.cons.inj h).2
    refine ⟨here ++ before, after, (List.append_assoc ..).symm, by rw [read, own], ?_, found⟩
    rw [line, List.count_append, Nat.add_assoc]

/-- Nothing is read of line ends. -/
theorem readFrom_of_lineEnds (between : p.spot = .between) (ends : ∀ c ∈ t, isLineEnd c = true) :
    readFrom p t = [] := by
  induction t generalizing p with
  | nil => rw [readFrom, if_pos between]
  | cons c t ih =>
    obtain ⟨here, later⟩ := List.forall_mem_cons.mp ends
    have passed : readChar { p with line := p.line + (c == '\n').toNat } c =
        (none, { p with line := p.line + (c == '\n').toNat }) := by
      unfold readChar
      simp [between, here]
    rw [readFrom_cons passed]
    exact ih between later

/-- A record that is found begins after the line ends before it. -/
theorem exists_start_of_readFrom {r : Record} {later : List Record} (between : p.spot = .between)
    (h : readFrom p t = r :: later) :
    ∃ c rest, t = t.takeWhile isLineEnd ++ c :: rest ∧ isLineEnd c = false := by
  cases left : t.dropWhile isLineEnd with
  | nil =>
    have parts := List.takeWhile_append_dropWhile (p := isLineEnd) (l := t)
    rw [left, List.append_nil] at parts
    have ends : ∀ c ∈ t.takeWhile isLineEnd, isLineEnd c = true := List.all_eq_true.mp List.all_takeWhile
    rw [parts] at ends
    rw [readFrom_of_lineEnds between ends] at h
    cases h
  | cons c rest =>
    have stop := List.head?_dropWhile_not isLineEnd t
    rw [left] at stop
    exact ⟨c, rest, by rw [← left, List.takeWhile_append_dropWhile], stop⟩

/-! ## Faults -/

/-- The reader has taken `before` for a header and earlier records, and looks for the record `r` in what stands
after it. A byte order mark at the start of the text has been dropped. -/
structure Sought (text mark before after : Text) (header : Record) (earlier : List Record) (r : Record) : Prop where
  dropped : mark = [] ∨ mark = ['\ufeff']
  parts : blankComments text = mark ++ before ++ after
  read : readFrom {} before = header :: earlier
  line : r.line = before.count '\n' + 1
  found : ∃ later, readFrom { start := r.line, line := r.line } after = r :: later

/-- The line on which a record begins that is found in a text, if the search for it began on line `n`. -/
def beginning (n : Nat) (after : Text) : Nat := n + (after.takeWhile isLineEnd).count '\n'

/-- The line that is named for a record, if the reader has taken `before` when it looks for it in `after`. -/
structure Names (text before after : Text) (r : Record) (line : Line) : Prop where
  number : line.number = r.line
  whole : (lines text)[line.number - 1]? = some line.text
  /-- The record itself begins on a line that is no comment, the same or a later one. -/
  begins : ∃ own, (lines text)[beginning line.number after - 1]? = some own ∧ isComment own = false
  /-- All lines in between are comments. -/
  between : ∀ {number : Nat} {passed : Text}, line.number < number → number < beginning line.number after →
    (lines text)[number - 1]? = some passed → isComment passed = true
  /-- So is the named line, if the search began where it starts and the record is on a later one. -/
  isComment_iff : isComment line.text = true ↔
    before.getLast? = some '\n' ∧ line.number < beginning line.number after

theorem exists_mark (text : Text) : ∃ mark rest, (mark = [] ∨ mark = ['\ufeff']) ∧ text = mark ++ rest ∧
    records text = readFrom {} rest := by
  unfold records
  split
  · next rest => exact ⟨['\ufeff'], rest, .inr rfl, rfl, rfl⟩
  · exact ⟨[], text, .inl rfl, rfl, rfl⟩

/-- Each record under the header has been looked for after those before it. -/
theorem exists_sought {text : Text} {header r : Record} {earlier later : List Record}
    (h : records (blankComments text) = header :: (earlier ++ r :: later)) :
    ∃ mark before after, Sought text mark before after header earlier r := by
  obtain ⟨mark, rest, marks, parts, read⟩ := exists_mark (blankComments text)
  rw [read, ← List.cons_append] at h
  obtain ⟨before, after, rfl, own, line, found⟩ := exists_split_readFrom h
  refine ⟨mark, before, after, marks, parts.trans (List.append_assoc ..).symm, own, ?_, later, found⟩
  rw [line, Nat.add_comm]

namespace Sought

variable {text mark before after : Text} {header r : Record} {earlier : List Record}
  (h : Sought text mark before after header earlier r)
include h

theorem count_front : (mark ++ before).count '\n' + 1 = r.line := by
  have none : mark.count '\n' = 0 := by
    rcases h.dropped with rfl | rfl
    · rfl
    · decide
  rw [List.count_append, none, Nat.zero_add, h.line]

theorem count_reached : (mark ++ before ++ after.takeWhile isLineEnd).count '\n' + 1 = beginning r.line after := by
  have front := h.count_front
  unfold beginning
  rw [List.count_append]
  omega

/-- Between the search and its end there are line ends only, so other characters stand before or after. -/
theorem before_or_after {a b : Text} {c : Char} (split : blankComments text = a ++ c :: b)
    (notBlank : isBlank c = false) :
    a ++ [c] <+: mark ++ before ∨ mark ++ before ++ after.takeWhile isLineEnd <+: a := by
  have here : a ++ [c] <+: blankComments text := ⟨b, by rw [split, List.append_assoc, List.singleton_append]⟩
  have reached : mark ++ before ++ after.takeWhile isLineEnd <+: blankComments text := by
    rw [h.parts]
    exact (List.prefix_append_right_inj _).mpr (List.takeWhile_prefix isLineEnd)
  by_cases inside : a ++ [c] <+: mark ++ before ++ after.takeWhile isLineEnd
  · refine .inl ((prefix_or_mem_of_prefix_append inside).resolve_right fun passed => ?_)
    have lineEnd : isLineEnd c = true := List.all_eq_true.mp List.all_takeWhile _ passed
    rw [isBlank_of_isLineEnd lineEnd] at notBlank
    cases notBlank
  · have longer := (List.prefix_or_prefix_of_prefix here reached).resolve_left inside
    rcases List.prefix_concat_iff.mp longer with same | under
    · exact absurd (same ▸ List.prefix_refl _) inside
    · exact .inr under

/-- The line on which the record begins is no comment. -/
theorem line_beginning :
    ∃ line, (lines text)[beginning r.line after - 1]? = some line ∧ isComment line = false := by
  obtain ⟨_, found⟩ := h.found
  obtain ⟨c, rest, parts, other⟩ := exists_start_of_readFrom rfl found
  have inside : c ≠ '\n' := by
    rintro rfl
    cases other
  have split : blankComments text = mark ++ before ++ after.takeWhile isLineEnd ++ c :: rest := by
    rw [h.parts, List.append_assoc (mark ++ before), ← parts]
  rw [← h.count_reached, Nat.add_sub_cancel]
  exact exists_line_of_split inside split

/-- A line that is reached after the search has begun and before the record begins is a comment. -/
theorem isComment_of_passed {k : Nat} {line : Text} (is : (lines text)[k]? = some line)
    (ahead : k + 1 < beginning r.line after)
    (apart : ∀ a c, a ++ [c] <+: mark ++ before → isBlank c = false → a.count '\n' ≠ k) :
    isComment line = true := by
  cases meaningful : isComment line with
  | true => rfl
  | false =>
    obtain ⟨a, c, b, split, number, notBlank⟩ := exists_split_of_line is meaningful
    rcases h.before_or_after split notBlank with first | later
    · exact absurd number (apart a c first notBlank)
    · have reached := h.count_reached
      have most := later.sublist.count_le '\n'
      omega

/-- Between the line on which the search begins and that of the record there are comments only. -/
theorem comment_between {number : Nat} {line : Text} (above : r.line < number)
    (below : number < beginning r.line after) (is : (lines text)[number - 1]? = some line) :
    isComment line = true := by
  refine h.isComment_of_passed is (by omega) fun a c first _ => ?_
  have front := h.count_front
  have most := ((List.prefix_append a [c]).trans first).sublist.count_le '\n'
  omega

/-- A search that begins on a comment begins where that line starts. -/
theorem getLast?_of_isComment {line : Text} (is : (lines text)[r.line - 1]? = some line)
    (comment : isComment line = true) : before.getLast? = some '\n' := by
  have front := h.count_front
  have parts := h.parts
  rcases List.eq_nil_or_concat before with rfl | ⟨own, last, rfl⟩
  · cases h.read
  · rw [List.concat_eq_append] at *
    by_cases feed : last = '\n'
    · rw [feed, List.getLast?_concat]
    · have split : blankComments text = mark ++ own ++ last :: after := by
        rw [parts]
        simp
      have number : (mark ++ own).count '\n' = r.line - 1 := by
        rw [← List.append_assoc, List.count_append, List.count_singleton, if_neg (by simpa using feed)] at front
        omega
      obtain ⟨line', is', meaningful⟩ := exists_line_of_split feed split
      rw [number, is] at is'
      obtain rfl := Option.some.inj is'
      rw [comment] at meaningful
      cases meaningful

/-- The line on which the search begins is a comment if it starts there and the record does not. -/
theorem isComment_iff {line : Text} (is : (lines text)[r.line - 1]? = some line) :
    isComment line = true ↔ before.getLast? = some '\n' ∧ r.line < beginning r.line after := by
  constructor
  · intro comment
    refine ⟨h.getLast?_of_isComment is comment, Nat.lt_of_le_of_ne (Nat.le_add_right _ _) fun here => ?_⟩
    obtain ⟨line', is', meaningful⟩ := h.line_beginning
    rw [← here, is] at is'
    obtain rfl := Option.some.inj is'
    rw [comment] at meaningful
    cases meaningful
  · rintro ⟨feed, ahead⟩
    have front := h.count_front
    obtain ⟨own, rfl⟩ := List.getLast?_eq_some_iff.mp feed
    -- what is before the search has a line feed after it, so it is on an earlier line
    refine h.isComment_of_passed is (by omega) fun a c first notBlank => ?_
    rw [← List.append_assoc] at first front
    rcases List.prefix_concat_iff.mp first with same | under
    · obtain ⟨_, last⟩ := List.append_inj' same rfl
      obtain rfl := List.singleton_inj.mp last
      cases notBlank
    · have most := ((List.prefix_append a [c]).trans under).sublist.count_le '\n'
      rw [List.count_append, List.count_singleton_self] at front
      omega

/-- The text has the line on which the search begins. -/
theorem exists_line : ∃ line, (lines text)[r.line - 1]? = some line := by
  obtain ⟨line, is, _⟩ := h.line_beginning
  have inside := (List.getElem?_eq_some_iff.mp is).1
  have after : r.line ≤ beginning r.line after := Nat.le_add_right _ _
  exact ⟨_, List.getElem?_eq_getElem (by omega)⟩

theorem names {line : Text} (is : (lines text)[r.line - 1]? = some line) :
    Names text before after r ⟨r.line, line⟩ where
  number := rfl
  whole := is
  begins := h.line_beginning
  between := h.comment_between
  isComment_iff := h.isComment_iff is

end Sought

/-- A load that fails names a line for the first record that cannot be read: that on which the search for it
began. -/
theorem error_names_line_of_search {o : Options} {disk : Disk} {text : Text} {t : Table} {overwrite : Bool}
    {e : FormatError} (failed : ((Dialect.sheet o).load disk text t overwrite).result = .error (.format e)) :
    ∃ mark before after header earlier r, Sought text mark before after header earlier r ∧
      (∀ x ∈ earlier, (readFields o header.fields x.fields).isOk = true) ∧
      readFields o header.fields r.fields = .error e.fault ∧ Names text before after r e.line := by
  rw [Dialect.load_of_rows rfl] at failed
  unfold Dialect.loadRows at failed
  split at failed
  · cases failed
  · next p fault taken =>
    cases failed
    obtain ⟨first, rest, parts, read⟩ := Progress.exists_split_of_takeAll taken
    unfold rows at parts
    split at parts
    · simp at parts
    · next header all is =>
      obtain ⟨earlier, more, rfl, rfl, others⟩ := List.map_eq_append_iff.mp parts
      obtain ⟨r, later, rfl, here, rfl⟩ := List.map_eq_cons_iff.mp others
      obtain ⟨mark, before, after, sought⟩ := exists_sought is
      obtain ⟨line, found⟩ := sought.exists_line
      obtain ⟨named, wrong⟩ := Prod.mk.inj here
      have whole : sourceLine (lines text).toArray r.line = ⟨r.line, line⟩ := by
        simp [sourceLine, found]
      refine ⟨mark, before, after, header, earlier, r, sought, fun x mem => ?_, wrong, ?_⟩
      · exact read _ (List.mem_map_of_mem mem)
      · rw [← named, whole]
        exact sought.names found

/-- A record right after another one is found where the search for it begins. -/
theorem error_names_line_of_short_record :
    let text := "searge,name,side,desc\n# note\na,b,2,\nx\n".toList
    ((Dialect.sheet ⟨.field, none⟩).load ⟨[], []⟩ text { threeWay := false } false).result =
        .error (.format ⟨⟨4, "x".toList⟩, .columnCount 4 1⟩) ∧
      ∃ mark before after header earlier r, Sought text mark before after header earlier r ∧
        readFields ⟨.field, none⟩ header.fields r.fields = .error (.columnCount 4 1) ∧ r.line = 4 ∧
        beginning r.line after = 4 := by
  intro text
  have failed : ((Dialect.sheet ⟨.field, none⟩).load ⟨[], []⟩ text { threeWay := false } false).result =
      .error (.format ⟨⟨4, "x".toList⟩, .columnCount 4 1⟩) := by
    decide +kernel
  refine ⟨failed, ?_⟩
  obtain ⟨mark, before, after, header, earlier, r, sought, _, wrong, names⟩ := error_names_line_of_search failed
  have number : r.line = 4 := names.number.symm
  refine ⟨mark, before, after, header, earlier, r, sought, wrong, number, ?_⟩
  obtain ⟨own, is, _⟩ := names.begins
  have last := (List.getElem?_eq_some_iff.mp is).1
  have length : (lines text).length = 4 := by decide +kernel
  have least : 4 ≤ beginning 4 after := Nat.le_add_right _ _
  have most : beginning 4 after - 1 < (lines text).length := last
  rw [number]
  omega

/-- A record after a comment is found on a later line, and the comment is named. -/
theorem comment_is_named :
    let text := "searge,name,side,desc\n# note\nx\n".toList
    let after := "\nx".toList
    ((Dialect.sheet ⟨.field, none⟩).load ⟨[], []⟩ text { threeWay := false } false).result =
        .error (.format ⟨⟨2, "# note".toList⟩, .columnCount 4 1⟩) ∧
      isComment "# note".toList = true ∧
      Sought text [] "searge,name,side,desc\n".toList after
        ⟨1, ["searge".toList, "name".toList, "side".toList, "desc".toList]⟩ [] ⟨2, ["x".toList]⟩ ∧
      beginning 2 after = 3 ∧ (lines text)[2]? = some "x".toList := by
  intro text after
  refine ⟨by decide +kernel, by decide +kernel, ?_, by decide +kernel, by decide +kernel⟩
  exact ⟨.inl rfl, by decide +kernel, by decide +kernel, by decide +kernel, [], by decide +kernel⟩

end Sheet
end SymbolMap
