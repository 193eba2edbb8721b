import SymbolMap.Fault
import SymbolMap.Proofs.Text.Numbered

/-!
Texts that are taken line by line, up to the first line that cannot be read.

* `scan`: the state that the lines leave, and what is wrong with the first one that is refused;
* `scan_append_of_none`, `scan_append_of_some`: lines after others go on from the state that those leave, and
  do not count if one of those is refused;
* `scan_numbered_append`: so it is for texts, where lines are counted on;
* `line_of_scan`, `scan_of_lines_before`, `scan_of_same_lines`: nothing but the lines up to the refused one
  matters, and without that one they can be read.
-/
namespace SymbolMap

/-- What is wrong with a line, in a text in which `k` more lines stand before it. -/
def FormatError.later (k : Nat) (e : FormatError) : FormatError := ⟨e.line.later k, e.fault⟩

section
variable {σ : Type}

/-- Each line is taken in the state that the ones before it leave. -/
def scan (step : σ → Text → Except Fault σ) (s : σ) : List Line → σ × Option FormatError
  | [] => (s, none)
  | line :: lines =>
    match step s line.text with
    | .ok s => scan step s lines
    | .error fault => (s, some ⟨line, fault⟩)

variable {step : σ → Text → Except Fault σ} {s s' : σ} {line : Line} {lines : List Line} {e : FormatError}

theorem scan_cons_of_ok (h : step s line.text = .ok s') :
    scan step s (line :: lines) = scan step s' lines := by
  simp only [scan, h]

theorem scan_cons_of_error {fault : Fault} (h : step s line.text = .error fault) :
    scan step s (line :: lines) = (s, some ⟨line, fault⟩) := by
  simp only [scan, h]

theorem scan_append_of_none (h : scan step s lines = (s', none)) (more : List Line) :
    scan step s (lines ++ more) = scan step s' more := by
  induction lines generalizing s with
  | nil =>
    cases h
    rfl
  | cons line lines ih =>
    cases first : step s line.text with
    | error fault => simp [scan, first] at h
    | ok next =>
      rw [scan_cons_of_ok first] at h
      rw [List.cons_append, scan_cons_of_ok first, ih h]

theorem scan_append_of_some (h : scan step s lines = (s', some e)) (more : List Line) :
    scan step s (lines ++ more) = (s', some e) := by
  induction lines generalizing s with
  | nil => simp [scan] at h
  | cons line lines ih =>
    cases first : step s line.text with
    | error fault =>
      rw [scan_cons_of_error first] at h
      rw [List.cons_append, scan_cons_of_error first, h]
    | ok next =>
      rw [scan_cons_of_ok first] at h
      rw [List.cons_append, scan_cons_of_ok first, ih h]

/-- What the lines come to does not hang on their numbers. -/
theorem scan_map_later (k : Nat) :
    scan step s (lines.map (Line.later k)) =
      ((scan step s lines).1, (scan step s lines).2.map (FormatError.later k)) := by
  induction lines generalizing s with
  | nil => rfl
  | cons line lines ih =>
    cases first : step s line.text with
    | error fault =>
      have moved : step s (line.later k).text = .error fault := first
      rw [List.map_cons, scan_cons_of_error first, scan_cons_of_error moved]
      rfl
    | ok next =>
      have moved : step s (line.later k).text = .ok next := first
      rw [List.map_cons, scan_cons_of_ok first, scan_cons_of_ok moved, ih]

/-- The lines before one that is refused can be read, and leave the state in which it is refused. -/
theorem exists_split_of_scan (h : scan step s lines = (s', some e)) :
    ∃ before after, lines = before ++ e.line :: after ∧ scan step s before = (s', none) ∧
      step s' e.line.text = .error e.fault := by
  induction lines generalizing s with
  | nil => simp [scan] at h
  | cons line lines ih =>
    cases first : step s line.text with
    | error fault =>
      rw [scan_cons_of_error first] at h
      cases h
      exact ⟨[], lines, rfl, rfl, first⟩
    | ok next =>
      rw [scan_cons_of_ok first] at h
      obtain ⟨before, after, rfl, read, refused⟩ := ih h
      exact ⟨line :: before, after, rfl, (scan_cons_of_ok first).trans read, refused⟩

/-! ## Texts -/

theorem scan_numbered_append {a : Text} (ended : Text.Ended a) (b : Text)
    (h : scan step s (Text.numbered a) = (s', none)) :
    scan step s (Text.numbered (a ++ b)) =
      ((scan step s' (Text.numbered b)).1,
        (scan step s' (Text.numbered b)).2.map (FormatError.later (Text.lines a).length)) := by
  rw [Text.numbered_append ended, scan_append_of_none h, scan_map_later]

theorem scan_numbered_append_of_some {a : Text} (ended : Text.Ended a) (b : Text)
    (h : scan step s (Text.numbered a) = (s', some e)) :
    scan step s (Text.numbered (a ++ b)) = (s', some e) := by
  rw [Text.numbered_append ended, scan_append_of_some h]

section
variable {text : Text} (h : scan step s (Text.numbered text) = (s', some e))
include h

/-- The line that is refused is the one of the text that has its number. -/
theorem line_of_scan : 0 < e.line.number ∧ (Text.lines text)[e.line.number - 1]? = some e.line.text := by
  obtain ⟨before, after, split, _, _⟩ := exists_split_of_scan h
  obtain ⟨number, is⟩ := Text.getElem?_lines_of_split split
  rw [number]
  exact ⟨Nat.succ_pos _, is⟩

/-- The lines before it can be read, wherever they end. -/
theorem scan_of_lines_before {u : Text}
    (same : Text.lines u = (Text.lines text).take (e.line.number - 1)) :
    scan step s (Text.numbered u) = (s', none) := by
  obtain ⟨before, after, split, read, _⟩ := exists_split_of_scan h
  have number := (Text.getElem?_lines_of_split split).1
  have are : Text.numbered u = before := by
    rw [Text.numbered_of_lines_eq_take same, split, number, Nat.add_sub_cancel, List.take_left]
  rw [are, read]

/-- The lines after it do not matter. -/
theorem scan_of_same_lines {u : Text}
    (same : (Text.lines u).take e.line.number = (Text.lines text).take e.line.number) :
    scan step s (Text.numbered u) = (s', some e) := by
  obtain ⟨before, after, split, read, refused⟩ := exists_split_of_scan h
  have number := (Text.getElem?_lines_of_split split).1
  have upTo : (Text.numbered text).take e.line.number = before ++ [e.line] := by
    rw [split, number, List.take_length_add_append, List.take_succ_cons, List.take_zero]
  have stop : scan step s (before ++ [e.line]) = (s', some e) := by
    rw [scan_append_of_none read, scan_cons_of_error refused]
  rw [← List.take_append_drop e.line.number (Text.numbered u), Text.take_numbered_congr same, upTo]
  exact scan_append_of_some stop _

end

/-! ## Comments -/

/-- Comments are passed over. -/
def passingComments (step : σ → Text → Except Fault σ) (s : σ) (line : Text) : Except Fault σ :=
  if Text.isComment line then .ok s else step s line

/-- Of a text in which comments are passed over, the other lines are taken. -/
theorem scan_meaningful (step : σ → Text → Except Fault σ) (s : σ) (text : Text) :
    scan step s (Text.meaningful text) = scan (passingComments step) s (Text.numbered text) := by
  unfold Text.meaningful
  induction Text.numbered text generalizing s with
  | nil => rfl
  | cons line lines ih =>
    by_cases comment : Text.isComment line.text = true
    · have passed : passingComments step s line.text = .ok s := if_pos comment
      rw [List.filter_cons_of_neg (by simp [comment]), scan_cons_of_ok passed, ih]
    · have taken : passingComments step s line.text = step s line.text := if_neg comment
      rw [List.filter_cons_of_pos (by simp [comment])]
      cases first : step s line.text with
      | error fault => rw [scan_cons_of_error first, scan_cons_of_error (taken.trans first)]
      | ok next => rw [scan_cons_of_ok first, scan_cons_of_ok (taken.trans first), ih]

end
end SymbolMap
