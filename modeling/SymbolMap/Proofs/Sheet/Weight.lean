import Mathlib.Data.List.Flatten
import SymbolMap.Proofs.Sheet.RoundTrip

/-!
How much of a text there is in its records.

* `weight`: how many characters of a text count; quotes and digits do not, so that it makes no difference how
  a field is written and which side a row is for;
* `piecesWeight`, `piecesWeight_rowLines`: what pieces of a text weigh, and the lines of a row;
* `piecesWeight_readFrom_le`: reading adds nothing, and the only thing that it may take for granted is the end
  of the last line;
* `weight_shown_lt`, `stays_of_piecesWeight_le`: a line that does not stay as it is when comments are blanked
  loses something, so lines that lose nothing together all stay.
-/
namespace SymbolMap.Sheet

/-- Characters that are as many in a text as in its records. -/
def counts (c : Char) : Bool := c != '"' && !c.isDigit

def weight (t : Text) : Nat := t.countP counts

@[simp] theorem weight_nil : weight [] = 0 := rfl

@[simp] theorem weight_cons (c : Char) (t : Text) : weight (c :: t) = weight t + (counts c).toNat := by
  unfold weight
  rw [List.countP_cons]
  cases counts c <;> rfl

@[simp] theorem weight_append (a b : Text) : weight (a ++ b) = weight a + weight b :=
  List.countP_append

@[simp] theorem weight_reverse (t : Text) : weight t.reverse = weight t :=
  List.countP_reverse

theorem weight_trim_le (t : Text) : weight (Text.trim t) ≤ weight t := by
  have dropped : ∀ t : Text, weight (t.dropWhile isBlank) ≤ weight t :=
    fun t => (List.dropWhile_sublist isBlank).countP_le
  unfold Text.trim Text.trimEnd Text.trimStart
  rw [weight_reverse]
  refine Nat.le_trans (dropped _) ?_
  rw [weight_reverse]
  exact dropped t

/-! ## What is written -/

theorem weight_doubled (field : Text) : weight (doubled field) = weight field := by
  induction field with
  | nil => rfl
  | cons c field ih =>
    have split : doubled (c :: field) = (if c = '"' then ['"', '"'] else [c]) ++ doubled field :=
      List.flatMap_cons
    rw [split, weight_append, ih, weight_cons]
    by_cases quote : c = '"'
    · subst quote
      rw [if_pos rfl]
      exact Nat.zero_add _
    · rw [if_neg quote, weight_cons, weight_nil]
      omega

theorem weight_renderField (field : Text) : weight (renderField field) = weight field := by
  rcases renderField_cases field with is | ⟨_, is⟩
  · rw [is, weight_cons, weight_append, weight_doubled]
    rfl
  · rw [is]

/-- Pieces of a text, each with the comma or the end of the line after it. -/
def piecesWeight (pieces : List Text) : Nat := weight (pieces.flatMap fun piece => piece ++ [','])

@[simp] theorem piecesWeight_nil : piecesWeight [] = 0 := rfl

@[simp] theorem piecesWeight_cons (piece : Text) (pieces : List Text) :
    piecesWeight (piece :: pieces) = weight piece + 1 + piecesWeight pieces := by
  unfold piecesWeight
  rw [List.flatMap_cons, weight_append, weight_append]
  rfl

@[simp] theorem piecesWeight_append (a b : List Text) :
    piecesWeight (a ++ b) = piecesWeight a + piecesWeight b := by
  unfold piecesWeight
  rw [List.flatMap_append, weight_append]

theorem piecesWeight_of_perm {a b : List Text} (h : a.Perm b) : piecesWeight a = piecesWeight b :=
  (h.flatMap_right _).countP_eq _

theorem piecesWeight_reverse (pieces : List Text) : piecesWeight pieces.reverse = piecesWeight pieces :=
  piecesWeight_of_perm (List.reverse_perm pieces)

theorem piecesWeight_of_sublist {a b : List Text} (h : a.Sublist b) : piecesWeight a ≤ piecesWeight b :=
  (h.flatMap _).countP_le

theorem weight_join {sep : Char} (counted : counts sep = true) {pieces : List Text} (some : pieces ≠ []) :
    weight (Text.join sep pieces) + 1 = piecesWeight pieces := by
  induction pieces with
  | nil => exact absurd rfl some
  | cons piece pieces ih =>
    cases pieces with
    | nil =>
      have alone : Text.join sep [piece] = piece := by simp [Text.join]
      rw [alone]
      exact (piecesWeight_cons piece []).symm
    | cons second pieces =>
      rw [Text.join_cons_cons, weight_append, weight_cons, counted, piecesWeight_cons, ← ih (by simp)]
      change _ + (_ + 1) + 1 = _
      omega

theorem piecesWeight_map_renderField (fields : List Text) :
    piecesWeight (fields.map renderField) = piecesWeight fields := by
  induction fields with
  | nil => rfl
  | cons field fields ih => rw [List.map_cons, piecesWeight_cons, piecesWeight_cons, weight_renderField, ih]

theorem weight_renderFields {fields : List Text} (some : fields ≠ []) :
    weight (renderFields fields) + 1 = piecesWeight fields := by
  have pieces : fields.map renderField ≠ [] := by simpa using some
  rw [← piecesWeight_map_renderField fields]
  exact weight_join rfl pieces

theorem weight_of_isDigit {t : Text} (digits : ∀ c ∈ t, c.isDigit = true) : weight t = 0 :=
  List.countP_eq_zero.mpr fun c hc => by simp [counts, digits c hc]

/-- There are three commas in the row of an entry, and the end of its line. -/
theorem piecesWeight_row (o : Options) (e : Entry) :
    piecesWeight (row o e) = weight e.obf + weight e.deobf + 4 := by
  have digits := weight_of_isDigit fun c (hc : c ∈ Number.render (o.side.getD bothSides)) =>
    Number.isDigit_of_mem_render hc
  unfold row
  simp only [piecesWeight_cons, piecesWeight_nil, digits, weight_nil]
  omega

theorem piecesWeight_rowLines (o : Options) (e : Entry) :
    piecesWeight (rowLines o e) = piecesWeight (row o e) := by
  have whole : weight (Text.join '\n' (rowLines o e)) + 1 = piecesWeight (rowLines o e) :=
    weight_join rfl (List.splitOn_ne_nil '\n' (render o e))
  have joined : Text.join '\n' (rowLines o e) = render o e := Text.join_splitOn '\n' (render o e)
  rw [← whole, joined]
  exact weight_renderFields (List.cons_ne_nil _ _)

theorem piecesWeight_flatMap_rowLines (o : Options) (es : List Entry) :
    piecesWeight (es.flatMap (rowLines o)) = piecesWeight (es.flatMap (row o)) := by
  induction es with
  | nil => rfl
  | cons e es ih =>
    rw [List.flatMap_cons, List.flatMap_cons, piecesWeight_append, piecesWeight_append,
      piecesWeight_rowLines, ih]

/-! ## What is read -/

/-- What has been read of a record. -/
def Partial.pending (p : Partial) : Nat := weight p.field + piecesWeight p.fields

theorem piecesWeight_record (p : Partial) : piecesWeight p.record.fields = p.pending + 1 := by
  unfold Partial.record Partial.pending
  rw [piecesWeight_reverse, piecesWeight_cons, weight_reverse]
  omega

/-- A character outside of quotes goes into the record, or it is counted as what ends a field or a line. -/
theorem pending_readPlain_le {p q : Partial} {c : Char} {r : Option Record} (h : readPlain p c = (r, q)) :
    (r.elim 0 fun r => piecesWeight r.fields) + q.pending ≤ p.pending + (counts c).toNat := by
  unfold readPlain at h
  split at h
  · next comma =>
    obtain rfl := beq_iff_eq.mp comma
    cases h
    change 0 + (0 + piecesWeight (p.field.reverse :: p.fields)) ≤ p.pending + 1
    rw [piecesWeight_cons, weight_reverse]
    unfold Partial.pending
    omega
  · split at h
    · next ends =>
      cases h
      have one : (counts c).toNat = 1 := by
        rcases Bool.or_eq_true_iff.mp ends with is | is
        · rw [beq_iff_eq.mp is]
          rfl
        · rw [beq_iff_eq.mp is]
          rfl
      have whole := piecesWeight_record p
      change piecesWeight p.record.fields + 0 ≤ _
      omega
    · cases h
      change 0 + (weight (c :: p.field) + piecesWeight p.fields) ≤ _
      rw [weight_cons]
      unfold Partial.pending
      omega

/-- No character gives more than it weighs. -/
theorem pending_readChar_le {p q : Partial} {c : Char} {r : Option Record} (h : readChar p c = (r, q)) :
    (r.elim 0 fun r => piecesWeight r.fields) + q.pending ≤ p.pending + (counts c).toNat := by
  have alone : ∀ spot, 0 + Partial.pending { p with spot } ≤ p.pending + (counts c).toNat := by
    intro spot
    change 0 + p.pending ≤ _
    omega
  have pushed : 0 + (p.push .quoted c).pending ≤ p.pending + (counts c).toNat := by
    change 0 + (weight (c :: p.field) + piecesWeight p.fields) ≤ _
    rw [weight_cons]
    unfold Partial.pending
    omega
  unfold readChar at h
  split at h
  · split at h
    · cases h
      exact alone p.spot
    · split at h
      · cases h
        exact alone .quoted
      · exact pending_readPlain_le h
  · split at h
    · cases h
      exact alone .quoted
    · exact pending_readPlain_le h
  · exact pending_readPlain_le h
  · split at h
    · cases h
      exact alone .afterQuote
    · cases h
      exact pushed
  · split at h
    · cases h
      exact pushed
    · exact pending_readPlain_le h

/-- The records of a text weigh no more than the text, and one more if it ends inside of a record. -/
theorem piecesWeight_readFrom_le (p : Partial) (t : Text) :
    piecesWeight ((readFrom p t).flatMap (·.fields)) ≤ p.pending + weight t + 1 := by
  induction t generalizing p with
  | nil =>
    rw [readFrom]
    split
    · exact Nat.zero_le _
    · have whole := piecesWeight_record p
      rw [List.flatMap_singleton, weight_nil]
      omega
  | cons c t ih =>
    rcases step : readChar { p with line := p.line + (c == '\n').toNat } c with ⟨r, q⟩
    have here := pending_readChar_le step
    have later := ih q
    have counted : Partial.pending { p with line := p.line + (c == '\n').toNat } = p.pending := rfl
    rw [counted] at here
    rw [readFrom, step, weight_cons]
    cases r with
    | none =>
      change 0 + q.pending ≤ _ at here
      change piecesWeight ((readFrom q t).flatMap (·.fields)) ≤ _
      omega
    | some r =>
      change piecesWeight r.fields + q.pending ≤ _ at here
      change piecesWeight ((r :: readFrom q t).flatMap (·.fields)) ≤ _
      rw [List.flatMap_cons, piecesWeight_append]
      omega

/-! ## What is left out -/

theorem weight_chomp_le (line : Text) : weight (Text.chomp line) ≤ weight line := by
  unfold Text.chomp
  split
  · next rest turned =>
    rw [weight_reverse, ← weight_reverse line, turned, weight_cons]
    exact Nat.le_add_right _ _
  · exact Nat.le_refl _

theorem weight_shown_le (line : Text) : weight (shown line) ≤ weight line := by
  unfold shown
  split
  · exact Nat.zero_le _
  · exact weight_chomp_le line

/-- Something counts in a comment, if only white space. -/
theorem weight_pos_of_isComment {line : Text} (some : line ≠ []) (comment : Text.isComment line = true) :
    0 < weight line := by
  obtain ⟨c, rest, rfl⟩ := List.exists_cons_of_ne_nil some
  cases is : counts c with
  | true =>
    rw [weight_cons, is]
    exact Nat.succ_pos _
  | false =>
    have light : c = '"' ∨ c.isDigit = true := by
      simpa [counts, Classical.or_iff_not_imp_left] using is
    have meaningful : Text.isComment (c :: rest) = false := by
      rcases light with rfl | digit
      · exact Text.isComment_cons (by decide) (by decide) rest
      · apply Text.isComment_cons (Number.isBlank_of_isDigit digit)
        constructor
        · rintro rfl
          cases digit
        · rintro rfl
          cases digit
    rw [meaningful] at comment
    cases comment

/-- A line that is not left as it is loses something. -/
theorem weight_shown_lt {line : Text} (lost : ¬Stays line) : weight (shown line) < weight line := by
  by_cases ended : '\r' ∈ line.getLast?
  · obtain ⟨front, rfl⟩ := List.getLast?_eq_some_iff.mp ended
    have less : weight (shown (front ++ ['\r'])) ≤ weight front := by
      unfold shown
      rw [Text.chomp_append_return]
      split
      · exact Nat.zero_le _
      · exact Nat.le_refl _
    rw [weight_append]
    exact Nat.lt_of_le_of_lt less (Nat.lt_succ_self _)
  · have filled : line ≠ [] := by
      rintro rfl
      exact lost ⟨ended, .inl rfl⟩
    have comment : Text.isComment line = true := by
      cases is : Text.isComment line with
      | true => rfl
      | false => exact absurd ⟨ended, .inr is⟩ lost
    have blanked : shown line = [] := by
      unfold shown
      rw [Text.chomp_of_getLast ended, if_pos comment]
    rw [blanked]
    exact weight_pos_of_isComment filled comment

/-- Of lines that lose nothing together none loses anything. -/
theorem stays_of_piecesWeight_le {lines : List Text}
    (kept : piecesWeight lines ≤ piecesWeight (lines.map shown)) : ∀ line ∈ lines, Stays line := by
  have less : ∀ lines : List Text, piecesWeight (lines.map shown) ≤ piecesWeight lines := by
    intro lines
    induction lines with
    | nil => exact Nat.le_refl _
    | cons line lines ih =>
      have here := weight_shown_le line
      rw [List.map_cons, piecesWeight_cons, piecesWeight_cons]
      omega
  intro line mem
  by_contra lost
  obtain ⟨before, after, rfl⟩ := List.append_of_mem mem
  have here := weight_shown_lt lost
  have left := less before
  have right := less after
  rw [List.map_append, List.map_cons, piecesWeight_append, piecesWeight_append, piecesWeight_cons,
    piecesWeight_cons] at kept
  omega

end SymbolMap.Sheet
