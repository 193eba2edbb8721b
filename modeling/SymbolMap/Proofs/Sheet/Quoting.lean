import SymbolMap.Dialect.Sheet.Record
import SymbolMap.Proofs.Text.Words

/-!
Records that are written and read back, whatever characters are in their fields.

* `readFrom_quoted`, `readFrom_plain`: what one state of the reader takes from a field;
* `exists_readFrom_renderField`: a field is read up to the comma or the line end after it;
* `exists_readFrom_renderFields`: so is a record, field by field;
* `map_fields_readFrom_join`: lines of records are read as those records.
-/
namespace SymbolMap.Sheet

/-- The field with each quote in it written twice. -/
def doubled (field : Text) : Text :=
  field.flatMap fun c => if c = '"' then ['"', '"'] else [c]

/-- The field can do without quotes. -/
def Plain (field : Text) : Prop :=
  ∀ c ∈ field, c ≠ ',' ∧ c ≠ '"' ∧ isLineEnd c = false

theorem renderField_cases (field : Text) :
    renderField field = '"' :: (doubled field ++ ['"']) ∨ Plain field ∧ renderField field = field := by
  unfold renderField
  by_cases special : (field.any fun c => c == ',' || c == '"' || isLineEnd c) = true
  · rw [if_pos special]
    exact .inl rfl
  · rw [if_neg special]
    refine .inr ⟨fun c hc => ?_, rfl⟩
    simp only [List.any_eq_true, not_exists, not_and] at special
    simpa [and_assoc] using special c hc

theorem mem_renderField {field : Text} {c : Char} (h : c ∈ renderField field) : c = '"' ∨ c ∈ field := by
  rcases renderField_cases field with is | ⟨_, is⟩
  · rw [is] at h
    simp only [doubled, List.mem_append, List.mem_cons, List.mem_flatMap, List.not_mem_nil,
      or_false] at h
    rcases h with quote | ⟨x, hx, inside⟩ | quote
    · exact .inl quote
    · by_cases isQuote : x = '"'
      · simp_all
      · simp_all
    · exact .inl quote
  · exact .inr (is ▸ h)

/-! ## One field -/

namespace Partial

/-- Where the reader stands after so many more characters of a field. -/
def filled (p : Partial) (spot : Spot) (text : Text) : Partial :=
  { p with spot, field := text.reverse ++ p.field, line := p.line + text.count '\n' }

theorem filled_nil {p : Partial} {spot : Spot} (h : p.spot = spot) : p.filled spot [] = p := by
  subst h
  rfl

/-- A character is counted as a line before it is put into the field. -/
theorem push_filled (p : Partial) (spot spot' : Spot) (c : Char) (text : Text) :
    (({ p with line := p.line + (c == '\n').toNat } : Partial).push spot c).filled spot' text =
      p.filled spot' (c :: text) := by
  by_cases newline : c = '\n'
  · simp [filled, push, newline]
    omega
  · simp [filled, push, newline]

end Partial

variable {p : Partial}

/-- The next character does not end a record. -/
theorem readFrom_cons {c : Char} {q : Partial}
    (h : readChar { p with line := p.line + (c == '\n').toNat } c = (none, q)) (t : Text) :
    readFrom p (c :: t) = readFrom q t := by
  rw [readFrom, h]

theorem readFrom_quoted (h : p.spot = .quoted) (field rest : Text) :
    readFrom p (doubled field ++ rest) = readFrom (p.filled .quoted field) rest := by
  induction field generalizing p with
  | nil => rw [Partial.filled_nil h]; rfl
  | cons c field ih =>
    rw [← Partial.push_filled p .quoted, ← ih rfl]
    unfold doubled
    rw [List.flatMap_cons]
    by_cases quote : c = '"'
    · subst quote
      -- The first quote could end the field, and the second one shows that it does not.
      have first : readChar { p with line := p.line + ('"' == '\n').toNat } '"' =
          (none, { p with spot := .afterQuote }) := by
        unfold readChar
        simp [h]
      rw [if_pos rfl, List.cons_append, List.cons_append, List.cons_append, readFrom_cons first]
      exact readFrom_cons rfl _
    · rw [if_neg quote, List.cons_append, List.cons_append]
      apply readFrom_cons
      unfold readChar
      simp [h, quote]

theorem readFrom_plain (h : p.spot = .plain) {field : Text} (plain : Plain field) (rest : Text) :
    readFrom p (field ++ rest) = readFrom (p.filled .plain field) rest := by
  induction field generalizing p with
  | nil => rw [Partial.filled_nil h]; rfl
  | cons c field ih =>
    obtain ⟨⟨comma, _, inLine⟩, later⟩ := List.forall_mem_cons.mp plain
    rw [← Partial.push_filled p .plain, ← ih rfl later]
    apply readFrom_cons
    unfold readChar readPlain
    simp [h, comma, inLine]

/-- Before a field, which may be the first one of a record. -/
def Partial.Open (p : Partial) : Prop :=
  p.field = [] ∧ (p.spot = .between ∨ p.spot = .before)

/-- A field is read up to its end. Only where nothing has been read of a record an empty field is nothing. -/
theorem exists_readFrom_renderField (h : p.Open) (field : Text) :
    ∃ spot, spot ≠ .quoted ∧ (spot = .between → p.spot = .between ∧ field = []) ∧
      ∀ rest, readFrom p (renderField field ++ rest) = readFrom (p.filled spot field) rest := by
  obtain ⟨empty, spot⟩ := h
  rcases renderField_cases field with is | ⟨plain, is⟩
  · refine ⟨.afterQuote, by decide, nofun, fun rest => ?_⟩
    have opening : readChar { p with line := p.line + ('"' == '\n').toNat } '"' =
        (none, { p with spot := .quoted }) := by
      unfold readChar
      rcases spot with is | is <;> simp [is, isLineEnd]
    rw [is, List.cons_append, readFrom_cons opening, List.append_assoc, readFrom_quoted rfl]
    exact readFrom_cons rfl rest
  · rw [is]
    cases field with
    | nil =>
      refine ⟨p.spot, ?_, fun between => ⟨between, rfl⟩, fun rest => ?_⟩
      · rcases spot with is | is <;> simp [is]
      · rw [Partial.filled_nil rfl]
        rfl
    | cons c field =>
      obtain ⟨⟨comma, quote, inLine⟩, later⟩ := List.forall_mem_cons.mp plain
      refine ⟨.plain, by decide, nofun, fun rest => ?_⟩
      have opening : readChar { p with line := p.line + (c == '\n').toNat } c =
          (none, ({ p with line := p.line + (c == '\n').toNat } : Partial).push .plain c) := by
        unfold readChar readPlain
        rcases spot with is | is <;> simp [is, comma, quote, inLine]
      rw [List.cons_append, readFrom_cons opening, readFrom_plain rfl later, Partial.push_filled]

/-! ## Records -/

theorem readFrom_comma (h : p.spot ≠ .quoted) (rest : Text) :
    readFrom p (',' :: rest) = readFrom p.endField rest := by
  apply readFrom_cons
  unfold readChar readPlain
  cases is : p.spot <;> simp_all [isLineEnd, Partial.endField]

/-- The record ends where the text does. -/
theorem readFrom_nil (h : p.spot ≠ .between) : readFrom p [] = [p.record] := by
  rw [readFrom, if_neg h]

/-- At the end of a line the record ends, and the search for the next one begins. -/
theorem readFrom_newline (h : p.spot ≠ .quoted) (inside : p.spot ≠ .between) (rest : Text) :
    readFrom p ('\n' :: rest) =
      p.record :: readFrom { start := p.line + 1, line := p.line + 1 } rest := by
  have ends : readChar { p with line := p.line + ('\n' == '\n').toNat } '\n' =
      (some p.record, { start := p.line + 1, line := p.line + 1 }) := by
    unfold readChar readPlain
    cases is : p.spot <;> simp_all [isLineEnd, Partial.record]
  rw [readFrom, ends]

/-- A record that shows on its line: there are fields, and not only one that is empty. -/
def Shown (fields : List Text) : Prop :=
  fields ≠ [] ∧ fields ≠ [[]]

/-- The fields of a record are read up to the end of the last one. -/
theorem exists_readFrom_renderFields {fields : List Text} (some : fields ≠ []) (h : p.Open)
    (shown : p.spot = .between → Shown fields) :
    ∃ q : Partial, q.spot ≠ .quoted ∧ q.spot ≠ .between ∧
      q.record = ⟨p.start, p.fields.reverse ++ fields⟩ ∧
      ∀ rest, readFrom p (renderFields fields ++ rest) = readFrom q rest := by
  induction fields generalizing p with
  | nil => exact absurd rfl some
  | cons field fields ih =>
    obtain ⟨spot, closed, between, read⟩ := exists_readFrom_renderField h field
    cases fields with
    | nil =>
      have alone : renderFields [field] = renderField field := by simp [renderFields, Text.join]
      refine ⟨p.filled spot field, closed, ?_, ?_, ?_⟩
      · intro is
        obtain ⟨nothing, rfl⟩ := between is
        exact (shown nothing).2 rfl
      · simp [Partial.record, Partial.filled, h.1]
      · rw [alone]
        exact read
    | cons second fields =>
      have next : ((p.filled spot field).endField).Open := ⟨rfl, .inr rfl⟩
      have before : ((p.filled spot field).endField).spot ≠ .between := by simp [Partial.endField]
      obtain ⟨q, closed', inside, record, rest⟩ :=
        ih (List.cons_ne_nil _ _) next fun between => absurd between before
      refine ⟨q, closed', inside, ?_, fun more => ?_⟩
      · rw [record]
        simp [Partial.endField, Partial.filled, h.1]
      · have split : renderFields (field :: second :: fields) ++ more =
            renderField field ++ ',' :: (renderFields (second :: fields) ++ more) := by
          simp [renderFields, Text.join_cons_cons]
        rw [split, read, readFrom_comma closed, rest]

/-- Lines of records are read as those records. -/
theorem map_fields_readFrom_join {records : List (List Text)} (shown : ∀ fields ∈ records, Shown fields)
    (start line : Nat) :
    (readFrom { start, line } (Text.join '\n' (records.map renderFields))).map (·.fields) = records := by
  induction records generalizing start line with
  | nil => rfl
  | cons fields records ih =>
    obtain ⟨here, later⟩ := List.forall_mem_cons.mp shown
    obtain ⟨q, closed, inside, record, read⟩ :=
      exists_readFrom_renderFields (p := { start, line }) here.1 ⟨rfl, .inl rfl⟩ fun _ => here
    cases records with
    | nil =>
      have whole := read []
      rw [List.append_nil, readFrom_nil inside, record] at whole
      simpa [Text.join] using congrArg (List.map (·.fields)) whole
    | cons second records =>
      have rest := ih later (q.line + 1) (q.line + 1)
      rw [List.map_cons] at rest ⊢
      rw [List.map_cons, Text.join_cons_cons, read, readFrom_newline closed inside, List.map_cons, record,
        rest]
      rfl

/-- Of a text that does not start with a byte order mark nothing is dropped. -/
theorem records_eq_readFrom {t : Text} (h : t.head? ≠ some '\ufeff') : records t = readFrom {} t := by
  unfold records
  split
  · exact absurd rfl h
  · rfl

end SymbolMap.Sheet
