import SymbolMap.Dialect.Spec
import SymbolMap.Proofs.Text.Number

/-!
The short texts that name dialects, written and read back.

* `Dialect.Expressible`: the options that a text can name;
* `Dialect.parts`, `Dialect.render_eq_join`: what stands between the dashes;
* `Dialect.read_render`: a dialect with such options is read back from its text;
* `Dialect.expressible_of_read`: no other options are read from any text;
* `Dialect.reads_back_expressible`: both for all dialects.
-/
namespace SymbolMap.Dialect

/-- The options that a text can name. A side of columns ends at a dash, and may not be taken for the word on
descriptors. -/
def Expressible : Dialect → Prop
  | sidedFlat side => side ≠ []
  | columns o => ∀ side ∈ o.side, side ≠ [] ∧ side ≠ noDescriptors ∧ '-' ∉ side
  | sheet o => o.kind = .field ∨ o.kind = .method
  | flat | threeWay _ | outline | memberLines => True

instance : DecidablePred Expressible
  | sidedFlat side => inferInstanceAs (Decidable (side ≠ []))
  | columns o => inferInstanceAs (Decidable (∀ side ∈ o.side, _))
  | sheet o => inferInstanceAs (Decidable (o.kind = .field ∨ o.kind = .method))
  | flat | threeWay _ | outline | memberLines => inferInstanceAs (Decidable True)

def stripParts (strip : Bool) : List Text :=
  if strip then [noDescriptors] else []

def kindPart (kind : Kind) : Text :=
  (if kind = .field then "fields" else "methods").toList

/-- What stands between the dashes of a text that names a dialect. -/
def parts : Dialect → List Text
  | flat => ["obf".toList]
  | sidedFlat side => "sobf".toList :: side.splitOn '-'
  | threeWay strip => "blobf".toList :: stripParts strip
  | columns o => "srg".toList :: (o.side.toList ++ stripParts o.strip)
  | sheet o => "csv".toList :: kindPart o.kind :: (o.side.map Number.render).toList
  | outline => ["onf".toList]
  | memberLines => ["enigma".toList]

/-! ## Written -/

theorem renderStrip_eq (strip : Bool) : renderStrip strip = (stripParts strip).flatMap ('-' :: ·) := by
  cases strip <;> rfl

theorem renderOption_eq (option : Option Text) : renderOption option = option.toList.flatMap ('-' :: ·) := by
  cases option with
  | none => rfl
  | some text => simp [renderOption]

theorem render_eq_join (d : Dialect) : d.render = Text.join '-' d.parts := by
  unfold render parts
  cases d with
  | flat => rfl
  | sidedFlat side =>
    have rest : '-' :: side = (side.splitOn '-').flatMap ('-' :: ·) := by
      rw [← Text.cons_join_eq_flatMap '-' (List.splitOn_ne_nil '-' side), Text.join_splitOn]
    dsimp only
    rw [Text.join_cons_eq_flatMap, ← rest]
  | threeWay strip =>
    dsimp only
    rw [Text.join_cons_eq_flatMap, renderStrip_eq]
  | columns o =>
    dsimp only
    rw [Text.join_cons_eq_flatMap, List.flatMap_append, renderStrip_eq, renderOption_eq, List.append_assoc]
  | sheet o =>
    dsimp only
    rw [Text.join_cons_eq_flatMap, renderOption_eq, List.flatMap_cons, ← kindPart]
    simp
  | outline => rfl
  | memberLines => rfl

theorem parts_ne_nil (d : Dialect) : d.parts ≠ [] := by
  cases d <;> exact List.cons_ne_nil _ _

theorem dash_not_mem_stripParts {strip : Bool} {part : Text} (h : part ∈ stripParts strip) : '-' ∉ part := by
  cases strip with
  | false => exact absurd h List.not_mem_nil
  | true =>
    obtain rfl := List.mem_singleton.mp h
    decide

/-- The dashes between the parts are the only ones. -/
theorem dash_not_mem_parts {d : Dialect} (h : d.Expressible) : ∀ part ∈ d.parts, '-' ∉ part := by
  cases d with
  | flat => decide
  | sidedFlat side =>
    refine List.forall_mem_cons.mpr ⟨by decide, fun part hp dash => ?_⟩
    exact (Text.of_mem_splitOn hp '-' dash).2 rfl
  | threeWay strip => exact List.forall_mem_cons.mpr ⟨by decide, fun _ => dash_not_mem_stripParts⟩
  | columns o =>
    refine List.forall_mem_cons.mpr ⟨by decide, fun part hp => ?_⟩
    rcases List.mem_append.mp hp with side | strip
    · exact (h part (Option.mem_toList.mp side)).2.2
    · exact dash_not_mem_stripParts strip
  | sheet o =>
    refine List.forall_mem_cons.mpr ⟨by decide, List.forall_mem_cons.mpr ⟨?_, fun part hp dash => ?_⟩⟩
    · unfold kindPart
      split <;> decide
    · obtain ⟨side, _, rfl⟩ := Option.map_eq_some_iff.mp (Option.mem_toList.mp hp)
      exact absurd (Number.isDigit_of_mem_render dash) (by decide)
  | outline => decide
  | memberLines => decide

/-! ## Read back -/

theorem readStrip_stripParts (strip : Bool) : readStrip (stripParts strip) = some strip := by
  cases strip <;> rfl

theorem readSide_splitOn {side : Text} (filled : side ≠ []) : readSide (side.splitOn '-') = some side := by
  unfold readSide
  rw [Text.join_splitOn]
  exact if_neg filled

theorem readColumns_parts {o : Columns.Options}
    (named : ∀ side ∈ o.side, side ≠ [] ∧ side ≠ noDescriptors ∧ '-' ∉ side) :
    readColumns (o.side.toList ++ stripParts o.strip) = some o := by
  obtain ⟨side, strip⟩ := o
  cases side with
  | none => cases strip <;> rfl
  | some side =>
    obtain ⟨filled, other, _⟩ := named side rfl
    simp [readColumns, filled, other, readStrip_stripParts]

theorem readSheet_parts (o : Sheet.Options) :
    readSheet o.kind (o.side.map Number.render).toList = some o := by
  obtain ⟨kind, side⟩ := o
  cases side with
  | none => rfl
  | some side => simp [readSheet, Number.read_render]

theorem readParts_parts {d : Dialect} (h : d.Expressible) : readParts d.parts = some d := by
  cases d with
  | flat => rfl
  | sidedFlat side => simp [parts, readParts, readSide_splitOn h]
  | threeWay strip => simp [parts, readParts, readStrip_stripParts]
  | columns o => simp [parts, readParts, readColumns_parts h]
  | sheet o =>
    have same := readSheet_parts o
    rcases h with field | method
    · rw [field] at same
      simp [parts, readParts, kindPart, field, same]
    · rw [method] at same
      simp [parts, readParts, kindPart, method, same]
  | outline => rfl
  | memberLines => rfl

/-- A dialect whose options can be expressed is read back as it was. -/
theorem read_render {d : Dialect} (h : d.Expressible) : read d.render = .ok d := by
  have split : d.render.splitOn '-' = d.parts := by
    rw [render_eq_join]
    exact List.splitOn_intercalate '-' (dash_not_mem_parts h) d.parts_ne_nil
  unfold read
  rw [split, readParts_parts h]

/-! ## What was read -/

theorem filled_of_readSide {parts : List Text} {side : Text} (h : readSide parts = some side) : side ≠ [] := by
  unfold readSide at h
  dsimp only at h
  split at h
  · cases h
  · next filled =>
    cases h
    exact filled

/-- The side is a part of the text, so there is no dash in it, and it was not taken for the word on
descriptors. -/
theorem named_of_readColumns {parts : List Text} {o : Columns.Options} (whole : ∀ part ∈ parts, '-' ∉ part)
    (h : readColumns parts = some o) : ∀ side ∈ o.side, side ≠ [] ∧ side ≠ noDescriptors ∧ '-' ∉ side := by
  unfold readColumns at h
  split at h
  · cases h
    nofun
  · next first rest =>
    split at h
    · obtain ⟨strip, _, rfl⟩ := Option.map_eq_some_iff.mp h
      nofun
    · next other =>
      split at h
      · cases h
      · next filled =>
        obtain ⟨strip, _, rfl⟩ := Option.map_eq_some_iff.mp h
        intro side mem
        obtain rfl : first = side := Option.some.inj mem
        exact ⟨filled, other, whole first List.mem_cons_self⟩

theorem kind_of_readSheet {kind : Kind} {parts : List Text} {o : Sheet.Options}
    (h : readSheet kind parts = some o) : o.kind = kind := by
  unfold readSheet at h
  split at h
  · cases h
    rfl
  · split at h
    · cases h
      rfl
    · cases h
  · cases h

theorem expressible_of_readParts {parts : List Text} {d : Dialect} (whole : ∀ part ∈ parts, '-' ∉ part)
    (h : readParts parts = some d) : d.Expressible := by
  unfold readParts at h
  split at h
  · cases h
  next word rest =>
  have others : ∀ part ∈ rest, '-' ∉ part := (List.forall_mem_cons.mp whole).2
  -- One case for each word that a dialect goes by, in the order of the reader, and one for all other words.
  split at h
  · cases h
    trivial
  · obtain ⟨side, found, rfl⟩ := Option.map_eq_some_iff.mp h
    exact filled_of_readSide found
  · obtain ⟨strip, _, rfl⟩ := Option.map_eq_some_iff.mp h
    trivial
  · obtain ⟨o, found, rfl⟩ := Option.map_eq_some_iff.mp h
    exact named_of_readColumns others found
  · split at h
    · obtain ⟨o, found, rfl⟩ := Option.map_eq_some_iff.mp h
      exact .inl (kind_of_readSheet found)
    · obtain ⟨o, found, rfl⟩ := Option.map_eq_some_iff.mp h
      exact .inr (kind_of_readSheet found)
    · cases h
  · cases h
    trivial
  · cases h
    trivial
  · cases h

theorem expressible_of_read {text : Text} {d : Dialect} (h : read text = .ok d) : d.Expressible := by
  unfold read at h
  split at h
  · next found =>
    cases h
    refine expressible_of_readParts (fun part hp dash => ?_) found
    exact (Text.of_mem_splitOn hp '-' dash).2 rfl
  · cases h

/-- A dialect is read back from its text exactly if its options can be expressed, and those are the options
that any text at all can name. -/
theorem reads_back_expressible :
    (∀ (text : Text) (d : Dialect), read text = .ok d → read d.render = .ok d) ∧
      (∀ d : Dialect, read d.render = .ok d ↔ d.Expressible) ∧
      ∀ d : Dialect, (∃ text, read text = .ok d) ↔ d.Expressible := by
  refine ⟨?_, ?_, ?_⟩
  · intro text d h
    exact read_render (expressible_of_read h)
  · intro d
    exact ⟨expressible_of_read, read_render⟩
  · intro d
    constructor
    · rintro ⟨text, h⟩
      exact expressible_of_read h
    · intro h
      exact ⟨d.render, read_render h⟩

/-- A number that is read with a sign and zeros comes back without them, a side with dashes as it is, and the
word on descriptors not as a side. -/
theorem reads_back_expressible_padded :
    read "csv-methods-+007".toList = .ok (sheet { kind := .method, side := some 7 }) ∧
      read "csv-methods-7".toList = .ok (sheet { kind := .method, side := some 7 }) ∧
      read "sobf--nodesc".toList = .ok (sidedFlat "-nodesc".toList) ∧
      read "srg-nodesc".toList ≠ .ok (columns { side := "nodesc".toList }) := by
  have padded : read "csv-methods-+007".toList = .ok (sheet { kind := .method, side := some 7 }) := rfl
  have dashed : (sidedFlat "-nodesc".toList).Expressible := by decide
  have taken : ¬(columns { side := "nodesc".toList }).Expressible := by decide
  obtain ⟨again, back, _⟩ := reads_back_expressible
  exact ⟨padded, again _ _ padded, (back _).mpr dashed, fun h => taken ((back _).mp h)⟩

end SymbolMap.Dialect
