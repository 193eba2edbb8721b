import SymbolMap.Proofs.Text.Cut

/-!
Lines that are made of words.

* `words_append_cons`: a text splits into its words at each white space;
* `words_join`, `tight_join`: a line that was put together from words has those words, and ends in one;
* `trim_append_of_blank`, `trim_cons`: white space is taken away up to the first other character;
* `isComment_of_start`, `isComment_cons`, `isComment_of_startsWith`: a line that starts in another way is no
  comment;
* `exists_blank_of_isComment`: what a comment starts with.
-/
namespace SymbolMap.Text

def IsWord (t : Text) : Prop := t ≠ [] ∧ ∀ c ∈ t, isBlank c = false

-- The instance runs through the text; characters can also be enumerated, and that must not be tried.
instance (t : Text) : Decidable (IsWord t) :=
  @instDecidableAnd (t ≠ []) _ inferInstance (List.decidableBAll _ t)

theorem words_append_cons {c : Char} (blank : isBlank c = true) (before after : Text) :
    words (before ++ c :: after) = words before ++ words after := by
  unfold words
  rw [List.splitOnP_append_cons before after blank, List.filter_append]

theorem words_of_isWord {t : Text} (h : IsWord t) : words t = [t] := by
  unfold words
  rw [List.splitOnP_eq_singleton h.2]
  simp [h.1]

theorem isWord_of_mem_words {t word : Text} (h : word ∈ words t) : IsWord word := by
  obtain ⟨piece, filled⟩ := List.mem_filter.mp h
  exact ⟨by simpa using filled, fun c hc => (of_mem_splitOnP piece c hc).2⟩

theorem words_cons {c : Char} (blank : isBlank c = true) (t : Text) : words (c :: t) = words t :=
  words_append_cons blank [] t

theorem words_word_append {word : Text} (h : IsWord word) (rest : Text) :
    words (word ++ ' ' :: rest) = word :: words rest := by
  rw [words_append_cons (by decide), words_of_isWord h, List.singleton_append]

theorem words_append_of_blank {blanks : Text} (hb : ∀ c ∈ blanks, isBlank c = true) (t : Text) :
    words (blanks ++ t) = words t := by
  induction blanks with
  | nil => rfl
  | cons c blanks ih =>
    obtain ⟨blank, rest⟩ := List.forall_mem_cons.mp hb
    rw [List.cons_append, words_cons blank, ih rest]

theorem join_cons_cons (sep : Char) (first second : Text) (pieces : List Text) :
    join sep (first :: second :: pieces) = first ++ sep :: join sep (second :: pieces) := by
  unfold join
  simp

theorem join_cons_eq_flatMap (sep : Char) (first : Text) (pieces : List Text) :
    join sep (first :: pieces) = first ++ pieces.flatMap (sep :: ·) := by
  induction pieces generalizing first with
  | nil => simp [join]
  | cons second pieces ih => rw [join_cons_cons, ih, List.flatMap_cons, List.cons_append]

theorem cons_join_eq_flatMap (sep : Char) {pieces : List Text} (some : pieces ≠ []) :
    sep :: join sep pieces = pieces.flatMap (sep :: ·) := by
  obtain ⟨first, pieces, rfl⟩ := List.exists_cons_of_ne_nil some
  rw [join_cons_eq_flatMap, List.flatMap_cons, List.cons_append]

theorem exists_join_cons (sep : Char) (first : Text) (pieces : List Text) :
    ∃ more, join sep (first :: pieces) = first ++ more := by
  cases pieces with
  | nil => exact ⟨[], by simp [join]⟩
  | cons second pieces => exact ⟨_, join_cons_cons sep first second pieces⟩

/-- The text ends as the last piece does. -/
theorem getLast?_join (sep : Char) (pieces : List Text) {last : Text} (filled : last ≠ []) :
    (join sep (pieces ++ [last])).getLast? = last.getLast? := by
  induction pieces with
  | nil => simp [join]
  | cons first pieces ih =>
    have ends : join sep (pieces ++ [last]) ≠ [] := by
      intro none
      rw [none] at ih
      exact filled (List.getLast?_eq_none_iff.mp ih.symm)
    obtain ⟨second, rest, is⟩ := List.exists_cons_of_ne_nil (List.append_ne_nil_of_right_ne_nil pieces
      (List.cons_ne_nil last []))
    rw [List.cons_append, is, join_cons_cons, ← is, getLast?_append_cons first sep ends, ih]

theorem join_splitOn (sep : Char) (t : Text) : join sep (t.splitOn sep) = t :=
  List.intercalate_splitOn sep

/-- Words with spaces between them are read again. -/
theorem words_join {ws : List Text} (h : ∀ w ∈ ws, IsWord w) : words (join ' ' ws) = ws := by
  induction ws with
  | nil => rfl
  | cons first ws ih =>
    obtain ⟨word, others⟩ := List.forall_mem_cons.mp h
    cases ws with
    | nil =>
      have alone : join ' ' [first] = first := by simp [join]
      rw [alone, words_of_isWord word]
    | cons second ws => rw [join_cons_cons, words_word_append word, ih others]

theorem mem_join {sep c : Char} {pieces : List Text} (h : c ∈ join sep pieces) :
    c = sep ∨ ∃ piece ∈ pieces, c ∈ piece := by
  induction pieces with
  | nil => exact absurd h List.not_mem_nil
  | cons first pieces ih =>
    cases pieces with
    | nil =>
      have alone : join sep [first] = first := by simp [join]
      rw [alone] at h
      exact .inr ⟨first, List.mem_cons_self, h⟩
    | cons second pieces =>
      rw [join_cons_cons] at h
      rcases List.mem_append.mp h with own | later
      · exact .inr ⟨first, List.mem_cons_self, own⟩
      · rcases List.mem_cons.mp later with rfl | later
        · exact .inl rfl
        · refine (ih later).imp_right fun ⟨piece, hp, inside⟩ => ?_
          exact ⟨piece, List.mem_cons_of_mem _ hp, inside⟩

/-- The only white space on a line of words is that between them. -/
theorem eq_space_of_mem_join {ws : List Text} (h : ∀ w ∈ ws, IsWord w) {c : Char}
    (hc : c ∈ join ' ' ws) (blank : isBlank c = true) : c = ' ' := by
  rcases mem_join hc with space | ⟨word, hw, inside⟩
  · exact space
  · rw [(h word hw).2 c inside] at blank
    cases blank

theorem tight_join {ws : List Text} (some : ws ≠ []) (h : ∀ w ∈ ws, IsWord w) :
    join ' ' ws ≠ [] ∧ Tight (join ' ' ws) := by
  induction ws with
  | nil => exact absurd rfl some
  | cons first ws ih =>
    obtain ⟨word, others⟩ := List.forall_mem_cons.mp h
    have start : Tight first := tight_of_forall word.2
    cases ws with
    | nil =>
      have alone : join ' ' [first] = first := by simp [join]
      rw [alone]
      exact ⟨word.1, start⟩
    | cons second ws =>
      obtain ⟨filled, tight⟩ := ih (List.cons_ne_nil _ _) others
      have whole := start.append tight word.1 filled [' ']
      rw [join_cons_cons]
      refine ⟨by simp, ?_⟩
      simpa using whole

theorem dropWhile_append_singleton {p : Char → Bool} {c : Char} (stop : p c = false) (t : Text) :
    (t ++ [c]).dropWhile p = t.dropWhile p ++ [c] := by
  induction t with
  | nil => exact List.dropWhile_cons_of_neg (by simp [stop])
  | cons first t ih =>
    rw [List.cons_append, List.dropWhile_cons, List.dropWhile_cons, ih]
    split <;> rfl

theorem trim_of_blank {t : Text} (blank : ∀ c ∈ t, isBlank c = true) : trim t = [] := by
  unfold trim trimStart
  rw [(span_of_forall blank).2]
  rfl

theorem trim_append_blank (t : Text) {c : Char} (blank : isBlank c = true) : trim (t ++ [c]) = trim t := by
  unfold trim trimStart
  rw [List.dropWhile_append]
  cases left : t.dropWhile isBlank with
  | nil => simp [blank]
  | cons first rest => simp [trimEnd, blank]

theorem trim_append_of_blank {blanks : Text} (hb : ∀ c ∈ blanks, isBlank c = true) (t : Text) :
    trim (blanks ++ t) = trim t := by
  unfold trim trimStart
  rw [List.dropWhile_append_of_pos hb]

theorem trimEnd_cons {c : Char} (notBlank : isBlank c = false) (t : Text) :
    trimEnd (c :: t) = c :: trimEnd t := by
  unfold trimEnd
  rw [List.reverse_cons, dropWhile_append_singleton notBlank, List.reverse_append]
  rfl

theorem trim_cons {c : Char} (notBlank : isBlank c = false) (t : Text) : trim (c :: t) = c :: trimEnd t := by
  unfold trim trimStart
  rw [List.dropWhile_cons_of_neg (by simp [notBlank]), trimEnd_cons notBlank]

/-- Only white space is taken away before the first other character. -/
theorem exists_trim_eq_cons {blanks : Text} (hb : ∀ c ∈ blanks, isBlank c = true) {c : Char}
    (notBlank : isBlank c = false) (rest : Text) :
    ∃ more, trim (blanks ++ c :: rest) = c :: more :=
  ⟨trimEnd rest, by rw [trim_append_of_blank hb, trim_cons notBlank]⟩

theorem isComment_of_start {blanks : Text} (hb : ∀ c ∈ blanks, isBlank c = true) {c : Char}
    (notBlank : isBlank c = false) (other : c ≠ '#' ∧ c ≠ '/') (rest : Text) :
    isComment (blanks ++ c :: rest) = false := by
  obtain ⟨more, is⟩ := exists_trim_eq_cons hb notBlank rest
  unfold isComment
  rw [is]
  split
  · next empty => cases empty
  · next start =>
    cases start
    exact absurd rfl other.1
  · next start =>
    cases start
    exact absurd rfl other.2
  · rfl

theorem isComment_cons {c : Char} (notBlank : isBlank c = false) (other : c ≠ '#' ∧ c ≠ '/')
    (rest : Text) : isComment (c :: rest) = false := by
  have none : ∀ c ∈ ([] : Text), isBlank c = true := by simp
  exact isComment_of_start none notBlank other rest

theorem trimEnd_prefix (t : Text) : trimEnd t <+: t := by
  have kept := List.reverse_prefix.mpr (List.dropWhile_suffix (l := t.reverse) isBlank)
  rwa [List.reverse_reverse] at kept

/-- At the start of a text there is nothing to be taken away. -/
theorem trim_prefix {t : Text} (h : ∀ c ∈ t.head?, isBlank c = false) : trim t <+: t := by
  unfold trim trimStart
  rw [dropWhile_isBlank_of_head h]
  exact trimEnd_prefix t

/-- A line is no comment if it starts neither with white space nor with the mark of one. -/
theorem isComment_of_startsWith {t : Text} (some : t ≠ []) (h : ∀ c ∈ t.head?, isBlank c = false)
    (sign : startsWith t ['#'] = false) (slashes : startsWith t ['/', '/'] = false) :
    isComment t = false := by
  have whole := trim_prefix h
  have open_ : ∀ start, startsWith t start = false → ¬start <+: trim t := by
    intro start no mark
    rw [startsWith_iff.mpr (mark.trans whole)] at no
    cases no
  unfold isComment
  split
  · next none =>
    obtain ⟨c, rest, rfl⟩ := List.exists_cons_of_ne_nil some
    have blanks : ∀ c ∈ ([] : Text), isBlank c = true := by simp
    obtain ⟨more, is⟩ := exists_trim_eq_cons blanks (h c rfl) rest
    rw [List.nil_append, none] at is
    cases is
  · next rest is => exact absurd ⟨rest, is.symm⟩ (open_ _ sign)
  · next rest is => exact absurd ⟨rest, is.symm⟩ (open_ _ slashes)
  · rfl

theorem text_mem_lines {t : Text} {line : Line} (h : line ∈ numbered t) : line.text ∈ lines t := by
  rw [← map_text_numbered]
  exact List.mem_map_of_mem h

theorem map_text_meaningful_eq_filter (t : Text) :
    (meaningful t).map (·.text) = (lines t).filter fun l => !isComment l := by
  rw [← map_text_numbered, List.filter_map]
  rfl

/-- The lines that are no comments are read as they are. -/
theorem map_text_meaningful {t : Text} (h : ∀ l ∈ lines t, isComment l = false) :
    (meaningful t).map (·.text) = lines t := by
  rw [map_text_meaningful_eq_filter]
  exact List.filter_eq_self.mpr fun l hl => by simp [h l hl]

/-! ## Comments -/

/-- The end of a line does not decide whether it is a comment. -/
theorem isComment_chomp (t : Text) : isComment (chomp t) = isComment t := by
  unfold chomp
  split
  · next rest turned =>
    have whole : t = rest.reverse ++ ['\r'] := by
      rw [← List.reverse_reverse t, turned, List.reverse_cons]
    unfold isComment
    rw [whole, trim_append_blank rest.reverse (by decide)]
  · rfl

/-- A comment has nothing but white space before its mark, or nothing but white space at all. -/
theorem exists_blank_of_isComment {t : Text} (comment : isComment t = true) :
    ∃ blanks rest : Text, (∀ c ∈ blanks, isBlank c = true) ∧ t = blanks ++ rest ∧
      (rest = [] ∨ (∃ more, rest = '#' :: more) ∨ ∃ more, rest = '/' :: '/' :: more) := by
  have blanks : ∀ c ∈ t.takeWhile isBlank, isBlank c = true := List.all_eq_true.mp List.all_takeWhile
  have parts : t = t.takeWhile isBlank ++ t.dropWhile isBlank := List.takeWhile_append_dropWhile.symm
  refine ⟨_, _, blanks, parts, ?_⟩
  cases left : t.dropWhile isBlank with
  | nil => exact .inl rfl
  | cons first more =>
    have notBlank : isBlank first = false := by
      have stop := List.head?_dropWhile_not isBlank t
      rwa [left] at stop
    rw [left] at parts
    have trimmed : trim t = first :: trimEnd more := by
      rw [parts, trim_append_of_blank blanks, trim_cons notBlank]
    unfold isComment at comment
    rw [trimmed] at comment
    split at comment
    · next none => cases none
    · next rest is => exact .inr (.inl ⟨more, by rw [(List.cons.inj is).1]⟩)
    · next rest is =>
      obtain ⟨rfl, slash⟩ := List.cons.inj is
      obtain ⟨after, is⟩ := slash ▸ trimEnd_prefix more
      exact .inr (.inr ⟨rest ++ after, by rw [← is, List.cons_append]⟩)
    · cases comment

end SymbolMap.Text
