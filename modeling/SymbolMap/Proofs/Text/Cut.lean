import SymbolMap.Text.Lines

/-!
Texts that are taken apart at a separator, after they were put together with one.

* `startsWith_iff`: what a text starts with is a prefix of it;
* `cut_append_cons`, `cut_of_not_mem`: the first separator;
* `cutLast_append_cons`, `cutLast_of_none`: the last one;
* `trim_of_tight`: white space is taken away at the ends only;
* `of_mem_splitOnP`, `of_mem_splitOn`, `whole_of_mem_lines`: what is not in a piece or in a line;
* `lines_flatMap`: lines that were ended by line feeds are the lines of the text;
* `lines_append`, `lines_of_follows`: the lines before a line, and those from it on.
-/
namespace SymbolMap.Text

theorem startsWith_iff {t start : Text} : startsWith t start = true ↔ start <+: t :=
  List.isPrefixOf_iff_prefix

theorem startsWith_append (start rest : Text) : startsWith (start ++ rest) start = true :=
  startsWith_iff.mpr (List.prefix_append start rest)

theorem startsWith_singleton_iff {c : Char} {t : Text} : startsWith t [c] = true ↔ t.head? = some c := by
  constructor
  · intro starts
    obtain ⟨rest, rfl⟩ := startsWith_iff.mp starts
    rfl
  · intro starts
    obtain ⟨rest, rfl⟩ := List.head?_eq_some_iff.mp starts
    exact startsWith_append [c] rest

/-- Nothing that a text starts with reaches a character that it does not have. -/
theorem startsWith_append_cons {start : Text} {c : Char} (h : c ∉ start) (t rest : Text) :
    startsWith (t ++ c :: rest) start = startsWith t start := by
  unfold startsWith
  induction start generalizing t with
  | nil => simp
  | cons s start ih =>
    obtain ⟨other, later⟩ := List.ne_and_not_mem_of_not_mem_cons h
    cases t with
    | nil =>
      have differ : (s == c) = false := beq_false_of_ne other.symm
      simp [List.isPrefixOf, differ]
    | cons first t =>
      rw [List.cons_append, List.isPrefixOf_cons_cons, List.isPrefixOf_cons_cons, ih later]

/-! ## At the first separator -/

theorem span_of_forall {q : Char → Bool} {t : Text} (all : ∀ c ∈ t, q c = true) :
    t.takeWhile q = t ∧ t.dropWhile q = [] := by
  have taken : (t ++ []).takeWhile q = t ++ [] := List.takeWhile_append_of_pos all
  have dropped : (t ++ []).dropWhile q = [] := List.dropWhile_append_of_pos all
  rw [List.append_nil] at taken dropped
  exact ⟨taken, dropped⟩

theorem span_append_cons {q : Char → Bool} {before : Text} {c : Char} (after : Text)
    (all : ∀ x ∈ before, q x = true) (stop : q c = false) :
    (before ++ c :: after).takeWhile q = before ∧
      (before ++ c :: after).dropWhile q = c :: after := by
  rw [List.takeWhile_append_of_pos all, List.dropWhile_append_of_pos all]
  constructor
  · simp [stop]
  · simp [stop]

theorem forall_ne_of_not_mem {sep : Char} {t : Text} (h : sep ∉ t) :
    ∀ c ∈ t, (c != sep) = true :=
  fun _ hc => bne_iff_ne.mpr fun eq => h (eq ▸ hc)

theorem cut_of_not_mem {sep : Char} {t : Text} (h : sep ∉ t) : cut sep t = none := by
  unfold cut
  rw [(span_of_forall (forall_ne_of_not_mem h)).2]

theorem cut_append_cons {sep : Char} {before : Text} (h : sep ∉ before) (after : Text) :
    cut sep (before ++ sep :: after) = some (before, after) := by
  obtain ⟨taken, dropped⟩ :=
    span_append_cons after (forall_ne_of_not_mem h) (bne_self_eq_false sep)
  unfold cut
  rw [taken, dropped]

theorem eq_of_cut {sep : Char} {t before after : Text} (h : cut sep t = some (before, after)) :
    t = before ++ sep :: after ∧ sep ∉ before := by
  by_cases mem : sep ∈ t
  · obtain ⟨before', after', rfl, first⟩ := List.eq_append_cons_of_mem mem
    rw [cut_append_cons first] at h
    obtain ⟨rfl, rfl⟩ := Prod.mk.inj (Option.some.inj h)
    exact ⟨rfl, first⟩
  · rw [cut_of_not_mem mem] at h
    cases h

theorem not_mem_of_cut {sep : Char} {t : Text} (h : cut sep t = none) : sep ∉ t := by
  intro mem
  obtain ⟨before, after, rfl, first⟩ := List.eq_append_cons_of_mem mem
  rw [cut_append_cons first] at h
  cases h

/-! ## At the last separator -/

/-- Either no character is a separator, or one of them is the last. -/
theorem no_or_last (p : Char → Bool) (t : Text) :
    (∀ c ∈ t, p c = false) ∨
      ∃ before c after, p c = true ∧ t = before ++ c :: after ∧ ∀ x ∈ after, p x = false := by
  induction t with
  | nil => exact .inl fun c hc => absurd hc List.not_mem_nil
  | cons first rest ih =>
    rcases ih with no | ⟨before, c, after, hc, rfl, last⟩
    · cases hp : p first with
      | true => exact .inr ⟨[], first, rest, hp, rfl, no⟩
      | false => exact .inl (List.forall_mem_cons.mpr ⟨hp, no⟩)
    · exact .inr ⟨first :: before, c, after, hc, rfl, last⟩

variable {p : Char → Bool}

theorem breakLast_of_none {t : Text} (no : ∀ c ∈ t, p c = false) : breakLast p t = ([], t) := by
  have all : ∀ c ∈ t.reverse, (!p c) = true := fun c hc => by
    simp [no c (List.mem_reverse.mp hc)]
  obtain ⟨taken, dropped⟩ := span_of_forall all
  unfold breakLast
  rw [taken, dropped, List.reverse_nil, List.reverse_reverse]

theorem breakLast_append_cons (before : Text) {c : Char} {after : Text} (hc : p c = true)
    (last : ∀ x ∈ after, p x = false) :
    breakLast p (before ++ c :: after) = (before ++ [c], after) := by
  have all : ∀ x ∈ after.reverse, (!p x) = true := fun x hx => by
    simp [last x (List.mem_reverse.mp hx)]
  have stop : (!p c) = false := by simp [hc]
  have turned : (before ++ c :: after).reverse = after.reverse ++ c :: before.reverse := by simp
  obtain ⟨taken, dropped⟩ := span_append_cons before.reverse all stop
  unfold breakLast
  rw [turned, taken, dropped]
  simp

theorem cutLast_of_none {t : Text} (no : ∀ c ∈ t, p c = false) : cutLast p t = none := by
  unfold cutLast
  rw [breakLast_of_none no]

theorem cutLast_append_cons (before : Text) {c : Char} {after : Text} (hc : p c = true)
    (last : ∀ x ∈ after, p x = false) :
    cutLast p (before ++ c :: after) = some (before, after) := by
  unfold cutLast
  rw [breakLast_append_cons before hc last]
  split
  · next empty => simp at empty
  · next upTo rest is =>
    obtain ⟨rfl, rfl⟩ := Prod.mk.inj is
    rw [List.dropLast_concat]

/-! ## At the ends -/

/-- There is no white space at the ends of the text. -/
def Tight (t : Text) : Prop :=
  (∀ c ∈ t.head?, isBlank c = false) ∧ ∀ c ∈ t.getLast?, isBlank c = false

-- The instance looks at the two ends; all characters could be enumerated, and that must not be tried.
instance (t : Text) : Decidable (Tight t) :=
  decidable_of_iff
    ((t.head?.all fun c => !isBlank c) = true ∧ (t.getLast?.all fun c => !isBlank c) = true)
    (by simp [Tight, Option.all_eq_true])

theorem tight_of_forall {t : Text} (h : ∀ c ∈ t, isBlank c = false) : Tight t :=
  ⟨fun c hc => h c (List.mem_of_mem_head? hc), fun c hc => h c (List.mem_of_mem_getLast? hc)⟩

/-- Only what stands first and what stands last in a text decide. -/
theorem tight_of_ends {a b : Text} (ha : ∀ c ∈ a.head?, isBlank c = false)
    (hb : ∀ c ∈ b.getLast?, isBlank c = false) (na : a ≠ []) (nb : b ≠ []) (middle : Text) :
    Tight (a ++ middle ++ b) := by
  constructor
  · intro c hc
    rw [List.append_assoc, List.head?_append, Option.or_of_isSome] at hc
    · exact ha c hc
    · simpa using na
  · intro c hc
    rw [List.getLast?_append, Option.or_of_isSome] at hc
    · exact hb c hc
    · simpa using nb

theorem Tight.append {a b : Text} (ha : Tight a) (hb : Tight b) (na : a ≠ []) (nb : b ≠ [])
    (middle : Text) : Tight (a ++ middle ++ b) :=
  tight_of_ends ha.1 hb.2 na nb middle

theorem getLast?_append_cons (before : Text) (c : Char) {after : Text} (filled : after ≠ []) :
    (before ++ c :: after).getLast? = after.getLast? := by
  rw [List.append_cons, List.getLast?_append, Option.or_of_isSome (by simpa using filled)]

theorem dropWhile_isBlank_of_head {t : Text} (h : ∀ c ∈ t.head?, isBlank c = false) :
    t.dropWhile isBlank = t := by
  cases t with
  | nil => rfl
  | cons first rest => exact List.dropWhile_cons_of_neg (by simp [h first rfl])

theorem trimEnd_of_getLast {t : Text} (h : ∀ c ∈ t.getLast?, isBlank c = false) :
    trimEnd t = t := by
  unfold trimEnd
  rw [dropWhile_isBlank_of_head (by simpa using h), List.reverse_reverse]

theorem trim_append_of_tight {blanks t : Text} (hb : ∀ c ∈ blanks, isBlank c = true)
    (h : Tight t) : trim (blanks ++ t) = t := by
  unfold trim trimStart
  rw [List.dropWhile_append_of_pos hb, dropWhile_isBlank_of_head h.1, trimEnd_of_getLast h.2]

theorem trim_of_tight {t : Text} (h : Tight t) : trim t = t := by
  have none : ∀ c ∈ ([] : Text), isBlank c = true := fun _ hc => absurd hc List.not_mem_nil
  exact trim_append_of_tight none h

theorem mem_of_mem_trim {c : Char} {t : Text} (h : c ∈ trim t) : c ∈ t := by
  unfold trim trimEnd trimStart at h
  have kept := (List.dropWhile_subset isBlank) (List.mem_reverse.mp h)
  exact (List.dropWhile_subset isBlank) (List.mem_reverse.mp kept)

theorem isBlank_of_mem_getLast?_trim {c : Char} {t : Text} (h : c ∈ (trim t).getLast?) :
    isBlank c = false := by
  unfold trim trimEnd at h
  rw [List.getLast?_reverse] at h
  have stop := List.head?_dropWhile_not isBlank (trimStart t).reverse
  rw [h] at stop
  exact stop

/-! ## Pieces -/

/-- The pieces of a text have its characters, and no separators. -/
theorem of_mem_splitOnP {p : Char → Bool} {t piece : Text} (h : piece ∈ t.splitOnP p) :
    ∀ c ∈ piece, c ∈ t ∧ p c = false := by
  induction t generalizing piece with
  | nil =>
    obtain rfl : piece = [] := by simpa using h
    simp
  | cons first t ih =>
    rw [List.splitOnP_cons_eq_if_modifyHead] at h
    intro c hc
    by_cases sep : p first = true
    · rw [if_pos sep] at h
      rcases List.mem_cons.mp h with rfl | later
      · exact absurd hc List.not_mem_nil
      · exact ⟨List.mem_cons_of_mem _ (ih later c hc).1, (ih later c hc).2⟩
    · rw [if_neg sep] at h
      obtain ⟨head, pieces, is⟩ := List.exists_cons_of_ne_nil (List.splitOnP_ne_nil p t)
      rw [is] at h ih
      rcases List.mem_cons.mp h with rfl | later
      · rcases List.mem_cons.mp hc with rfl | own
        · exact ⟨List.mem_cons_self, by simpa using sep⟩
        · have old := ih List.mem_cons_self c own
          exact ⟨List.mem_cons_of_mem _ old.1, old.2⟩
      · have old := ih (List.mem_cons_of_mem _ later) c hc
        exact ⟨List.mem_cons_of_mem _ old.1, old.2⟩

theorem of_mem_splitOn {sep : Char} {t piece : Text} (h : piece ∈ t.splitOn sep) :
    ∀ c ∈ piece, c ∈ t ∧ c ≠ sep := by
  intro c hc
  obtain ⟨mem, other⟩ := of_mem_splitOnP (p := (· == sep)) h c hc
  exact ⟨mem, by simpa using other⟩

/-! ## Lines -/

theorem mem_of_mem_chomp {c : Char} {t : Text} (h : c ∈ chomp t) : c ∈ t := by
  unfold chomp at h
  split at h
  · next rest turned =>
    have inside : c ∈ t.reverse := by
      rw [turned]
      exact List.mem_cons_of_mem _ (List.mem_reverse.mp h)
    exact List.mem_reverse.mp inside
  · exact h

/-- A line goes no further than to its end. -/
theorem whole_of_mem_lines {t line : Text} (h : line ∈ lines t) : '\n' ∉ line := by
  have whole : ∀ piece ∈ t.splitOn '\n', '\n' ∉ piece :=
    fun piece hp mem => (of_mem_splitOn hp '\n' mem).2 rfl
  unfold lines at h
  rcases List.mem_append.mp h with ended | last
  · obtain ⟨piece, hp, rfl⟩ := List.mem_map.mp ended
    exact fun mem => whole piece (List.dropLast_subset _ hp) (mem_of_mem_chomp mem)
  · have hp := (List.mem_filter.mp last).1
    exact whole line (List.mem_of_mem_getLast? (by simpa using hp))

/-- A line has no characters but those of the text. -/
theorem mem_of_mem_lines {t line : Text} (h : line ∈ lines t) {c : Char} (hc : c ∈ line) : c ∈ t := by
  unfold lines at h
  rcases List.mem_append.mp h with ended | last
  · obtain ⟨piece, hp, rfl⟩ := List.mem_map.mp ended
    exact (of_mem_splitOn (List.dropLast_subset _ hp) c (mem_of_mem_chomp hc)).1
  · have hp := (List.mem_filter.mp last).1
    have piece : line ∈ t.splitOn '\n' := List.mem_of_mem_getLast? (by simpa using hp)
    exact (of_mem_splitOn piece c hc).1

theorem chomp_of_getLast {t : Text} (h : '\r' ∉ t.getLast?) : chomp t = t := by
  unfold chomp
  split
  · next rest turned =>
    exfalso
    apply h
    rw [← List.head?_reverse, turned]
    rfl
  · rfl

theorem splitOn_flatMap_line {ls : List Text} (h : ∀ l ∈ ls, '\n' ∉ l) :
    (ls.flatMap fun l => l ++ ['\n']).splitOn '\n' = ls ++ [[]] := by
  induction ls with
  | nil => rfl
  | cons l ls ih =>
    have rest := ih fun l' hl' => h l' (List.mem_cons_of_mem _ hl')
    rw [List.flatMap_cons, List.append_assoc, List.singleton_append,
      List.splitOn_append_cons_self_of_not_mem (h l List.mem_cons_self), rest, List.cons_append]

/-- Lines that were ended by line feeds are the lines of the text. -/
theorem lines_flatMap {ls : List Text} (h : ∀ l ∈ ls, '\n' ∉ l ∧ '\r' ∉ l.getLast?) :
    lines (ls.flatMap fun l => l ++ ['\n']) = ls := by
  unfold lines
  rw [splitOn_flatMap_line fun l hl => (h l hl).1]
  have kept : ls.map chomp = ls :=
    (List.map_congr_left fun l hl => chomp_of_getLast (h l hl).2).trans (List.map_id' ls)
  simp [kept]

theorem lines_append_newline (t rest : Text) :
    lines (t ++ '\n' :: rest) = (t.splitOn '\n').map chomp ++ lines rest := by
  have pieces : rest.splitOn '\n' ≠ [] := List.splitOn_ne_nil '\n' rest
  unfold lines
  dsimp only
  rw [List.splitOn_append_cons_self, List.dropLast_append_of_ne_nil pieces, List.map_append,
    List.getLast?_append, Option.or_of_isSome (by simp), List.append_assoc]

/-- A text whose lines were all ended has its lines, and what follows has its own. -/
theorem lines_append {a : Text} (ended : a = [] ∨ a.getLast? = some '\n') (b : Text) :
    lines (a ++ b) = lines a ++ lines b := by
  rcases ended with rfl | last
  · rfl
  · obtain ⟨front, rfl⟩ := List.getLast?_eq_some_iff.mp last
    rw [List.append_assoc, List.singleton_append, lines_append_newline, lines_append_newline]
    simp [lines]

/-- What can follow the text of a line: its end, with a carriage return if that does not belong to the
line, or nothing. -/
def Follows (line after : Text) : Prop :=
  after = [] ∨ (∃ rest, after = '\n' :: rest ∧ line.getLast? ≠ some '\r') ∨
    ∃ rest, after = '\r' :: '\n' :: rest

theorem chomp_append_return (t : Text) : chomp (t ++ ['\r']) = t := by
  unfold chomp
  rw [List.reverse_append]
  simp

theorem lines_cons_newline (line rest : Text) (whole : '\n' ∉ line) :
    lines (line ++ '\n' :: rest) = chomp line :: lines rest := by
  rw [lines_append_newline, List.splitOn_eq_singleton whole, List.map_singleton, List.singleton_append]

/-- A line, and the empty line in its place, before the same lines. An empty line at the end is none. -/
theorem lines_of_follows {line after : Text} (whole : '\n' ∉ line) (filled : line ≠ [])
    (follows : Follows line after) :
    ∃ rest, lines (line ++ after) = line :: rest ∧
      (lines after = [] :: rest ∨ lines after = [] ∧ rest = []) := by
  rcases follows with rfl | ⟨rest, rfl, last⟩ | ⟨rest, rfl⟩
  · refine ⟨[], ?_, .inr ⟨rfl, rfl⟩⟩
    rw [List.append_nil]
    unfold lines
    rw [List.splitOn_eq_singleton whole]
    simp [filled]
  · refine ⟨lines rest, ?_, .inl (lines_cons_newline [] rest List.not_mem_nil)⟩
    have kept : chomp line = line := chomp_of_getLast fun mem => last mem
    rw [lines_cons_newline line rest whole, kept]
  · have whole' : '\n' ∉ line ++ ['\r'] := by simp [whole]
    refine ⟨lines rest, ?_, .inl (lines_cons_newline ['\r'] rest (by decide))⟩
    have split : line ++ '\r' :: '\n' :: rest = line ++ ['\r'] ++ '\n' :: rest := by simp
    rw [split, lines_cons_newline (line ++ ['\r']) rest whole', chomp_append_return]

theorem map_text_numbered (t : Text) : (numbered t).map (·.text) = lines t := by
  unfold numbered
  refine List.ext_getElem? fun i => ?_
  rw [List.getElem?_map, List.getElem?_mapIdx, Option.map_map]
  exact Option.map_id'

end SymbolMap.Text
