import SymbolMap.Text.Basic

/-!
Texts in which one text is put for another.

* `replaceAll_append`, `replaceAll_cons`, `replaceAll_append_of_not_mem`: what is done at each place;
* `replacing_induction`: a text, taken place by place in this way;
* `replaceAll_append_cons`: no occurrence reaches over a character that the old text has not got;
* `replaceAll_eq_self_iff`: a text stays as it is only if it has no occurrence, where the new text is shorter.
-/
namespace SymbolMap.Text

theorem replaceFrom_eq_drop (old new : Text) (skip : Nat) (t : Text) :
    replaceFrom old new skip t = replaceFrom old new 0 (t.drop skip) := by
  induction t generalizing skip with
  | nil => simp [replaceFrom]
  | cons c t ih =>
    cases skip with
    | zero => rfl
    | succ n => exact ih n

/-- Nothing is put into a text but what stands for something else. -/
theorem mem_of_mem_replaceFrom {old new t : Text} {skip : Nat} {c : Char}
    (h : c ∈ replaceFrom old new skip t) : c ∈ new ∨ c ∈ t := by
  induction t generalizing skip with
  | nil =>
    rw [replaceFrom] at h
    exact absurd h List.not_mem_nil
  | cons first t ih =>
    have later : c ∈ new ∨ c ∈ t → c ∈ new ∨ c ∈ first :: t :=
      Or.imp_right (List.mem_cons_of_mem first)
    cases skip with
    | succ n => exact later (ih h)
    | zero =>
      unfold replaceFrom at h
      dsimp only at h
      split at h
      · exact (List.mem_append.mp h).elim .inl fun rest => later (ih rest)
      · rcases List.mem_cons.mp h with rfl | rest
        · exact .inr List.mem_cons_self
        · exact later (ih rest)

section
variable {old new : Text}

theorem replaceAll_append (filled : old ≠ []) (t : Text) :
    replaceAll old new (old ++ t) = new ++ replaceAll old new t := by
  obtain ⟨c, rest, rfl⟩ := List.exists_cons_of_ne_nil filled
  have here : (c :: rest).isPrefixOf (c :: (rest ++ t)) = true :=
    List.isPrefixOf_iff_prefix.mpr (List.prefix_append (c :: rest) t)
  unfold replaceAll
  rw [List.cons_append, replaceFrom]
  simp only [here, if_true]
  rw [replaceFrom_eq_drop]
  change new ++ replaceFrom _ _ 0 ((rest ++ t).drop rest.length) = _
  rw [List.drop_left]

theorem replaceAll_cons {c : Char} {t : Text} (other : ¬old <+: c :: t) :
    replaceAll old new (c :: t) = c :: replaceAll old new t := by
  have notHere : old.isPrefixOf (c :: t) = false :=
    Bool.eq_false_iff.mpr fun starts => other (List.isPrefixOf_iff_prefix.mp starts)
  unfold replaceAll
  rw [replaceFrom]
  simp only [notHere, Bool.false_eq_true, if_false]

/-- Nothing is found before the first place where the first character of the old text is. -/
theorem replaceAll_append_of_not_mem {first : Char} {start : Text} (none : first ∉ start) (old t : Text) :
    replaceAll (first :: old) new (start ++ t) = start ++ replaceAll (first :: old) new t := by
  induction start with
  | nil => rfl
  | cons c start ih =>
    obtain ⟨other, later⟩ := List.ne_and_not_mem_of_not_mem_cons none
    have notHere : ¬first :: old <+: c :: (start ++ t) := fun h => other (List.cons_prefix_cons.mp h).1
    rw [List.cons_append, replaceAll_cons notHere, ih later, List.cons_append]

theorem infix_append_of_not_mem {first : Char} {start : Text} (none : first ∉ start) (old t : Text) :
    first :: old <:+: start ++ t ↔ first :: old <:+: t := by
  induction start with
  | nil => exact Iff.rfl
  | cons c start ih =>
    obtain ⟨other, later⟩ := List.ne_and_not_mem_of_not_mem_cons none
    have notHere : ¬first :: old <+: c :: (start ++ t) := fun h => other (List.cons_prefix_cons.mp h).1
    rw [List.cons_append, List.infix_cons_iff, or_iff_right notHere, ih later]

/-- A text starts with the old one, or its first character is passed over. -/
@[elab_as_elim]
theorem replacing_induction (filled : old ≠ []) {motive : Text → Prop} (t : Text) (nil : motive [])
    (found : ∀ t, motive t → motive (old ++ t))
    (other : ∀ c t, ¬old <+: c :: t → motive t → motive (c :: t)) : motive t := by
  match t with
  | [] => exact nil
  | c :: t =>
    by_cases here : old <+: c :: t
    · obtain ⟨rest, is⟩ := here
      have shorter : rest.length < (c :: t).length := by
        have := List.length_pos_iff.mpr filled
        rw [← is, List.length_append]
        omega
      exact is ▸ found rest (replacing_induction filled rest nil found other)
    · exact other c t here (replacing_induction filled t nil found other)
termination_by t.length
decreasing_by
  · exact shorter
  · exact Nat.lt_succ_self t.length

theorem prefix_append_cons_iff {stop : Char} (noStop : stop ∉ old) (t rest : Text) :
    old <+: t ++ stop :: rest ↔ old <+: t := by
  constructor
  · intro h
    by_cases short : old.length ≤ t.length
    · exact List.prefix_of_prefix_length_le h (List.prefix_append t _) short
    · have upTo : t ++ [stop] <+: t ++ stop :: rest := ⟨rest, by simp⟩
      have longer : (t ++ [stop]).length ≤ old.length := by
        rw [List.length_append]
        exact Nat.lt_of_not_le short
      have inside := List.prefix_of_prefix_length_le upTo h longer
      exact absurd (inside.subset (List.mem_append_right t (List.mem_singleton_self stop))) noStop
  · exact fun h => h.trans (List.prefix_append t _)

/-- A character that the old text has not got parts what is done before it from what is done after it. -/
theorem replaceAll_append_cons (filled : old ≠ []) {stop : Char} (noStop : stop ∉ old) (t rest : Text) :
    replaceAll old new (t ++ stop :: rest) = replaceAll old new t ++ stop :: replaceAll old new rest := by
  induction t using replacing_induction filled with
  | nil =>
    refine replaceAll_cons fun h => ?_
    exact filled (List.prefix_nil.mp ((prefix_append_cons_iff noStop [] rest).mp h))
  | found t ih => rw [List.append_assoc, replaceAll_append filled, replaceAll_append filled, ih, List.append_assoc]
  | other c t notHere ih =>
    have notThere : ¬old <+: c :: (t ++ stop :: rest) := fun h =>
      notHere ((prefix_append_cons_iff noStop (c :: t) rest).mp h)
    rw [List.cons_append, replaceAll_cons notThere, replaceAll_cons notHere, ih, List.cons_append]

theorem length_replaceAll_le (filled : old ≠ []) (shorter : new.length ≤ old.length) (t : Text) :
    (replaceAll old new t).length ≤ t.length := by
  induction t using replacing_induction filled with
  | nil => exact Nat.le_refl 0
  | found t ih =>
    rw [replaceAll_append filled, List.length_append, List.length_append]
    omega
  | other c t notHere ih =>
    rw [replaceAll_cons notHere]
    exact Nat.succ_le_succ ih

/-- With a shorter text for the old one, a text stays as it is only if nothing is replaced. -/
theorem replaceAll_eq_self_iff (shorter : new.length < old.length) (t : Text) :
    replaceAll old new t = t ↔ ¬old <:+: t := by
  have filled : old ≠ [] := List.ne_nil_of_length_pos (Nat.zero_lt_of_lt shorter)
  induction t using replacing_induction filled with
  | nil => exact iff_of_true rfl fun inside => filled (List.infix_nil.mp inside)
  | found t ih =>
    refine iff_of_false (fun same => ?_) fun none => none (List.prefix_append old t).isInfix
    have length := congrArg List.length same
    rw [replaceAll_append filled, List.length_append, List.length_append] at length
    have most := length_replaceAll_le filled (Nat.le_of_lt shorter) t
    omega
  | other c t notHere ih =>
    rw [replaceAll_cons notHere, List.cons_inj_right, List.infix_cons_iff, not_or]
    exact ih.trans (and_iff_right notHere).symm

theorem replaceAll_eq_nil_iff (filled : old ≠ []) (named : new ≠ []) {t : Text} :
    replaceAll old new t = [] ↔ t = [] := by
  induction t using replacing_induction filled with
  | nil => exact Iff.rfl
  | found t _ =>
    rw [replaceAll_append filled]
    exact iff_of_false (List.append_ne_nil_of_left_ne_nil named _) (List.append_ne_nil_of_left_ne_nil filled _)
  | other c t notHere _ =>
    rw [replaceAll_cons notHere]
    exact iff_of_false (List.cons_ne_nil c _) (List.cons_ne_nil c t)

end
end SymbolMap.Text
