import SymbolMap.Proofs.Text.Words
import SymbolMap.Text.Number

/-!
Numbers that are written with decimal digits and read back.

* `readDigits_eq`: digits are read as the number that they stand for, if it is not too large;
* `isWord_render`, `read_render`, `readEither_render`: a number is written as a word, which is read as the number.
-/
namespace SymbolMap.Number

theorem toNat_of_isDigit {c : Char} (h : c.isDigit = true) : ∃ d < 10, c.toNat = 48 + d := by
  simp only [Char.isDigit, Bool.and_eq_true, decide_eq_true_eq] at h
  have low : 48 ≤ c.toNat := h.1
  have high : c.toNat ≤ 57 := h.2
  exact ⟨c.toNat - 48, by omega, by omega⟩

theorem digit?_of_isDigit {c : Char} (h : c.isDigit = true) :
    digit? 10 c = some (c.toNat - '0'.toNat) := by
  obtain ⟨d, bound, is⟩ := toNat_of_isDigit h
  simp only [Char.isDigit, Bool.and_eq_true, decide_eq_true_eq] at h
  have inside : ('0' ≤ c && c ≤ '9') = true := by
    simp only [Bool.and_eq_true, decide_eq_true_eq]
    exact h
  unfold digit?
  simp only [inside, if_true, Option.filter_some, Option.ite_none_right_eq_some, decide_eq_true_eq,
    and_true]
  change c.toNat - 48 < 10
  omega

theorem isBlank_of_isDigit {c : Char} (h : c.isDigit = true) : isBlank c = false := by
  have all : ∀ d < 10, isBlank (Char.ofNat (48 + d)) = false := by decide
  obtain ⟨d, bound, is⟩ := toNat_of_isDigit h
  rw [← Char.ofNat_toNat c, is]
  exact all d bound

/-- The number does not get smaller as its digits are read. -/
theorem le_ofDigitChars (t : Text) (n : Nat) : n ≤ Nat.ofDigitChars 10 t n := by
  induction t generalizing n with
  | nil => simp
  | cons c t ih =>
    rw [Nat.ofDigitChars_cons]
    have rest := ih (10 * n + (c.toNat - '0'.toNat))
    omega

theorem readDigits_eq {t : Text} (digits : ∀ c ∈ t, c.isDigit = true) {n : Nat}
    (small : Nat.ofDigitChars 10 t n < UInt32.size) :
    readDigits 10 n t = .ok (.ofNat (Nat.ofDigitChars 10 t n)) := by
  induction t generalizing n with
  | nil => simp [readDigits]
  | cons c t ih =>
    obtain ⟨first, others⟩ := List.forall_mem_cons.mp digits
    rw [Nat.ofDigitChars_cons, Nat.mul_comm] at small ⊢
    have fits := Nat.lt_of_le_of_lt (le_ofDigitChars t _) small
    unfold readDigits
    rw [digit?_of_isDigit first]
    dsimp only
    rw [if_pos fits, ih others small]

theorem isDigit_of_mem_render {n : UInt32} {c : Char} (h : c ∈ render n) : c.isDigit = true :=
  Nat.isDigit_of_mem_toDigits (by decide) (by decide) h

theorem isWord_render (n : UInt32) : Text.IsWord (render n) :=
  ⟨Nat.toDigits_ne_nil, fun _ hc => isBlank_of_isDigit (isDigit_of_mem_render hc)⟩

/-- A number is read from its decimal digits, which are not taken for a sign. -/
theorem read_render (n : UInt32) : read 10 (render n) = .ok n := by
  have digits : ∀ c ∈ render n, c.isDigit = true := fun _ => isDigit_of_mem_render
  have value : Nat.ofDigitChars 10 (render n) 0 = n.toNat := Nat.ofDigitChars_ten_toDigits
  have whole : readDigits 10 0 (render n) = .ok n := by
    rw [readDigits_eq digits (value ▸ n.toNat_lt), value, UInt32.ofNat_toNat]
  unfold read
  split
  · next none => exact absurd none Nat.toDigits_ne_nil
  · next is =>
    rw [is] at digits
    exact absurd (digits '+' (by simp)) (by decide)
  · next is =>
    rw [is] at digits
    exact absurd (digits '+' (by simp)) (by decide)
  · exact whole

/-- Nor are the digits taken for those after `0x`. -/
theorem readEither_render (n : UInt32) : readEither (render n) = .ok n := by
  unfold readEither
  split
  · next is =>
    have digit : ('x').isDigit = true := isDigit_of_mem_render (n := n) (is ▸ by simp)
    exact absurd digit (by decide)
  · exact read_render n

end SymbolMap.Number
