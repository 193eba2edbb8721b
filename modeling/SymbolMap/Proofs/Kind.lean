import SymbolMap.Fault
import SymbolMap.Proofs.Text.Words

/-!
The words that name kinds on lines.

* `readWord_name`, `readWord_shortName`: each of them is read as its kind;
* `isComment_append_name`, `isComment_shortName`: a line that starts with one is no comment.
-/
namespace SymbolMap.Kind

open Text (IsWord)

theorem readWord_name (kind : Kind) : readWord kind.name.toList = .ok kind := by
  unfold readWord read
  rw [ofAlias?_name]
  rfl

theorem readWord_shortName (kind : Kind) : readWord kind.shortName.toList = .ok kind := by
  unfold readWord read
  rw [ofAlias?_shortName]
  rfl

theorem isWord_name (kind : Kind) : IsWord kind.name.toList := by
  cases kind <;> decide

/-- White space before the word does not matter. -/
theorem isComment_append_name {blanks : Text} (hb : ∀ c ∈ blanks, isBlank c = true) (kind : Kind)
    (rest : Text) : Text.isComment (blanks ++ (kind.name.toList ++ rest)) = false := by
  cases kind <;> exact Text.isComment_of_start hb (by decide) (by decide) _

theorem isComment_name (kind : Kind) (rest : Text) :
    Text.isComment (kind.name.toList ++ rest) = false := by
  have none : ∀ c ∈ ([] : Text), isBlank c = true := by simp
  exact isComment_append_name none kind rest

theorem isComment_shortName (kind : Kind) (rest : Text) :
    Text.isComment (kind.shortName.toList ++ rest) = false := by
  cases kind <;> exact Text.isComment_cons (by decide) (by decide) _

end SymbolMap.Kind
