import SymbolMap.Proofs.Text.Cut

/-!
The numbered lines of texts that are parts of each other.

* `numbered_append`: after a text that ends with a line, the lines of another one are counted on;
* `numbered_of_lines_eq_take`, `take_numbered_congr`: a text with the first lines of another has them under the
  same numbers;
* `exists_prefix_lines`: the first lines of a text are those of a text that it starts with.
-/
namespace SymbolMap

/-- The line in a text in which `k` more lines stand before it. -/
def Line.later (k : Nat) (line : Line) : Line := ⟨line.number + k, line.text⟩

namespace Text

/-- A text whose last line has its end. -/
def Ended (t : Text) : Prop := t = [] ∨ t.getLast? = some '\n'

instance (t : Text) : Decidable (Ended t) := inferInstanceAs (Decidable (_ ∨ _))

theorem getElem?_numbered (t : Text) (i : Nat) :
    (numbered t)[i]? = (lines t)[i]?.map (⟨i + 1, ·⟩) := by
  simp [numbered]

theorem length_numbered (t : Text) : (numbered t).length = (lines t).length := by
  simp [numbered]

theorem numbered_append {a : Text} (ended : Ended a) (b : Text) :
    numbered (a ++ b) = numbered a ++ (numbered b).map (Line.later (lines a).length) := by
  apply List.ext_getElem?
  intro i
  rw [getElem?_numbered, lines_append ended, List.getElem?_append, List.getElem?_append,
    length_numbered, List.getElem?_map, getElem?_numbered, getElem?_numbered, Option.map_map]
  by_cases own : i < (lines a).length
  · rw [if_pos own, if_pos own]
  · rw [if_neg own, if_neg own]
    have number : i - (lines a).length + 1 + (lines a).length = i + 1 := by omega
    simp only [Function.comp_def, Line.later, number]

section
variable {t : Text} {before after : List Line} {line : Line} (split : numbered t = before ++ line :: after)
include split

/-- A line has as many lines before it as its number says. -/
theorem getElem?_lines_of_split :
    line.number = before.length + 1 ∧ (lines t)[before.length]? = some line.text := by
  have here : (numbered t)[before.length]? = some line := by simp [split]
  rw [getElem?_numbered, Option.map_eq_some_iff] at here
  obtain ⟨text, is, rfl⟩ := here
  exact ⟨rfl, is⟩

end

theorem numbered_of_lines_eq_take {t u : Text} {n : Nat} (same : lines u = (lines t).take n) :
    numbered u = (numbered t).take n := by
  apply List.ext_getElem?
  intro i
  rw [List.getElem?_take, getElem?_numbered, getElem?_numbered, same, List.getElem?_take]
  split
  · rfl
  · rfl

theorem take_numbered_congr {t u : Text} {n : Nat} (same : (lines u).take n = (lines t).take n) :
    (numbered u).take n = (numbered t).take n := by
  apply List.ext_getElem?
  intro i
  have here := congrArg (·[i]?) same
  simp only [List.getElem?_take] at here
  rw [List.getElem?_take, List.getElem?_take, getElem?_numbered, getElem?_numbered]
  by_cases early : i < n
  · rw [if_pos early, if_pos early] at *
    rw [here]
  · rw [if_neg early, if_neg early]

/-- The first lines of a text are the lines of a text that it starts with. -/
theorem exists_prefix_lines (t : Text) (n : Nat) : ∃ u, u <+: t ∧ lines u = (lines t).take n := by
  induction n generalizing t with
  | zero => exact ⟨[], List.nil_prefix, rfl⟩
  | succ n ih =>
    cases first : cut '\n' t with
    | none =>
      have alone : lines t = [t].filter (!·.isEmpty) := by
        simp [lines, List.splitOn_eq_singleton (not_mem_of_cut first)]
      have few : (lines t).length ≤ 1 := alone ▸ List.length_filter_le _ [t]
      exact ⟨t, List.prefix_refl t, (List.take_of_length_le (by omega)).symm⟩
    | some parts =>
      obtain ⟨line, rest⟩ := parts
      obtain ⟨rfl, whole⟩ := eq_of_cut first
      obtain ⟨u, start, is⟩ := ih rest
      refine ⟨line ++ '\n' :: u, ?_, ?_⟩
      · exact (List.prefix_append_right_inj line).mpr (List.cons_prefix_cons.mpr ⟨rfl, start⟩)
      · rw [lines_cons_newline line u whole, lines_cons_newline line rest whole, is, List.take_succ_cons]

end Text
end SymbolMap
