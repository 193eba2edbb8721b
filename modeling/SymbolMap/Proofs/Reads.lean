import SymbolMap.Text.Basic

/-!
Texts that are read line by line, each line in the state that the ones before it leave.

* `Reads`: what the lines declare in all, by what a single line does;
* `Reads.append`, `Reads.flatMap`: texts that are read part by part;
* `Reads.forall_mem`: what holds of each line that can be read.
-/
namespace SymbolMap

variable {σ δ : Type} {line : σ → Text → σ → List δ → Prop}

inductive Reads (line : σ → Text → σ → List δ → Prop) : σ → List Text → σ → List δ → Prop
  | nil (s : σ) : Reads line s [] s []
  | cons {s s' s'' : σ} {text : Text} {lines : List Text} {more ds : List δ} :
      line s text s' more → Reads line s' lines s'' ds →
      Reads line s (text :: lines) s'' (more ++ ds)

namespace Reads

theorem single {s s' : σ} {text : Text} {ds : List δ} (h : line s text s' ds) :
    Reads line s [text] s' ds := by
  have alone := Reads.cons h (.nil s')
  rwa [List.append_nil] at alone

theorem append {s s' s'' : σ} {lines lines' : List Text} {ds ds' : List δ}
    (h : Reads line s lines s' ds) (h' : Reads line s' lines' s'' ds') :
    Reads line s (lines ++ lines') s'' (ds ++ ds') := by
  induction h with
  | nil s => exact h'
  | cons first _ ih =>
    rw [List.append_assoc]
    exact .cons first (ih h')

/-- The parts may start in any state for which `p` holds, and each of them leaves such a one. -/
theorem flatMap {α : Type} {p : σ → Prop} {lines : α → List Text} {ds : α → List δ} {xs : List α}
    (parts : ∀ x ∈ xs, ∀ s, p s → ∃ s', p s' ∧ Reads line s (lines x) s' (ds x))
    {s : σ} (start : p s) :
    ∃ s', p s' ∧ Reads line s (xs.flatMap lines) s' (xs.flatMap ds) := by
  induction xs generalizing s with
  | nil => exact ⟨s, start, .nil s⟩
  | cons x xs ih =>
    obtain ⟨next, holds, first⟩ := parts x List.mem_cons_self s start
    obtain ⟨last, kept, rest⟩ := ih (fun x hx => parts x (List.mem_cons_of_mem _ hx)) holds
    exact ⟨last, kept, first.append rest⟩

/-- Parts that leave the state as it is. -/
theorem flatMap_const {α : Type} {lines : α → List Text} {ds : α → List δ} {xs : List α} {s : σ}
    (parts : ∀ x ∈ xs, Reads line s (lines x) s (ds x)) :
    Reads line s (xs.flatMap lines) s (xs.flatMap ds) := by
  induction xs with
  | nil => exact .nil s
  | cons x xs ih =>
    exact (parts x List.mem_cons_self).append
      (ih fun x hx => parts x (List.mem_cons_of_mem _ hx))

theorem forall_mem {q : Text → Prop} (each : ∀ s text s' ds, line s text s' ds → q text)
    {s s' : σ} {lines : List Text} {ds : List δ} (h : Reads line s lines s' ds) :
    ∀ text ∈ lines, q text := by
  induction h with
  | nil s => exact fun text ht => absurd ht List.not_mem_nil
  | cons first _ ih => exact List.forall_mem_cons.mpr ⟨each _ _ _ _ first, ih⟩

end Reads
end SymbolMap
