import SymbolMap.Dialect.MemberLines.Reading
import SymbolMap.Proofs.Descriptor.Grammar
import SymbolMap.Proofs.Text.Replacing

/-!
The placeholder package, put in when a table is written and taken out again when it is loaded.

* `stripPlaceholder_className`: a class name gets its placeholder back out;
* `Inserted`: a text with placeholders after some of its letters `L`;
* `Inserted.replaceAll_eq`: they all come out again, if the text had none itself;
* `readDescriptor_render`: so a descriptor is read as the one that was written.
-/
namespace SymbolMap.MemberLines

open MemberName (dotted slashed)

theorem stripPlaceholder_className {obf : Text} (noSlash : '/' ∉ obf)
    (other : Text.startsWith obf "none.".toList = false) :
    stripPlaceholder (className obf) = obf := by
  unfold className stripPlaceholder
  by_cases dots : obf.contains '.' = true
  · rw [if_pos dots]
    have plain : Text.startsWith (slashed obf) placeholder = false := by
      refine Bool.eq_false_iff.mpr fun starts => ?_
      obtain ⟨rest, is⟩ := Text.startsWith_iff.mp starts
      have back : obf = "none.".toList ++ dotted rest := by
        rw [← MemberName.dotted_slashed noSlash, ← is]
        exact List.map_append
      rw [back, Text.startsWith_append] at other
      cases other
    rw [plain]
    exact MemberName.dotted_slashed noSlash
  · rw [if_neg dots]
    rw [if_pos (Text.startsWith_append placeholder obf), List.drop_left]
    exact MemberName.dotted_of_not_mem noSlash

/-! ## In descriptors -/

/-- The first text is the second one with placeholders after some of its letters `L`. -/
inductive Inserted : Text → Text → Prop
  | nil : Inserted [] []
  | keep {written t : Text} (c : Char) : Inserted written t → Inserted (c :: written) (c :: t)
  | insert {written t : Text} :
      Inserted written t → Inserted ('L' :: (placeholder ++ written)) ('L' :: t)

namespace Inserted

theorem refl (t : Text) : Inserted t t := by
  induction t with
  | nil => exact .nil
  | cons c t ih => exact .keep c ih

theorem append {a b a' b' : Text} (h : Inserted a b) (h' : Inserted a' b') :
    Inserted (a ++ a') (b ++ b') := by
  induction h with
  | nil => exact h'
  | keep c _ ih => exact .keep c ih
  | insert _ ih =>
    rw [List.cons_append, List.append_assoc]
    exact .insert ih

theorem flatMap {α : Type} {f g : α → Text} (xs : List α) (h : ∀ x, Inserted (f x) (g x)) :
    Inserted (xs.flatMap f) (xs.flatMap g) := by
  induction xs with
  | nil => exact .nil
  | cons x xs ih => exact (h x).append ih

theorem mem {written t : Text} (h : Inserted written t) {c : Char} (hc : c ∈ written) :
    c ∈ t ∨ c ∈ placeholder := by
  induction h with
  | nil => exact .inl hc
  | keep c' _ ih =>
    rcases List.mem_cons.mp hc with rfl | later
    · exact .inl List.mem_cons_self
    · exact (ih later).imp_left (List.mem_cons_of_mem c')
  | insert _ ih =>
    rcases List.mem_cons.mp hc with rfl | later
    · exact .inl List.mem_cons_self
    · rcases List.mem_append.mp later with own | later
      · exact .inr own
      · exact (ih later).imp_left (List.mem_cons_of_mem 'L')

/-- Up to the next letter `L` nothing was put in. -/
theorem of_append {start written t : Text} (noLetter : 'L' ∉ start)
    (h : Inserted (start ++ written) t) : ∃ rest, t = start ++ rest ∧ Inserted written rest := by
  induction start generalizing t with
  | nil => exact ⟨t, rfl, h⟩
  | cons c start ih =>
    obtain ⟨other, later⟩ := List.ne_and_not_mem_of_not_mem_cons noLetter
    generalize is : c :: start ++ written = all at h
    cases h with
    | nil => cases is
    | keep _ h =>
      obtain ⟨rfl, rfl⟩ := List.cons.inj is
      obtain ⟨rest, rfl, inserted⟩ := ih later h
      exact ⟨rest, rfl, inserted⟩
    | insert _ => exact absurd (List.cons.inj is).1.symm other

/-- All placeholders are taken out again, and nothing else is, if the text had none itself. -/
theorem replaceAll_eq {written t : Text} (h : Inserted written t)
    (none : ¬ 'L' :: placeholder <:+: t) :
    Text.replaceAll ('L' :: placeholder) ['L'] written = t := by
  induction h with
  | nil => rfl
  | @keep written t c inserted ih =>
    have later : ¬ 'L' :: placeholder <:+: t := fun inside =>
      none (inside.trans (List.suffix_cons c t).isInfix)
    have notHere : ¬ 'L' :: placeholder <+: c :: written := by
      rintro ⟨more, is⟩
      obtain ⟨rfl, rfl⟩ := List.cons.inj is
      obtain ⟨rest, rfl, _⟩ := inserted.of_append (by decide)
      exact none (List.prefix_append ('L' :: placeholder) rest).isInfix
    rw [Text.replaceAll_cons notHere, ih later]
  | @insert written t inserted ih =>
    have later : ¬ 'L' :: placeholder <:+: t := fun inside =>
      none (inside.trans (List.suffix_cons 'L' t).isInfix)
    rw [← List.cons_append, Text.replaceAll_append (by decide), ih later]
    rfl

theorem render_token (t : TypeToken) : Inserted (t.mapClass addPlaceholder).render t.render := by
  obtain ⟨depth, element⟩ := t
  cases element with
  | primitive p => exact refl _
  | reference className =>
    refine (refl (List.replicate depth '[')).append ?_
    by_cases slash : className.contains '/' = true
    · have same : addPlaceholder className = none := if_pos slash
      change Inserted (ElementType.reference ((addPlaceholder className).getD className)).render _
      rw [same]
      exact refl _
    · have put : addPlaceholder className = some (placeholder ++ className) := if_neg slash
      change Inserted (ElementType.reference ((addPlaceholder className).getD className)).render _
      rw [put]
      change Inserted ('L' :: (placeholder ++ className) ++ [';']) ('L' :: className ++ [';'])
      rw [List.cons_append, List.append_assoc]
      exact .insert (refl _)

theorem render (d : Descriptor) : Inserted (d.mapClasses addPlaceholder).render d.render := by
  unfold Descriptor.render Descriptor.mapClasses
  dsimp only
  rw [List.flatMap_map, List.cons_append, List.cons_append]
  exact .keep '(' ((flatMap d.params render_token).append (.keep ')' (render_token d.result)))

end Inserted

/-- A descriptor without placeholders of its own is read as it was before it was written. -/
theorem readDescriptor_render {word : Text} {d : Descriptor} (read : Descriptor.read word = .ok d)
    (none : ¬ 'L' :: placeholder <:+: word) :
    readDescriptor (d.mapClasses addPlaceholder).render = .ok d := by
  have inserted := Inserted.render d
  rw [Descriptor.render_of_read read] at inserted
  unfold readDescriptor
  rw [inserted.replaceAll_eq none]
  exact mapError_eq_ok_iff.mpr read

end SymbolMap.MemberLines
