import SymbolMap.Proofs.Text.MemberName
import SymbolMap.Searge

/-!
The parts of a deobfuscated name around its searge name.

* `Parts.Of`: what they are, with no word of how they are found;
* `of_split`, `Parts.Of.eq_split`: every name has them, and has them in one way only;
* `Parts.Of.replace`: another name in the place of the searge name leaves the other parts as they were.
-/
namespace SymbolMap.Searge

open MemberName (isSeparator Describes)

namespace Parts

/-- The parts of a deobfuscated name. The searge name has no separator in it, and before it there is none
or all that ends in one. The descriptor is the last word, if that can be one. -/
structure Of (p : Parts) (deobf : Text) : Prop where
  whole : p.withName p.searge = deobf
  owner : ∀ c ∈ p.owner.getLast?, isSeparator c = true
  searge : ∀ c ∈ p.searge, isSeparator c = false
  describes : ∀ word ∈ p.descriptor, Describes word
  bare : p.descriptor = none → ∀ before word, Describes word → deobf ≠ before ++ ' ' :: word

theorem Of.eq_split {p : Parts} {deobf : Text} (h : p.Of deobf) : p = split deobf := by
  obtain ⟨owner, searge, descriptor⟩ := p
  have local_ := MemberName.splitLocal_append h.owner h.searge
  obtain ⟨whole, -, -, describes, bare⟩ := h
  subst whole
  unfold split
  cases descriptor with
  | none =>
    rcases MemberName.splitDescriptor_cases (owner ++ searge) with
      ⟨before, word, is, can, _⟩ | ⟨_, found⟩
    · exact absurd is (bare rfl before word can)
    · simp only [withName, MemberName.withDescriptor, found, local_]
  | some word =>
    have found := MemberName.splitDescriptor_of_describes (owner ++ searge) (describes word rfl)
    simp only [withName, MemberName.withDescriptor, found, local_]

end Parts

theorem of_split (deobf : Text) : (split deobf).Of deobf := by
  unfold split
  rcases MemberName.splitDescriptor_cases deobf with ⟨name, word, rfl, can, found⟩ | ⟨bare, found⟩
  · obtain ⟨ends, plain⟩ := MemberName.splitLocal_ends name
    simp only [found]
    refine ⟨?_, ends, plain, by simpa using can, by simp⟩
    exact congrArg (· ++ ' ' :: word) (Text.breakLast_append isSeparator name)
  · obtain ⟨ends, plain⟩ := MemberName.splitLocal_ends deobf
    simp only [found]
    exact ⟨Text.breakLast_append isSeparator deobf, ends, plain, by simp, fun _ => bare⟩

namespace Parts

/-- A name that can stand in the place of a searge name. -/
def Plain (name : Text) : Prop :=
  ∀ c ∈ name, c ≠ '.' ∧ c ≠ ' ' ∧ c ≠ '('

instance (name : Text) : Decidable (Plain name) :=
  List.decidableBAll _ name

theorem Plain.separator {name : Text} (h : Plain name) : ∀ c ∈ name, isSeparator c = false :=
  fun c hc => MemberName.isSeparator_eq_false_iff.mpr ⟨(h c hc).1, (h c hc).2.1⟩

/-- A plain name does not complete a descriptor: one that ends in it starts in the owner, and would have
been there before. -/
theorem Of.bare_replace {p : Parts} {deobf name : Text} (h : p.Of deobf) (plain : Plain name)
    (none : p.descriptor = none) (before word : Text) (can : Describes word) :
    p.owner ++ name ≠ before ++ ' ' :: word := by
  intro is
  obtain ⟨rest, rfl⟩ := List.head?_eq_some_iff.mp can.1
  rcases List.append_eq_append_iff.mp is with ⟨left, _, inName⟩ | ⟨left, inOwner, inWord⟩
  · exact (plain ' ' (by simp [inName])).2.1 rfl
  · match left with
    | [] =>
      have is : ' ' :: '(' :: rest = name := inWord
      exact (plain ' ' (is ▸ List.mem_cons_self)).2.1 rfl
    | [_] =>
      have is : '(' :: rest = name := (List.cons.inj inWord).2
      exact (plain '(' (is ▸ List.mem_cons_self)).2.2 rfl
    | _ :: _ :: left =>
      obtain ⟨rfl, tail⟩ := List.cons.inj inWord
      obtain ⟨rfl, is⟩ := List.cons.inj tail
      have noSpace : ' ' ∉ left := fun mem => can.2 (by simp [is, mem])
      have searge : ' ' ∉ p.searge := fun mem => absurd (h.searge ' ' mem) (by decide)
      refine h.bare none before ('(' :: (left ++ p.searge)) ⟨rfl, by simp [noSpace, searge]⟩ ?_
      rw [← h.whole, withName, none, inOwner]
      simp [MemberName.withDescriptor]

/-- Another name in the place of the searge name leaves the owner and the descriptor as they were. -/
theorem Of.replace {p : Parts} {deobf name : Text} (h : p.Of deobf)
    (fits : Plain name ∨ name = p.searge) : Of { p with searge := name } (p.withName name) := by
  rcases fits with plain | rfl
  · refine ⟨rfl, h.owner, plain.separator, h.describes, fun none before word can => ?_⟩
    have apart := h.bare_replace plain none before word can
    rwa [withName, show p.descriptor = Option.none from none]
  · exact h.whole ▸ h

theorem Of.unique {p q : Parts} {deobf : Text} (hp : p.Of deobf) (hq : q.Of deobf) : p = q :=
  hp.eq_split.trans hq.eq_split.symm

/-- Two names that were replaced by the same text agree in all but the searge name, and the new names are
the same. -/
theorem Of.eq_of_withName_eq {p q : Parts} {deobf deobf' name name' : Text} (hp : p.Of deobf)
    (hq : q.Of deobf') (fits : Plain name ∨ name = p.searge) (fits' : Plain name' ∨ name' = q.searge)
    (same : p.withName name = q.withName name') :
    p.owner = q.owner ∧ name = name' ∧ p.descriptor = q.descriptor := by
  have parts := (hp.replace fits).unique (same ▸ hq.replace fits')
  exact Parts.mk.inj parts

end Parts
end SymbolMap.Searge
