import SymbolMap.Proofs.MemberLines.Placeholder
import SymbolMap.Proofs.Outcome
import SymbolMap.Proofs.Text.MemberName
import SymbolMap.Proofs.Text.Words

/-!
What lines of classes and members declare, whatever they say.

* `Declaration.Neat`: only methods have descriptors, which were read and stand after the last space of a name;
* `neat_of_readText`: that holds of all that a text declares.
-/
namespace SymbolMap.MemberLines

open MemberName (Describes)
open Text (IsWord)

inductive Declaration.Neat : Declaration → Prop
  | names {kind : Kind} {obf deobf : Text} : kind.base ≠ .method → Neat (.names kind obf deobf)
  | method {kind : Kind} {obf deobf : Text} {d : Descriptor} : kind.base = .method →
      Describes d.render → Descriptor.read d.render = .ok d → Neat (.method kind obf deobf d)

/-- What is read is the word without the placeholder, which is the text of the descriptor. -/
theorem of_readDescriptor {word : Text} (is : IsWord word) {d : Descriptor}
    (h : readDescriptor word = .ok d) : Describes d.render ∧ Descriptor.read d.render = .ok d := by
  have read : Descriptor.read (Text.replaceAll ('L' :: placeholder) ['L'] word) = .ok d :=
    mapError_eq_ok_iff.mp h
  have render := Descriptor.render_of_read read
  refine ⟨⟨rfl, fun space => ?_⟩, render ▸ read⟩
  rw [render] at space
  rcases Text.mem_of_mem_replaceFrom space with letter | inside
  · exact absurd letter (by decide)
  · exact absurd (is.2 ' ' inside) (by decide)

namespace Declaration

theorem neat_of_method {o : Owner} {kind : Kind} {obf deobf word : Text} {ds : List Declaration}
    (base : kind.base = .method) (is : IsWord word)
    (h : MemberLines.method o kind obf deobf word = .ok ds) : ∀ d ∈ ds, d.Neat := by
  obtain ⟨d, read, h⟩ := bind_eq_ok_iff.mp h
  cases h
  obtain ⟨describes, again⟩ := of_readDescriptor is read
  exact List.forall_mem_singleton.mpr (.method base describes again)

theorem neat_of_readClass {words : List Text} {o : Owner} {ds : List Declaration}
    (h : readClass words = .ok (o, ds)) : ∀ d ∈ ds, d.Neat := by
  unfold readClass at h
  split at h
  · cases h
    exact fun d mem => absurd mem List.not_mem_nil
  · cases h
    exact List.forall_mem_singleton.mpr (.names (by decide))
  · cases h

theorem neat_of_readMember {o : Owner} {kind : Kind} {words : List Text} {ds : List Declaration}
    (are : ∀ word ∈ words, IsWord word) (h : readMember o kind words = .ok ds) : ∀ d ∈ ds, d.Neat := by
  have field : Kind.base .field ≠ .method := by decide
  unfold readMember at h
  dsimp only at h
  split at h
  · cases h
    exact List.forall_mem_singleton.mpr (.names field)
  · cases h
    exact List.forall_mem_singleton.mpr (.names field)
  · split at h
    · exact neat_of_method rfl (are _ (by simp)) h
    · cases h
      exact fun d mem => absurd mem List.not_mem_nil
  · exact neat_of_method rfl (are _ (by simp)) h
  · exact neat_of_method rfl (are _ (by simp)) h
  · cases h

theorem neat_of_readLine {owner owner' : Option Owner} {line : Text} {ds : List Declaration}
    (h : readLine owner line = .ok (owner', ds)) : ∀ d ∈ ds, d.Neat := by
  unfold readLine at h
  split at h
  · cases h
    exact fun d mem => absurd mem List.not_mem_nil
  · next word words is =>
    have are : ∀ word ∈ words, IsWord word := by
      intro word mem
      apply Text.isWord_of_mem_words (t := line)
      rw [is]
      exact List.mem_cons_of_mem _ mem
    obtain ⟨kind, _, h⟩ := bind_eq_ok_iff.mp h
    split at h
    · obtain ⟨⟨o, own⟩, read, h⟩ := bind_eq_ok_iff.mp h
      cases h
      exact neat_of_readClass read
    · cases h
    · cases h
    · obtain ⟨own, read, h⟩ := bind_eq_ok_iff.mp h
      cases h
      exact neat_of_readMember are read

theorem neat_of_readLines {owner : Option Owner} {declared : Array Declaration} {lines : List Line}
    {ds : List Declaration} (before : ∀ d ∈ declared.toList, d.Neat)
    (h : readLines owner declared lines = .ok ds) : ∀ d ∈ ds, d.Neat := by
  induction lines generalizing owner declared with
  | nil =>
    cases h
    exact before
  | cons line lines ih =>
    rw [readLines] at h
    split at h
    · cases h
    · next owner' more first =>
      refine ih ?_ h
      rw [Array.toList_appendList]
      exact List.forall_mem_append.mpr ⟨before, neat_of_readLine first⟩

end Declaration

theorem neat_of_readText {text : Text} {ds : List Declaration} (h : readText text = .ok ds) :
    ∀ d ∈ ds, d.Neat :=
  Declaration.neat_of_readLines (fun _ mem => absurd mem List.not_mem_nil) h

end SymbolMap.MemberLines
