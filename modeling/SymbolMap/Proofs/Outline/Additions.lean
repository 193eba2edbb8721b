import SymbolMap.Dialect.Outline.Loading
import SymbolMap.Proofs.Batch
import SymbolMap.Proofs.Descriptor.Renaming
import SymbolMap.Proofs.Outline.Line

/-!
What the declarations of an outline add to a table.

* `Declaration.adds_names`, `Declaration.adds_method`: names are known at once, and methods wait for the
  classes;
* `Member.Readable.declared_eq`: a member declares a field or a method.
-/
namespace SymbolMap.Outline

namespace Declaration

def source : Batch.Source Declaration := ⟨known?, waiting?⟩

theorem adds_names {kind : Kind} (other : kind.base ≠ .method) (n : Triple) :
    source.Adds (.names kind n) :=
  other

theorem adds_method {kind : Kind} (base : kind.base = .method) (n : Triple) (d : Descriptor) :
    source.Adds (.method kind n d) := by
  refine ⟨base, ?_, fun t u ht hu same => ?_⟩
  · rw [base]
    decide
  · change methodEntry n d t = methodEntry n d u
    unfold methodEntry
    rw [Descriptor.obfuscate_congr ht hu same]

theorem transformations_of_adds {ds : List Declaration} (adds : ∀ d ∈ ds, source.Adds d) :
    ds.filterMap transformation? = [] := by
  refine List.filterMap_eq_nil_iff.mpr fun d hd => ?_
  cases d with
  | names kind n => rfl
  | method kind n d => rfl
  | access t => exact (adds _ hd).elim

end Declaration

namespace Member.Readable

open Declaration (source)

variable {m : Member} (h : m.Readable) (owner : Triple)
include h

/-- A member declares a field, or a method that waits. -/
theorem declared_eq : (∃ n, m.declared owner = [.names .field n]) ∨
    ∃ kind n d, kind.base = .method ∧ m.declared owner = [.method kind n d] := by
  unfold declared
  cases h with
  | field names other => exact .inl ⟨_, rfl⟩
  | method names other clean read =>
    dsimp only
    rw [read]
    exact .inr ⟨_, _, _, rfl, rfl⟩
  | constructor clean read =>
    dsimp only
    rw [read]
    exact .inr ⟨_, _, _, rfl, rfl⟩

theorem adds : ∀ d ∈ m.declared owner, source.Adds d := by
  intro d hd
  rcases h.declared_eq owner with ⟨n, is⟩ | ⟨kind, n, word, base, is⟩
  · rw [is] at hd
    rw [List.mem_singleton.mp hd]
    exact Declaration.adds_names (by decide) n
  · rw [is] at hd
    rw [List.mem_singleton.mp hd]
    exact Declaration.adds_method base n word

/-- A member declares no package. -/
theorem flatMap_package (t : Table) :
    (m.declared owner).flatMap (source.entriesOf t .package) = [] := by
  rcases h.declared_eq owner with ⟨n, is⟩ | ⟨kind, n, word, base, is⟩
  · rw [is]
    rfl
  · have other : kind.base ≠ Kind.package.base := by
      rw [base]
      decide
    rw [is, List.flatMap_singleton]
    exact if_neg other

end Member.Readable
end SymbolMap.Outline
