import SymbolMap.Proofs.Outcome
import SymbolMap.Proofs.Table.Lookup
import SymbolMap.Proofs.Table.Run

/-!
Tables that grow while what they have stays where it is.

* `Extends`: the entries of a kind come first among those of the other table;
* `Reachable.extends_add`: so it is after an addition that may not overwrite;
* `Extends.keeps`: then every name that was found is found as before.
-/
namespace SymbolMap.Table

/-- Any entry can be added, with an intermediate name or without. -/
theorem Reachable.add {t : Table} (h : t.Reachable) (kind : Kind) (e : Entry) (overwrite : Bool) :
    (t.add kind e overwrite).1.Reachable := by
  obtain ⟨obf, _ | intermediate, deobf⟩ := e
  · exact h.addTwoWay kind obf deobf overwrite
  · exact h.addThreeWay kind obf intermediate deobf overwrite

/-- `u` is a table of the type of `t`, with the entries of `t` in front. -/
structure Extends (t u : Table) : Prop where
  reachable : u.Reachable
  threeWay : u.threeWay = t.threeWay
  entries : ∀ kind, t.entries kind <+: u.entries kind

namespace Extends

variable {t u v : Table}

theorem refl (h : t.Reachable) : t.Extends t := ⟨h, rfl, fun _ => List.prefix_refl _⟩

theorem trans (first : t.Extends u) (second : u.Extends v) : t.Extends v where
  reachable := second.reachable
  threeWay := second.threeWay.trans first.threeWay
  entries kind := (first.entries kind).trans (second.entries kind)

end Extends

/-- An addition that may not overwrite is refused, or comes last. -/
theorem Reachable.extends_add {t : Table} (h : t.Reachable) (kind : Kind) (e : Entry) :
    t.Extends (t.add kind e false).1 where
  reachable := h.add kind e false
  threeWay := threeWay_add t kind e false
  entries k := by
    rw [h.sound.entries_add]
    by_cases same : k.base = kind.base
    · rw [if_pos same, t.entries_congr same]
      exact prefix_addedAll (t.entries kind) [e.conform t.threeWay]
    · simp only [if_neg same, List.prefix_refl]

/-! ## Lookups -/

/-- Whatever a lookup of this kind finds in `t` it finds in `u`. -/
structure Keeps (t u : Table) (kind : Kind) : Prop where
  byObf : ∀ name e, t.entryByObf kind name = .ok (some e) → u.entryByObf kind name = .ok (some e)
  byDeobf : ∀ name e,
    t.entryByDeobf kind name = .ok (some e) → u.entryByDeobf kind name = .ok (some e)
  byIntermediate : ∀ name e,
    t.entryByIntermediate kind name = .ok (some e) → u.entryByIntermediate kind name = .ok (some e)
  deobfOf : ∀ name found, t.deobfOf kind name = .ok (some found) → u.deobfOf kind name = .ok (some found)
  obfOf : ∀ name found, t.obfOf kind name = .ok (some found) → u.obfOf kind name = .ok (some found)
  intermediateOf : ∀ name found,
    t.intermediateOf kind name = .ok (some found) → u.intermediateOf kind name = .ok (some found)
  hasObf : ∀ name, t.hasObf kind name → u.hasObf kind name
  hasDeobf : ∀ name, t.hasDeobf kind name → u.hasDeobf kind name
  hasIntermediate : ∀ name, t.hasIntermediate kind name → u.hasIntermediate kind name

/-- What is made of an entry that is found is found wherever the entry is. -/
theorem kept_of_found {α : Type} {asked asked' : Except LookupError (Option Entry)}
    (keeps : ∀ e, asked = .ok (some e) → asked' = .ok (some e)) {answer : Option Entry → Option α}
    (nothing : answer none = none) {a : α} (h : (do return answer (← asked)) = .ok (some a)) :
    (do return answer (← asked')) = .ok (some a) := by
  obtain ⟨found, is, same⟩ := bind_eq_ok_iff.mp h
  cases found with
  | none =>
    rw [nothing] at same
    cases same
  | some e => exact bind_eq_ok_iff.mpr ⟨some e, keeps e is, same⟩

theorem Extends.keeps {t u : Table} (h : t.Reachable) (grown : t.Extends u) (kind : Kind) :
    t.Keeps u kind := by
  have before := h.sound.answers kind
  have after := grown.reachable.sound.answers kind
  have stays := (grown.entries kind).subset
  have byObf : ∀ name e, t.entryByObf kind name = .ok (some e) → u.entryByObf kind name = .ok (some e) := by
    intro name e found
    obtain ⟨mem, is⟩ := (before.byObf name e).mp found
    exact (after.byObf name e).mpr ⟨stays mem, is⟩
  have byDeobf : ∀ name e,
      t.entryByDeobf kind name = .ok (some e) → u.entryByDeobf kind name = .ok (some e) := by
    intro name e found
    obtain ⟨mem, is⟩ := (before.byDeobf name e).mp found
    exact (after.byDeobf name e).mpr ⟨stays mem, is⟩
  have has : ∀ p : Entry → Prop, (∃ e ∈ t.entries kind, p e) → ∃ e ∈ u.entries kind, p e :=
    fun _ ⟨e, mem, is⟩ => ⟨e, stays mem, is⟩
  constructor
  case byObf => exact byObf
  case byDeobf => exact byDeobf
  case byIntermediate =>
    intro name e found
    obtain ⟨mem, is⟩ := (before.byIntermediate name e).mp found
    exact (after.byIntermediate name e).mpr ⟨stays mem, is⟩
  case deobfOf => exact fun name _ => kept_of_found (byObf name) rfl
  case obfOf => exact fun name _ => kept_of_found (byDeobf name) rfl
  case intermediateOf =>
    intro name found
    unfold intermediateOf requireIntermediate
    rw [grown.threeWay]
    cases t.threeWay with
    | false =>
      intro refused
      cases refused
    | true => exact kept_of_found (byObf name) rfl
  case hasObf => exact fun name is => (after.hasObf name).mpr (has _ ((before.hasObf name).mp is))
  case hasDeobf => exact fun name is => (after.hasDeobf name).mpr (has _ ((before.hasDeobf name).mp is))
  case hasIntermediate =>
    exact fun name is => (after.hasIntermediate name).mpr (has _ ((before.hasIntermediate name).mp is))

end SymbolMap.Table
