import SymbolMap.Proofs.Table.Reachable

/-!
Lookups in reachable tables.

* `Sound.entryByObf_eq` and its companions: a lookup of a kind without entries is refused, and any other one
  asks the register of the kind;
* `Register.Agrees` and `Table.Answers` say what entries, indexes and lookups have to do with each other, with
  no word of the invariant;
* `Reachable.names_lead_to_entries`: that holds of every reachable table.
-/
namespace SymbolMap

/-- The entries of a register and its indexes are the same names. Only a three-way table has intermediate
names, and there every entry has one. -/
structure Register.Agrees (threeWay : Bool) (r : Register) : Prop where
  filled : r.toList ≠ []
  filed : ∀ obf e, r.byObf[obf]? = some e ↔ e ∈ r.toList ∧ e.obf = obf
  obfs : (r.toList.map (·.obf)).Nodup
  deobfs : (r.toList.map (·.deobf)).Nodup
  intermediates : (r.toList.filterMap (·.intermediate)).Nodup
  byDeobf : ∀ deobf obf,
    r.obfOfDeobf[deobf]? = some obf ↔ ∃ e ∈ r.toList, e.deobf = deobf ∧ e.obf = obf
  byIntermediate : ∀ intermediate obf, r.obfOfIntermediate[intermediate]? = some obf ↔
    ∃ e ∈ r.toList, e.intermediate = some intermediate ∧ e.obf = obf
  named : ∀ e ∈ r.toList, e.intermediate.isSome = threeWay

theorem Register.Sound.nodup_map_deobf {r : Register} (h : r.Sound) :
    (r.toList.map (·.deobf)).Nodup := by
  refine List.pairwise_map.mpr ((List.pairwise_map.mp h.nodup).imp_of_mem ?_)
  intro a b ha hb apart same
  exact apart (congrArg Entry.obf (h.eq_of_shares ha hb (.inr (.inl same))))

theorem Register.Sound.nodup_filterMap_intermediate {r : Register} (h : r.Sound) :
    (r.toList.filterMap (·.intermediate)).Nodup := by
  refine List.pairwise_filterMap.mpr ((List.pairwise_map.mp h.nodup).imp_of_mem ?_)
  intro a b ha hb apart name is name' is' same
  have shared : a.Shares b := .inr (.inr ⟨by rw [is, is', same], by simp [is]⟩)
  exact apart (congrArg Entry.obf (h.eq_of_shares ha hb shared))

theorem Register.Fits.agrees {threeWay : Bool} {r : Register} (h : r.Fits threeWay)
    (filled : r.toList ≠ []) : r.Agrees threeWay where
  filled := filled
  filed := h.sound.obf
  obfs := h.sound.nodup
  deobfs := h.sound.nodup_map_deobf
  intermediates := h.sound.nodup_filterMap_intermediate
  byDeobf deobf obf := by simpa using h.sound.deobf deobf obf
  byIntermediate := h.sound.intermediate
  named := h.named

namespace Table

/-- The lookup is refused because nothing of the kind has been added. -/
def Unknown {α : Type} (kind : Kind) (answer : Except LookupError α) : Prop :=
  answer = .error (.unknownKind kind)

/-- A lookup finds the entry of that name, if there is one, and is refused for a kind that has no entries.
A two-way table refuses to look for intermediate names whatever the kind. -/
structure Answers (t : Table) (kind : Kind) : Prop where
  byObf : ∀ name e, t.entryByObf kind name = .ok (some e) ↔ e ∈ t.entries kind ∧ e.obf = name
  byDeobf : ∀ name e, t.entryByDeobf kind name = .ok (some e) ↔ e ∈ t.entries kind ∧ e.deobf = name
  byIntermediate : ∀ name e, t.entryByIntermediate kind name = .ok (some e) ↔
    e ∈ t.entries kind ∧ e.intermediate = some name
  hasObf : ∀ name, t.hasObf kind name ↔ ∃ e ∈ t.entries kind, e.obf = name
  hasDeobf : ∀ name, t.hasDeobf kind name ↔ ∃ e ∈ t.entries kind, e.deobf = name
  hasIntermediate : ∀ name,
    t.hasIntermediate kind name ↔ ∃ e ∈ t.entries kind, e.intermediate = some name
  back : ∀ name, t.hasObf kind name →
    ∃ deobf, t.deobfOf kind name = .ok (some deobf) ∧ t.obfOf kind deobf = .ok (some name)
  unknown : ∀ name,
    (Unknown kind (t.entryByObf kind name) ↔ t.entries kind = []) ∧
    (Unknown kind (t.entryByDeobf kind name) ↔ t.entries kind = []) ∧
    (Unknown kind (t.deobfOf kind name) ↔ t.entries kind = []) ∧
    (Unknown kind (t.obfOf kind name) ↔ t.entries kind = [])
  unknownAll :
    (Unknown kind (t.allObf kind) ↔ t.entries kind = []) ∧
    (Unknown kind (t.allDeobf kind) ↔ t.entries kind = [])
  unknownIntermediate : ∀ name, t.threeWay = true →
    (Unknown kind (t.entryByIntermediate kind name) ↔ t.entries kind = []) ∧
    (Unknown kind (t.intermediateOf kind name) ↔ t.entries kind = []) ∧
    (Unknown kind (t.allIntermediate kind) ↔ t.entries kind = [])
  refused : ∀ name, t.threeWay = false →
    t.entryByIntermediate kind name = .error .noIntermediateNames ∧
    t.intermediateOf kind name = .error .noIntermediateNames ∧
    t.allIntermediate kind = .error .noIntermediateNames

/-- What a register says if its kind has entries. -/
def ifKnown {α : Type} (t : Table) (kind : Kind) (find : Register → α) : Except LookupError α :=
  if t.entries kind = [] then .error (.unknownKind kind) else .ok (find (t.register kind))

section
variable {α : Type} {t : Table} {kind : Kind} {find : Register → α}

theorem unknown_ifKnown_iff : Unknown kind (t.ifKnown kind find) ↔ t.entries kind = [] := by
  unfold Unknown ifKnown
  split <;> simp_all

theorem ifKnown_eq_ok_iff {a : α} :
    t.ifKnown kind find = .ok a ↔ t.entries kind ≠ [] ∧ find (t.register kind) = a := by
  unfold ifKnown
  split <;> simp_all

/-- A kind has entries if one is found. -/
theorem filled_and_mem_iff {e : Entry} {p : Prop} :
    t.entries kind ≠ [] ∧ e ∈ t.entries kind ∧ p ↔ e ∈ t.entries kind ∧ p :=
  ⟨fun found => found.2, fun found => ⟨List.ne_nil_of_mem found.1, found⟩⟩

end

namespace Sound

variable {t : Table} (h : t.Sound) (kind : Kind)
include h

theorem ifKnown_eq {α : Type} (find : Register → α) :
    (do return find (← t.requireRegister kind)) = t.ifKnown kind find := by
  rw [h.requireRegister_eq]
  unfold ifKnown
  split <;> rfl

theorem entryByObf_eq (name : Text) :
    t.entryByObf kind name = t.ifKnown kind (·.findObf? name) :=
  h.ifKnown_eq kind _

theorem entryByDeobf_eq (name : Text) :
    t.entryByDeobf kind name = t.ifKnown kind (·.findDeobf? name) :=
  h.ifKnown_eq kind _

theorem deobfOf_eq (name : Text) :
    t.deobfOf kind name = t.ifKnown kind fun r => (r.findObf? name).map (·.deobf) := by
  unfold deobfOf
  rw [h.entryByObf_eq]
  unfold ifKnown
  split <;> rfl

theorem obfOf_eq (name : Text) :
    t.obfOf kind name = t.ifKnown kind fun r => (r.findDeobf? name).map (·.obf) := by
  unfold obfOf
  rw [h.entryByDeobf_eq]
  unfold ifKnown
  split <;> rfl

theorem entryByIntermediate_eq (threeWay : t.threeWay = true) (name : Text) :
    t.entryByIntermediate kind name = t.ifKnown kind (·.findIntermediate? name) := by
  unfold entryByIntermediate requireIntermediate
  rw [if_pos threeWay]
  exact h.ifKnown_eq kind _

theorem intermediateOf_eq (threeWay : t.threeWay = true) (name : Text) :
    t.intermediateOf kind name =
      t.ifKnown kind fun r => (r.findObf? name).bind (·.intermediate) := by
  unfold intermediateOf requireIntermediate
  rw [if_pos threeWay, h.entryByObf_eq]
  unfold ifKnown
  split <;> rfl

theorem allIntermediate_eq (threeWay : t.threeWay = true) :
    t.allIntermediate kind = t.ifKnown kind (·.toList.filterMap (·.intermediate)) := by
  unfold allIntermediate requireIntermediate
  rw [if_pos threeWay]
  exact h.ifKnown_eq kind _

/-- A register that finds exactly the entries that fit also says whether there are any. -/
theorem isSome_register?_bind_iff {find : Register → Option Entry} {P : Entry → Prop}
    (finds : ∀ e, find (t.register kind) = some e ↔ e ∈ t.entries kind ∧ P e) :
    ((t.register? kind).bind find).isSome ↔ ∃ e ∈ t.entries kind, P e := by
  rw [h.register?_eq, Option.isSome_iff_exists]
  split
  · next none => simp [none]
  · exact exists_congr finds

theorem findObf?_iff (name : Text) (e : Entry) :
    (t.register kind).findObf? name = some e ↔ e ∈ t.entries kind ∧ e.obf = name :=
  (h.sound_register kind).findObf?_eq_some_iff

theorem findDeobf?_iff (name : Text) (e : Entry) :
    (t.register kind).findDeobf? name = some e ↔ e ∈ t.entries kind ∧ e.deobf = name :=
  (h.sound_register kind).findDeobf?_eq_some_iff

theorem findIntermediate?_iff (name : Text) (e : Entry) :
    (t.register kind).findIntermediate? name = some e ↔
      e ∈ t.entries kind ∧ e.intermediate = some name :=
  (h.sound_register kind).findIntermediate?_eq_some_iff

theorem hasObf_iff (name : Text) : t.hasObf kind name ↔ ∃ e ∈ t.entries kind, e.obf = name :=
  h.isSome_register?_bind_iff kind (h.findObf?_iff kind name)

/-- A two-way table refuses, and has no intermediate names to find either. -/
theorem entryByIntermediate_eq_ok_some_iff (name : Text) (e : Entry) :
    t.entryByIntermediate kind name = .ok (some e) ↔
      e ∈ t.entries kind ∧ e.intermediate = some name := by
  cases threeWay : t.threeWay with
  | true =>
    rw [h.entryByIntermediate_eq kind threeWay, ifKnown_eq_ok_iff, h.findIntermediate?_iff,
      filled_and_mem_iff]
  | false =>
    constructor
    · intro found
      simp [entryByIntermediate, requireIntermediate, threeWay, bind, Except.bind] at found
    · rintro ⟨mem, is⟩
      have named := (h.fits_register kind).named e mem
      simp [is, threeWay] at named

/-- The deobfuscated name of an obfuscated one leads back to it. -/
theorem deobfOf_obfOf {name : Text} {e : Entry} (mem : e ∈ t.entries kind) (is : e.obf = name) :
    t.deobfOf kind name = .ok (some e.deobf) ∧ t.obfOf kind e.deobf = .ok (some name) := by
  have filled := List.ne_nil_of_mem mem
  have forth := (h.findObf?_iff kind name e).mpr ⟨mem, is⟩
  have back := (h.findDeobf?_iff kind e.deobf e).mpr ⟨mem, rfl⟩
  rw [h.deobfOf_eq, h.obfOf_eq, ifKnown_eq_ok_iff, ifKnown_eq_ok_iff, forth, back]
  exact ⟨⟨filled, rfl⟩, filled, congrArg some is⟩

theorem answers : t.Answers kind where
  byObf name e := by
    rw [h.entryByObf_eq, ifKnown_eq_ok_iff, h.findObf?_iff, filled_and_mem_iff]
  byDeobf name e := by
    rw [h.entryByDeobf_eq, ifKnown_eq_ok_iff, h.findDeobf?_iff, filled_and_mem_iff]
  byIntermediate := h.entryByIntermediate_eq_ok_some_iff kind
  hasObf := h.hasObf_iff kind
  hasDeobf name := h.isSome_register?_bind_iff kind (h.findDeobf?_iff kind name)
  hasIntermediate name := h.isSome_register?_bind_iff kind (h.findIntermediate?_iff kind name)
  back name has := by
    obtain ⟨e, mem, is⟩ := (h.hasObf_iff kind name).mp has
    exact ⟨e.deobf, h.deobfOf_obfOf kind mem is⟩
  unknown name := by
    rw [h.entryByObf_eq, h.entryByDeobf_eq, h.deobfOf_eq, h.obfOf_eq]
    exact ⟨unknown_ifKnown_iff, unknown_ifKnown_iff, unknown_ifKnown_iff, unknown_ifKnown_iff⟩
  unknownAll := by
    have obfs : t.allObf kind = _ := h.ifKnown_eq kind _
    have deobfs : t.allDeobf kind = _ := h.ifKnown_eq kind _
    rw [obfs, deobfs]
    exact ⟨unknown_ifKnown_iff, unknown_ifKnown_iff⟩
  unknownIntermediate name threeWay := by
    rw [h.entryByIntermediate_eq kind threeWay, h.intermediateOf_eq kind threeWay,
      h.allIntermediate_eq kind threeWay]
    exact ⟨unknown_ifKnown_iff, unknown_ifKnown_iff, unknown_ifKnown_iff⟩
  refused name twoWay := by
    have no : t.requireIntermediate = .error .noIntermediateNames := by
      simp [requireIntermediate, twoWay]
    unfold entryByIntermediate intermediateOf allIntermediate
    rw [no]
    exact ⟨rfl, rfl, rfl⟩

end Sound

/-- In every reachable table the indexes of each kind lead to its entries and nowhere else, and so do the
lookups. Constructors are among the methods, and no kind is there without entries. -/
theorem Reachable.names_lead_to_entries {t : Table} (h : t.Reachable) :
    t.kinds.Nodup ∧
    (∀ kind r, (kind, r) ∈ t.registers → kind ≠ .constructor ∧ r.Agrees t.threeWay) ∧
    ∀ kind, t.Answers kind := by
  have sound := h.sound
  refine ⟨sound.kinds, fun kind r hr => ⟨?_, ?_⟩, sound.answers⟩
  · rw [← sound.base kind (mem_kinds_of_mem_registers hr)]
    exact kind.base_ne_constructor
  · exact (sound.fits kind r hr).agrees (sound.filled kind r hr)

/-- One entry drives out two, through its obfuscated and its intermediate name, before a copy. -/
theorem names_lead_to_entries_after_eviction :
    let first := ((empty true).addThreeWay .field ['a'] ['i'] ['x'] false).1
    let second := (first.addThreeWay .field ['b'] ['j'] ['y'] false).1
    let third := (second.addThreeWay .field ['a'] ['j'] ['z'] true).1
    let t := third.copyInto (empty true) false
    t.Reachable ∧ t.entries .field = [⟨['a'], some ['j'], ['z']⟩] ∧ t.Answers .field := by
  have reachable := Reachable.copyInto false
    (((Reachable.empty true).addThreeWay .field ['a'] ['i'] ['x'] false |>.addThreeWay
      .field ['b'] ['j'] ['y'] false).addThreeWay .field ['a'] ['j'] ['z'] true)
    (Reachable.empty true)
  exact ⟨reachable, by decide +kernel, reachable.names_lead_to_entries.2.2 .field⟩

end Table
end SymbolMap
