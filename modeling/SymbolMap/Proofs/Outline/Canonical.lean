import SymbolMap.Proofs.Outline.Additions

/-!
Tables whose names an outline can hold.

* `Triple.Canonical`, `Canonical`: what the names of such a table are like;
* `Triple.Canonical.readable_owner`, `Triple.Canonical.readable_localNames`: both parts of such names can stand
  on a line;
* `Canonical.restores`: each member is written in its class as one that declares its entry again.
-/
namespace SymbolMap.Outline

theorem Opens.of_prefix {a b : Text} (h : Opens a) (start : a <+: b) : Opens b := by
  refine h.imp (fun opens => ?_) fun opens => ?_
  · exact Text.startsWith_iff.mpr ((Text.startsWith_iff.mp opens).trans start)
  · exact Text.startsWith_iff.mpr ((Text.startsWith_iff.mp opens).trans start)

namespace Triple

/-- Names without descriptors that an outline can hold. -/
structure Canonical (n : Triple) : Prop where
  clean : ∀ name ∈ n.toList, Clean name
  start : ∀ name ∈ n.toList, name.head? ≠ some '.'
  closed : ¬Opens n.obf ∧ ¬Opens n.localNames.obf
  named : [] ∉ n.localNames.toList

instance (n : Triple) : Decidable n.Canonical :=
  decidable_of_iff ((∀ name ∈ n.toList, Clean name) ∧ (∀ name ∈ n.toList, name.head? ≠ some '.') ∧
      (¬Opens n.obf ∧ ¬Opens n.localNames.obf) ∧ [] ∉ n.localNames.toList)
    ⟨fun h => ⟨h.1, h.2.1, h.2.2.1, h.2.2.2⟩, fun h => ⟨h.clean, h.start, h.closed, h.named⟩⟩

/-- Local names that say of which kind a member is, and keep their intermediate name. -/
structure Tells (kind : Kind) (n : Triple) : Prop where
  obf : Text.startsWith n.obf MemberName.init = false
  deobf : n.deobf ≠ MemberName.init
  implied : n.intermediate = n.deobf ∨
    Text.startsWith n.intermediate (impliedStart kind) = true

instance (kind : Kind) (n : Triple) : Decidable (n.Tells kind) :=
  decidable_of_iff (Text.startsWith n.obf MemberName.init = false ∧ n.deobf ≠ MemberName.init ∧
      (n.intermediate = n.deobf ∨ Text.startsWith n.intermediate (impliedStart kind) = true))
    ⟨fun h => ⟨h.1, h.2.1, h.2.2⟩, fun h => ⟨h.obf, h.deobf, h.implied⟩⟩

theorem toEntry_ofEntry {e : Entry} (named : e.intermediate.isSome = true) :
    (ofEntry e).toEntry = e := by
  obtain ⟨obf, intermediate, deobf⟩ := e
  cases intermediate with
  | none => cases named
  | some name => rfl

theorem forall_owner {p q : Text → Prop} (keep : ∀ a b, a <+: b → p b → q a) {n : Triple}
    (h : ∀ name ∈ n.toList, p name) : ∀ name ∈ n.owner.toList, q name := by
  have names : n.owner.toList = n.toList.map fun name => (MemberName.splitOwner name).1.getD [] :=
    rfl
  rw [names]
  refine List.forall_mem_map.mpr fun name hn => ?_
  exact keep _ name (MemberName.owner_prefix name) (h name hn)

theorem forall_localNames {p q : Text → Prop} (keep : ∀ a b, a <:+ b → p b → q a) {n : Triple}
    (h : ∀ name ∈ n.toList, p name) : ∀ name ∈ n.localNames.toList, q name := by
  have names : n.localNames.toList = n.toList.map fun name => (MemberName.splitOwner name).2 := rfl
  rw [names]
  refine List.forall_mem_map.mpr fun name hn => ?_
  exact keep _ name (MemberName.local_suffix name) (h name hn)

namespace Canonical

variable {n : Triple} (h : n.Canonical)
include h

theorem qualify : n.owner.qualify n.localNames = n :=
  qualify_localNames h.clean h.start

theorem obf_ne_nil : n.obf ≠ [] := by
  intro none
  apply h.named
  unfold localNames toList
  rw [none]
  exact List.mem_cons_self

theorem deobf_ne_nil : n.deobf ≠ [] := by
  intro none
  apply h.named
  unfold localNames toList
  rw [none]
  exact List.mem_cons_of_mem _ (List.mem_cons_of_mem _ List.mem_cons_self)

theorem readable_owner : n.owner.Readable .package where
  clean := forall_owner (fun _ _ start clean => clean.of_subset fun _ hc => start.subset hc) h.clean
  closed opens := h.closed.1 (opens.of_prefix (MemberName.owner_prefix n.obf))
  named other := absurd rfl other
  implied _ := rfl

theorem readable_localNames {kind : Kind}
    (implied : n.localNames.intermediate = n.localNames.deobf ∨
      Text.startsWith n.localNames.intermediate (impliedStart kind) = true) :
    n.localNames.Readable kind where
  clean :=
    forall_localNames (fun _ _ ends clean => clean.of_subset fun _ hc => ends.subset hc) h.clean
  closed := h.closed.2
  named _ := h.named
  implied differ := implied.resolve_left differ

end Canonical
end Triple

/-- A table that an outline can hold: its names are clean, its members stand in its classes, and its methods
have descriptors that its classes turn into each other. -/
structure Canonical (t : Table) : Prop where
  packages : ∀ e ∈ t.entries .package,
    (∀ name ∈ (Triple.ofEntry e).toList, Clean name) ∧ ¬Opens e.obf
  classes : ∀ e ∈ t.entries .class_, (Triple.ofEntry e).Canonical
  fields : ∀ e ∈ t.entries .field, (Triple.ofEntry e).Canonical ∧
    (∃ c ∈ t.entries .class_, (Triple.ofEntry e).owner = Triple.ofEntry c) ∧
    (Triple.ofEntry e).localNames.Tells .field
  methods : ∀ e ∈ t.entries .method, ∃ (n : Triple) (word : Text) (d : Descriptor),
    Triple.ofEntry e = n.withDescriptors (d.obfuscate t).render word ∧ n.Canonical ∧
    Descriptor.read word = .ok d ∧ Clean word ∧ Clean (d.obfuscate t).render ∧
    (∃ c ∈ t.entries .class_, n.owner = Triple.ofEntry c) ∧
    (n.localNames = .init ∨ n.localNames.Tells .method)

namespace Member

/-- An entry is written as a member of a class, and that declares the entry again. -/
structure Restores (t : Table) (kind : Kind) (e : Entry) (owner : Triple) (m : Member) : Prop where
  written : ofEntry kind e = some (owner, m)
  readable : m.Readable
  inside : ∃ c ∈ t.entries .class_, owner = Triple.ofEntry c
  declares : ∀ k, (m.declared owner).flatMap (Declaration.source.entriesOf t k) =
    Batch.asked k kind e

theorem ofEntry_eq {kind kind' : Kind} {e : Entry} {n : Triple} {descriptor : Option Text}
    (split : splitEntry kind e = some (n, descriptor)) (canonical : n.Canonical)
    (inside : n.owner.obf ≠ [] ∧ n.owner.deobf ≠ [])
    (named : writtenKind kind n.localNames = some kind')
    (implied : n.localNames.intermediate = n.localNames.deobf ∨
      Text.startsWith n.localNames.intermediate (Triple.impliedStart kind') = true) :
    ofEntry kind e = some (n.owner, ⟨kind', n.localNames, descriptor⟩) := by
  have known : ¬(n.owner.obf = [] ∨ n.owner.deobf = []) := not_or.mpr inside
  have kept : ¬(n.localNames.intermediate ≠ n.localNames.deobf ∧
      Text.startsWith n.localNames.intermediate (Triple.impliedStart kind') = false) := by
    rintro ⟨differ, lacks⟩
    rw [implied.resolve_left differ] at lacks
    cases lacks
  unfold ofEntry
  rw [split]
  simp only [Option.bind_eq_bind, Option.bind_some]
  rw [Triple.split_eq canonical.named]
  simp only [Option.bind_some]
  rw [if_neg known, named]
  simp only [Option.bind_some, if_neg kept, Option.pure_def]

theorem writtenKind_of_tells {kind : Kind} {n : Triple} (h : n.Tells kind) :
    writtenKind kind n = some kind :=
  if_neg h.deobf

theorem splitEntry_method {e : Entry} {n : Triple} {word : Text} {d d' : Descriptor}
    (is : Triple.ofEntry e = n.withDescriptors d'.render word) (read : Descriptor.read word = .ok d)
    (clean : Clean word) (clean' : Clean d'.render) :
    splitEntry .method e = some (n, some word) := by
  have obf : MemberName.splitDescriptor (n.obf ++ ' ' :: d'.render) = (n.obf, some d'.render) :=
    MemberName.splitDescriptor_append n.obf rfl clean'.not_mem_space
  unfold splitEntry
  rw [is, if_pos rfl]
  unfold Triple.withDescriptors
  dsimp only
  rw [Descriptor.splitDescriptor_of_read n.deobf clean.not_mem_space read,
    Descriptor.splitDescriptor_of_read n.intermediate clean.not_mem_space read, obf]

end Member

namespace Canonical

variable {t : Table} (h : Canonical t)
include h

theorem owner_ne_nil {n : Triple} (inside : ∃ c ∈ t.entries .class_, n.owner = Triple.ofEntry c) :
    n.owner.obf ≠ [] ∧ n.owner.deobf ≠ [] := by
  obtain ⟨c, hc, is⟩ := inside
  rw [is]
  exact ⟨(h.classes c hc).obf_ne_nil, (h.classes c hc).deobf_ne_nil⟩

theorem restores_field (sound : t.Sound) (threeWay : t.threeWay = true) {e : Entry}
    (mem : e ∈ t.entries .field) : ∃ owner m, Member.Restores t .field e owner m := by
  obtain ⟨canonical, inside, tells⟩ := h.fields e mem
  have named := ((sound.fits_register .field).named e mem).trans threeWay
  refine ⟨_, _, Member.ofEntry_eq rfl canonical (h.owner_ne_nil inside)
    (Member.writtenKind_of_tells tells) tells.implied, ?_, inside, fun k => ?_⟩
  · exact .field (canonical.readable_localNames tells.implied) tells.obf
  · unfold Member.declared
    dsimp only
    rw [canonical.qualify, List.flatMap_singleton]
    change Batch.asked k .field (Triple.ofEntry e).toEntry = _
    rw [Triple.toEntry_ofEntry named]

theorem restores_method (sound : t.Sound) (threeWay : t.threeWay = true) {e : Entry}
    (mem : e ∈ t.entries .method) : ∃ owner m, Member.Restores t .method e owner m := by
  obtain ⟨n, word, d, is, canonical, read, clean, clean', inside, locals⟩ := h.methods e mem
  have split := Member.splitEntry_method is read clean clean'
  have named := ((sound.fits_register .method).named e mem).trans threeWay
  have entry : Declaration.methodEntry n d t = e := by
    unfold Declaration.methodEntry
    rw [Descriptor.render_of_read read, ← is]
    exact Triple.toEntry_ofEntry named
  have declares : ∀ kind : Kind, kind.base = .method → ∀ k : Kind,
      (Member.declared n.owner ⟨kind, n.localNames, some word⟩).flatMap
        (Declaration.source.entriesOf t k) = Batch.asked k .method e := by
    intro kind base k
    unfold Member.declared
    dsimp only
    rw [read, canonical.qualify, List.flatMap_singleton]
    change Batch.asked k kind (Declaration.methodEntry n d t) = _
    unfold Batch.asked
    rw [entry, base]
    rfl
  rcases locals with init | tells
  · have kind : Member.writtenKind .method n.localNames = some .constructor := by
      rw [init]
      rfl
    refine ⟨n.owner, ⟨.constructor, n.localNames, some word⟩, ?_, ?_, inside, declares _ rfl⟩
    · exact Member.ofEntry_eq split canonical (h.owner_ne_nil inside) kind (.inl (by rw [init]; rfl))
    · rw [init]
      exact .constructor clean read
  · refine ⟨n.owner, ⟨.method, n.localNames, some word⟩, ?_, ?_, inside, declares _ rfl⟩
    · exact Member.ofEntry_eq split canonical (h.owner_ne_nil inside)
        (Member.writtenKind_of_tells tells) tells.implied
    · exact .method (canonical.readable_localNames tells.implied) tells.obf clean read

/-- Each member is written in its class as one that declares its entry again. -/
theorem restores (sound : t.Sound) (threeWay : t.threeWay = true) {kind : Kind} {e : Entry}
    (mem : (kind, e) ∈ t.members) : ∃ owner m, Member.Restores t kind e owner m := by
  obtain ⟨rfl | rfl, he⟩ := Table.mem_members.mp mem
  · exact h.restores_field sound threeWay he
  · exact h.restores_method sound threeWay he

end Canonical
end SymbolMap.Outline
