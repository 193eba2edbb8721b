import SymbolMap.Proofs.MemberLines.Member

/-!
Tables whose names the dialect with a line for each member can hold.

* `Calls`: the new name of a class, which is its obfuscated one if it has no other;
* `Parts`, `Canonical`: what the names of such a table are like;
* `Canonical.restores`: each member is written in its class as one that declares its entry again.
-/
namespace SymbolMap.MemberLines

open MemberName (init)
open Text (IsWord)

/-- The table gives a class this name, or has no name for it. -/
def Calls (t : Table) (obf deobf : Text) : Prop :=
  (∃ c ∈ t.entries .class_, c.obf = obf ∧ c.deobf = deobf) ∨
    (∀ c ∈ t.entries .class_, c.obf ≠ obf) ∧ deobf = obf

theorem Calls.unique {t : Table} (sound : t.Sound) {obf deobf deobf' : Text}
    (h : Calls t obf deobf) (h' : Calls t obf deobf') : deobf = deobf' := by
  rcases h with ⟨c, hc, is, rfl⟩ | ⟨none, rfl⟩
  · rcases h' with ⟨c', hc', is', rfl⟩ | ⟨none, _⟩
    · have same := (sound.sound_register .class_).eq_of_obf hc hc' (is.trans is'.symm)
      rw [same]
    · exact absurd is (none c hc)
  · rcases h' with ⟨c, hc, is, _⟩ | ⟨_, rfl⟩
    · exact absurd is (none c hc)
    · rfl

/-- A name that neither has a slash nor starts like one in the placeholder package. -/
structure ClassName (obf : Text) : Prop extends Plain obf where
  start : Text.startsWith obf "none.".toList = false

instance (obf : Text) : Decidable (ClassName obf) :=
  decidable_of_iff (Plain obf ∧ Text.startsWith obf "none.".toList = false)
    ⟨fun h => ⟨h.1, h.2⟩, fun h => ⟨h.toPlain, h.start⟩⟩

/-- The names `o.l` and `d.m` of a member: an obfuscated one in a class, and a new one that need not be in the
same class. Only a constructor of its own class is known as one. -/
structure Parts (t : Table) (o l d m : Text) : Prop where
  owner : ClassName o
  name : Local l
  newOwner : Plain d
  newName : Local m
  own : l = init → m = init ∧ Calls t o d

/-- A two-way table that the lines can hold. Its methods have descriptors that its classes turn into each
other, and none that names the placeholder package. -/
structure Canonical (t : Table) : Prop where
  classes : ∀ e ∈ t.entries .class_, ClassName e.obf ∧ Plain e.deobf
  fields : ∀ e ∈ t.entries .field, ∃ o l d m, Parts t o l d m ∧
    e = .twoWay (o ++ '.' :: l) (d ++ '.' :: m)
  methods : ∀ e ∈ t.entries .method, ∃ (o l d m word : Text) (descriptor : Descriptor),
    Parts t o l d m ∧
    Descriptor.read word = .ok descriptor ∧ (∀ c ∈ word, isBlank c = false) ∧
    ¬ 'L' :: placeholder <:+: word ∧
    e = .twoWay (o ++ '.' :: l ++ ' ' :: word)
      (d ++ '.' :: m ++ ' ' :: (descriptor.deobfuscate t).render)

namespace Member

/-- An entry is written as a member of a class, and that declares the entry again. -/
structure Restores (t : Table) (kind : Kind) (e : Entry) (o : Text) (m : Member) : Prop where
  written : ofEntry kind e = some (o, m)
  owner : ClassName o
  readable : ∀ d, Calls t o d → m.Readable d
  declares : ∀ k, (m.declared o).flatMap (Declaration.source.entriesOf t k) = Batch.asked k kind e

end Member

namespace Parts

variable {t : Table} {o l d m : Text} (h : Parts t o l d m)
include h

theorem ofEntry_eq {kind : Kind} {e : Entry} {word word' : Option Text}
    (split : MemberName.splitDescriptor e.obf = (o ++ '.' :: l, word))
    (split' : MemberName.splitDescriptor e.deobf = (d ++ '.' :: m, word'))
    {descriptor : Option Descriptor}
    (written : Member.writtenDescriptor kind word = some descriptor) :
    Member.ofEntry kind e = some (o, ⟨kind, l, d ++ '.' :: m, descriptor⟩) := by
  have noSpace := (h.owner.toPlain.member h.name.toPlain).not_mem_space
  have noSpace' := (h.newOwner.member h.newName.toPlain).not_mem_space
  have whole : ¬((o ++ '.' :: l).contains ' ' || (d ++ '.' :: m).contains ' ') = true := by
    rw [List.contains_eq_mem, List.contains_eq_mem, decide_eq_false noSpace,
      decide_eq_false noSpace']
    decide
  unfold Member.ofEntry
  rw [split, split']
  dsimp only
  rw [if_neg whole, MemberName.splitOwner_append o h.name.no_separator, written]
  rfl

theorem own_of_calls (sound : t.Sound) {d' : Text} (calls : Calls t o d') :
    l = init → m = init ∧ d = d' := by
  intro is
  obtain ⟨new, same⟩ := h.own is
  exact ⟨new, same.unique sound calls⟩

theorem restores_field (sound : t.Sound) :
    ∃ member, Member.Restores t .field (.twoWay (o ++ '.' :: l) (d ++ '.' :: m)) o member := by
  have noSpace := (h.owner.toPlain.member h.name.toPlain).not_mem_space
  have noSpace' := (h.newOwner.member h.newName.toPlain).not_mem_space
  refine ⟨⟨.field, l, d ++ '.' :: m, none⟩, ?_, h.owner, fun d' calls => ?_, fun k => ?_⟩
  · exact h.ofEntry_eq (MemberName.splitDescriptor_of_no_space noSpace)
      (MemberName.splitDescriptor_of_no_space noSpace') rfl
  · exact .field h.name h.newOwner h.newName (h.own_of_calls sound calls)
  · exact List.flatMap_singleton _ _

theorem restores_method (sound : t.Sound) (classes : ∀ e ∈ t.entries .class_, Plain e.deobf)
    {word : Text} {descriptor : Descriptor} (read : Descriptor.read word = .ok descriptor)
    (noBlank : ∀ c ∈ word, isBlank c = false) (none : ¬ 'L' :: placeholder <:+: word) :
    ∃ member, Member.Restores t .method (.twoWay (o ++ '.' :: l ++ ' ' :: word)
      (d ++ '.' :: m ++ ' ' :: (descriptor.deobfuscate t).render)) o member := by
  have render := Descriptor.render_of_read read
  have noSpace : ' ' ∉ word := fun mem => absurd (noBlank ' ' mem) (by decide)
  have noSpace' : ' ' ∉ (descriptor.deobfuscate t).render := by
    intro mem
    rcases Descriptor.mem_render_deobfuscate sound mem with own | slash | ⟨c, hc, inside⟩
    · exact noSpace (render ▸ own)
    · exact absurd slash (by decide)
    · exact (classes c hc).not_mem_space inside
  have written : Member.writtenDescriptor .method (some word) =
      some (some (descriptor.mapClasses addPlaceholder)) := by
    unfold Member.writtenDescriptor
    dsimp only
    rw [read]
  have isWord : IsWord (descriptor.mapClasses addPlaceholder).render := by
    refine ⟨List.cons_ne_nil _ _, fun c hc => ?_⟩
    rcases (Inserted.render descriptor).mem hc with own | put
    · exact noBlank c (render ▸ own)
    · exact isWord_placeholder.2 c put
  have back := readDescriptor_render read none
  refine ⟨⟨.method, l, d ++ '.' :: m, some (descriptor.mapClasses addPlaceholder)⟩, ?_, h.owner,
    fun d' calls => ?_, fun k => ?_⟩
  · exact h.ofEntry_eq (Descriptor.splitDescriptor_of_read _ noSpace read)
      (MemberName.splitDescriptor_append _ rfl noSpace') written
  · exact .method h.name h.newOwner h.newName (h.own_of_calls sound calls) isWord back
  · unfold Member.declared
    dsimp only
    rw [back, List.flatMap_singleton, ← render]
    by_cases constructor : l = init
    · rw [if_pos constructor]
      rfl
    · rw [if_neg constructor]
      rfl

end Parts

/-- Each member is written in its class as one that declares its entry again. -/
theorem Canonical.restores {t : Table} (h : Canonical t) (sound : t.Sound) {kind : Kind}
    {e : Entry} (mem : (kind, e) ∈ t.members) : ∃ o m, Member.Restores t kind e o m := by
  obtain ⟨rfl | rfl, he⟩ := Table.mem_members.mp mem
  · obtain ⟨o, l, d, m, parts, rfl⟩ := h.fields e he
    exact ⟨o, parts.restores_field sound⟩
  · obtain ⟨o, l, d, m, word, descriptor, parts, read, noBlank, none, rfl⟩ := h.methods e he
    exact ⟨o, parts.restores_method sound (fun e he => (h.classes e he).2) read noBlank none⟩

end SymbolMap.MemberLines
