import SymbolMap.Dialect.MemberLines.Writing
import SymbolMap.Proofs.Batch
import SymbolMap.Proofs.Descriptor.Renaming
import SymbolMap.Proofs.MemberLines.Line

/-!
The lines of members, and what they declare.

* `Member.Readable`: the members of a class that are read back from their lines;
* `Member.Readable.declared_line`: the line of such a member declares it inside of its class;
* `Member.Readable.declared_eq`: what is declared is a field, or a method that waits for the classes.
-/
namespace SymbolMap.MemberLines

open Text (IsWord)

theorem readLine_member {kind : Kind} (isMember : kind.isMember = true) {line : Text}
    {words : List Text} (is : Text.words line = kind.name.toList :: words) {o : Owner}
    {ds : List Declaration} (read : readMember o kind words = .ok ds) :
    readLine (some o) line = .ok (some o, ds) := by
  unfold readLine
  rw [is]
  dsimp only
  rw [Kind.readWord_name]
  cases kind with
  | package | class_ => cases isMember
  | method | field | constructor =>
    change (do return (some o, ← readMember o _ words)) = _
    rw [read]
    rfl

namespace Declaration

def source : Batch.Source Declaration := ⟨known?, waiting?⟩

theorem adds_names {kind : Kind} (other : kind.base ≠ .method) (obf deobf : Text) :
    source.Adds (.names kind obf deobf) :=
  other

theorem adds_method {kind : Kind} (base : kind.base = .method) (obf deobf : Text)
    (d : Descriptor) : source.Adds (.method kind obf deobf d) := by
  refine ⟨base, ?_, fun t u ht hu same => ?_⟩
  · rw [base]
    decide
  · change methodEntry obf deobf d t = methodEntry obf deobf d u
    unfold methodEntry
    rw [Descriptor.deobfuscate_congr ht hu same]

end Declaration

namespace Member

/-- What the line of a member declares in a class. -/
def declared (owner : Text) (m : Member) : List Declaration :=
  match m.descriptor with
  | none => [.names .field (owner ++ '.' :: m.obf) m.deobf]
  | some d =>
    match readDescriptor d.render with
    | .ok d =>
      let kind := if m.obf = MemberName.init then .constructor else .method
      [.method kind (owner ++ '.' :: m.obf) m.deobf d]
    | .error _ => []

/-- The members that are read back in a class with a given new name. Constructors have to be its own. -/
inductive Readable (ownerDeobf : Text) : Member → Prop
  | field {obf owner name : Text} : Local obf → Plain owner → Local name →
      (obf = MemberName.init → name = MemberName.init ∧ owner = ownerDeobf) →
      Readable ownerDeobf ⟨.field, obf, owner ++ '.' :: name, none⟩
  | method {obf owner name : Text} {written d : Descriptor} : Local obf → Plain owner →
      Local name → (obf = MemberName.init → name = MemberName.init ∧ owner = ownerDeobf) →
      IsWord written.render → readDescriptor written.render = .ok d →
      Readable ownerDeobf ⟨.method, obf, owner ++ '.' :: name, some written⟩

/-- The new name stands alone in its own class and in full in any other, and is read back either way. -/
theorem exists_newName (kind : Kind) {obf owner name ownerDeobf : Text}
    (descriptor : Option Descriptor) (ho : Plain owner) (hn : Local name)
    (own : obf = MemberName.init → name = MemberName.init ∧ owner = ownerDeobf) :
    ∃ new, newName ownerDeobf ⟨kind, obf, owner ++ '.' :: name, descriptor⟩ = some new ∧
      IsWord new ∧ memberName ownerDeobf new = owner ++ '.' :: name := by
  unfold newName
  dsimp only
  rw [MemberName.splitOwner_append owner hn.no_separator]
  by_cases same : owner = ownerDeobf
  · subst same
    rw [if_pos rfl]
    exact ⟨name, rfl, hn.word, memberName_local hn owner⟩
  · have other : some owner ≠ some ownerDeobf := fun eq => same (Option.some.inj eq)
    have notInit : obf ≠ MemberName.init := fun eq => same (own eq).2
    rw [if_neg other, if_neg notInit]
    have plain := ho.member hn.toPlain
    exact ⟨_, rfl, plain.isWord_slashed,
      memberName_slashed (by simp) plain.noSlash ownerDeobf⟩

theorem local_init : Local MemberName.init := by decide

theorem readMember_constructor (o : Owner) {written d : Descriptor}
    (readBack : readDescriptor written.render = .ok d) :
    readMember o .method [MemberName.init, written.render] =
      .ok (declared o.obf ⟨.method, MemberName.init, o.deobf ++ '.' :: MemberName.init,
        some written⟩) := by
  unfold readMember declared
  dsimp only
  rw [if_pos rfl, readBack]
  unfold MemberLines.method
  rw [readBack, memberName_local local_init, memberName_local local_init]
  rfl

theorem readMember_method (o : Owner) {obf new deobf : Text} {written d : Descriptor}
    (hl : Local obf) (notInit : obf ≠ MemberName.init) (back : memberName o.deobf new = deobf)
    (readBack : readDescriptor written.render = .ok d) :
    readMember o .method [obf, new, written.render] =
      .ok (declared o.obf ⟨.method, obf, deobf, some written⟩) := by
  unfold readMember declared
  dsimp only
  rw [readBack]
  unfold MemberLines.method
  rw [readBack, memberName_local hl, back]
  simp only [if_neg notInit]
  rfl

/-- The line of a member declares it inside of its class. -/
theorem Readable.declared_line {m : Member} {ownerDeobf : Text} (h : m.Readable ownerDeobf)
    (owner : Text) :
    ∃ text, memberPiece ownerDeobf m = .line text ∧
      Declared (some ⟨owner, ownerDeobf⟩) text (some ⟨owner, ownerDeobf⟩) (m.declared owner) := by
  let o : Owner := ⟨owner, ownerDeobf⟩
  cases h with
  | @field obf deobfOwner name hl ho hn own =>
    obtain ⟨new, named, word, back⟩ := exists_newName .field none ho hn own
    have read : readMember o .field [obf, new] =
        .ok (declared owner ⟨.field, obf, deobfOwner ++ '.' :: name, none⟩) := by
      unfold readMember declared
      dsimp only
      rw [memberName_local hl, back]
    have line := Declared.line (o := some o) 1 .field [obf, new] (by simp [hl.word, word])
      fun line is => readLine_member rfl is read
    refine ⟨_, ?_, line⟩
    unfold memberPiece render
    rw [named, join_three]
    rfl
  | @method obf deobfOwner name written d hl ho hn own isWord readBack =>
    obtain ⟨new, named, word, back⟩ :=
      exists_newName .method (some written) ho hn own
    -- A constructor is written without its new name.
    by_cases init : obf = MemberName.init
    · obtain ⟨rfl, rfl⟩ := own init
      subst init
      have read := readMember_constructor o readBack
      have line := Declared.line (o := some o) 1 .method [MemberName.init, written.render]
        (by simp [local_init.word, isWord]) fun line is => readLine_member rfl is read
      refine ⟨_, ?_, line⟩
      unfold memberPiece render
      rw [named, join_three]
      rfl
    · have read := readMember_method o hl init back readBack
      have line := Declared.line (o := some o) 1 .method [obf, new, written.render]
        (by simp [hl.word, word, isWord]) fun line is => readLine_member rfl is read
      refine ⟨_, ?_, line⟩
      unfold memberPiece render
      rw [named, join_four]
      simp only [Option.map_some, if_neg init]
      rfl

namespace Readable

open Declaration (source)

variable {m : Member} {ownerDeobf : Text} (h : m.Readable ownerDeobf) (owner : Text)
include h

/-- A member declares a field, or a method that waits. -/
theorem declared_eq : (∃ obf deobf, m.declared owner = [.names .field obf deobf]) ∨
    ∃ kind obf deobf d, kind.base = .method ∧ m.declared owner = [.method kind obf deobf d] := by
  unfold declared
  cases h with
  | field hl ho hn own => exact .inl ⟨_, _, rfl⟩
  | @method obf _ _ written d hl ho hn own isWord readBack =>
    dsimp only
    rw [readBack]
    refine .inr ⟨_, _, _, _, ?_, rfl⟩
    split <;> rfl

theorem adds : ∀ d ∈ m.declared owner, source.Adds d := by
  intro d hd
  rcases h.declared_eq owner with ⟨obf, deobf, is⟩ | ⟨kind, obf, deobf, word, base, is⟩
  · rw [is] at hd
    rw [List.mem_singleton.mp hd]
    exact Declaration.adds_names (by decide) obf deobf
  · rw [is] at hd
    rw [List.mem_singleton.mp hd]
    exact Declaration.adds_method base obf deobf word

/-- A member declares nothing of another kind. -/
theorem flatMap_eq_nil (t : Table) {k : Kind} (notField : k.base ≠ .field)
    (notMethod : k.base ≠ .method) : (m.declared owner).flatMap (source.entriesOf t k) = [] := by
  rcases h.declared_eq owner with ⟨obf, deobf, is⟩ | ⟨kind, obf, deobf, word, base, is⟩
  · rw [is, List.flatMap_singleton]
    exact if_neg notField.symm
  · have other : kind.base ≠ k.base := by
      rw [base]
      exact notMethod.symm
    rw [is, List.flatMap_singleton]
    exact if_neg other

end Readable
end Member
end SymbolMap.MemberLines
