import SymbolMap.Dialect.Outline.Declaration
import SymbolMap.Dialect.Outline.Writing
import SymbolMap.Proofs.Descriptor.Grammar
import SymbolMap.Proofs.Outline.Triple

/-!
One line of an outline, written and read back.

* `Content.item`: a line is read as its content at its depth;
* `Declaration.read_package`, `Declaration.read_class`: the lines of packages and classes;
* `Member.Readable`, `Member.Readable.read_render`: the line of a member declares it inside of its class.
-/
namespace SymbolMap.Outline

/-- What may stand on a line after its tabs, with no word for a comment, an import or an access. -/
structure Content (content : Text) : Prop where
  filled : content ≠ []
  tight : Text.Tight content
  plain : ∀ c ∈ content, (isBlank c = false ∨ c = ' ') ∧ c ≠ '#' ∧ c ≠ '!'
  closed : ¬Opens content

theorem Content.item {content : Text} (h : Content content) (depth : Nat) :
    Item.read (indent depth content) = .ok (.declaration depth none content) := by
  have tabs : ∀ c ∈ List.replicate depth '\t', c = '\t' := fun c hc => List.eq_of_mem_replicate hc
  have noComment : (indent depth content).takeWhile (· != '#') = indent depth content := by
    refine (Text.span_of_forall fun c hc => bne_iff_ne.mpr ?_).1
    rcases List.mem_append.mp hc with tab | own
    · rw [tabs c tab]
      decide
    · exact (h.plain c own).2.1
  have trimmed : Text.trim (indent depth content) = content :=
    Text.trim_append_of_tight (fun c hc => by rw [tabs c hc]; decide) h.tight
  have noAccess : Text.cut '!' content = none :=
    Text.cut_of_not_mem fun mem => (h.plain '!' mem).2.2 rfl
  have depthOf : ((indent depth content).takeWhile (· == '\t')).length = depth := by
    unfold indent
    rw [List.takeWhile_append_of_pos fun c hc => by rw [tabs c hc]; rfl]
    cases content with
    | nil => exact absurd rfl h.filled
    | cons first rest =>
      have notBlank := h.tight.1 first rfl
      have notTab : (first == '\t') = false :=
        beq_false_of_ne fun is => absurd notBlank (by rw [is]; decide)
      simp [notTab]
  unfold Item.read
  dsimp only
  rw [noComment, trimmed, depthOf]
  split
  · exact absurd rfl h.filled
  · exact absurd (.inl rfl) h.closed
  · exact absurd (.inr rfl) h.closed
  · unfold Item.readDeclaration
    rw [noAccess]

/-- Nothing on the line ends it. -/
theorem Content.not_mem_indent {content : Text} (h : Content content) (depth : Nat) {c : Char}
    (blank : isBlank c = true) (other : c ≠ ' ' ∧ c ≠ '\t') : c ∉ indent depth content := by
  intro mem
  rcases List.mem_append.mp mem with tab | own
  · exact other.2 (List.eq_of_mem_replicate tab)
  · rcases (h.plain c own).1 with notBlank | space
    · rw [blank] at notBlank
      cases notBlank
    · exact other.1 space

theorem Triple.Readable.not_opens {kind : Kind} {n : Triple} (h : n.Readable kind) :
    ¬Opens n.render := by
  unfold Opens
  rw [n.startsWith_render (by decide), n.startsWith_render (by decide)]
  exact h.closed

theorem Triple.Readable.content {kind : Kind} {n : Triple} (h : n.Readable kind) :
    Content n.render where
  filled := n.render_ne_nil
  tight := Text.tight_of_forall fun c hc => (h.plain c hc).1
  plain c hc := ⟨.inl (h.plain c hc).1, (h.plain c hc).2⟩
  closed := h.not_opens

namespace Declaration

theorem read_package {n : Triple} (h : n.Readable .package) (c : Context) :
    read c 0 none n.render = .ok ({ package := n }, [.names .package n]) := by
  unfold read readPackage
  rw [h.separable.read_render]
  rfl

theorem read_class {n package : Triple} (h : n.Readable .class_) {c : Context}
    (inside : c.package = some package) :
    read c 1 none n.render =
      .ok ({ c with owner := package.qualify n }, [.names .class_ (package.qualify n)]) := by
  unfold read readClass
  rw [inside, h.separable.read_render]
  rfl

end Declaration

/-! ## Members -/

/-- The names of all constructors. -/
def Triple.init : Triple := ⟨MemberName.init, MemberName.init, MemberName.init⟩

namespace Member

/-- The members that are read back from their lines: fields and methods that are not taken for
constructors, and constructors. -/
inductive Readable : Member → Prop
  | field {n : Triple} : n.Readable .field → Text.startsWith n.obf MemberName.init = false →
      Readable ⟨.field, n, none⟩
  | method {n : Triple} {word : Text} {d : Descriptor} : n.Readable .method →
      Text.startsWith n.obf MemberName.init = false → Clean word →
      Descriptor.read word = .ok d → Readable ⟨.method, n, some word⟩
  | constructor {word : Text} {d : Descriptor} : Clean word → Descriptor.read word = .ok d →
      Readable ⟨.constructor, .init, some word⟩

/-- What the line of a member declares in a class. -/
def declared (owner : Triple) (m : Member) : List Declaration :=
  match m.descriptor with
  | none => [.names m.kind (owner.qualify m.names)]
  | some word =>
    match Descriptor.read word with
    | .ok d => [.method m.kind (owner.qualify m.names) d]
    | .error _ => []

end Member

theorem Triple.Readable.init : Triple.init.Readable .constructor where
  clean := by decide
  closed := by decide
  named _ := by decide
  implied differ := absurd rfl differ

namespace Declaration

theorem read_field {n owner : Triple} (h : n.Readable .field)
    (other : Text.startsWith n.obf MemberName.init = false) {c : Context}
    (inside : c.owner = some owner) :
    read c 2 none n.render = .ok (c, [.names .field (owner.qualify n)]) := by
  have noSpace : n.render.contains ' ' = false := by
    rw [List.contains_eq_mem]
    exact decide_eq_false fun mem => absurd (h.plain ' ' mem).1 (by decide)
  have kind : memberKind n.render = .field := by
    unfold memberKind
    rw [n.startsWith_render (by decide), other, noSpace]
    rfl
  unfold read readMember
  rw [kind, inside]
  unfold readField
  simp only [if_true]
  rw [h.separable.read_render]
  rfl

/-- The kind of a member with a descriptor shows in its obfuscated name. -/
theorem read_method {n owner : Triple} {kind : Kind} {word : Text} {d : Descriptor}
    (h : n.Readable kind)
    (named : kind = if Text.startsWith n.obf MemberName.init then .constructor else .method)
    (clean : Clean word) (read : Descriptor.read word = .ok d) {c : Context}
    (inside : c.owner = some owner) :
    Declaration.read c 2 none (n.render ++ ' ' :: word) =
      .ok (c, [.method kind (owner.qualify n) d]) := by
  have isKind : memberKind (n.render ++ ' ' :: word) = kind := by
    have space : (n.render ++ ' ' :: word).contains ' ' = true := by simp
    unfold memberKind
    rw [Text.startsWith_append_cons (by decide), n.startsWith_render (by decide), space, named]
    rfl
  have notField : kind ≠ .field := by
    rw [named]
    split <;> decide
  have split : MemberName.splitDescriptor (n.render ++ ' ' :: word) = (n.render, some word) :=
    Descriptor.splitDescriptor_of_read n.render clean.not_mem_space read
  have trimmed : Text.trim n.render = n.render :=
    Text.trim_of_tight (Text.tight_of_forall fun c hc => (h.plain c hc).1)
  have readWord : Descriptor.readWord word = .ok d := mapError_eq_ok_iff.mpr read
  unfold Declaration.read readMember
  rw [isKind, inside]
  simp only [if_neg notField]
  unfold readMethod
  rw [split]
  dsimp only
  rw [readWord, trimmed, h.separable.read_render]
  rfl

end Declaration

theorem Triple.Readable.content_method {n : Triple} {kind : Kind} {word : Text}
    (h : n.Readable kind) (clean : Clean word) (filled : word ≠ []) :
    Content (n.render ++ ' ' :: word) where
  filled := by simp
  tight := by
    have ends := Text.Tight.append h.content.tight
      (Text.tight_of_forall fun c hc => (clean c hc).1) n.render_ne_nil filled [' ']
    rwa [List.append_assoc] at ends
  plain := by
    intro c hc
    rcases List.mem_append.mp hc with name | rest
    · exact h.content.plain c name
    · rcases List.mem_cons.mp rest with rfl | word
      · decide
      · exact ⟨.inl (clean c word).1, (clean c word).2.2⟩
  closed := by
    unfold Opens
    rw [Text.startsWith_append_cons (by decide), Text.startsWith_append_cons (by decide)]
    exact h.not_opens

namespace Member

theorem Readable.content {m : Member} (h : m.Readable) : Content m.render := by
  cases h with
  | field names _ => exact names.content
  | method names _ clean read =>
    obtain ⟨rest, is⟩ := Descriptor.exists_eq_cons_of_read read
    exact names.content_method clean (by simp [is])
  | constructor clean read =>
    obtain ⟨rest, is⟩ := Descriptor.exists_eq_cons_of_read read
    exact Triple.Readable.init.content_method clean (by simp [is])

/-- The line of a member declares it inside of its class. -/
theorem Readable.read_render {m : Member} (h : m.Readable) {owner : Triple} {c : Context}
    (inside : c.owner = some owner) :
    Declaration.read c 2 none m.render = .ok (c, m.declared owner) := by
  cases h with
  | field names other => exact Declaration.read_field names other inside
  | @method n word d names other clean read =>
    unfold declared
    dsimp only
    rw [read]
    exact Declaration.read_method names (by rw [other]; rfl) clean read inside
  | @constructor word d clean read =>
    unfold declared
    dsimp only
    rw [read]
    exact Declaration.read_method Triple.Readable.init (by decide) clean read inside

end Member
end SymbolMap.Outline
