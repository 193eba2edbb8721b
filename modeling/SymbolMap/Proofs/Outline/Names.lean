import SymbolMap.Proofs.Descriptor.Grammar
import SymbolMap.Proofs.Outline.Opening
import SymbolMap.Proofs.Outline.Triple
import SymbolMap.Proofs.Text.MemberName
import SymbolMap.Proofs.Text.Words

/-!
The names that an outline can declare, whatever its lines and those of its imports say.

* `Triple.neat_of_read`: the names on a line, between its colons;
* `Declaration.neat_of_read`: what one line declares, in the package and the class that it is in;
* `Reading.neat`: so it is for all lines with all that they import.
-/
namespace SymbolMap.Outline

/-- A text that one line holds, and that the white space at its end does not belong to. -/
structure Spoken (text : Text) : Prop where
  whole : '\n' ∉ text
  last : ∀ c ∈ text.getLast?, isBlank c = false

theorem spoken_trim {text : Text} (whole : '\n' ∉ text) : Spoken (Text.trim text) :=
  ⟨fun mem => whole (Text.mem_of_mem_trim mem), fun _ => Text.isBlank_of_mem_getLast?_trim⟩

namespace Triple

/-- Names that stood between colons, the deobfuscated one last. -/
structure Neat (n : Triple) : Prop where
  colon : ∀ name ∈ n.toList, ':' ∉ name
  whole : ∀ name ∈ n.toList, '\n' ∉ name
  last : ∀ c ∈ n.deobf.getLast?, isBlank c = false

theorem neat_of_read {kind : Kind} {text : Text} {n : Triple} (spoken : Spoken text)
    (h : read kind text = .ok n) : n.Neat ∧ (kind ≠ .package → [] ∉ n.toList) := by
  obtain ⟨_, _, _, before, ends⟩ := of_read h
  have apart := separable_of_read h
  have whole : ∀ part ∈ text.splitOn ':', '\n' ∉ part :=
    fun part hp inside => spoken.whole (Text.of_mem_splitOn hp '\n' inside).1
  refine ⟨⟨apart.colon, not_mem_of_read h (.inr rfl) whole, ?_⟩, apart.named⟩
  intro c hc
  have joined : Text.join ':' (before ++ [n.deobf]) = text := by
    rw [← ends, Text.join_splitOn]
  have deobf : n.deobf ≠ [] := by
    intro none
    rw [none] at hc
    cases hc
  rw [← Text.getLast?_join ':' before deobf, joined] at hc
  exact spoken.last c hc

theorem mem_toList_qualify {owner n : Triple} {name : Text} (h : name ∈ (owner.qualify n).toList) :
    ∃ outer ∈ owner.toList, ∃ inner ∈ n.toList, name = MemberName.qualify outer inner := by
  simp only [toList, qualify, List.mem_cons, List.not_mem_nil, or_false] at h
  rcases h with rfl | rfl | rfl
  · exact ⟨owner.obf, by simp [toList], n.obf, by simp [toList], rfl⟩
  · exact ⟨owner.intermediate, by simp [toList], n.intermediate, by simp [toList], rfl⟩
  · exact ⟨owner.deobf, by simp [toList], n.deobf, by simp [toList], rfl⟩

/-- Names inside of an owner are such names too. -/
theorem Neat.qualify {owner n : Triple} (outer : owner.Neat) (inner : n.Neat) (filled : [] ∉ n.toList) :
    (owner.qualify n).Neat ∧ [] ∉ (owner.qualify n).toList := by
  have apart : ∀ name ∈ (owner.qualify n).toList, ∀ c, c ≠ '.' → (∀ a ∈ owner.toList, c ∉ a) →
      (∀ a ∈ n.toList, c ∉ a) → c ∉ name := by
    intro name hn c notDot outside inside mem
    obtain ⟨a, ha, b, hb, rfl⟩ := mem_toList_qualify hn
    rcases MemberName.mem_qualify mem with own | dot | own
    · exact outside a ha own
    · exact notDot dot
    · exact inside b hb own
  have deobf : n.deobf ≠ [] := ne_of_mem_of_not_mem (by simp [toList]) filled
  refine ⟨⟨fun name hn => ?_, fun name hn => ?_, ?_⟩, fun none => ?_⟩
  · exact apart name hn ':' (by decide) outer.colon inner.colon
  · exact apart name hn '\n' (by decide) outer.whole inner.whole
  · unfold Triple.qualify
    rw [MemberName.getLast?_qualify owner.deobf deobf]
    exact inner.last
  · obtain ⟨a, _, b, hb, is⟩ := mem_toList_qualify none
    exact MemberName.qualify_ne_nil a (ne_of_mem_of_not_mem hb filled) is.symm

end Triple

/-! ## Lines -/

/-- What a line declares: methods have descriptors that were read, and only the default package goes by an
empty name. -/
inductive Declaration.Neat : Declaration → Prop
  | names {kind : Kind} {n : Triple} : kind.base ≠ .method → n.Neat →
      (kind ≠ .package → [] ∉ n.toList) → Neat (.names kind n)
  | method {kind : Kind} {n : Triple} {d : Descriptor} : kind.base = .method → n.Neat →
      [] ∉ n.toList → MemberName.Describes d.render → Spoken d.render →
      Descriptor.read d.render = .ok d → Neat (.method kind n d)
  | access (t : Transformation) : Neat (.access t)

/-- The names of the package and of the class that a line is in. -/
structure Context.Neat (c : Context) : Prop where
  package : ∀ n ∈ c.package, n.Neat
  owner : ∀ n ∈ c.owner, n.Neat

theorem Context.neat_empty : Context.Neat {} := ⟨nofun, nofun⟩

/-- A line's content ends where the line does, but for white space and comments. -/
theorem spoken_of_read {line text : Text} {depth : Nat} {directive : Option Text} (whole : '\n' ∉ line)
    (h : Item.read line = .ok (.declaration depth directive text)) : Spoken text := by
  have short : '\n' ∉ line.takeWhile (· != '#') :=
    fun mem => whole ((List.takeWhile_prefix _).subset mem)
  have content := spoken_trim short
  unfold Item.read at h
  dsimp only at h
  split at h
  · cases h
  · cases h
  · split at h
    · cases h
    · cases h
  · unfold Item.readDeclaration at h
    split at h
    · cases h
      exact content
    · cases h
    · next directive rest is =>
      cases h
      obtain ⟨joined, _⟩ := Text.eq_of_cut is
      apply spoken_trim
      intro mem
      rw [joined] at content
      exact content.whole (List.mem_append_right _ (List.mem_cons_of_mem _ mem))

namespace Declaration

theorem base_memberKind {text : Text} (other : memberKind text ≠ .field) :
    (memberKind text).base = .method := by
  unfold memberKind at other ⊢
  split
  · rfl
  · split
    · rfl
    · simp_all

theorem neat_accessOf (directive : Option Text) (target : Text) (kind : Kind) :
    ∀ d ∈ accessOf directive target kind, d.Neat := by
  intro d hd
  obtain ⟨_, _, rfl⟩ := List.mem_map.mp hd
  exact .access _

variable {directive : Option Text} {text : Text} (spoken : Spoken text)
include spoken

theorem neat_of_readPackage {c : Context} {ds : List Declaration}
    (h : readPackage directive text = .ok (c, ds)) : c.Neat ∧ ∀ d ∈ ds, d.Neat := by
  unfold readPackage at h
  split at h
  · cases h
  · obtain ⟨package, read, h⟩ := bind_eq_ok_iff.mp h
    cases h
    obtain ⟨neat, filled⟩ := Triple.neat_of_read spoken read
    refine ⟨⟨?_, nofun⟩, List.forall_mem_singleton.mpr (.names (by decide) neat filled)⟩
    rintro _ ⟨⟩
    exact neat

theorem neat_of_readClass {c c' : Context} {ds : List Declaration} (inside : c.Neat)
    (h : readClass c directive text = .ok (c', ds)) : c'.Neat ∧ ∀ d ∈ ds, d.Neat := by
  unfold readClass at h
  split at h
  · cases h
  · next package is =>
    obtain ⟨n, read, h⟩ := bind_eq_ok_iff.mp h
    obtain ⟨neat, filled⟩ := Triple.neat_of_read spoken read
    obtain ⟨owner, named⟩ := (inside.package package is).qualify neat (filled (by decide))
    have declared : Declaration.Neat (.names .class_ (package.qualify n)) :=
      .names (by decide) owner fun _ => named
    have context : Context.Neat { c with owner := package.qualify n } := by
      refine ⟨inside.package, ?_⟩
      rintro _ ⟨⟩
      exact owner
    dsimp only at h
    split at h
    · cases h
      exact ⟨context, List.forall_mem_singleton.mpr declared⟩
    · split at h
      · cases h
      · next changes _ =>
        cases h
        refine ⟨context, List.forall_mem_append.mpr ⟨?_, List.forall_mem_singleton.mpr declared⟩⟩
        exact List.forall_mem_map.mpr fun t _ => .access t

theorem neat_of_readField {owner : Triple} {ds : List Declaration} (outer : owner.Neat)
    (h : readField owner directive text = .ok ds) : ∀ d ∈ ds, d.Neat := by
  obtain ⟨n, read, h⟩ := bind_eq_ok_iff.mp h
  cases h
  obtain ⟨neat, filled⟩ := Triple.neat_of_read spoken read
  obtain ⟨names, named⟩ := outer.qualify neat (filled (by decide))
  refine List.forall_mem_append.mpr ⟨neat_accessOf _ _ _, List.forall_mem_singleton.mpr ?_⟩
  exact .names (by decide) names fun _ => named

theorem neat_of_readMethod {owner : Triple} {kind : Kind} {ds : List Declaration} (outer : owner.Neat)
    (base : kind.base = .method) (h : readMethod owner kind directive text = .ok ds) :
    ∀ d ∈ ds, d.Neat := by
  unfold readMethod at h
  rcases MemberName.splitDescriptor_cases text with ⟨name, word, rfl, describes, split⟩ | ⟨_, split⟩
  · rw [split] at h
    obtain ⟨d, word', h⟩ := bind_eq_ok_iff.mp h
    obtain ⟨n, read, h⟩ := bind_eq_ok_iff.mp h
    cases h
    have read_word := mapError_eq_ok_iff.mp word'
    have render : d.render = word := Descriptor.render_of_read read_word
    have start : Spoken (Text.trim name) :=
      spoken_trim fun mem => spoken.whole (List.mem_append_left _ mem)
    have member : kind ≠ .package := by
      rintro rfl
      cases base
    obtain ⟨neat, filled⟩ := Triple.neat_of_read start read
    obtain ⟨names, named⟩ := outer.qualify neat (filled member)
    have wordFilled : word ≠ [] := by
      rintro rfl
      cases describes.1
    have rest : Spoken word := by
      refine ⟨fun mem => spoken.whole (List.mem_append_right _ (List.mem_cons_of_mem _ mem)), ?_⟩
      rw [← Text.getLast?_append_cons name ' ' wordFilled]
      exact spoken.last
    refine List.forall_mem_append.mpr ⟨neat_accessOf _ _ _, List.forall_mem_singleton.mpr ?_⟩
    exact .method base names named (render ▸ describes) (render ▸ rest) (render ▸ read_word)
  · rw [split] at h
    cases h

theorem neat_of_readMember {c c' : Context} {ds : List Declaration} (inside : c.Neat)
    (h : readMember c directive text = .ok (c', ds)) : c'.Neat ∧ ∀ d ∈ ds, d.Neat := by
  unfold readMember at h
  dsimp only at h
  split at h
  · cases h
  · next owner is =>
    obtain ⟨ds', read, pair⟩ := map_eq_ok_iff.mp h
    cases pair
    refine ⟨inside, ?_⟩
    split at read
    · exact neat_of_readField spoken (inside.owner owner is) read
    · next other => exact neat_of_readMethod spoken (inside.owner owner is) (base_memberKind other) read

/-- What one line declares, in a package and a class that were declared before. -/
theorem neat_of_read {c c' : Context} {depth : Nat} {ds : List Declaration} (inside : c.Neat)
    (h : read c depth directive text = .ok (c', ds)) : c'.Neat ∧ ∀ d ∈ ds, d.Neat := by
  unfold read at h
  split at h
  · exact neat_of_readPackage spoken h
  · exact neat_of_readClass spoken inside h
  · exact neat_of_readMember spoken inside h

end Declaration

/-! ## Texts and their imports -/

theorem neat_of_ownLine {c c' : Context} {line : Text} {ds : List Declaration} (whole : '\n' ∉ line)
    (inside : c.Neat) (h : ownLine c line = .ok (c', ds)) : c'.Neat ∧ ∀ d ∈ ds, d.Neat := by
  unfold ownLine at h
  split at h
  · cases h
  · next item => exact Declaration.neat_of_read (spoken_of_read whole item) inside h
  · cases h
    exact ⟨inside, fun _ mem => absurd mem List.not_mem_nil⟩

/-- Imports declare the same kind of names, whichever way they are opened and however deep they are inside each
other. -/
theorem Reading.neat {o : Opener} {base : Option Path} {s s' : Imports} {text : Text} {ds : List Declaration}
    (h : Reading o base {} s (Text.numbered text) s' (.ok ds)) : ∀ d ∈ ds, d.Neat :=
  h.collects (p := fun ds => ∀ d ∈ ds, d.Neat) (fun _ mem => absurd mem List.not_mem_nil)
    (fun _ _ first second => List.forall_mem_append.mpr ⟨first, second⟩) Context.neat_empty
    (fun _ _ _ _ whole inside => neat_of_ownLine whole inside) Context.neat_empty whole_of_mem_numbered ds rfl

theorem neat_of_readText {i : Importer} {base : Option Path} {seen : List Text} {text : Text}
    {s : Imports} {ds : List Declaration} (h : readText i base seen text = (s, .ok ds)) :
    ∀ d ∈ ds, d.Neat := by
  have reading := reading_readText i base seen text
  rw [h] at reading
  exact reading.neat

end SymbolMap.Outline
