import SymbolMap.Proofs.Outcome
import SymbolMap.Proofs.Outline.Importing

/-!
The sorts of lines in an outline, and what a line of each sort yields.

* `IsPackageLine`, `IsClassLine`, `IsMemberLine`: lines that declare something, told apart by their tabs;
* `Item.read_eq_declaration_iff`: these lines and no others are read as declarations;
* `Yields`: what such a line yields in a package and a class, with all that it takes;
* `yields_of_ownLine`: a line that can be read yields that, or it declares nothing;
* `missing_of_ownLine`: the lines that are refused for what stands above them.
-/
namespace SymbolMap.Outline

/-- What stands on a line before its comment, without the white space around it. -/
def content (line : Text) : Text := Text.trim (line.takeWhile (· != '#'))

def tabs (line : Text) : Nat := (line.takeWhile (· == '\t')).length

/-- A line that is no comment and no import. -/
structure IsDeclaration (line : Text) : Prop where
  filled : content line ≠ []
  comment : ¬['/', '/'] <+: content line
  inclusion : ¬['>', '>'] <+: content line

structure IsPackageLine (line : Text) : Prop extends IsDeclaration line where
  depth : tabs line = 0

structure IsClassLine (line : Text) : Prop extends IsDeclaration line where
  depth : tabs line = 1

structure IsMemberLine (line : Text) : Prop extends IsDeclaration line where
  depth : 2 ≤ tabs line

theorem IsPackageLine.not_class {line : Text} (h : IsPackageLine line) : ¬IsClassLine line :=
  fun other => absurd (h.depth.symm.trans other.depth) (by decide)

theorem IsClassLine.not_package {line : Text} (h : IsClassLine line) : ¬IsPackageLine line :=
  fun other => other.not_class h

theorem IsMemberLine.not_package {line : Text} (h : IsMemberLine line) : ¬IsPackageLine line :=
  fun other => absurd (other.depth ▸ h.depth) (by decide)

theorem IsMemberLine.not_class {line : Text} (h : IsMemberLine line) : ¬IsClassLine line :=
  fun other => absurd (other.depth ▸ h.depth) (by decide)

/-- A declaration behind two tabs or more is a member. -/
theorem IsDeclaration.isMemberLine {line : Text} (h : IsDeclaration line) (notMargin : tabs line ≠ 0)
    (notFirst : tabs line ≠ 1) : IsMemberLine line :=
  ⟨h, Nat.lt_of_le_of_ne (Nat.pos_of_ne_zero notMargin) notFirst.symm⟩

/-- What stands before an exclamation mark. -/
def directiveOf (line : Text) : Option Text := (Text.cut '!' (content line)).map (·.1)

/-- What a line declares stands after its exclamation mark, if it has one. -/
def declaredBy (line : Text) : Text :=
  match Text.cut '!' (content line) with
  | none => content line
  | some (_, rest) => Text.trim rest

theorem tabs_eq (line : Text) : ((line.takeWhile (· != '#')).takeWhile (· == '\t')).length = tabs line := by
  unfold tabs
  induction line with
  | nil => rfl
  | cons c line ih =>
    by_cases tab : c = '\t'
    · subst tab
      simpa using ih
    · by_cases sign : c = '#' <;> simp [tab, sign]

theorem Item.readDeclaration_eq_ok_iff {depth : Nat} {line : Text} {item : Item} :
    readDeclaration depth (content line) = .ok item ↔ directiveOf line ≠ some [] ∧
      item = .declaration depth (directiveOf line) (declaredBy line) := by
  unfold readDeclaration directiveOf declaredBy
  rcases Text.cut '!' (content line) with _ | ⟨_ | ⟨c, directive⟩, rest⟩
  · simp [eq_comm]
  · simp
  · simp [eq_comm]

theorem Item.read_of_isDeclaration {line : Text} (h : IsDeclaration line) :
    read line = readDeclaration (tabs line) (content line) := by
  obtain ⟨filled, comment, inclusion⟩ := h
  rw [← tabs_eq]
  unfold read
  unfold content at *
  dsimp only
  split
  · next is => exact absurd is filled
  · next is => exact absurd (is ▸ ⟨_, rfl⟩) comment
  · next is => exact absurd (is ▸ ⟨_, rfl⟩) inclusion
  · rfl

theorem Item.isDeclaration_of_read {line : Text} {depth : Nat} {directive : Option Text} {text : Text}
    (h : read line = .ok (.declaration depth directive text)) : IsDeclaration line := by
  unfold read at h
  dsimp only at h
  split at h
  · cases h
  · cases h
  · split at h <;> cases h
  · next filled comment inclusion =>
    refine ⟨filled, ?_, ?_⟩
    · rintro ⟨rest, is⟩
      exact comment rest is.symm
    · rintro ⟨rest, is⟩
      exact inclusion rest is.symm

/-- Lines that declare something are read as declarations, unless their directive is missing. -/
theorem Item.read_eq_declaration_iff {line : Text} {depth : Nat} {directive : Option Text} {text : Text} :
    read line = .ok (.declaration depth directive text) ↔ IsDeclaration line ∧ directiveOf line ≠ some [] ∧
      depth = tabs line ∧ directive = directiveOf line ∧ text = declaredBy line := by
  constructor
  · intro h
    have declares := isDeclaration_of_read h
    rw [read_of_isDeclaration declares, readDeclaration_eq_ok_iff] at h
    obtain ⟨given, is⟩ := h
    exact ⟨declares, given, declaration.inj is⟩
  · rintro ⟨declares, given, rfl, rfl, rfl⟩
    rw [read_of_isDeclaration declares, readDeclaration_eq_ok_iff]
    exact ⟨given, rfl⟩

/-! ## What a line yields -/

/-- The changes of access that a class asks for by a directive that it may have. -/
def classChanges (directive : Option Text) (target : Text) : Option (List Transformation) :=
  directive.elim (some []) (Access.readClass · target)

/-- The change of access that a member asks for, if it has a directive. -/
def memberChanges (directive : Option Text) (target : Text) (kind : Kind) : List Transformation :=
  directive.toList.map (⟨·, target, kind, false⟩)

/-- What a line yields in a package and a class: the context that it leaves, the changes of access that it asks
for, and the one declaration that comes after them. -/
inductive Yields (c : Context) (line : Text) : Context → List Transformation → Declaration → Prop
  | package {n : Triple} : IsPackageLine line → directiveOf line = none →
      Triple.read .package (declaredBy line) = .ok n →
      Yields c line { package := n } [] (.names .package n)
  | class_ {package n : Triple} {changes : List Transformation} : IsClassLine line →
      c.package = some package → Triple.read .class_ (declaredBy line) = .ok n →
      classChanges (directiveOf line) (package.qualify n).deobf = some changes →
      Yields c line { c with owner := package.qualify n } changes (.names .class_ (package.qualify n))
  | field {owner n : Triple} : IsMemberLine line → c.owner = some owner →
      Declaration.memberKind (declaredBy line) = .field → Triple.read .field (declaredBy line) = .ok n →
      Yields c line c (memberChanges (directiveOf line) (owner.qualify n).deobf .field)
        (.names .field (owner.qualify n))
  | method {owner n : Triple} {kind : Kind} {name word : Text} {d : Descriptor} : IsMemberLine line →
      c.owner = some owner → Declaration.memberKind (declaredBy line) = kind → kind ≠ .field →
      MemberName.splitDescriptor (declaredBy line) = (name, some word) → Descriptor.read word = .ok d →
      Triple.read kind (Text.trim name) = .ok n →
      Yields c line c (memberChanges (directiveOf line) ((owner.qualify n).deobf ++ ' ' :: d.render) kind)
        (.method kind (owner.qualify n) d)

theorem accessOf_eq_memberChanges (directive : Option Text) (target : Text) (kind : Kind) :
    Declaration.accessOf directive target kind = (memberChanges directive target kind).map .access := by
  unfold Declaration.accessOf memberChanges
  rw [List.map_map]
  rfl

section
variable {c c' : Context} {line : Text} {ds : List Declaration}

theorem yields_of_readPackage (h : Declaration.readPackage (directiveOf line) (declaredBy line) = .ok (c', ds))
    (is : IsPackageLine line) : ∃ changes d, Yields c line c' changes d ∧ ds = changes.map .access ++ [d] := by
  unfold Declaration.readPackage at h
  split at h
  · cases h
  · next plain =>
    obtain ⟨n, read, h⟩ := bind_eq_ok_iff.mp h
    cases h
    exact ⟨[], _, .package is (Option.not_isSome_iff_eq_none.mp plain) read, rfl⟩

theorem yields_of_readClass (h : Declaration.readClass c (directiveOf line) (declaredBy line) = .ok (c', ds))
    (is : IsClassLine line) : ∃ changes d, Yields c line c' changes d ∧ ds = changes.map .access ++ [d] := by
  unfold Declaration.readClass at h
  split at h
  · cases h
  · next package inside =>
    obtain ⟨n, read, h⟩ := bind_eq_ok_iff.mp h
    dsimp only at h
    split at h
    · next plain =>
      cases h
      exact ⟨[], _, .class_ is inside read (by rw [plain]; rfl), rfl⟩
    · next directive given =>
      split at h
      · cases h
      · next changes asked =>
        cases h
        exact ⟨changes, _, .class_ is inside read (by rw [given]; exact asked), rfl⟩

theorem yields_of_readMember (h : Declaration.readMember c (directiveOf line) (declaredBy line) = .ok (c', ds))
    (is : IsMemberLine line) : ∃ changes d, Yields c line c' changes d ∧ ds = changes.map .access ++ [d] := by
  unfold Declaration.readMember at h
  dsimp only at h
  split at h
  · cases h
  · next owner inside =>
    obtain ⟨_, read, pair⟩ := map_eq_ok_iff.mp h
    cases pair
    split at read
    · next sort =>
      obtain ⟨n, named, read⟩ := bind_eq_ok_iff.mp read
      cases read
      refine ⟨_, _, .field is inside sort named, ?_⟩
      rw [accessOf_eq_memberChanges]
    · next sort =>
      unfold Declaration.readMethod at read
      split at read
      · cases read
      · next name word split =>
        obtain ⟨d, described, read⟩ := bind_eq_ok_iff.mp read
        obtain ⟨n, named, read⟩ := bind_eq_ok_iff.mp read
        cases read
        refine ⟨_, _, .method is inside rfl sort split (mapError_eq_ok_iff.mp described) named, ?_⟩
        rw [accessOf_eq_memberChanges]

/-- A line that can be read yields something if it is a declaration, and declares nothing otherwise. -/
theorem yields_of_ownLine (h : ownLine c line = .ok (c', ds)) :
    (¬IsDeclaration line ∧ c' = c ∧ ds = []) ∨
      ∃ changes d, Yields c line c' changes d ∧ ds = changes.map .access ++ [d] := by
  unfold ownLine at h
  split at h
  · cases h
  · next depth directive text item =>
    obtain ⟨declares, _, rfl, rfl, rfl⟩ := Item.read_eq_declaration_iff.mp item
    unfold Declaration.read at h
    split at h
    · next margin => exact .inr (yields_of_readPackage h ⟨declares, margin⟩)
    · next first => exact .inr (yields_of_readClass h ⟨declares, first⟩)
    · next notMargin notFirst => exact .inr (yields_of_readMember h (declares.isMemberLine notMargin notFirst))
  · next other item =>
    cases h
    refine .inl ⟨fun declares => ?_, rfl, rfl⟩
    rw [Item.read_of_isDeclaration declares] at item
    obtain ⟨_, is⟩ := Item.readDeclaration_eq_ok_iff.mp item
    exact other _ _ _ is

end

/-! ## Lines that miss what they are in -/

/-- What is known of a line that is refused for what stands above it. -/
def Missing (c : Context) (line : Text) : Fault → Prop
  | .classBeforePackage => IsClassLine line ∧ c.package = none
  | .memberBeforeClass kind =>
    IsMemberLine line ∧ c.owner = none ∧ Declaration.memberKind (declaredBy line) = kind
  | _ => True

section
variable {c : Context} {line : Text} {fault : Fault}

theorem missing_of_readTriple {kind : Kind} {text : Text} (h : Triple.read kind text = .error fault) :
    Missing c line fault := by
  unfold Triple.read at h
  dsimp only at h
  split at h
  · cases h
    exact trivial
  · split at h
    · cases h
    · cases h
    · cases h
    · cases h
      exact trivial

theorem missing_of_item (h : Item.read line = .error fault) : Missing c line fault := by
  unfold Item.read Item.readDeclaration at h
  dsimp only at h
  split at h
  · cases h
  · cases h
  · split at h
    · cases h
      exact trivial
    · cases h
  · split at h
    · cases h
    · cases h
      exact trivial
    · cases h

theorem missing_of_readPackage {directive : Option Text} {text : Text}
    (h : Declaration.readPackage directive text = .error fault) : Missing c line fault := by
  unfold Declaration.readPackage at h
  split at h
  · cases h
    exact trivial
  · rcases bind_eq_error_iff.mp h with unnamed | ⟨_, _, h⟩
    · exact missing_of_readTriple unnamed
    · cases h

theorem missing_of_readClass {directive : Option Text} {text : Text} (is : IsClassLine line)
    (h : Declaration.readClass c directive text = .error fault) : Missing c line fault := by
  unfold Declaration.readClass at h
  split at h
  · next outside =>
    cases h
    exact ⟨is, outside⟩
  · rcases bind_eq_error_iff.mp h with unnamed | ⟨_, _, h⟩
    · exact missing_of_readTriple unnamed
    · dsimp only at h
      split at h
      · cases h
      · split at h
        · cases h
          exact trivial
        · cases h

theorem missing_of_readField {owner : Triple} {directive : Option Text} {text : Text}
    (h : Declaration.readField owner directive text = .error fault) : Missing c line fault := by
  rcases bind_eq_error_iff.mp h with unnamed | ⟨_, _, h⟩
  · exact missing_of_readTriple unnamed
  · cases h

theorem missing_of_readMethod {owner : Triple} {kind : Kind} {directive : Option Text} {text : Text}
    (h : Declaration.readMethod owner kind directive text = .error fault) : Missing c line fault := by
  unfold Declaration.readMethod at h
  split at h
  · cases h
    exact trivial
  · next name word _ =>
    rcases bind_eq_error_iff.mp h with invalid | ⟨_, _, h⟩
    · unfold Descriptor.readWord at invalid
      cases read : Descriptor.read word with
      | error e =>
        rw [read] at invalid
        cases invalid
        exact trivial
      | ok d =>
        rw [read] at invalid
        cases invalid
    · rcases bind_eq_error_iff.mp h with unnamed | ⟨_, _, h⟩
      · exact missing_of_readTriple unnamed
      · cases h

theorem missing_of_readMember {directive : Option Text} (is : IsMemberLine line)
    (h : Declaration.readMember c directive (declaredBy line) = .error fault) : Missing c line fault := by
  unfold Declaration.readMember at h
  dsimp only at h
  split at h
  · next outside =>
    cases h
    exact ⟨is, outside, rfl⟩
  · have refused := map_eq_error_iff.mp h
    split at refused
    · exact missing_of_readField refused
    · exact missing_of_readMethod refused

/-- A line is refused for what stands above it only if it has to be in something that the context lacks. -/
theorem missing_of_ownLine (h : ownLine c line = .error fault) : Missing c line fault := by
  unfold ownLine at h
  split at h
  · next item =>
    cases h
    exact missing_of_item item
  · next depth directive text item =>
    obtain ⟨declares, _, rfl, rfl, rfl⟩ := Item.read_eq_declaration_iff.mp item
    unfold Declaration.read at h
    split at h
    · exact missing_of_readPackage h
    · next first => exact missing_of_readClass ⟨declares, first⟩ h
    · next notMargin notFirst => exact missing_of_readMember (declares.isMemberLine notMargin notFirst) h
  · cases h

end
end SymbolMap.Outline
