import SymbolMap.MemberName
import SymbolMap.Proofs.Text.Cut

/-!
Member names that were put together from their parts.

* `splitDescriptor_append`, `splitDescriptor_of_no_space`: the descriptor after the last space;
* `splitDescriptor_cases`: a name either ends in a descriptor or does not;
* `splitOwner_append`, `splitOwner_of_no_separator`: the owner before the last dot;
* `splitLocal_append`, `splitLocal_ends`: the local name after the last separator;
* `qualify_splitOwner`: a name is its local name inside its owner;
* `mem_qualify`, `getLast?_qualify`: the characters of a name inside an owner, and its end;
* `owner_prefix`, `local_suffix`: the owner stands first in a name, and the local name last;
* `dotted_slashed`, `slashed_dotted`: slashes instead of dots lose nothing if there were no slashes before, and
  dots instead of slashes nothing if there were no dots.
-/
namespace SymbolMap.MemberName

theorem splitDescriptor_append (name : Text) {word rest : Text} (is : word = '(' :: rest)
    (h : ' ' ∉ word) : splitDescriptor (name ++ ' ' :: word) = (name, some word) := by
  have last : ∀ c ∈ word, (c == ' ') = false :=
    fun _ hc => beq_eq_false_iff_ne.mpr fun eq => h (eq ▸ hc)
  have split := Text.cutLast_append_cons (p := (· == ' ')) name (beq_self_eq_true ' ') last
  unfold splitDescriptor
  rw [split, is]
  rfl

theorem splitDescriptor_of_no_space {name : Text} (h : ' ' ∉ name) :
    splitDescriptor name = (name, none) := by
  have no : ∀ c ∈ name, (c == ' ') = false :=
    fun _ hc => beq_eq_false_iff_ne.mpr fun eq => h (eq ▸ hc)
  unfold splitDescriptor
  rw [Text.cutLast_of_none no]

/-- What the last word of a name has to be like for it to be a descriptor. -/
def Describes (word : Text) : Prop :=
  word.head? = some '(' ∧ ' ' ∉ word

theorem splitDescriptor_of_describes (name : Text) {word : Text} (h : Describes word) :
    splitDescriptor (name ++ ' ' :: word) = (name, some word) := by
  obtain ⟨start, noSpace⟩ := h
  obtain ⟨rest, is⟩ := List.head?_eq_some_iff.mp start
  exact splitDescriptor_append name is noSpace

/-- A name either ends in a descriptor, after a space, or it does not and is kept whole. -/
theorem splitDescriptor_cases (name : Text) :
    (∃ before word, name = before ++ ' ' :: word ∧ Describes word ∧
      splitDescriptor name = (before, some word)) ∨
    (∀ before word, Describes word → name ≠ before ++ ' ' :: word) ∧
      splitDescriptor name = (name, none) := by
  rcases Text.no_or_last (· == ' ') name with no | ⟨before, c, word, hc, rfl, last⟩
  · have noSpace : ' ' ∉ name := fun mem => by simpa using no ' ' mem
    refine .inr ⟨fun before word _ is => noSpace (by simp [is]), splitDescriptor_of_no_space noSpace⟩
  · obtain rfl : c = ' ' := by simpa using hc
    have noSpace : ' ' ∉ word := fun mem => by simpa using last ' ' mem
    by_cases start : word.head? = some '('
    · exact .inl ⟨before, word, rfl, ⟨start, noSpace⟩,
        splitDescriptor_of_describes before ⟨start, noSpace⟩⟩
    · refine .inr ⟨fun before' word' describes is => ?_, ?_⟩
      · -- The last space of a name is the same whichever way the name is put together.
        have here := Text.cutLast_append_cons (p := (· == ' ')) before hc last
        have last' : ∀ x ∈ word', (x == ' ') = false :=
          fun _ hx => beq_eq_false_iff_ne.mpr fun eq => describes.2 (eq ▸ hx)
        have there := Text.cutLast_append_cons (p := (· == ' ')) before' hc last'
        rw [is, there] at here
        obtain ⟨_, same⟩ := Prod.mk.inj (Option.some.inj here)
        exact start (same ▸ describes.1)
      · unfold splitDescriptor
        rw [Text.cutLast_append_cons (p := (· == ' ')) before hc last]
        split
        · next found =>
          obtain ⟨_, rfl⟩ := Prod.mk.inj (Option.some.inj found)
          exact absurd rfl start
        · rfl

theorem isSeparator_eq_false_iff {c : Char} : isSeparator c = false ↔ c ≠ '.' ∧ c ≠ ' ' := by
  simp [isSeparator]

theorem splitOwner_append (owner : Text) {name : Text} (h : ∀ c ∈ name, isSeparator c = false) :
    splitOwner (owner ++ '.' :: name) = (some owner, name) := by
  unfold splitOwner
  rw [Text.cutLast_append_cons owner rfl h]

theorem splitOwner_of_no_separator {name : Text} (h : ∀ c ∈ name, isSeparator c = false) :
    splitOwner name = (none, name) := by
  unfold splitOwner
  rw [Text.cutLast_of_none h]

/-- A name that neither has a space nor starts with a dot is its local name inside its owner. -/
theorem qualify_splitOwner {name : Text} (noSpace : ' ' ∉ name) (start : name.head? ≠ some '.') :
    qualify ((splitOwner name).1.getD []) (splitOwner name).2 = name := by
  rcases Text.no_or_last isSeparator name with no | ⟨before, c, after, hc, rfl, last⟩
  · rw [splitOwner_of_no_separator no]
    rfl
  · have dot : c = '.' := by
      have either : c = '.' ∨ c = ' ' := by simpa [isSeparator] using hc
      exact either.resolve_right fun eq => noSpace (by simp [eq])
    subst dot
    rw [splitOwner_append before last]
    cases before with
    | nil => exact absurd rfl start
    | cons first rest => rfl

theorem splitOwner_cases (name : Text) :
    splitOwner name = (none, name) ∨ ∃ before c after,
      name = before ++ c :: after ∧ splitOwner name = (some before, after) := by
  rcases Text.no_or_last isSeparator name with no | ⟨before, c, after, hc, rfl, last⟩
  · exact .inl (splitOwner_of_no_separator no)
  · refine .inr ⟨before, c, after, rfl, ?_⟩
    unfold splitOwner
    rw [Text.cutLast_append_cons before hc last]

theorem owner_prefix (name : Text) : (splitOwner name).1.getD [] <+: name := by
  rcases splitOwner_cases name with is | ⟨before, c, after, rfl, is⟩
  · rw [is]
    exact List.nil_prefix
  · rw [is]
    exact List.prefix_append before (c :: after)

theorem local_suffix (name : Text) : (splitOwner name).2 <:+ name := by
  rcases splitOwner_cases name with is | ⟨before, c, after, rfl, is⟩
  · simp [is]
  · rw [is, List.append_cons]
    exact List.suffix_append (before ++ [c]) after

/-- A local name has no separators, and before it there is none or all that ends in one. -/
theorem splitLocal_append {owner name : Text} (ends : ∀ c ∈ owner.getLast?, isSeparator c = true)
    (h : ∀ c ∈ name, isSeparator c = false) : splitLocal (owner ++ name) = (owner, name) := by
  unfold splitLocal
  rcases List.eq_nil_or_concat owner with rfl | ⟨before, c, rfl⟩
  · exact Text.breakLast_of_none h
  · have hc : isSeparator c = true := ends c (by simp)
    rw [List.concat_eq_append, List.append_assoc, List.singleton_append]
    exact Text.breakLast_append_cons before hc h

theorem splitLocal_ends (name : Text) :
    (∀ c ∈ (splitLocal name).1.getLast?, isSeparator c = true) ∧
      ∀ c ∈ (splitLocal name).2, isSeparator c = false := by
  unfold splitLocal
  rcases Text.no_or_last isSeparator name with no | ⟨before, c, after, hc, rfl, last⟩
  · rw [Text.breakLast_of_none no]
    exact ⟨by simp, no⟩
  · rw [Text.breakLast_append_cons before hc last]
    exact ⟨by simpa using hc, last⟩

/-! ## Names inside owners -/

theorem mem_qualify {owner name : Text} {c : Char} (h : c ∈ qualify owner name) :
    c ∈ owner ∨ c = '.' ∨ c ∈ name := by
  unfold qualify at h
  split at h
  · exact .inr (.inr h)
  · simpa using h

theorem qualify_ne_nil (owner : Text) {name : Text} (filled : name ≠ []) : qualify owner name ≠ [] := by
  unfold qualify
  split
  · exact filled
  · simp

theorem getLast?_qualify (owner : Text) {name : Text} (filled : name ≠ []) :
    (qualify owner name).getLast? = name.getLast? := by
  unfold qualify
  split
  · rfl
  · exact Text.getLast?_append_cons owner '.' filled

/-! ## Dots and slashes -/

theorem replaceChar_replaceChar {a b : Char} {t : Text} (h : b ∉ t) :
    Text.replaceChar b a (Text.replaceChar a b t) = t := by
  unfold Text.replaceChar
  rw [List.map_map]
  refine (List.map_congr_left fun c hc => ?_).trans (List.map_id' t)
  have other : c ≠ b := fun eq => h (eq ▸ hc)
  by_cases same : c = a
  · simp [same]
  · simp [same, other]

theorem dotted_slashed {name : Text} (h : '/' ∉ name) : dotted (slashed name) = name :=
  replaceChar_replaceChar h

theorem slashed_dotted {name : Text} (h : '.' ∉ name) : slashed (dotted name) = name :=
  replaceChar_replaceChar h

theorem dotted_of_not_mem {name : Text} (h : '/' ∉ name) : dotted name = name := by
  unfold dotted Text.replaceChar
  refine (List.map_congr_left fun c hc => ?_).trans (List.map_id' name)
  have other : c ≠ '/' := fun eq => h (eq ▸ hc)
  exact if_neg other

theorem slash_mem_slashed {name : Text} (h : '.' ∈ name) : '/' ∈ slashed name :=
  List.mem_map.mpr ⟨'.', h, rfl⟩

theorem mem_slashed {c : Char} {name : Text} (h : c ∈ slashed name) : c = '/' ∨ c ∈ name := by
  obtain ⟨x, hx, rfl⟩ := List.mem_map.mp h
  split
  · exact .inl rfl
  · exact .inr hx

end SymbolMap.MemberName
