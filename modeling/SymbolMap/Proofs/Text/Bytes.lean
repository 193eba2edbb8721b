import SymbolMap.Proofs.Text.Cut

/-!
Texts that are cut at positions given in bytes, of which a character takes one to four.

* `byteSize_append`: the bytes of a text are those of its parts;
* `splitBytes?_eq_some_iff`: a cut succeeds exactly at the end of a character, and loses nothing;
* `sliceFrom?_append`, `slice?_append`: so the parts of a text are found again where they begin and end;
* `findByte?_append_cons`: a separator is found where the text before it ends.
-/
namespace SymbolMap.Text

theorem byteSize_append (a b : Text) : byteSize (a ++ b) = byteSize a + byteSize b := by
  have counted : ∀ (n : Nat) (t : Text), t.foldl (fun n c => n + c.utf8Size) n = n + byteSize t := by
    intro n t
    unfold byteSize
    induction t generalizing n with
    | nil => rfl
    | cons c t ih => rw [List.foldl_cons, List.foldl_cons, ih, ih (0 + c.utf8Size), Nat.zero_add, Nat.add_assoc]
  have whole := counted (byteSize a) b
  unfold byteSize at whole ⊢
  rw [List.foldl_append, whole]

theorem byteSize_cons (c : Char) (t : Text) : byteSize (c :: t) = c.utf8Size + byteSize t := by
  have single : byteSize [c] = c.utf8Size := Nat.zero_add _
  rw [← List.singleton_append, byteSize_append, single]

theorem byteSize_replicate {c : Char} (small : c.utf8Size = 1) (n : Nat) :
    byteSize (List.replicate n c) = n := by
  induction n with
  | zero => rfl
  | succ n ih => rw [List.replicate_succ, byteSize_cons, ih, small, Nat.add_comm]

/-- The first `n` bytes and what follows them. There is nothing to give if the text is shorter, or if a
character goes on there. -/
def splitBytes? : Nat → Text → Option (Text × Text)
  | 0, t => some ([], t)
  | _ + 1, [] => none
  | n + 1, c :: t =>
    if c.utf8Size ≤ n + 1 then (splitBytes? (n + 1 - c.utf8Size) t).map fun (a, b) => (c :: a, b)
    else none

/-- The bytes from `start` on. -/
def sliceFrom? (start : Nat) (t : Text) : Option Text :=
  (splitBytes? start t).map (·.2)

/-- The bytes from `start` on that come before `stop`. -/
def slice? (start stop : Nat) (t : Text) : Option Text :=
  (splitBytes? stop t).bind fun (upTo, _) => sliceFrom? start upTo

/-- The position of the first `c`. -/
def findByte? (c : Char) (t : Text) : Option Nat :=
  if c ∈ t then some (byteSize (t.takeWhile (· != c))) else none

theorem splitBytes?_eq_some_iff {n : Nat} {t a b : Text} :
    splitBytes? n t = some (a, b) ↔ t = a ++ b ∧ byteSize a = n := by
  fun_induction splitBytes? n t generalizing a with
  | case1 t =>
    constructor
    · intro is
      cases is
      exact ⟨rfl, rfl⟩
    · rintro ⟨rfl, none⟩
      cases a with
      | nil => rfl
      | cons c a =>
        have := c.utf8Size_pos
        rw [byteSize_cons] at none
        omega
  | case2 n =>
    refine ⟨nofun, ?_⟩
    rintro ⟨is, size⟩
    obtain ⟨rfl, _⟩ := List.append_eq_nil_iff.mp is.symm
    cases size
  | case3 n c t fits ih =>
    rw [Option.map_eq_some_iff]
    constructor
    · rintro ⟨⟨a', b'⟩, split, is⟩
      cases is
      obtain ⟨rfl, size⟩ := ih.mp split
      refine ⟨rfl, ?_⟩
      rw [byteSize_cons]
      omega
    · rintro ⟨is, size⟩
      cases a with
      | nil => cases size
      | cons d a =>
        obtain ⟨rfl, rfl⟩ := List.cons.inj is
        rw [byteSize_cons] at size
        exact ⟨(a, b), ih.mpr ⟨rfl, by omega⟩, rfl⟩
  | case4 n c t long =>
    refine ⟨nofun, ?_⟩
    rintro ⟨is, size⟩
    cases a with
    | nil => cases size
    | cons d a =>
      obtain ⟨rfl, _⟩ := List.cons.inj is
      rw [byteSize_cons] at size
      omega

theorem splitBytes?_append (a b : Text) : splitBytes? (byteSize a) (a ++ b) = some (a, b) :=
  splitBytes?_eq_some_iff.mpr ⟨rfl, rfl⟩

theorem sliceFrom?_append (a b : Text) : sliceFrom? (byteSize a) (a ++ b) = some b := by
  unfold sliceFrom?
  rw [splitBytes?_append]
  rfl

theorem slice?_append (a b c : Text) :
    slice? (byteSize a) (byteSize (a ++ b)) (a ++ b ++ c) = some b := by
  unfold slice?
  rw [splitBytes?_append]
  exact sliceFrom?_append a b

theorem findByte?_append_cons {c : Char} {before : Text} (first : c ∉ before) (after : Text) :
    findByte? c (before ++ c :: after) = some (byteSize before) := by
  unfold findByte?
  rw [if_pos (by simp), (span_append_cons after (forall_ne_of_not_mem first) (bne_self_eq_false c)).1]

theorem findByte?_of_not_mem {c : Char} {t : Text} (none : c ∉ t) : findByte? c t = .none :=
  if_neg none

end SymbolMap.Text
