import SymbolMap.Proofs.Batch.Order
import SymbolMap.Proofs.Outline.Independence
import SymbolMap.Proofs.Outline.ToThreeWay
import SymbolMap.Proofs.Text.Numbered

/-!
Outlines without imports that are loaded in one text.

* `ownLine_of_start`: a line that can be read at the start of a text does not ask what stands above it;
* `ownLines_of_start`: so lines that can be read by themselves come to the same after any others;
* `readText_append`: two texts in one declare what they declare by themselves;
* `loads_in_either_order`: where only equal entries share a name it does not matter which text comes first.
-/
namespace SymbolMap.Outline

/-! ## Lines that can be read by themselves -/

/-- A line at the start of a text has no package and no class to be in. If it can be read there it comes to the
same anywhere, or it declares nothing. -/
theorem ownLine_of_start {text : Text} {c' : Context} {ds : List Declaration}
    (h : ownLine {} text = .ok (c', ds)) :
    (∀ c, ownLine c text = .ok (c', ds)) ∨ c' = {} ∧ ds = [] ∧ ∀ c, ownLine c text = .ok (c, []) := by
  unfold ownLine at h ⊢
  cases item : Item.read text with
  | error fault =>
    rw [item] at h
    cases h
  | ok found =>
    rw [item] at h
    cases found with
    | nothing =>
      cases h
      exact .inr ⟨rfl, rfl, fun _ => rfl⟩
    | inclusion name =>
      cases h
      exact .inr ⟨rfl, rfl, fun _ => rfl⟩
    | declaration depth directive text =>
      -- A package is read alike everywhere. Classes and members cannot be read without what they are in.
      match depth with
      | 0 => exact .inl fun _ => h
      | 1 => cases h
      | _ + 2 => cases h

theorem ownLines_of_start {lines : List Line} {own : List (List Declaration)}
    (h : ownLines {} lines = .ok own) (c : Context) : ownLines c lines = .ok own := by
  induction lines generalizing own c with
  | nil => exact h
  | cons line lines ih =>
    obtain ⟨c', here, later, first, rest, rfl⟩ := ownLines_cons_eq_ok_iff.mp h
    apply ownLines_cons_eq_ok_iff.mpr
    rcases ownLine_of_start first with anywhere | ⟨rfl, rfl, passed⟩
    · exact ⟨c', here, later, anywhere c, rest, rfl⟩
    · exact ⟨c, [], later, passed c, ih rest c, rfl⟩

theorem ownLines_append {c : Context} {lines more : List Line} {own own' : List (List Declaration)}
    (h : ownLines c lines = .ok own) (h' : ∀ c, ownLines c more = .ok own') :
    ownLines c (lines ++ more) = .ok (own ++ own') := by
  induction lines generalizing c own with
  | nil =>
    cases h
    exact h' c
  | cons line lines ih =>
    obtain ⟨c', here, later, first, rest, rfl⟩ := ownLines_cons_eq_ok_iff.mp h
    exact ownLines_cons_eq_ok_iff.mpr ⟨c', here, later ++ own', first, ih rest, rfl⟩

/-- What lines declare does not hang on their numbers. -/
theorem ownLines_map_later (k : Nat) {c : Context} {lines : List Line} {own : List (List Declaration)}
    (h : ownLines c lines = .ok own) : ownLines c (lines.map (Line.later k)) = .ok own := by
  induction lines generalizing c own with
  | nil => exact h
  | cons line lines ih =>
    obtain ⟨c', here, later, first, rest, rfl⟩ := ownLines_cons_eq_ok_iff.mp h
    exact ownLines_cons_eq_ok_iff.mpr ⟨c', here, later, first, ih rest, rfl⟩

/-! ## Texts without imports -/

section
variable {i : Importer} {base : Option Path} {seen : List Text} {a b text : Text}

theorem eq_nil_of_mem_importedAt_of_alone {importName : Text → Import} {lines : List Line}
    (alone : ∀ line ∈ lines, ∀ name, Item.read line.text ≠ .ok (.inclusion name)) (s : Imports) :
    ∀ ds ∈ importedAt importName s lines, ds = [] := by
  induction lines with
  | nil => exact fun ds mem => absurd mem List.not_mem_nil
  | cons line lines ih =>
    obtain ⟨here, later⟩ := List.forall_mem_cons.mp alone
    rw [importedAt_of_alone here]
    exact List.forall_mem_cons.mpr ⟨rfl, ih later⟩

theorem readText_of_alone (alone : importedNames text = []) : (readText i base seen text).2 =
    (ownLines {} (Text.numbered text)).map List.flatten := by
  have named := named_numbered fun name mem => alone ▸ mem
  apply readText_of_nothing
  exact eq_nil_of_mem_importedAt_of_alone
    (fun line mem name is => absurd (named line mem name is) List.not_mem_nil) { seen }

/-- Two texts in one declare what they declare by themselves. The package and the class that the first one
ends in have no part in the second. -/
theorem readText_append (ended : Text.Ended a) (aloneA : importedNames a = []) (aloneB : importedNames b = [])
    {dsA dsB : List Declaration} (hA : (readText i base seen a).2 = .ok dsA)
    (hB : (readText i base seen b).2 = .ok dsB) : (readText i base seen (a ++ b)).2 = .ok (dsA ++ dsB) := by
  have alone : importedNames (a ++ b) = [] := by
    rw [importedNames_eq, Text.lines_append ended, namesIn_append, ← importedNames_eq, ← importedNames_eq,
      aloneA, aloneB, List.append_nil]
  rw [readText_of_alone aloneA] at hA
  rw [readText_of_alone aloneB] at hB
  obtain ⟨ownA, linesA, rfl⟩ := map_eq_ok_iff.mp hA
  obtain ⟨ownB, linesB, rfl⟩ := map_eq_ok_iff.mp hB
  have after := fun c => ownLines_map_later (Text.lines a).length (ownLines_of_start linesB c)
  rw [readText_of_alone alone, Text.numbered_append ended, ownLines_append linesA after, ← List.flatten_append]
  rfl

end

/-! ## Loads -/

section
variable {i : Importer} {base : Option Path} {seen : List Text} {text : Text} {t : Table} {overwrite : Bool}

theorem exists_readText_of_loadFrom {r : Report}
    (loaded : (loadFrom i base seen text t overwrite).result = .ok r) :
    ∃ ds, (readText i base seen text).2 = .ok ds := by
  cases read : (readText i base seen text).2 with
  | error invalid =>
    rw [(loadFrom_eq_error_iff t overwrite).mpr ⟨invalid, read, rfl⟩] at loaded
    cases loaded
  | ok ds => exact ⟨ds, rfl⟩

theorem table_loadFrom_of_readText {ds : List Declaration} (read : (readText i base seen text).2 = .ok ds) :
    (loadFrom i base seen text t overwrite).table = ((Declaration.batch ds).addTo t overwrite).1 := by
  unfold loadFrom
  rcases found : readText i base seen text with ⟨s, invalid | ds'⟩
  · rw [found] at read
    cases read
  · rw [found] at read
    cases read
    rfl

end

/-- The entries that a text offers to a table while it is loaded, in the form that the table keeps and with their
descriptors resolved. -/
def offered (i : Importer) (base : Option Path) (seen : List Text) (text : Text) (t : Table)
    (overwrite : Bool) : List (Kind × Entry) :=
  match (readText i base seen text).2 with
  | .error _ => []
  | .ok ds => Batch.offers overwrite t (Declaration.batch ds).steps

/-- Texts without imports that can be loaded by themselves can be loaded as one, whichever comes first. If only
equal entries of a kind share a name the same entries come of it, also where methods of the one have classes of
the other in their descriptors. -/
theorem loads_in_either_order (i : Importer) (base : Option Path) (seen : List Text) (overwrite : Bool)
    {a b : Text} (endedA : Text.Ended a) (endedB : Text.Ended b)
    (aloneA : importedNames a = []) (aloneB : importedNames b = [])
    (loadsA : ∃ r, (loadFrom i base seen a (.empty true) overwrite).result = .ok r)
    (loadsB : ∃ r, (loadFrom i base seen b (.empty true) overwrite).result = .ok r)
    (consistent : ∀ kind, Consistent
      (Table.ofKind kind (offered i base seen (a ++ b) (.empty true) overwrite))) :
    let ab := loadFrom i base seen (a ++ b) (.empty true) overwrite
    let ba := loadFrom i base seen (b ++ a) (.empty true) overwrite
    (∃ r, ab.result = .ok r) ∧ (∃ r, ba.result = .ok r) ∧
      ∀ kind, (ab.table.entries kind).Perm (ba.table.entries kind) := by
  obtain ⟨_, loadedA⟩ := loadsA
  obtain ⟨_, loadedB⟩ := loadsB
  obtain ⟨dsA, readA⟩ := exists_readText_of_loadFrom loadedA
  obtain ⟨dsB, readB⟩ := exists_readText_of_loadFrom loadedB
  have readAB := readText_append endedA aloneA aloneB readA readB
  have readBA := readText_append endedB aloneB aloneA readB readA
  obtain ⟨rAB, loadedAB, _⟩ := loadFrom_of_readText (.empty true) overwrite readAB
  obtain ⟨rBA, loadedBA, _⟩ := loadFrom_of_readText (.empty true) overwrite readBA
  have waits := waits_of_neat (neat_of_readText (Prod.ext rfl readAB))
  -- Either text declares the same, so the declarations of the two orders differ in their order only.
  have swapped : (dsA ++ dsB).Perm (dsB ++ dsA) := List.perm_append_comm
  unfold offered at consistent
  rw [readAB] at consistent
  refine ⟨⟨rAB, loadedAB⟩, ⟨rBA, loadedBA⟩, fun kind => ?_⟩
  rw [table_loadFrom_of_readText readAB, table_loadFrom_of_readText readBA]
  exact Batch.entries_addTo_perm overwrite (swapped.filterMap _) (swapped.filterMap _) waits
    (Table.sound_of_empty true) consistent kind

/-- Two texts with parts of one package and of one class, and a method in each that has a class of the other. -/
def runText : Text := "a:p\n\tb:C\n\t\tm:run (Lp/D;)V\n".toList

def goText : Text := "a:p # again\n\tb:C\n\t\tf:go (Lp/C;)Lp/E;\n\td:D\n".toList

def runEntry : Entry :=
  .threeWay "a.b.m (La/d;)V".toList "p.C.run (Lp/D;)V".toList "p.C.run (Lp/D;)V".toList

def goEntry : Entry :=
  .threeWay "a.b.f (La/b;)Lp/E;".toList "p.C.go (Lp/C;)Lp/E;".toList "p.C.go (Lp/C;)Lp/E;".toList

theorem loads_in_either_order_crossed :
    let first := loadFrom .empty none [] (runText ++ goText) (.empty true) false
    let second := loadFrom .empty none [] (goText ++ runText) (.empty true) false
    (∃ r, first.result = .ok r) ∧ (∃ r, second.result = .ok r) ∧
    (∀ kind, (first.table.entries kind).Perm (second.table.entries kind)) ∧
    first.table.entries .method = [runEntry, goEntry] ∧
    second.table.entries .method = [goEntry, runEntry] := by
  have runs : ∃ r, (loadFrom .empty none [] runText (.empty true) false).result = .ok r :=
    error?_eq_none_iff.mp (by decide +kernel)
  have goes : ∃ r, (loadFrom .empty none [] goText (.empty true) false).result = .ok r :=
    error?_eq_none_iff.mp (by decide +kernel)
  have consistent : ∀ kind, Consistent
      (Table.ofKind kind (offered .empty none [] (runText ++ goText) (.empty true) false)) := by
    intro kind
    cases kind <;> decide +kernel
  have ended : Text.Ended runText ∧ Text.Ended goText := by decide +kernel
  have alone : importedNames runText = [] ∧ importedNames goText = [] := by decide +kernel
  obtain ⟨first, second, same⟩ :=
    loads_in_either_order .empty none [] false ended.1 ended.2 alone.1 alone.2 runs goes consistent
  exact ⟨first, second, same, by decide +kernel, by decide +kernel⟩

end SymbolMap.Outline
