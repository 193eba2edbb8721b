import SymbolMap.Command.Run
import SymbolMap.Dialect.Storing
import SymbolMap.Proofs.Files.Disk
import SymbolMap.Proofs.Listing

/-!
The files that a run of the command changes.

* `Dialect.storeWithin_eq_ok_iff`: a dialect can write every table where there is room for it;
* `Stored`: a disk to which a table has been written, and to which nothing else has been done;
* `Ends`, `ends_perform`: a run writes its output at last, when nothing can fail any more;
* `run_changes_only_output`: so a run of the command either fails and leaves the disk as it is or changes its
  output only.
-/
namespace SymbolMap

/-- No table is too hard to write: only room for the text can be missing. -/
theorem Dialect.storeWithin_eq_ok_iff (d : Dialect) (t : Table) (limit : Nat) :
    (d.storeWithin limit t).2 = .ok () ↔ Text.byteSize (d.store t) ≤ limit := by
  unfold storeWithin store
  constructor
  · intro ok
    apply Listing.fits_of_eventsWithin
    split at ok
    · next is => rw [is]
    · cases ok
  · intro fits
    rw [Listing.eventsWithin_of_fits fits]

namespace Command

/-- The file that is to be written. -/
def Invocation.out? : Invocation → Option Path
  | .convert _ _ out _ _ => some out
  | .generate _ out _ => some out
  | .dump .. => none

/-- A table has been written to the file that a path leads to. What is at any other place is as it was. -/
structure Stored (before : Disk) (out : Path) (d : Dialect) (t : Table) (after : Disk) : Prop where
  target : ∃ place, before.target out = .ok place ∧ after = before.write place (d.store t)
  read : after.read out = .ok (d.store t)
  others : ∀ path place, before.locate path = .ok place → before.target out ≠ .ok place →
    after.read path = before.read path
  nodes : ∀ place, before.target out ≠ .ok place → after.node place = before.node place

/-- How a run ends that is to write a file, or none. -/
inductive Ends (before : Disk) : Option Path → Outcome → Prop
  | failed {out? : Option Path} {o : Outcome} (code : o.code ≠ 0) (same : o.disk = before) : Ends before out? o
  | printed {o : Outcome} (same : o.disk = before) : Ends before none o
  | stored {out : Path} {o : Outcome} (code : o.code = 0) (d : Dialect) (t : Table)
      (stored : Stored before out d t o.disk) : Ends before (some out) o

/-- A file is written when nothing can fail any more. -/
theorem ends_storeTo (disk : Disk) (d : Dialect) (t : Table) (out : Path) (events : List Event)
    (done : Event) : Ends disk (some out) (storeTo disk d t out events done) := by
  unfold storeTo
  cases target : disk.target out with
  | error e => exact .failed Nat.one_ne_zero rfl
  | ok place =>
    have apart : ∀ {other}, disk.target out ≠ .ok other → other ≠ place :=
      fun elsewhere same => elsewhere (target.trans (congrArg Except.ok same.symm))
    exact .stored rfl d t {
      target := ⟨place, target, rfl⟩
      read := Disk.read_write target _
      others := fun path other located elsewhere => Disk.read_write_of_ne target _ located (apart elsewhere)
      nodes := fun other elsewhere => Disk.node_write_of_ne target _ (apart elsewhere) }

section
variable {before : Disk} {out? : Option Path} {o : Outcome} (h : Ends before out? o)
include h

theorem Ends.same_of_failed (fails : o.code ≠ 0) : o.disk = before := by
  cases h with
  | failed _ same => exact same
  | printed same => exact same
  | stored code => exact absurd code fails

theorem Ends.of_ok (ok : o.code = 0) :
    (out? = none → o.disk = before) ∧ ∀ out, out? = some out → ∃ d t, Stored before out d t o.disk := by
  cases h with
  | failed code => exact absurd ok code
  | printed same => exact ⟨fun _ => same, nofun⟩
  | stored _ d t stored =>
    refine ⟨nofun, ?_⟩
    rintro _ ⟨rfl⟩
    exact ⟨d, t, stored⟩

end

theorem ends_perform (disk : Disk) (invocation : Invocation) :
    Ends disk invocation.out? (perform disk invocation) := by
  cases invocation with
  | convert inputs dialect out threeWay overwrite =>
    rw [perform]
    split
    · exact .failed Nat.one_ne_zero rfl
    · exact ends_storeTo disk dialect _ out _ _
  | generate dir out side =>
    rw [perform]
    split
    · exact .failed Nat.one_ne_zero rfl
    · split
      · exact .failed Nat.one_ne_zero rfl
      · exact ends_storeTo disk _ _ out _ _
  | dump inputs threeWay =>
    rw [perform]
    split
    · exact .failed Nat.one_ne_zero rfl
    · exact .printed rfl

/-- A run that fails, at whatever step, leaves the disk as it is, and so does one that prints mappings or help.
A run that succeeds and has an output to write has written it, and what is at any other place or path is as it
was. Whatever the mappings are, the dialects can write them to a file that takes their text. -/
theorem run_changes_only_output (disk : Disk) (arguments : List Text) :
    let o := run disk arguments
    (o.code ≠ 0 → o.disk = disk) ∧
    (o.code = 0 → ∀ invocation, readArguments arguments = .ok (some invocation) →
      (invocation.out? = none → o.disk = disk) ∧
      ∀ out, invocation.out? = some out → ∃ d t, Stored disk out d t o.disk) ∧
    (readArguments arguments = .ok none → o.code = 0 ∧ o.disk = disk) ∧
    ∀ (d : Dialect) (t : Table) (limit : Nat),
      (d.storeWithin limit t).2 = .ok () ↔ Text.byteSize (d.store t) ≤ limit := by
  refine ⟨?_, ?_, ?_, Dialect.storeWithin_eq_ok_iff⟩
  · intro fails
    unfold run at fails ⊢
    split at fails
    · rfl
    · rfl
    · exact (ends_perform disk _).same_of_failed fails
  · intro ok invocation given
    unfold run at ok ⊢
    rw [given] at ok ⊢
    exact (ends_perform disk invocation).of_ok ok
  · intro help
    unfold run
    rw [help]
    exact ⟨rfl, rfl⟩

def smallDisk : Disk :=
  .ofFiles [(⟨"a.obf".toList⟩, .text "CLASS:a=x\n".toList), (⟨"b/c".toList⟩, .binary)]

/-- Converts the names on `smallDisk`. -/
def conversion (out : String) : List Text :=
  ["convert".toList, "obf=a.obf".toList, "--to".toList, "blobf".toList, "--out".toList, out.toList]

/-- No file can be in a file, and in a directory one can. -/
theorem run_changes_only_output_converting :
    (run smallDisk (conversion "b/c/x")).code ≠ 0 ∧
    (run smallDisk (conversion "b/c/x")).disk = smallDisk ∧
    (run smallDisk (conversion "b/x")).code = 0 ∧
    ∃ d t, Stored smallDisk ⟨"b/x".toList⟩ d t (run smallDisk (conversion "b/x")).disk ∧
      d.store t = "CLASS:a:x:x\n".toList := by
  have fails : (run smallDisk (conversion "b/c/x")).code ≠ 0 := by decide +kernel
  have ok : (run smallDisk (conversion "b/x")).code = 0 := by decide +kernel
  have given : readArguments (conversion "b/x") =
      .ok (some (.convert [⟨.flat, ⟨"a.obf".toList⟩⟩] (.threeWay false) ⟨"b/x".toList⟩ false false)) :=
    toOption_eq_some_iff.mp (by decide +kernel)
  have written : (run smallDisk (conversion "b/x")).disk.read ⟨"b/x".toList⟩ = .ok "CLASS:a:x:x\n".toList :=
    toOption_eq_some_iff.mp (by decide +kernel)
  obtain ⟨d, t, stored⟩ :=
    ((run_changes_only_output smallDisk (conversion "b/x")).2.1 ok _ given).2 _ rfl
  exact ⟨fails, (run_changes_only_output smallDisk (conversion "b/c/x")).1 fails, ok, d, t, stored,
    Except.ok.inj (stored.read.symm.trans written)⟩

end Command
end SymbolMap
