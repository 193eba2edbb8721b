import SymbolMap.Command.Run
import SymbolMap.Proofs.Dialect.Lines
import SymbolMap.Proofs.Table.Size

/-!
How many mappings a file brings.

* `Tells`: a load has made additions, and tells how many of them came in;
* `Dialect.tells_loadPath`: every load that succeeds is like that, in any dialect;
* `Command.exists_of_loadInputs`: the inputs before one have been loaded when its turn comes;
* `Command.loadAll_counts`: so each input adds as many entries as it tells, less those that it displaces, and what
  the command tells of the growth of the table is that difference in 64 bits;
* `Command.renaming_input_shrinks`: after an input that may overwrite a table can have fewer entries than before,
  and then more is told than there are numbers for.
-/
namespace SymbolMap

/-- The number of additions that a load tells of. -/
def Event.added? : Event → Option Nat
  | loadedFlat added | loadedSided added _ _ | loadedThreeWay added | loadedColumns added _ |
    loadedSheet added _ _ | loadedOutline added _ _ | loadedMembers added => some added
  | _ => none

/-- A load has made additions to a table, and tells how many of them came in. -/
structure Tells {α : Type} (overwrite : Bool) (t : Table) (steps : List Batch.Step) (l : Load α) : Prop where
  table : l.table = Batch.run overwrite t steps
  told : ∃ event ∈ l.events, event.added? = some (Batch.arrivals overwrite t steps).length

variable {t : Table} {overwrite : Bool}

theorem Tells.andTell {α : Type} {l : Load α} {steps : List Batch.Step} (h : Tells overwrite t steps l)
    (tell : α → Event) : Tells overwrite t steps (l.andTell tell) := by
  refine ⟨by rw [Load.table_andTell, h.table], ?_⟩
  obtain ⟨event, mem, is⟩ := h.told
  unfold Load.andTell
  split
  · exact ⟨event, List.mem_append_left _ mem, is⟩
  · exact ⟨event, mem, is⟩

/-- Rows that could all be read are counted as they come in. -/
theorem Progress.takeAll_counts (overwrite : Bool) {rows : List (Line × Except Fault Row)}
    (ok : ∀ row ∈ rows, row.2.isOk = true) (p : Progress) :
    let steps := (mappings rows).map fun (kind, e) => (kind, fun _ => e)
    (p.takeAll overwrite rows).1.table = Batch.run overwrite p.table steps ∧
      (p.takeAll overwrite rows).1.added = p.added + (Batch.arrivals overwrite p.table steps).length := by
  induction rows generalizing p with
  | nil => exact ⟨rfl, rfl⟩
  | cons first rows ih =>
    obtain ⟨here, later⟩ := List.forall_mem_cons.mp ok
    match first with
    | (_, .ok (.otherSide told)) => exact ih later (p.take overwrite (.otherSide told))
    | (_, .ok (.entry kind e)) =>
      obtain ⟨table, added⟩ := ih later (p.take overwrite (.entry kind e))
      refine ⟨table, added.trans ?_⟩
      dsimp only [mappings, List.filterMap_cons]
      rw [List.map_cons, Batch.length_arrivals_cons, ← Nat.add_assoc]
      rfl

namespace Dialect

theorem exists_added_told {d : Dialect} {text : Text} {rows : List (Line × Except Fault Row)}
    (given : d.rows? text = some rows) (p : Progress) : ∃ event ∈ d.told p, event.added? = some p.added := by
  cases d with
  | outline | memberLines => cases given
  | flat | sidedFlat _ | threeWay _ | columns _ | sheet _ => exact ⟨_, List.mem_cons_self, rfl⟩

theorem tells_loadRows {d : Dialect} {text : Text} {rows : List (Line × Except Fault Row)}
    (given : d.rows? text = some rows) (ok : (d.loadRows rows t overwrite).result = .ok ()) :
    ∃ steps, Tells overwrite t steps (d.loadRows rows t overwrite) := by
  obtain ⟨table, added⟩ := Progress.takeAll_counts overwrite (isOk_of_loadRows ok) { table := t }
  unfold loadRows at ok ⊢
  split at ok
  · next p is =>
    rw [is] at table added
    rw [Nat.zero_add] at added
    obtain ⟨event, mem, counts⟩ := exists_added_told given p
    exact ⟨_, table, event, List.mem_append_right _ mem, counts.trans (congrArg some added)⟩
  · cases ok

end Dialect

theorem Outline.tells_loadFrom {i : Importer} {base : Option Path} {seen : List Text} {text : Text}
    (ok : (loadFrom i base seen text t overwrite).result.isOk = true) :
    ∃ steps, Tells overwrite t steps (loadFrom i base seen text t overwrite) := by
  unfold loadFrom at ok ⊢
  split at ok
  · cases ok
  · dsimp only
    rw [Batch.addTo_eq]
    exact ⟨_, rfl, _, List.mem_append_right _ List.mem_cons_self, rfl⟩

theorem Outline.tells_loadPath {i : Importer} {disk : Disk} {path : Path}
    (ok : (loadPath i disk path t overwrite).result.isOk = true) :
    ∃ steps, Tells overwrite t steps (loadPath i disk path t overwrite) := by
  unfold loadPath at ok ⊢
  split at ok
  · cases ok
  · exact tells_loadFrom ok

theorem MemberLines.tells_load {text : Text} (ok : (load text t overwrite).result = .ok ()) :
    ∃ steps, Tells overwrite t steps (load text t overwrite) := by
  unfold load at ok ⊢
  split at ok
  · cases ok
  · rw [Batch.addTo_eq]
    exact ⟨_, rfl, _, List.mem_cons_self, rfl⟩

theorem Load.isOk_of_andTell {α : Type} {l : Load α} {tell : α → Event} (ok : (l.andTell tell).result = .ok ()) :
    l.result.isOk = true := by
  unfold andTell at ok
  split at ok
  · next is =>
    rw [is]
    rfl
  · cases ok

namespace Dialect

theorem tells_load {disk : Disk} {d : Dialect} {text : Text} (ok : (d.load disk text t overwrite).result = .ok ()) :
    ∃ steps, Tells overwrite t steps (d.load disk text t overwrite) := by
  unfold load at ok ⊢
  split at ok
  · next rows given => exact tells_loadRows given ok
  · split at ok
    · next isOutline =>
      rw [if_pos isOutline]
      obtain ⟨steps, tells⟩ := Outline.tells_loadFrom (Load.isOk_of_andTell ok)
      exact ⟨steps, tells.andTell _⟩
    · next other =>
      rw [if_neg other]
      exact MemberLines.tells_load ok

/-- A load that succeeds has made additions, and tells how many of them came in. -/
theorem tells_loadPath {disk : Disk} {d : Dialect} {path : Path}
    (ok : (d.loadPath disk path t overwrite).result = .ok ()) :
    ∃ steps, Tells overwrite t steps (d.loadPath disk path t overwrite) := by
  unfold loadPath at ok ⊢
  split at ok
  · next isOutline =>
    rw [if_pos isOutline]
    obtain ⟨steps, tells⟩ := Outline.tells_loadPath (Load.isOk_of_andTell ok)
    exact ⟨steps, tells.andTell _⟩
  · next other =>
    rw [if_neg other]
    split at ok
    · cases ok
    · exact tells_load ok

end Dialect

theorem Load.result_andTell (l : Load Unit) (tell : Unit → Event) : (l.andTell tell).result = l.result := by
  unfold andTell
  cases l.result <;> rfl

theorem Load.events_andTell {α : Type} {l : Load α} {a : α} (ok : l.result = .ok a) (tell : α → Event) :
    (l.andTell tell).events = l.events ++ [tell a] := by
  unfold andTell
  rw [ok]

/-- A difference without a sign, and what it takes to make it up again. -/
theorem toUInt64_sub_add {before after came went : Nat} (sum : after + went = before + came) :
    after.toUInt64 - before.toUInt64 + went.toUInt64 = came.toUInt64 := by
  have words : after.toUInt64 + went.toUInt64 = before.toUInt64 + came.toUInt64 := by
    rw [Nat.toUInt64, ← UInt64.ofNat_add, sum, UInt64.ofNat_add]
  grind

namespace Command

section
variable {load : Input → Table → Load Unit} {t t' : Table} {events events' : List Event}

theorem prefix_of_loadInputs {inputs : List Input} {e : Option LoadError}
    (h : loadInputs load t events inputs = (t', events', e)) : events <+: events' := by
  induction inputs generalizing t events with
  | nil =>
    cases h
    exact List.prefix_rfl
  | cons input inputs ih =>
    rw [loadInputs] at h
    split at h
    · cases h
      exact List.prefix_append _ _
    · exact (List.prefix_append _ _).trans (ih h)

/-- An input has its turn when those before it have been loaded, and what it tells is kept. -/
theorem exists_of_loadInputs {before after : List Input} {input : Input}
    (ok : loadInputs load t events (before ++ input :: after) = (t', events', none)) :
    ∃ u told, loadInputs load t events before = (u, told, none) ∧ (load input u).result = .ok () ∧
      told ++ (load input u).events <+: events' := by
  induction before generalizing t events with
  | nil =>
    rw [List.nil_append, loadInputs] at ok
    split at ok
    · cases ok
    · next is => exact ⟨t, events, rfl, is, prefix_of_loadInputs ok⟩
  | cons first before ih =>
    rw [List.cons_append, loadInputs] at ok
    rw [loadInputs]
    split at ok
    · cases ok
    · exact ih ok

theorem sound_of_loadInputs {inputs : List Input} (h : t.Sound)
    (keeps : ∀ input u, u.Sound → (load input u).result = .ok () → (load input u).table.Sound)
    (ok : loadInputs load t events inputs = (t', events', none)) : t'.Sound := by
  induction inputs generalizing t events with
  | nil =>
    cases ok
    exact h
  | cons input inputs ih =>
    rw [loadInputs] at ok
    split at ok
    · cases ok
    · next is => exact ih (keeps input t h is) ok

end

variable {disk : Disk}

/-- A load that is counted is the load, and at its end the growth of the table is told. -/
theorem loadCounted_of_ok {input : Input} {t : Table}
    (ok : (input.loadCounted disk overwrite t).result = .ok ()) :
    (input.load disk overwrite t).result = .ok () ∧
    (input.loadCounted disk overwrite t).table = (input.load disk overwrite t).table ∧
    (input.loadCounted disk overwrite t).events = (input.load disk overwrite t).events ++
      [.loadedInput ((input.load disk overwrite t).table.size.toUInt64 - t.size.toUInt64) input.path] := by
  have loaded : (input.load disk overwrite t).result = .ok () := (Load.result_andTell _ _).symm.trans ok
  exact ⟨loaded, Load.table_andTell _ _, Load.events_andTell loaded _⟩

theorem sound_loadCounted {input : Input} {t : Table} (sound : t.Sound)
    (ok : (input.loadCounted disk overwrite t).result = .ok ()) :
    (input.loadCounted disk overwrite t).table.Sound := by
  obtain ⟨loaded, table, _⟩ := loadCounted_of_ok ok
  obtain ⟨steps, tells⟩ := Dialect.tells_loadPath loaded
  rw [table, show (input.load disk overwrite t).table = _ from tells.table]
  exact Batch.sound_run overwrite sound steps

/-- Each input that is loaded adds what it tells of, and at most three entries have to go for each of these. If
nothing may be overwritten none has to, so the table has as many entries more as the input tells of. What the
command tells of the growth of the table is the difference in 64 bits. -/
theorem loadAll_counts {inputs : List Input} {threeWay : Bool} {t : Table} {events : List Event}
    (ok : loadAll disk inputs threeWay overwrite = (t, events, none)) (before : List Input) (input : Input)
    (after : List Input) (split : inputs = before ++ input :: after) :
    ∃ u told steps, loadInputs (·.loadCounted disk overwrite)
        (.empty (threeWay || inputs.any (·.dialect.hasIntermediate))) [] before = (u, told, none) ∧
      let l := input.dialect.loadPath disk input.path u overwrite
      let arrived := (Batch.arrivals overwrite u steps).length
      let departed := (Batch.departures overwrite u steps).length
      let grown := l.table.size.toUInt64 - u.size.toUInt64
      l.result = .ok () ∧ Tells overwrite u steps l ∧ l.table.size + departed = u.size + arrived ∧
        departed ≤ 3 * arrived ∧ (overwrite = false → l.table.size = u.size + arrived) ∧
        told ++ l.events ++ [.loadedInput grown input.path] <+: events ∧
        grown + departed.toUInt64 = arrived.toUInt64 ∧ (overwrite = false → grown = arrived.toUInt64) := by
  unfold loadAll at ok
  dsimp only at ok
  rw [split] at ok
  obtain ⟨u, told, loaded, own, kept⟩ := exists_of_loadInputs ok
  rw [← split] at loaded
  obtain ⟨own, _, counted⟩ := loadCounted_of_ok own
  rw [counted, ← List.append_assoc] at kept
  obtain ⟨steps, tells⟩ := Dialect.tells_loadPath own
  have sound := sound_of_loadInputs (Table.sound_of_empty _) (fun _ _ => sound_loadCounted) loaded
  have size := Batch.size_run overwrite sound steps
  rw [← tells.table] at size
  have grown := toUInt64_sub_add size
  refine ⟨u, told, steps, loaded, own, tells, size, Batch.length_departures_le overwrite sound steps, ?_, kept,
    grown, ?_⟩
  · rintro rfl
    rw [Batch.departures_of_not_overwriting] at size
    exact size
  · rintro rfl
    rw [Batch.departures_of_not_overwriting] at grown
    exact (UInt64.add_zero _).symm.trans grown

/-- Two classes, and a file that gives the name of the second to the first. -/
def renamingDisk : Disk :=
  .ofFiles [(⟨"a.obf".toList⟩, .text "CLASS:a=x\nCLASS:b=y\n".toList),
    (⟨"b.obf".toList⟩, .text "CLASS:a=y\n".toList)]

def firstInput : Input := ⟨.flat, ⟨"a.obf".toList⟩⟩

def renamingInput : Input := ⟨.flat, ⟨"b.obf".toList⟩⟩

/-- The table when the second input has its turn. -/
def tableBefore : Table := (firstInput.load renamingDisk true (.empty false)).table

def renamingLoad : Load Unit :=
  renamingInput.dialect.loadPath renamingDisk renamingInput.path tableBefore true

/-- One entry comes in, and both that were there have to go. -/
theorem loadAll_counts_renaming :
    ∃ t events steps, loadAll renamingDisk [firstInput, renamingInput] false true = (t, events, none) ∧
      renamingLoad.table.size + (Batch.departures true tableBefore steps).length = 3 ∧
      (Batch.arrivals true tableBefore steps).length = 1 ∧
      (Batch.departures true tableBefore steps).length = 2 ∧
      ∃ grown, .loadedInput grown renamingInput.path ∈ events ∧ grown + 2 = 1 := by
  have none : (loadAll renamingDisk [firstInput, renamingInput] false true).2.2 = .none := by decide +kernel
  have ok : loadAll renamingDisk [firstInput, renamingInput] false true = (_, _, .none) :=
    Prod.ext rfl (Prod.ext rfl none)
  obtain ⟨u, told, steps, loaded, _, tells, size, _, _, kept, grown, _⟩ :=
    loadAll_counts ok [firstInput] renamingInput [] rfl
  obtain rfl : tableBefore = u := congrArg (·.1) loaded
  have events : renamingLoad.events = [.loadedFlat 1] := by decide +kernel
  have sizes : tableBefore.size = 2 ∧ renamingLoad.table.size = 1 := by decide +kernel
  have arrived : (Batch.arrivals true tableBefore steps).length = 1 := by
    obtain ⟨event, mem, counts⟩ := tells.told
    have only : event ∈ renamingLoad.events := mem
    rw [events, List.mem_singleton] at only
    rw [only] at counts
    exact (Option.some.inj counts).symm
  have sum : renamingLoad.table.size + (Batch.departures true tableBefore steps).length =
      tableBefore.size + (Batch.arrivals true tableBefore steps).length := size
  have departed : (Batch.departures true tableBefore steps).length = 2 := by omega
  rw [arrived, departed] at grown
  exact ⟨_, _, steps, ok, by omega, arrived, departed, _, kept.subset (by simp), grown⟩

/-- An input that may overwrite can leave fewer entries than there were. What is told of the growth of the table is
then more than any table can hold. -/
theorem renaming_input_shrinks :
    (loadAll renamingDisk [firstInput, renamingInput] false true).2 =
      ([.loadedFlat 2, .loadedInput 2 firstInput.path, .loadedFlat 1,
        .loadedInput 18446744073709551615 renamingInput.path], none) ∧
    renamingLoad.result.isOk = true ∧ ¬tableBefore.size ≤ renamingLoad.table.size := by
  decide +kernel

end Command
end SymbolMap
