import SymbolMap.Proofs.Dialect.Lines
import SymbolMap.Proofs.Outcome

/-!
The flat dialects, whose lines are read back from what is written.

* `of_splitLine`: what the parts of a line are like;
* `splitLine_render`: a line that was written has the parts that it was made of;
* `Head.readsAs`: it is read as its entry;
* `restores_of_load_flat`: what is written for a table that was loaded gives the same entries again.
-/
namespace SymbolMap.Flat

/-- The names can stand on a line and are found again on it. The first one ends at an equals sign, and the
second one at the end of the line. -/
structure Writable (obf deobf : Text) : Prop where
  filled : obf ≠ [] ∧ deobf ≠ []
  first : '=' ∉ obf
  last : ∀ c ∈ deobf.getLast?, isBlank c = false
  whole : '\n' ∉ obf ∧ '\n' ∉ deobf

/-! ## The parts of a line -/

theorem of_splitNames {names obf deobf : Text} (h : splitNames names = .ok (obf, deobf)) :
    '=' ∉ obf ∧ ∃ sep, names = obf ++ sep :: deobf := by
  unfold splitNames at h
  split at h
  · next pair cut =>
    cases h
    obtain ⟨is, first⟩ := Text.eq_of_cut cut
    exact ⟨first, '=', is⟩
  · next none =>
    split at h
    · next pieces =>
      cases h
      have is : names = obf ++ ':' :: deobf := by
        have joined : List.intercalate [':'] (names.splitOn ':') = names := List.intercalate_splitOn ':'
        rw [← joined, pieces]
        simp
      refine ⟨fun mem => Text.not_mem_of_cut none ?_, ':', is⟩
      simp [is, mem]
    · cases h
    · cases h

/-- What stands before the first colon has none, and the names can be written. -/
theorem of_splitLine {line head obf deobf : Text} (whole : '\n' ∉ line)
    (h : splitLine line = .ok (head, obf, deobf)) :
    ':' ∉ head ∧ '\n' ∉ head ∧ Writable obf deobf := by
  unfold splitLine at h
  split at h
  · cases h
  next head' names cut =>
  obtain ⟨⟨obf', deobf'⟩, found, named⟩ := bind_eq_ok_iff.mp h
  obtain ⟨first, sep, rfl⟩ := of_splitNames found
  obtain ⟨is, noColon⟩ := Text.eq_of_cut cut
  dsimp only at named
  split at named
  · cases named
  next filled =>
  cases named
  have inside : '\n' ∉ head ++ ':' :: (obf ++ sep :: deobf) := by
    intro mem
    rw [← is] at mem
    exact whole (Text.mem_of_mem_trim mem)
  have names : obf ≠ [] ∧ deobf ≠ [] := by simpa using filled
  -- The second name goes to the end of what is left after the white space has been taken away.
  have last : ∀ c ∈ deobf.getLast?, isBlank c = false := by
    intro c hc
    apply Text.isBlank_of_mem_getLast?_trim (t := line)
    rw [is]
    simp only [Option.mem_def] at hc
    simp [List.getLast?_append, List.getLast?_cons, hc]
  simp only [List.mem_append, List.mem_cons, not_or] at inside
  exact ⟨noColon, inside.1, names, first, last, inside.2.2.1, inside.2.2.2.2⟩

theorem splitNames_render {obf : Text} (first : '=' ∉ obf) (deobf : Text) :
    splitNames (obf ++ '=' :: deobf) = .ok (obf, deobf) := by
  unfold splitNames
  rw [Text.cut_append_cons first]

theorem render_eq (head : Text) (e : Entry) :
    render head e = head ++ ':' :: (e.obf ++ '=' :: e.deobf) := by
  simp [render]

/-- What a line starts with is all that stands before its first colon. -/
structure Head (read : Text → Except Fault Row) (kind : Kind) (head : Text) : Prop where
  start : ∃ more, head = kind.name.toList ++ more
  colon : ':' ∉ head
  whole : '\n' ∉ head
  read : ∀ line obf deobf, splitLine line = .ok (head, obf, deobf) →
    read line = .ok (.entry kind (.twoWay obf deobf))

namespace Head

variable {read : Text → Except Fault Row} {kind : Kind} {head : Text} (h : Head read kind head)
include h

/-- A line that was written has the parts that it was made of. -/
theorem splitLine_render {e : Entry} (w : Writable e.obf e.deobf) :
    splitLine (render head e) = .ok (head, e.obf, e.deobf) := by
  obtain ⟨more, is⟩ := h.start
  have word := Text.tight_of_forall kind.isWord_name.2
  have tight : Text.Tight (render head e) := by
    have ends := Text.tight_of_ends word.1 w.last kind.isWord_name.1 w.filled.2
      (more ++ ':' :: e.obf ++ ['='])
    rw [render, is]
    simpa using ends
  unfold splitLine
  rw [Text.trim_of_tight tight, render_eq, Text.cut_append_cons h.colon]
  dsimp only
  rw [splitNames_render w.first]
  simp [bind, Except.bind, w.filled]

/-- A line that was written is read as its entry. -/
theorem readsAs {e : Entry} (w : Writable e.obf e.deobf) :
    Dialect.ReadsAs read (render head e) kind (.twoWay e.obf e.deobf) where
  whole := by simp [render, h.whole, w.whole]
  ended mem := by
    have same : (render head e).getLast? = e.deobf.getLast? := by
      rw [render, List.append_cons, List.getLast?_append, Option.or_of_isSome (by simp [w.filled.2])]
    exact absurd (w.last '\r' (same ▸ mem)) (by decide)
  meaningful := by
    obtain ⟨more, is⟩ := h.start
    rw [render, is]
    simpa using kind.isComment_name (more ++ ':' :: e.obf ++ '=' :: e.deobf)
  read := h.read _ _ _ (h.splitLine_render w)

end Head

/-! ## The two dialects -/

theorem lineByLine : Dialect.LineByLine .flat read fun kind e => render kind.name.toList e where
  rows _ := rfl
  list _ := rfl

theorem lineByLine_sided (side : Text) : Dialect.LineByLine (.sidedFlat side) (readSided side)
    fun kind e => render (kind.name.toList ++ '.' :: side) e where
  rows _ := rfl
  list _ := rfl

theorem head_name (kind : Kind) : Head read kind kind.name.toList where
  start := ⟨[], by simp⟩
  colon := by cases kind <;> decide
  whole := by cases kind <;> decide
  read line obf deobf h := by
    unfold read
    rw [h]
    simp [bind, Except.bind, Kind.readWord_name]
    rfl

/-- The side stands between the first dot and the first colon, so only a colon and the end of a line cannot
be in it. -/
theorem head_sided {side : Text} (colon : ':' ∉ side) (whole : '\n' ∉ side) (kind : Kind) :
    Head (readSided side) kind (kind.name.toList ++ '.' :: side) where
  start := ⟨_, rfl⟩
  colon := by cases kind <;> simp [Kind.name, colon]
  whole := by cases kind <;> simp [Kind.name, whole]
  read line obf deobf h := by
    have noDot : '.' ∉ kind.name.toList := by cases kind <;> decide
    unfold readSided
    rw [h]
    simp [bind, Except.bind, Text.cut_append_cons noDot, Kind.readWord_name]
    rfl

theorem of_read {line : Text} {kind : Kind} {e : Entry} (h : read line = .ok (.entry kind e)) :
    ∃ head, splitLine line = .ok (head, e.obf, e.deobf) := by
  obtain ⟨⟨head, obf, deobf⟩, split, h⟩ := bind_eq_ok_iff.mp h
  obtain ⟨_, _, h⟩ := bind_eq_ok_iff.mp h
  cases h
  exact ⟨head, split⟩

theorem of_readSided {side line : Text} {kind : Kind} {e : Entry}
    (h : readSided side line = .ok (.entry kind e)) :
    ∃ head word, splitLine line = .ok (head, e.obf, e.deobf) ∧ head = word ++ '.' :: side := by
  obtain ⟨⟨head, obf, deobf⟩, split, h⟩ := bind_eq_ok_iff.mp h
  dsimp only at h
  split at h
  · cases h
  next word found cut =>
  obtain ⟨_, _, h⟩ := bind_eq_ok_iff.mp h
  split at h
  · next same =>
    cases h
    exact ⟨head, word, split, same ▸ (Text.eq_of_cut cut).1⟩
  · cases h

/-! ## Tables that were loaded -/

/-- Whatever text a table was loaded from, what is written for it gives the same entries again, in the same
order. -/
theorem restores_of_load_flat {d : Dialect} (flat : d = .flat ∨ ∃ side, d = .sidedFlat side) (disk : Disk)
    (text : Text) (overwrite : Bool)
    (loaded : (d.load disk text (.empty false) overwrite).result = .ok ()) :
    (d.load disk text (.empty false) overwrite).table.threeWay = false ∧
      d.Restores (d.load disk text (.empty false) overwrite).table := by
  rcases flat with rfl | ⟨side, rfl⟩
  · apply lineByLine.restores_of_load loaded
    intro kind e mem
    obtain ⟨line, kind', e', whole, said, same, rfl⟩ := lineByLine.exists_line loaded mem
    obtain ⟨head, split⟩ := of_read said
    exact (head_name kind).readsAs (of_splitLine whole split).2.2
  · have lines := lineByLine_sided side
    apply lines.restores_of_load loaded
    intro kind e mem
    obtain ⟨line, kind', e', whole, said, same, rfl⟩ := lines.exists_line loaded mem
    obtain ⟨head, word, split, rfl⟩ := of_readSided said
    obtain ⟨colon, ended, names⟩ := of_splitLine whole split
    simp only [List.mem_append, List.mem_cons, not_or] at colon ended
    exact (head_sided colon.2.2 ended.2.2 kind).readsAs names

/-- Lines with either separator, other words for the kinds, a side with a dot and delimiters in the names. -/
def mixedText : Text :=
  "  class.a.b: a=b=c.d \r\n# none\ncl.a.b:x:y.z\nmd.b:a:b\nCSTR.a.b:x:y z=(I)V #\n".toList

def mixedLoad : Load Unit :=
  (Dialect.sidedFlat "a.b".toList).load (.ofFiles []) mixedText (.empty false) true

theorem restores_mixed :
    mixedLoad.result = .ok () ∧ mixedLoad.table.size = 3 ∧
      (Dialect.sidedFlat "a.b".toList).Restores mixedLoad.table := by
  have checked : mixedLoad.result.isOk = true ∧ mixedLoad.table.size = 3 := by decide +kernel
  have loaded : mixedLoad.result = .ok () := eq_ok_of_isOk checked.1
  have restored := restores_of_load_flat (.inr ⟨_, rfl⟩) (.ofFiles []) mixedText true loaded
  exact ⟨loaded, checked.2, restored.2⟩

end SymbolMap.Flat
