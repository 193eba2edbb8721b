import SymbolMap.Proofs.ThreeWay

/-!
Tables that three-way lines can hold, and those that were loaded from such lines.

* `named_of_read`: the names that are read from a line can stand on one;
* `isOk_read_render_iff`: a method's line is read again exactly if each of its names has a descriptor, or none
  has;
* `restores_iff`: the tables that are restored;
* `restores_of_load_iff`: a table that was loaded is one of them exactly if its methods' names are alike.
-/
namespace SymbolMap.ThreeWay

open MemberName (splitDescriptor)

variable {kind : Kind} {e : Entry}

/-! ## What a line gives -/

/-- The names are made of the parts of a line, and the last one ends where the line does. -/
theorem of_readNames {parts : List Text} (filled : ∀ part ∈ parts, part ≠ [])
    (h : readNames false kind parts = .ok e) :
    (∀ name ∈ names e, name ≠ [] ∧ ∀ c ∈ name, c = ' ' ∨ ∃ part ∈ parts, c ∈ part) ∧
      ∀ word, (Text.join ':' (word :: parts)).getLast? = e.deobf.getLast? := by
  unfold readNames at h
  split at h
  · next obf intermediate deobf =>
    cases h
    refine ⟨fun name hn => ⟨filled name hn, fun c hc => .inr ⟨name, hn, hc⟩⟩, fun word => ?_⟩
    exact Text.getLast?_join ':' [word, obf, intermediate] (filled deobf (by simp))
  · next b w b' w' b'' w'' =>
    split at h
    · cases h
      have last := filled w'' (by simp)
      refine ⟨fun name hn => ?_, fun word => ?_⟩
      · have pair : ∃ before ∈ [b, w, b', w', b'', w''], ∃ descriptor ∈ [b, w, b', w', b'', w''],
            name = before ++ ' ' :: descriptor := by
          simp only [names, Entry.threeWay, Entry.intermediateOrDeobf, methodName,
            MemberName.withDescriptor, List.mem_cons, List.not_mem_nil, or_false] at hn
          rcases hn with rfl | rfl | rfl
          · exact ⟨b, by simp, w, by simp, rfl⟩
          · exact ⟨b', by simp, w', by simp, rfl⟩
          · exact ⟨b'', by simp, w'', by simp, rfl⟩
        obtain ⟨before, hb, descriptor, hd, rfl⟩ := pair
        refine ⟨by simp, fun c hc => ?_⟩
        rcases List.mem_append.mp hc with own | later
        · exact .inr ⟨before, hb, own⟩
        · exact (List.mem_cons.mp later).imp_right fun own => ⟨descriptor, hd, own⟩
      · exact (Text.getLast?_join ':' [word, b, w, b', w', b''] last).trans
          (Text.getLast?_append_cons b'' ' ' last).symm
    · cases h
  · cases h

/-- The names of an entry that was read can stand between colons again. -/
theorem named_of_read {line : Text} (whole : '\n' ∉ line) (h : read false line = .ok (.entry kind e)) :
    Named e := by
  unfold read at h
  split at h
  · cases h
  · next word parts split =>
    obtain ⟨kind', _, h⟩ := bind_eq_ok_iff.mp h
    split at h
    · cases h
    · next filled =>
      obtain ⟨e', given, h⟩ := bind_eq_ok_iff.mp h
      cases h
      have absent : [] ∉ parts := by simpa using filled
      obtain ⟨made, ends⟩ := of_readNames (fun part hp => ne_of_mem_of_not_mem hp absent) given
      have inside : ∀ part ∈ parts, ∀ c ∈ part, c ∈ line ∧ c ≠ ':' := by
        intro part hp c hc
        have piece : part ∈ (Text.trim line).splitOn ':' := split ▸ List.mem_cons_of_mem word hp
        exact (Text.of_mem_splitOn piece c hc).imp_left Text.mem_of_mem_trim
      have joined : Text.join ':' (word :: parts) = Text.trim line := by
        rw [← split, Text.join_splitOn]
      refine ⟨fun name hn => (made name hn).1, ?_, ?_, ?_⟩
      · intro name hn mem
        rcases (made name hn).2 ':' mem with space | ⟨part, hp, own⟩
        · cases space
        · exact (inside part hp ':' own).2 rfl
      · intro name hn mem
        rcases (made name hn).2 '\n' mem with space | ⟨part, hp, own⟩
        · cases space
        · exact whole (inside part hp '\n' own).1
      · intro c hc
        rw [← ends word, joined] at hc
        exact Text.isBlank_of_mem_getLast?_trim hc

/-! ## The lines that are read again -/

/-- All names of a method have descriptors, or none has. -/
def Alike (e : Entry) : Prop :=
  (∀ name ∈ names e, Paired name) ∨ ∀ name ∈ names e, (splitDescriptor name).2 = none

instance (e : Entry) : Decidable (Alike e) := inferInstanceAs (Decidable (_ ∨ _))

theorem length_of_readNames {parts : List Text} (h : (readNames false kind parts).isOk = true) :
    parts.length = 3 ∨ parts.length = 6 := by
  unfold readNames at h
  split at h
  · exact .inl rfl
  · exact .inr rfl
  · cases h

theorem length_parts (has : kind.hasDescriptor = true) (name : Text) :
    (parts kind name).length = if (splitDescriptor name).2 = none then 1 else 2 := by
  rcases parts_cases kind name with ⟨is, none⟩ | ⟨_, before, word, is, split, _⟩
  · rw [is, if_pos (none has)]
    rfl
  · rw [is, split, if_neg (by simp)]
    rfl

theorem read_render_of_named (h : Named e) (alike : kind.hasDescriptor = true → Alike e) :
    read false (render kind e) = .ok (.entry kind (.threeWay e.obf e.intermediateOrDeobf e.deobf)) := by
  apply read_render_of_alike h
  · intro has
    exact (alike has).imp_right fun single name hn paired => paired.2 (single name hn)
  · intro has name hn bare
    rcases alike has with paired | single
    · exact (paired name hn).1 bare.1
    · exact bare.2 (single name hn)

/-- A line is read again exactly if each name is one part of it, or each is two parts. -/
theorem isOk_read_render_iff (h : Named e) : (read false (render kind e)).isOk = true ↔
    (kind.hasDescriptor = true → Alike e) := by
  constructor
  · intro ok has
    rw [read_render h] at ok
    split at ok
    · cases ok
    · next filled =>
      have proper : ∀ name ∈ names e, ¬Bare name := by
        intro name hn bare
        exact filled ((any_isEmpty_pieces h).mpr ⟨has, name, hn, bare⟩)
      have given : (readNames false kind (pieces kind e)).isOk = true := by
        cases is : readNames false kind (pieces kind e) with
        | error fault =>
          rw [is] at ok
          cases ok
        | ok _ => rfl
      have count := length_of_readNames given
      simp only [pieces, names, List.flatMap_cons, List.flatMap_nil, List.length_append,
        List.length_nil, length_parts has] at count
      by_cases paired : ∀ name ∈ names e, (splitDescriptor name).2 ≠ none
      · exact .inl fun name hn => ⟨fun start => proper name hn ⟨start, paired name hn⟩, paired name hn⟩
      · -- One of the names is one part, and then there are three parts in all.
        refine .inr ?_
        simp only [names, List.forall_mem_cons] at paired ⊢
        grind
  · intro alike
    rw [read_render_of_named h alike]
    rfl

/-! ## Tables -/

theorem Named.conform (h : Named e) (threeWay : Bool) : Named (e.conform threeWay) := by
  have among : ∀ name ∈ names (e.conform threeWay), name ∈ names e := by
    cases threeWay <;> simp [names, Entry.conform, Entry.intermediateOrDeobf]
  exact ⟨fun name hn => h.filled name (among name hn), fun name hn => h.colon name (among name hn),
    fun name hn => h.whole name (among name hn), h.last⟩

section
variable {disk : Disk} {text : Text} {threeWay overwrite : Bool}
  (loaded : ((Dialect.threeWay false).load disk text (.empty threeWay) overwrite).result = .ok ())
include loaded

/-- The entries of a table that was loaded can be written. -/
theorem named_of_load {kind : Kind} {e : Entry}
    (mem : e ∈ ((Dialect.threeWay false).load disk text (.empty threeWay) overwrite).table.entries
      kind) : Named e := by
  obtain ⟨line, _, e', whole, said, _, rfl⟩ := (lineByLine false).exists_line loaded mem
  exact (named_of_read whole said).conform threeWay

end

/-- The tables that are restored: all names can stand between colons, and of each method all names have
descriptors, or none has. -/
theorem restores_iff {t : Table} (sound : t.Sound) :
    (Dialect.threeWay false).Restores t ↔
      (∀ kind, ∀ e ∈ t.entries kind, Named e) ∧ ∀ e ∈ t.entries .method, Alike e := by
  have lines := lineByLine false
  constructor
  · intro restores
    have named : ∀ kind, ∀ e ∈ t.entries kind, Named e := by
      intro kind e mem
      obtain ⟨loaded, same⟩ := restores (.ofFiles []) false
      rw [← same] at mem
      exact named_of_load loaded mem
    refine ⟨named, fun e mem => ?_⟩
    have stand : ∀ kind e, (kind, e) ∈ t.written → Dialect.Stands (render kind e) :=
      fun kind e written => stands (named kind e (Table.mem_written.mp written).2)
    have ok := lines.isOk_of_restores stand restores (Table.mem_written.mpr ⟨by decide, mem⟩)
    exact (isOk_read_render_iff (named .method e mem)).mp ok rfl
  · rintro ⟨named, alike⟩
    apply lines.restores sound fun e => .threeWay e.obf e.intermediateOrDeobf e.deobf
    · intro kind e written
      obtain ⟨storable, mem⟩ := Table.mem_written.mp written
      have method : kind.hasDescriptor = true → kind = .method := by
        have base := (Kind.mem_storable_iff kind).mp storable
        simp [Kind.hasDescriptor, base]
      exact ⟨stands (named kind e mem), read_render_of_named (named kind e mem) fun has =>
        alike e (method has ▸ mem)⟩
    · intro kind e mem
      exact sound.conform_entries mem

/-- A table that was loaded from three-way lines is restored exactly if of each method all names have
descriptors, or none has. The lines that it was loaded from say nothing of that. -/
theorem restores_of_load_iff (disk : Disk) (text : Text) (overwrite : Bool)
    (loaded : ((Dialect.threeWay false).load disk text (.empty true) overwrite).result = .ok ()) :
    ((Dialect.threeWay false).load disk text (.empty true) overwrite).table.threeWay = true ∧
      ((Dialect.threeWay false).Restores
          ((Dialect.threeWay false).load disk text (.empty true) overwrite).table ↔
        ∀ e ∈ ((Dialect.threeWay false).load disk text (.empty true) overwrite).table.entries .method,
          Alike e) := by
  have lines := lineByLine false
  have sound := lines.sound_of_load (Table.sound_of_empty true) loaded
  refine ⟨lines.threeWay_of_load loaded, (restores_iff sound).trans ?_⟩
  exact and_iff_right fun kind e mem => named_of_load loaded mem

/-- Methods with descriptors and without, and names that end in what looks like one. -/
def alikeText : Text :=
  ["# :", " CLASS:a (I)V:b c:d", "METHOD:a.b:c d:(e", "CS:a:<init> (I)V:b:(J)V:c ):()",
    "METHOD:p  (I)V:q (V:r (J)V"].flatMap fun line => line.toList ++ ['\n']

def alikeLoad : Load Unit :=
  (Dialect.threeWay false).load (.ofFiles []) alikeText (.empty true) false

theorem restores_alikeLoad :
    alikeLoad.result = .ok () ∧ alikeLoad.table.size = 4 ∧
      (Dialect.threeWay false).Restores alikeLoad.table := by
  have checked : alikeLoad.result.isOk = true ∧ alikeLoad.table.size = 4 := by decide +kernel
  have loaded : alikeLoad.result = .ok () := eq_ok_of_isOk checked.1
  have restored := (restores_of_load_iff (.ofFiles []) alikeText false loaded).2
  exact ⟨loaded, checked.2, restored.mpr (by decide +kernel)⟩

/-- The first name of the method has a descriptor, and the others have none. -/
def mixedLoad : Load Unit :=
  (Dialect.threeWay false).load (.ofFiles []) "METHOD:a.b (I)V:p.C.m_1:p.C.tick\n".toList (.empty true) false

/-- It is written with four parts after its kind, and a line with so many parts is refused. -/
theorem mixedLoad_not_restored :
    mixedLoad.result = .ok () ∧
      (Dialect.threeWay false).store mixedLoad.table = "METHOD:a.b:(I)V:p.C.m_1:p.C.tick\n".toList ∧
      ¬(Dialect.threeWay false).Restores mixedLoad.table := by
  have checked : mixedLoad.result.isOk = true := by decide +kernel
  refine ⟨eq_ok_of_isOk checked, by decide +kernel, fun restores => ?_⟩
  have read := congrArg Except.isOk (restores (.ofFiles []) false).1
  exact absurd read (by decide +kernel)

end SymbolMap.ThreeWay
