import SymbolMap.Descriptor.Renaming
import SymbolMap.Proofs.Table.Reachable
import SymbolMap.Proofs.Text.MemberName

/-!
Descriptors renamed by a table: nothing but the entries of its classes matters.

* `renameBy_eq_some_iff`: a class is renamed if an entry has its name;
* `obfuscate_congr`, `deobfuscate_congr`: tables with the same classes rename alike;
* `mem_render_mapClasses`: where the characters of a renamed descriptor come from.
-/
namespace SymbolMap.Descriptor

open MemberName (dotted slashed)

theorem renameBy_eq_some_iff {t : Table} (h : t.Sound) {find? : Register → Text → Option Entry}
    {key : Entry → Text}
    (finds : ∀ r : Register, r.Sound → ∀ x e, find? r x = some e ↔ e ∈ r.toList ∧ key e = x)
    (name : Entry → Text) (className new : Text) :
    renameBy find? name t className = some new ↔
      ∃ e ∈ t.entries .class_, key e = dotted className ∧ slashed (name e) = new := by
  unfold renameBy
  rw [h.register?_eq]
  by_cases none : t.entries .class_ = []
  · simp [none]
  · have found := finds (t.register .class_) (h.sound_register .class_) (dotted className)
    simp only [if_neg none, Option.bind_eq_bind, Option.bind_some, Option.bind_eq_some_iff, found,
      Option.pure_def, Option.some.injEq, and_assoc]
    rfl

theorem mapClasses_congr {f g : Text → Option Text} (h : ∀ c, f c = g c) (d : Descriptor) :
    d.mapClasses f = d.mapClasses g :=
  congrArg (mapClasses · d) (funext h)

theorem mem_render_mapClass {rename : Text → Option Text} {t : TypeToken} {c : Char}
    (h : c ∈ (t.mapClass rename).render) :
    c ∈ t.render ∨ ∃ className new, rename className = some new ∧ c ∈ new := by
  obtain ⟨depth, element⟩ := t
  cases element with
  | primitive p => exact .inl h
  | reference className =>
    cases renamed : rename className with
    | none =>
      have same : TypeToken.mapClass rename ⟨depth, .reference className⟩ =
          ⟨depth, .reference className⟩ := by
        unfold TypeToken.mapClass
        dsimp only
        rw [renamed]
        rfl
      rw [same] at h
      exact .inl h
    | some new =>
      have other : TypeToken.mapClass rename ⟨depth, .reference className⟩ =
          ⟨depth, .reference new⟩ := by
        unfold TypeToken.mapClass
        dsimp only
        rw [renamed]
        rfl
      rw [other] at h
      unfold TypeToken.render ElementType.render at h ⊢
      simp only [List.mem_append, List.mem_cons] at h ⊢
      rcases h with array | (letter | inside) | last
      · exact .inl (.inl array)
      · exact .inl (.inr (.inl (.inl letter)))
      · exact .inr ⟨className, new, renamed, inside⟩
      · exact .inl (.inr (.inr last))

/-- A renamed descriptor has no characters but its own and those of the new names. -/
theorem mem_render_mapClasses {rename : Text → Option Text} {d : Descriptor} {c : Char}
    (h : c ∈ (d.mapClasses rename).render) :
    c ∈ d.render ∨ ∃ className new, rename className = some new ∧ c ∈ new := by
  unfold render mapClasses at h
  unfold render
  dsimp only at h
  simp only [List.mem_append, List.mem_cons, List.mem_flatMap, List.mem_map] at h ⊢
  rcases h with (open_ | ⟨_, ⟨param, hp, rfl⟩, inside⟩) | close | inside
  · exact .inl (.inl (.inl open_))
  · refine (mem_render_mapClass inside).imp_left fun own => ?_
    exact .inl (.inr ⟨param, hp, own⟩)
  · exact .inl (.inr (.inl close))
  · exact (mem_render_mapClass inside).imp_left fun own => .inr (.inr own)

/-- What a table puts into a descriptor are the names of its classes, with slashes for dots. -/
theorem mem_render_renameBy {t : Table} (h : t.Sound) {find? : Register → Text → Option Entry}
    {key : Entry → Text}
    (finds : ∀ r : Register, r.Sound → ∀ x e, find? r x = some e ↔ e ∈ r.toList ∧ key e = x)
    (name : Entry → Text) {d : Descriptor} {c : Char}
    (mem : c ∈ (d.mapClasses (renameBy find? name t)).render) :
    c ∈ d.render ∨ c = '/' ∨ ∃ e ∈ t.entries .class_, c ∈ name e := by
  refine (mem_render_mapClasses mem).imp_right fun ⟨className, new, renamed, inside⟩ => ?_
  obtain ⟨e, he, _, rfl⟩ := (renameBy_eq_some_iff h finds name className new).mp renamed
  exact (MemberName.mem_slashed inside).imp_right fun own => ⟨e, he, own⟩

theorem mem_render_obfuscate {t : Table} (h : t.Sound) {d : Descriptor} {c : Char}
    (mem : c ∈ (d.obfuscate t).render) :
    c ∈ d.render ∨ c = '/' ∨ ∃ e ∈ t.entries .class_, c ∈ e.obf :=
  mem_render_renameBy h (fun _ hr _ _ => hr.findDeobf?_eq_some_iff) (·.obf) mem

theorem mem_render_deobfuscate {t : Table} (h : t.Sound) {d : Descriptor} {c : Char}
    (mem : c ∈ (d.deobfuscate t).render) :
    c ∈ d.render ∨ c = '/' ∨ ∃ e ∈ t.entries .class_, c ∈ e.deobf :=
  mem_render_renameBy h (fun _ hr _ _ => hr.findObf?_eq_some_iff) (·.deobf) mem

variable {t u : Table} (ht : t.Sound) (hu : u.Sound)
  (same : ∀ e, e ∈ t.entries .class_ ↔ e ∈ u.entries .class_)
include ht hu same

theorem renameBy_congr {find? : Register → Text → Option Entry} {key : Entry → Text}
    (finds : ∀ r : Register, r.Sound → ∀ x e, find? r x = some e ↔ e ∈ r.toList ∧ key e = x)
    (name : Entry → Text) (className : Text) :
    renameBy find? name t className = renameBy find? name u className := by
  refine Option.ext fun new => ?_
  simp only [renameBy_eq_some_iff ht finds, renameBy_eq_some_iff hu finds, same]

/-- Tables with the same classes obfuscate alike. -/
theorem obfuscate_congr (d : Descriptor) : d.obfuscate t = d.obfuscate u :=
  mapClasses_congr (renameBy_congr ht hu same
    (fun _ hr _ _ => hr.findDeobf?_eq_some_iff) (·.obf)) d

theorem deobfuscate_congr (d : Descriptor) : d.deobfuscate t = d.deobfuscate u :=
  mapClasses_congr (renameBy_congr ht hu same
    (fun _ hr _ _ => hr.findObf?_eq_some_iff) (·.deobf)) d

end SymbolMap.Descriptor
