import SymbolMap.Dialect.Outline.Reading
import SymbolMap.Proofs.Grouping
import SymbolMap.Proofs.Listing
import SymbolMap.Proofs.Outline.Additions
import SymbolMap.Proofs.Reads

/-!
What the outline of a table declares when it is read again.

* `Declares`: lines that hold declarations;
* `Declares.readLines`: such lines are read to their end, and nothing else is declared;
* `Writable.declares`, `Writable.readText_text`: the outline of a table declares `declarations`.
-/
namespace SymbolMap.Outline

/-- A line that holds a declaration, at some depth. -/
inductive Declared : Context → Text → Context → List Declaration → Prop
  | line {c c' : Context} {content : Text} {ds : List Declaration} (depth : Nat) :
      Content content → Declaration.read c depth none content = .ok (c', ds) →
      Declared c (indent depth content) c' ds

abbrev Declares := Reads Declared

theorem Declares.whole {c c' : Context} {lines : List Text} {ds : List Declaration}
    (h : Declares c lines c' ds) : ∀ l ∈ lines, '\n' ∉ l ∧ '\r' ∉ l.getLast? := by
  refine h.forall_mem fun c l c' ds first => ?_
  cases first with
  | line depth stands _ =>
    refine ⟨stands.not_mem_indent depth (by decide) (by decide), fun last => ?_⟩
    exact stands.not_mem_indent depth (c := '\r') (by decide) (by decide)
      (List.mem_of_mem_getLast? last)

theorem Declares.readLines {c c' : Context} {lines : List Text} {ds : List Declaration}
    (h : Declares c lines c' ds) (importName : Text → Import) (s : Imports) {ls : List Line}
    (texts : ls.map (·.text) = lines) (declared : Array Declaration) :
    readLines importName c declared s ls = (s, .ok (declared.toList ++ ds)) := by
  induction h generalizing ls declared with
  | nil c =>
    have none : ls = [] := List.map_eq_nil_iff.mp texts
    rw [none, Outline.readLines, List.append_nil]
  | cons first _ ih =>
    cases ls with
    | nil => cases texts
    | cons line ls =>
      obtain ⟨is, rest⟩ := List.cons.inj texts
      cases first with
      | line depth stands read =>
        change line.text = indent depth _ at is
        rw [Outline.readLines, is, stands.item depth]
        dsimp only
        rw [read]
        dsimp only
        rw [ih rest, Array.toList_appendList, List.append_assoc]

/-! ## The outline of a table -/

def memberPairs (t : Table) : List (Triple × Member) :=
  t.members.filterMap fun (kind, e) => Member.ofEntry kind e

/-- What a class and its members declare. -/
def classDeclarations (members : Groups Triple Member) (c : ClassNames) : List Declaration :=
  .names .class_ c.full ::
    memberOrder.flatMap fun kind =>
      ((members.group c.full).filter (·.kind = kind)).flatMap (Member.declared c.full)

/-- What a package and all that is inside of it declare. -/
def packageDeclarations (t : Table) (package : Triple) : List Declaration :=
  .names .package package ::
    ((Groups.ofList (classes t)).group package).flatMap (classDeclarations (membersByClass t))

def declarations (t : Table) : List Declaration :=
  (packages t).flatMap (packageDeclarations t)

/-- Each name of a table can stand on the line that is written for it. -/
structure Writable (t : Table) : Prop where
  packages : ∀ package ∈ packages t, package.Readable .package
  classes : ∀ package c, (package, c) ∈ classes t →
    c.names.Readable .class_ ∧ package.qualify c.names = c.full
  members : ∀ owner m, (owner, m) ∈ memberPairs t → m.Readable

theorem lineTexts_list (t : Table) :
    Listing.lineTexts (list t) =
      (packageLines t).flatMap fun (package, lines) => package.render :: lines := by
  unfold list
  simp only [Listing.lineTexts_append, Listing.lineTexts_map_told, Listing.lineTexts_flatMap,
    Listing.lineTexts_map_line, List.nil_append, List.append_nil]

namespace Writable

variable {t : Table} (h : Writable t)
include h

theorem declares_members (owner : Triple) {c : Context} (inside : c.owner = some owner) :
    Declares c
      (memberOrder.flatMap fun kind =>
        (((membersByClass t).group owner).filter (·.kind = kind)).map fun m => indent 2 m.render)
      c
      (memberOrder.flatMap fun kind =>
        (((membersByClass t).group owner).filter (·.kind = kind)).flatMap
          (Member.declared owner)) := by
  refine Reads.flatMap_const fun kind _ => ?_
  rw [List.map_eq_flatMap]
  refine Reads.flatMap_const fun m hm => ?_
  have member : m.Readable := h.members owner m (Groups.mem_group_ofList.mp (List.mem_filter.mp hm).1)
  exact .single (.line 2 member.content (member.read_render inside))

theorem declares_class {package : Triple} {c : ClassNames} (mem : (package, c) ∈ Outline.classes t)
    {context : Context} (inside : context.package = some package) :
    ∃ context', context'.package = some package ∧
      Declares context (classLines (membersByClass t) c) context'
        (classDeclarations (membersByClass t) c) := by
  obtain ⟨readable, full⟩ := h.classes package c mem
  have first := Declaration.read_class readable inside
  rw [full] at first
  have members := h.declares_members c.full (c := { context with owner := some c.full }) rfl
  have whole := Reads.cons (Declared.line 1 readable.content first) members
  rw [List.singleton_append] at whole
  exact ⟨{ context with owner := some c.full }, inside, whole⟩

theorem declares_package {package : Triple} (mem : package ∈ Outline.packages t) (c : Context) :
    ∃ c', Declares c
      (package.render :: ((Groups.ofList (Outline.classes t)).group package).flatMap
        (classLines (membersByClass t)))
      c' (packageDeclarations t package) := by
  have readable := h.packages package mem
  have inside : ∃ last : Context, last.package = some package ∧ Declares { package := package }
      (((Groups.ofList (Outline.classes t)).group package).flatMap
        (classLines (membersByClass t))) last
      (((Groups.ofList (Outline.classes t)).group package).flatMap
        (classDeclarations (membersByClass t))) :=
    Reads.flatMap (p := fun c : Context => c.package = some package)
      (fun _ hc _ is => h.declares_class (Groups.mem_group_ofList.mp hc) is) rfl
  obtain ⟨last, _, rest⟩ := inside
  have margin : package.render = indent 0 package.render := rfl
  rw [margin]
  exact ⟨last, .cons (.line 0 readable.content (Declaration.read_package readable c)) rest⟩

theorem declares :
    ∃ c, Declares {} (Listing.lineTexts (list t)) c (declarations t) := by
  rw [lineTexts_list]
  unfold packageLines declarations
  rw [List.flatMap_map]
  obtain ⟨last, _, all⟩ := Reads.flatMap (p := fun _ => True)
    (fun package hp c _ => (h.declares_package hp c).imp fun _ is => ⟨trivial, is⟩) trivial
  exact ⟨last, all⟩

/-- The outline of a table is read again as what it declares, and imports nothing. -/
theorem readText_text (i : Importer) (base : Option Path) (seen : List Text) :
    readText i base seen (Listing.text (list t)) = ({ seen }, .ok (declarations t)) := by
  obtain ⟨last, all⟩ := h.declares
  have texts : (Text.numbered (Listing.text (list t))).map (·.text) =
      Listing.lineTexts (list t) := by
    rw [Text.map_text_numbered, Listing.lines_text all.whole]
  unfold readText
  rw [all.readLines _ _ texts, List.nil_append]

/-- Nothing but entries is declared. -/
theorem adds : ∀ d ∈ declarations t, Declaration.source.Adds d := by
  intro d hd
  obtain ⟨package, _, hd⟩ := List.mem_flatMap.mp hd
  rcases List.mem_cons.mp hd with rfl | hd
  · exact Declaration.adds_names (by decide) _
  obtain ⟨c, _, hd⟩ := List.mem_flatMap.mp hd
  rcases List.mem_cons.mp hd with rfl | hd
  · exact Declaration.adds_names (by decide) _
  obtain ⟨kind, _, hd⟩ := List.mem_flatMap.mp hd
  obtain ⟨m, hm, hd⟩ := List.mem_flatMap.mp hd
  have member := h.members c.full m (Groups.mem_group_ofList.mp (List.mem_filter.mp hm).1)
  exact member.adds c.full d hd

end Writable
end SymbolMap.Outline
