import SymbolMap.Files.Disk
import SymbolMap.Proofs.Outcome

/-!
A disk after a file has been written.

* `lookup_put_of_ne`, `isDirectory_put`: what a new file changes at other places;
* `Reached`, `Reached.walk`: the directories above a place that a path leads to are all there;
* `Leads`, `leads_of_target`: what is known of a path at which a file can be written;
* `node_write_of_ne`, `read_write`, `read_write_of_ne`: so a write changes what is at its own place and nothing
  else, and the file that was written is read back.
-/
namespace SymbolMap.Disk

variable {d : Disk} {place other : Place}

/-! ## One more file -/

theorem lookup_put_self (d : Disk) (place : Place) (content : Content) :
    (d.put place content).files.lookup place = some content := by
  unfold put
  exact List.lookup_cons_self

theorem lookup_put_of_ne (apart : other ≠ place) (content : Content) :
    (d.put place content).files.lookup other = d.files.lookup other := by
  have differ : (other == place) = false := beq_false_of_ne apart
  have kept : ∀ files : List (Place × Content),
      (files.filter (·.1 != place)).lookup other = files.lookup other := by
    intro files
    induction files with
    | nil => rfl
    | cons file files ih =>
      obtain ⟨at_, held⟩ := file
      by_cases same : at_ = place
      · subst same
        rw [List.filter_cons_of_neg (by simp), ih, List.lookup_cons, differ]
      · rw [List.filter_cons_of_pos (by simpa using same), List.lookup_cons, List.lookup_cons, ih]
  unfold put
  rw [List.lookup_cons, differ]
  exact kept d.files

theorem isDirectory_iff : d.isDirectory other = true ↔
    ((∀ name ∈ other, name = up) ∨ other = [root] ∨ other ∈ d.directories) ∨
      ∃ file ∈ d.files, other <+: file.1.dropLast := by
  simp only [isDirectory, Bool.or_eq_true, List.all_eq_true, List.any_eq_true, decide_eq_true_eq,
    List.contains_iff_mem, List.isPrefixOf_iff_prefix, or_assoc]

/-- A file makes the directories above it. -/
theorem isDirectory_put (content : Content) : (d.put place content).isDirectory other = true ↔
    d.isDirectory other = true ∨ other <+: place.dropLast := by
  have files : (∃ file ∈ (d.put place content).files, other <+: file.1.dropLast) ↔
      (∃ file ∈ d.files, other <+: file.1.dropLast) ∨ other <+: place.dropLast := by
    constructor
    · rintro ⟨file, mem, above⟩
      rcases List.mem_cons.mp mem with rfl | mem
      · exact .inr above
      · exact .inl ⟨file, (List.mem_filter.mp mem).1, above⟩
    · rintro (⟨file, mem, above⟩ | above)
      · by_cases same : file.1 = place
        · exact ⟨_, List.mem_cons_self, same ▸ above⟩
        · exact ⟨file, List.mem_cons_of_mem _ (List.mem_filter.mpr ⟨mem, by simpa using same⟩), above⟩
      · exact ⟨_, List.mem_cons_self, above⟩
  rw [isDirectory_iff, isDirectory_iff, files]
  exact or_assoc.symm

theorem isDirectory_of_node (h : d.node place = .directory) : d.isDirectory place = true := by
  unfold node at h
  split at h
  · cases h
  · split at h
    · assumption
    · cases h

/-! ## The way to a place -/

/-- Whatever stands above a place is a directory. -/
def Reached (d : Disk) (place : Place) : Prop :=
  ∀ above, above <+: place → above ≠ place → d.isDirectory above = true

theorem Reached.append (h : d.Reached place) (directory : d.isDirectory place = true) (name : Text) :
    d.Reached (place ++ [name]) := by
  intro above under other
  rcases List.prefix_concat_iff.mp under with whole | under
  · exact absurd whole other
  · by_cases same : above = place
    · rw [same]
      exact directory
    · exact h above under same

theorem reached_nil (d : Disk) : d.Reached [] := fun _ under other => absurd (List.prefix_nil.mp under) other

theorem isDirectory_nil (d : Disk) : d.isDirectory [] = true := rfl

theorem reached_start (d : Disk) (s : Path.Start) : d.Reached (start s) := by
  unfold start
  split
  · exact d.reached_nil.append d.isDirectory_nil root
  · exact d.reached_nil

theorem Reached.dropLast (h : d.Reached place) : d.Reached place.dropLast := by
  intro above under other
  have whole := under.trans (List.dropLast_prefix place)
  refine h above whole fun same => other ?_
  subst same
  exact under.eq_of_length_le (List.dropLast_prefix above).length_le

theorem Reached.parent (h : d.Reached place) (directory : d.isDirectory place = true) :
    d.Reached (parent place) := by
  unfold Disk.parent
  split
  · exact d.reached_nil.append d.isDirectory_nil up
  · split
    · exact h.append directory up
    · split
      · exact h
      · exact h.dropLast

/-- One enters a directory only. -/
theorem enter_eq_ok_iff {segment : Text} {next : Place} : d.enter place segment = .ok next ↔
    d.node place = .directory ∧ isTooLong segment = false ∧ next = step place segment := by
  unfold enter
  cases d.node place with
  | file content => simp
  | nothing => simp
  | directory => cases isTooLong segment <;> simp [eq_comm]

theorem Reached.enter {segment : Text} {next : Place} (h : d.Reached place)
    (entered : d.enter place segment = .ok next) : d.Reached next := by
  obtain ⟨there, _, rfl⟩ := enter_eq_ok_iff.mp entered
  have directory := isDirectory_of_node there
  unfold step
  split
  · exact h
  · split
    · exact h.parent directory
    · exact h.append directory segment

theorem walk_cons_eq_ok_iff {segment : Text} {segments : List Text} {next : Place} :
    d.walk place (segment :: segments) = .ok next ↔
      ∃ between, d.enter place segment = .ok between ∧ d.walk between segments = .ok next := by
  unfold walk
  rw [List.foldlM_cons, bind_eq_ok_iff]

theorem walk_append_eq_ok_iff {a b : List Text} {next : Place} :
    d.walk place (a ++ b) = .ok next ↔
      ∃ between, d.walk place a = .ok between ∧ d.walk between b = .ok next := by
  unfold walk
  rw [List.foldlM_append, bind_eq_ok_iff]

/-- A path that leads to a place leads through directories that are there. -/
theorem Reached.walk {segments : List Text} {next : Place} (h : d.Reached place)
    (walked : d.walk place segments = .ok next) : d.Reached next := by
  induction segments generalizing place with
  | nil =>
    obtain rfl := Except.ok.inj walked
    exact h
  | cons segment segments ih =>
    obtain ⟨between, entered, later⟩ := walk_cons_eq_ok_iff.mp walked
    exact ih (h.enter entered) later

/-! ## Where a file is written -/

/-- The path leads to a directory that is there, and its last name is one that a file in it can have. -/
structure Leads (d : Disk) (path : Path) (above : List Text) (parent : Place) (last : Text) : Prop where
  allowed : refusal? path = none
  split : path.split.2 = above ++ [last]
  walked : d.walk (start path.split.1) above = .ok parent
  directory : d.node parent = .directory
  free : d.node (parent ++ [last]) ≠ .directory
  named : Path.isIdle last = false ∧ last ≠ up
  short : isTooLong last = false

theorem exists_concat_of_dropWhile_reverse {segments above : List Text} {last : Text}
    (filled : segments.getLast? ≠ some [])
    (h : segments.reverse.dropWhile isEmptySegment = last :: above) : segments = above.reverse ++ [last] := by
  have turned : segments.reverse = last :: above := by
    cases is : segments.reverse with
    | nil =>
      rw [is] at h
      cases h
    | cons final others =>
      rw [← List.head?_reverse, is] at filled
      have named : isEmptySegment final = false := decide_eq_false fun empty => filled (congrArg some empty)
      rw [is, List.dropWhile_cons_of_neg (by simp [named])] at h
      exact h
  rw [← List.reverse_reverse segments, turned, List.reverse_cons]

theorem leads_of_target {path : Path} (h : d.target path = .ok place) :
    ∃ above parent last, d.Leads path above parent last ∧ place = parent ++ [last] := by
  unfold target at h
  split at h
  · cases h
  · cases h
  next last above allowed segments =>
  split at h
  · cases h
  next parent walked =>
  split at h
  · cases h
  · cases h
  · cases h
  next directory free =>
  split at h
  · cases h
  next usual =>
  split at h
  · cases h
  next short =>
  obtain rfl := Except.ok.inj h
  simp only [Bool.or_eq_true, decide_eq_true_eq, not_or, Bool.not_eq_true] at usual
  exact ⟨above.reverse, parent, last, {
    allowed
    split := exists_concat_of_dropWhile_reverse usual.2 segments
    walked, directory, free
    named := usual.1
    short := Bool.not_eq_true _ ▸ short }, rfl⟩

section
variable {path : Path} {above : List Text} {parent : Place} {last : Text}
  (h : d.Leads path above parent last)
include h

theorem Leads.isDirectory_of_prefix (under : other <+: parent) : d.isDirectory other = true := by
  by_cases same : other = parent
  · rw [same]
    exact isDirectory_of_node h.directory
  · exact ((d.reached_start _).walk h.walked) other under same

/-- A file makes no directory that is not there, if the one that it is in is there. -/
theorem Leads.node_put_of_ne (apart : other ≠ parent ++ [last]) (content : Content) :
    (d.put (parent ++ [last]) content).node other = d.node other := by
  have directories : (d.put (parent ++ [last]) content).isDirectory other = d.isDirectory other := by
    rw [Bool.eq_iff_iff, isDirectory_put, List.dropLast_concat]
    exact or_iff_left_of_imp h.isDirectory_of_prefix
  unfold node
  rw [lookup_put_of_ne apart, directories]

theorem Leads.enter_put {segment : Text} {next : Place} (entered : d.enter other segment = .ok next)
    (content : Content) : (d.put (parent ++ [last]) content).enter other segment = .ok next := by
  obtain ⟨directory, rest⟩ := enter_eq_ok_iff.mp entered
  have apart : other ≠ parent ++ [last] := by
    rintro rfl
    exact h.free directory
  exact enter_eq_ok_iff.mpr ⟨(h.node_put_of_ne apart content).trans directory, rest⟩

/-- The paths lead where they led. -/
theorem Leads.walk_put {segments : List Text} {next : Place} (walked : d.walk other segments = .ok next)
    (content : Content) : (d.put (parent ++ [last]) content).walk other segments = .ok next := by
  induction segments generalizing other with
  | nil => exact walked
  | cons segment segments ih =>
    obtain ⟨between, entered, later⟩ := walk_cons_eq_ok_iff.mp walked
    exact walk_cons_eq_ok_iff.mpr ⟨between, h.enter_put entered content, ih later⟩

/-- Also the path itself leads to the place, now that there is a file. -/
theorem Leads.locate_put (content : Content) :
    (d.put (parent ++ [last]) content).locate path = .ok (parent ++ [last]) := by
  have apart : parent ≠ parent ++ [last] := by simp
  have there := (h.node_put_of_ne apart content).trans h.directory
  have stepped : step parent last = parent ++ [last] := by
    unfold step
    rw [h.named.1, if_neg Bool.false_ne_true, if_neg h.named.2]
  unfold locate
  rw [h.allowed, h.split]
  refine walk_append_eq_ok_iff.mpr ⟨parent, h.walk_put h.walked content, ?_⟩
  exact walk_cons_eq_ok_iff.mpr ⟨_, enter_eq_ok_iff.mpr ⟨there, h.short, stepped.symm⟩, rfl⟩

end

section
variable {path : Path} (h : d.target path = .ok place) (t : Text)
include h

/-- Whatever is at another place stays as it is. -/
theorem node_write_of_ne (apart : other ≠ place) : (d.write place t).node other = d.node other := by
  obtain ⟨above, parent, last, leads, rfl⟩ := leads_of_target h
  exact leads.node_put_of_ne apart (.text t)

theorem read_write_of_ne {path' : Path} (located : d.locate path' = .ok other) (apart : other ≠ place) :
    (d.write place t).read path' = d.read path' := by
  have led : (d.write place t).locate path' = .ok other := by
    obtain ⟨above, parent, last, leads, rfl⟩ := leads_of_target h
    unfold locate at located ⊢
    split at located
    · cases located
    · exact leads.walk_put located (.text t)
  unfold read
  rw [led, located]
  dsimp only
  rw [node_write_of_ne h t apart]

/-- What has been written is read. -/
theorem read_write : (d.write place t).read path = .ok t := by
  have there : (d.write place t).node place = .file (.text t) := by
    unfold node write
    rw [lookup_put_self]
  obtain ⟨above, parent, last, leads, rfl⟩ := leads_of_target h
  have led : (d.write (parent ++ [last]) t).locate path = .ok (parent ++ [last]) :=
    leads.locate_put (.text t)
  unfold read
  rw [led]
  dsimp only
  rw [there]

end

end SymbolMap.Disk
