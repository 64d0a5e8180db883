import BuildOrder.Proofs.Containment
import BuildOrder.Stdlib

/-!
# Standard paths and the sources of the library root

The oracle of a library root writes an import path after `src` in the root and asks whether there is
a directory.

* `FileTree.follow_append`, `FileTree.follow_entries`: names are followed piece by piece, and names
  without a step lead further down.
* `Stdlib.below_place`: **a relative path without a point lies below the sources of the root**, by
  its text.
* `Stdlib.exists_locate_place`: what the tree has for it is reached through what it has for the
  sources.
* `Stdlib.ofRoot_eq_true_iff`: **a path is standard if and only if there is a directory for it below
  the sources of the root, or if it is absolute and there is a directory at the path itself.**
* `Stdlib.exists_outside`: so a directory outside the root can be standard, since nothing tests
  where the path leads. A workspace does.
-/

namespace BuildOrder

/-! ### Names followed down a tree -/

namespace FileTree

open BuildOrder.Path (IsEntry)

variable {t : FileTree} {here there : List Bytes}

/-- Names are followed piece by piece. -/
theorem follow_append (before after : List Bytes) :
    t.follow here (before ++ after) = t.follow here before >>= (t.follow · after) := by
  induction before generalizing here with
  | nil =>
    rw [List.nil_append, follow.eq_1]
    cases hnode : t.nodeAt here with
    | some node => rfl
    | none =>
      -- nothing is found from where nothing is
      cases after <;> simp [follow, hnode, bind, Except.bind]
  | cons name before ih =>
    rw [List.cons_append, follow.eq_2, follow.eq_2]
    cases t.nodeAt here with
    | none => rfl
    | some node =>
      cases node with
      | file content => rfl
      | directory =>
        simp only [ih]
        split
        · rfl
        split
        · rfl
        split <;> rfl

/-- Names that take no step up lead further down, by those that are not empty. -/
theorem follow_entries {names : List Bytes} (hnames : ∀ name ∈ names, name ≠ [] → IsEntry name)
    (h : t.follow here names = .ok there) : there = here ++ names.filter (· != []) := by
  induction names generalizing here with
  | nil =>
    rw [follow.eq_1] at h
    split at h
    · cases h
      simp
    · cases h
  | cons name names ih =>
    have hrest : ∀ other ∈ names, other ≠ [] → IsEntry other :=
      fun other hother => hnames other (List.mem_cons_of_mem _ hother)
    rw [follow.eq_2] at h
    split at h
    · cases h
    · cases h
    by_cases hempty : name = []
    · rw [if_pos (Or.inl hempty)] at h
      simpa [hempty] using ih hrest h
    · have hentry := hnames name List.mem_cons_self hempty
      rw [if_neg (not_or.2 ⟨hempty, hentry.here⟩), if_neg hentry.above] at h
      split at h
      · cases h
      · simpa [hempty] using ih hrest h

end FileTree

namespace Stdlib

open BuildOrder.Path (IsEntry components cleanComponents isAbsolute)

variable {t : FileTree} {root path : Bytes}

/-! ### Below the sources of the root -/

/-- Where the sources of a root are looked up. -/
def sourcesOf (root : Bytes) : Bytes := Path.append root (ascii "src")

/-- Where an import path is looked up. -/
def place (root path : Bytes) : Bytes := Path.append (sourcesOf root) path

theorem exists_sourcesOf (root : Bytes) : ∃ before, sourcesOf root = before ++ ascii "src" := by
  unfold sourcesOf Path.append
  rw [if_neg (by decide)]
  split
  · exact ⟨root, rfl⟩
  · exact ⟨root ++ [Byte.slash], by simp⟩

theorem place_of_relative (h : isAbsolute path = false) :
    place root path = sourcesOf root ++ Byte.slash :: path := by
  obtain ⟨before, hsources⟩ := exists_sourcesOf root
  have hne : sourcesOf root ≠ [] := by simp [hsources, ascii]
  have hlast : (sourcesOf root).getLast? ≠ some Byte.slash := by
    have hsrc : (ascii "src").getLast? = some 0x63 := by decide
    rw [hsources, List.getLast?_append, hsrc, Option.some_or]
    decide
  rw [place, Path.append, if_neg (by simp [h]), if_neg (not_or.2 ⟨hne, hlast⟩)]

theorem isAbsolute_sourcesOf (root : Bytes) : isAbsolute (sourcesOf root) = isAbsolute root :=
  Path.isAbsolute_append Workspace.stays_src.relative

theorem cleanComponents_sourcesOf (root : Bytes) :
    cleanComponents (sourcesOf root) = cleanComponents root ++ [ascii "src"] := by
  rw [← Path.cleanComponents_clean, sourcesOf, ← Path.join_eq_clean]
  exact Workspace.cleanComponents_sources root

/-- The components of a path without a point are entries. -/
theorem isEntry_of_dot_notMem (hdot : Byte.dot ∉ path) :
    ∀ name ∈ components path, IsEntry name := by
  intro name hname
  obtain ⟨hne, hslash⟩ := Path.mem_components hname
  have hpoint : Byte.dot ∉ name :=
    fun hmem => hdot ((Path.infix_of_mem_components hname).subset hmem)
  refine ⟨hne, hslash, ?_, ?_⟩
  · rintro rfl
    exact hpoint List.mem_cons_self
  · rintro rfl
    exact hpoint List.mem_cons_self

theorem components_ne_nil (hne : path ≠ []) (hrel : isAbsolute path = false) :
    components path ≠ [] := by
  obtain ⟨b, rest, rfl⟩ := List.exists_cons_of_ne_nil hne
  have hb : (b == Byte.slash) = false := by simpa [isAbsolute] using hrel
  obtain ⟨first, more, hsplit⟩ :=
    List.exists_cons_of_ne_nil (List.splitOn_ne_nil Byte.slash rest)
  rw [components, List.splitOn_cons_eq_if_modifyHead, hsplit]
  simp [hb]

/-- **A relative path without a point lies below the sources of the root.** -/
theorem below_place (hne : path ≠ []) (hrel : isAbsolute path = false) (hdot : Byte.dot ∉ path) :
    Workspace.Below root (place root path) := by
  refine Workspace.below_iff.2
    ⟨?_, components path, components_ne_nil hne hrel, isEntry_of_dot_notMem hdot, ?_⟩
  · rw [place, Path.isAbsolute_append hrel, isAbsolute_sourcesOf]
  · rw [place, Path.cleanComponents_append hrel,
      Path.foldl_addComponent_entries (isEntry_of_dot_notMem hdot), List.reverse_append,
      List.reverse_reverse, List.reverse_reverse, cleanComponents_sourcesOf]

/-! ### What a tree has there -/

/-- The names of a place are those of the sources and, unless a zero byte ends these, further
entries. -/
theorem namesOf_place {names : List Bytes} (hrel : isAbsolute path = false)
    (hdot : Byte.dot ∉ path) (h : FileTree.namesOf (place root path) = .ok names) :
    ∃ before after, FileTree.namesOf (sourcesOf root) = .ok before ∧ names = before ++ after ∧
      ∀ name ∈ after, name ≠ [] → IsEntry name := by
  unfold FileTree.namesOf at h ⊢
  rw [place_of_relative hrel, List.takeWhile_append] at h
  simp only at h ⊢
  split at h
  · -- the sources are there to the end, and the path comes after them
    rename_i hlength
    have hsources : (sourcesOf root).takeWhile (· != 0) = sourcesOf root :=
      (List.takeWhile_prefix _).eq_of_length hlength
    obtain ⟨before, hbefore⟩ := exists_sourcesOf root
    have hne : sourcesOf root ≠ [] := by simp [hbefore, ascii]
    have hslash : (Byte.slash :: path).takeWhile (· != 0) =
        Byte.slash :: path.takeWhile (· != 0) := by
      rw [List.takeWhile_cons, if_pos (by decide)]
    rw [hslash, if_neg (by simp)] at h
    split at h
    · cases h
    rename_i hmax
    rw [List.length_append] at hmax
    rw [hsources, if_neg hne, if_neg (by omega)]
    rw [List.splitOn_append_cons_self] at h
    refine ⟨_, _, rfl, (Except.ok.inj h).symm, fun name hname hempty => ?_⟩
    have hpoint : Byte.dot ∉ path.takeWhile (· != 0) :=
      fun hmem => hdot ((List.takeWhile_prefix _).subset hmem)
    exact isEntry_of_dot_notMem hpoint name (List.mem_filter.2 ⟨hname, by simpa using hempty⟩)
  · -- a zero byte in the sources ends the text there
    exact ⟨names, [], h, by simp, by simp⟩

/-- **What the tree has at a place is reached from the sources**, by entries only. -/
theorem exists_locate_place {there : List Bytes} (hrel : isAbsolute path = false)
    (hdot : Byte.dot ∉ path) (h : t.locate (place root path) = .ok there) :
    ∃ here names, t.locate (sourcesOf root) = .ok here ∧ (∀ name ∈ names, IsEntry name) ∧
      there = here ++ names := by
  have horigin : t.origin (place root path) = t.origin (sourcesOf root) := by
    rw [FileTree.origin, place, Path.isAbsolute_append hrel, FileTree.origin]
  unfold FileTree.locate at h ⊢
  rw [horigin] at h
  cases hplace : FileTree.namesOf (place root path) with
  | error fault =>
    rw [hplace] at h
    cases h
  | ok names =>
    obtain ⟨before, after, hbefore, rfl, hafter⟩ := namesOf_place hrel hdot hplace
    have hfollow : (t.follow (t.origin (sourcesOf root)) before >>= (t.follow · after)) =
        .ok there := by
      rw [← FileTree.follow_append]
      rw [hplace] at h
      exact h
    rw [hbefore]
    cases hhere : t.follow (t.origin (sourcesOf root)) before with
    | error fault =>
      rw [hhere] at hfollow
      cases hfollow
    | ok here =>
      rw [hhere] at hfollow
      refine ⟨here, _, hhere, ?_, FileTree.follow_entries hafter hfollow⟩
      intro name hname
      rw [List.mem_filter] at hname
      exact hafter name hname.1 (by simpa using hname.2)

/-- The path leads to a directory below the sources of the root: by its text, and by the names that
lead there in the tree. -/
structure Holds (t : FileTree) (root path : Bytes) : Prop where
  below : Workspace.Below root (place root path)
  isDirectory : t.isDirectory (place root path) = true
  reached : ∃ here names, t.locate (sourcesOf root) = .ok here ∧
    (∀ name ∈ names, IsEntry name) ∧ t.locate (place root path) = .ok (here ++ names)

theorem exists_locate_of_isDirectory {place : Bytes} (h : t.isDirectory place = true) :
    ∃ there, t.locate place = .ok there := by
  unfold FileTree.isDirectory FileTree.find at h
  cases hlocate : t.locate place with
  | error fault =>
    rw [hlocate] at h
    cases h
  | ok there => exact ⟨there, rfl⟩

theorem holds_of_relative (hne : path ≠ []) (hrel : isAbsolute path = false)
    (hdot : Byte.dot ∉ path) (h : t.isDirectory (place root path) = true) : Holds t root path := by
  obtain ⟨there, hthere⟩ := exists_locate_of_isDirectory h
  obtain ⟨here, names, hhere, hnames, rfl⟩ := exists_locate_place hrel hdot hthere
  exact ⟨below_place hne hrel hdot, h, here, names, hhere, hnames, hthere⟩

/-- **Which paths are standard**: with a root, the path has no point, and either it is relative and
leads to a directory below the sources of the root, or it is absolute and a directory stands at the
path itself, wherever the root is. -/
theorem ofRoot_eq_true_iff (t : FileTree) (root path : Bytes) : ofRoot t root path = true ↔
    root ≠ [] ∧ Byte.dot ∉ path ∧
      (path ≠ [] ∧ isAbsolute path = false ∧ Holds t root path ∨
        isAbsolute path = true ∧ t.isDirectory path = true) := by
  have hoff : ofRoot t root path = true ↔
      (root ≠ [] ∧ path ≠ [] ∧ Byte.dot ∉ path) ∧ t.isDirectory (place root path) = true := by
    unfold ofRoot
    rw [← sourcesOf, ← place]
    split
    · rename_i hnone
      simp only [Bool.false_eq_true, false_iff]
      tauto
    · rename_i hsome
      simp only [not_or] at hsome
      simp [hsome]
  rw [hoff]
  cases hrel : isAbsolute path with
  | true =>
    have hne : path ≠ [] := by
      rintro rfl
      cases hrel
    have hplace : place root path = path := if_pos hrel
    simp [hplace, hne, and_assoc]
  | false =>
    constructor
    · rintro ⟨⟨hroot, hne, hdot⟩, hdirectory⟩
      exact ⟨hroot, hdot, Or.inl ⟨hne, rfl, holds_of_relative hne hrel hdot hdirectory⟩⟩
    · rintro ⟨hroot, hdot, ⟨hne, -, hholds⟩ | ⟨habsolute, -⟩⟩
      · exact ⟨⟨hroot, hne, hdot⟩, hholds.isDirectory⟩
      · cases habsolute

/-- **A directory outside the root can be standard.** The place of `/etc` is `/etc`, whatever the
root. -/
theorem exists_outside : ∃ (t : FileTree) (root path : Bytes), root ≠ [] ∧
    ofRoot t root path = true ∧ place root path = path ∧
      ¬ Workspace.Below root (place root path) := by
  refine ⟨⟨[([ascii "goroot", ascii "src", ascii "fmt"], .directory), ([ascii "etc"], .directory)],
    []⟩, ascii "goroot", ascii "/etc", ?_⟩
  rw [Workspace.below_iff_isPrefixOf]
  decide

end Stdlib

end BuildOrder
