import BuildOrder.Proofs.Path
import Mathlib.Data.List.Induction

/-!
# Joining paths

* `Path.foldl_foldl_addComponent`: **the components of a relative path may be cleaned before they are
  added** to others: a step up takes away the same entry on both ways.
* `Path.join_clean_right`, `Path.join_assoc`: so the path that is joined may be cleaned first, and
  **joining is associative**, for relative, absolute, empty and upward paths alike.
* `Path.named`, `Path.named_clean`: the components that a text names, and those of a cleaned path.
* `Path.joined_below`: a file that is accepted stays below any base.
-/

namespace BuildOrder.Path

variable {absolute : Bool} {names kept : List Bytes} {path base rel b r s : Bytes}

/-! ### Cleaning before joining -/

theorem addComponent_here (absolute : Bool) (kept : List Bytes) :
    addComponent absolute kept [Byte.dot] = kept := if_pos rfl

/-- A step up after an entry takes it away, and after a step up it is kept. -/
theorem addComponent_parentName_cons (absolute : Bool) (last : Bytes) (rest : List Bytes) :
    addComponent absolute (last :: rest) parentName =
      if last = parentName then parentName :: last :: rest else rest := by
  unfold addComponent
  rw [if_neg (by decide), if_pos rfl]

/-- **The components of a relative path may be cleaned before they are added** to others. -/
theorem foldl_foldl_addComponent (h : ∀ name ∈ names, name ≠ [] ∧ Byte.slash ∉ name) :
    (names.foldl (addComponent false) []).reverse.foldl (addComponent absolute) kept =
      names.foldl (addComponent absolute) kept := by
  induction names using List.reverseRecOn with
  | nil => rfl
  | append_singleton names name ih =>
    have hnames : ∀ other ∈ names, other ≠ [] ∧ Byte.slash ∉ other :=
      fun other hother => h other (List.mem_append_left _ hother)
    have hnil : IsClean false ([] : List Bytes).reverse := IsClean.of_replicate 0
    have hclean := hnil.foldl_addComponent hnames
    rw [List.foldl_concat, List.foldl_concat, ← ih hnames]
    generalize names.foldl (addComponent false) [] = top at hclean ⊢
    by_cases hhere : name = [Byte.dot]
    · rw [hhere, addComponent_here, addComponent_here]
    by_cases habove : name = parentName
    · subst habove
      cases top with
      | nil => rfl
      | cons last rest =>
        rw [addComponent_parentName_cons]
        rw [List.reverse_cons] at hclean
        rcases hclean.concat_cases with ⟨hlast, -⟩ | ⟨rfl, -⟩
        · -- the step up takes the last entry away, before the entry is added or after
          rw [if_neg hlast.above, List.reverse_cons, List.foldl_concat, addComponent_entry hlast,
            addComponent_parentName_cons, if_neg hlast.above]
        · rw [if_pos rfl, List.reverse_cons, List.foldl_concat]
    · obtain ⟨hnonempty, hslash⟩ := h name (List.mem_append_right _ (List.mem_singleton_self _))
      have hname : IsEntry name := ⟨hnonempty, hslash, hhere, habove⟩
      rw [addComponent_entry hname, List.reverse_cons, List.foldl_concat]

/-- A cleaned relative path adds what the path adds. -/
theorem foldl_components_clean (hrel : isAbsolute path = false) :
    (components (clean path)).foldl (addComponent absolute) kept =
      (components path).foldl (addComponent absolute) kept := by
  have hfold : (cleanComponents path).foldl (addComponent absolute) kept =
      (components path).foldl (addComponent absolute) kept := by
    rw [cleanComponents, hrel]
    exact foldl_foldl_addComponent fun _ => mem_components
  rw [← hfold, clean, hrel]
  by_cases hnone : cleanComponents path = []
  · -- the path of no component is written as the directory itself
    rw [hnone]
    rfl
  · have hclean := isClean_cleanComponents path
    rw [hrel] at hclean
    rw [components_ofComponents hclean (Or.inr hnone)]

theorem append_of_isAbsolute (h : isAbsolute rel = true) : append base rel = rel := if_pos h

/-- What is joined may be cleaned first. -/
theorem join_clean_right (base rel : Bytes) : join base (clean rel) = join base rel := by
  rw [join_eq_clean, join_eq_clean]
  by_cases hrel : isAbsolute rel = true
  · have hclean : isAbsolute (clean rel) = true := by rw [isAbsolute_clean, hrel]
    rw [append_of_isAbsolute hrel, append_of_isAbsolute hclean, clean_clean]
  · rw [Bool.not_eq_true] at hrel
    have hclean : isAbsolute (clean rel) = false := by rw [isAbsolute_clean, hrel]
    show ofComponents (isAbsolute (append base (clean rel))) _ =
      ofComponents (isAbsolute (append base rel)) _
    rw [isAbsolute_append hrel, isAbsolute_append hclean, cleanComponents_append hrel,
      cleanComponents_append hclean, foldl_components_clean hrel]

/-- Cleaning sees nothing of a path but its components and where it starts. -/
theorem clean_congr {other : Bytes} (habsolute : isAbsolute path = isAbsolute other)
    (hcomponents : components path = components other) : clean path = clean other := by
  rw [clean, clean, cleanComponents, cleanComponents, habsolute, hcomponents]

/-- Before they are cleaned, paths may differ in slashes only. -/
theorem clean_append_append (hs : isAbsolute s = false) :
    clean (append (append b r) s) = clean (append b (append r s)) := by
  by_cases hr : isAbsolute r = true
  · have hrs : isAbsolute (append r s) = true := by rw [isAbsolute_append hs, hr]
    rw [append_of_isAbsolute hr, append_of_isAbsolute hrs]
  · rw [Bool.not_eq_true] at hr
    have hrs : isAbsolute (append r s) = false := by rw [isAbsolute_append hs, hr]
    apply clean_congr
    · rw [isAbsolute_append hs, isAbsolute_append hr, isAbsolute_append hrs]
    · rw [components_append hs, components_append hr, components_append hrs, components_append hs,
        List.append_assoc]

/-- **Joining is associative.** -/
theorem join_assoc (b r s : Bytes) : join (join b r) s = join b (join r s) := by
  by_cases hs : isAbsolute s = true
  · -- an absolute path replaces all before it
    have hreplace : ∀ base, join base s = clean s := fun base => by
      rw [join_eq_clean, append_of_isAbsolute hs]
    rw [hreplace, hreplace, join_clean_right, hreplace]
  · rw [Bool.not_eq_true] at hs
    calc join (join b r) s = join (append b r) s := by rw [join_eq_clean b r, join_clean_left]
      _ = clean (append (append b r) s) := join_eq_clean _ _
      _ = clean (append b (append r s)) := clean_append_append hs
      _ = join b (append r s) := (join_eq_clean _ _).symm
      _ = join b (join r s) := by rw [join_eq_clean r s, join_clean_right]

/-! ### Files below a base -/

/-- The components that a text names: `.` stands for none. -/
def named (path : Bytes) : List Bytes := (components path).filter (· != [Byte.dot])

/-- **A cleaned path names the components that cleaning keeps.** -/
theorem named_clean (path : Bytes) : named (clean path) = cleanComponents path := by
  have hclean := isClean_cleanComponents path
  by_cases hnone : isAbsolute path = false ∧ cleanComponents path = []
  · rw [clean, hnone.1, hnone.2]
    rfl
  · have hsome : isAbsolute path = true ∨ cleanComponents path ≠ [] := by
      simpa [or_iff_not_imp_left] using hnone
    rw [named, clean, components_ofComponents hclean hsome, List.filter_eq_self]
    obtain ⟨ups, entries, heq, hentries, -⟩ := hclean
    intro name hname
    rw [heq] at hname
    rcases List.mem_append.1 hname with hname | hname
    · rw [List.eq_of_mem_replicate hname]
      rfl
    · simpa using (hentries name hname).here

theorem named_join (base rel : Bytes) : named (join base rel) = cleanComponents (join base rel) := by
  have hclean : clean (join base rel) = join base rel := by rw [join_eq_clean, clean_clean]
  rw [← named_clean, hclean]

/-- **Paths are cleaned once and joined in any grouping, and a file that is accepted stays below any
base**: its components come after those of the base, at least one, and each stands for an entry; and
its directory is the base joined with the directory of the name. -/
theorem joined_below (b r s : Bytes) :
    clean (clean b) = clean b ∧ join (join b r) s = join b (join r s) ∧
      ∀ f d, directoryBelow? f = some d →
        isAbsolute (join b f) = isAbsolute (clean b) ∧
        named (join b f) = named (clean b) ++ named (clean f) ∧
        named (clean f) ≠ [] ∧ (∀ name ∈ named (clean f), IsEntry name) ∧
        parent (join b f) = join b d := by
  refine ⟨clean_clean b, join_assoc b r s, fun f d h => ?_⟩
  obtain ⟨names, last, hbelow, rfl⟩ := exists_below h
  refine ⟨?_, ?_, ?_, ?_, ?_⟩
  · rw [isAbsolute_join hbelow.toStays, isAbsolute_clean]
  · rw [named_join, named_clean, named_clean, cleanComponents_join hbelow.toStays]
  · rw [named_clean, hbelow.components]
    exact List.concat_ne_nil _ _
  · rw [named_clean]
    exact hbelow.entries
  · rw [hbelow.parent_join, hbelow.join_dir]

/-- The base leads up, and the name leads down, up and down again. -/
theorem joined_below_winding :
    directoryBelow? (ascii "x/..//y/f.go") = some (ascii "y") ∧
      named (join (ascii "a/../../w/") (ascii "x/..//y/f.go")) =
        [parentName, ascii "w"] ++ [ascii "y", ascii "f.go"] ∧
      parent (join (ascii "a/../../w/") (ascii "x/..//y/f.go")) = ascii "../w/y" := by
  have hdir : directoryBelow? (ascii "x/..//y/f.go") = some (ascii "y") := by decide
  obtain ⟨-, -, hbelow⟩ := joined_below (ascii "a/../../w/") [] []
  obtain ⟨-, hnamed, -, -, hparent⟩ := hbelow _ _ hdir
  refine ⟨hdir, hnamed.trans (by decide), hparent.trans (by decide)⟩

end BuildOrder.Path
