import BuildOrder.Path
import Mathlib.Data.List.Basic
import Mathlib.Data.List.TakeWhile

/-!
# Cleaned paths

* `Path.IsEntry`, `Path.IsClean`: a component that stands for an entry of a directory; components as
  cleaning leaves them, `..` in front only.
* `Path.cleanComponents_ofComponents`: **a clean list of components is read back** from its text.
* `Path.clean_clean`, `Path.join_clean_left`: cleaning twice is cleaning once, and a base may be
  cleaned before a path is joined to it.
* `Path.Stays`: a relative path that does not lead out of where it starts.
* `Path.join_eq`, `Path.parent_eq`: joining a base and a path that stays puts their components one
  after the other; the parent of a path lacks the last.
* `Path.parent_join_eq_iff`, `Path.join_join_lastName`: so **the directory of a file below a base is
  the base joined with the directory of the file**, whatever base and file are written like.
-/

namespace BuildOrder.Path

variable {absolute : Bool} {names kept : List Bytes} {name path base rel : Bytes}

/-- The component stands for an entry of a directory: neither for the directory nor for the one
above it. -/
structure IsEntry (name : Bytes) : Prop where
  nonempty : name ≠ []
  slash : Byte.slash ∉ name
  here : name ≠ [Byte.dot]
  above : name ≠ parentName

/-- Components as cleaning leaves them: entries, after steps up in a relative path. -/
def IsClean (absolute : Bool) (names : List Bytes) : Prop :=
  ∃ ups entries, names = List.replicate ups parentName ++ entries ∧
    (∀ name ∈ entries, IsEntry name) ∧ (absolute = true → ups = 0)

/-! ### Components and text -/

theorem slash_notMem_of_mem_splitOn : ∀ name ∈ path.splitOn Byte.slash, Byte.slash ∉ name := by
  induction path with
  | nil => simp
  | cons b path ih =>
    rw [List.splitOn_cons_eq_if_modifyHead]
    split
    · simpa using ih
    · rename_i hb
      have hne : Byte.slash ≠ b := by
        rintro rfl
        simp at hb
      obtain ⟨first, rest, hsplit⟩ :=
        List.exists_cons_of_ne_nil (List.splitOn_ne_nil Byte.slash path)
      rw [hsplit] at ih ⊢
      intro name hname
      rcases List.mem_cons.1 hname with rfl | hname
      · simpa [hne] using ih first List.mem_cons_self
      · exact ih name (List.mem_cons_of_mem _ hname)

theorem mem_components (h : name ∈ components path) : name ≠ [] ∧ Byte.slash ∉ name := by
  rw [components, List.mem_filter] at h
  exact ⟨by simpa using h.2, slash_notMem_of_mem_splitOn name h.1⟩

theorem components_append_slash (before after : Bytes) :
    components (before ++ Byte.slash :: after) = components before ++ components after := by
  rw [components, List.splitOn_append_cons_self, List.filter_append]
  rfl

theorem components_slash_cons (text : Bytes) : components (Byte.slash :: text) = components text :=
  components_append_slash [] text

theorem components_eq_singleton (hne : name ≠ []) (hslash : Byte.slash ∉ name) :
    components name = [name] := by
  rw [components, List.splitOn_eq_singleton hslash]
  simp [hne]

theorem components_joinWith (h : ∀ name ∈ names, name ≠ [] ∧ Byte.slash ∉ name) :
    components (Bytes.joinWith [Byte.slash] names) = names := by
  induction names with
  | nil => rfl
  | cons first rest ih =>
    have hfirst := h first List.mem_cons_self
    cases rest with
    | nil => exact components_eq_singleton hfirst.1 hfirst.2
    | cons second rest =>
      have hjoin : Bytes.joinWith [Byte.slash] (first :: second :: rest) =
          first ++ Byte.slash :: Bytes.joinWith [Byte.slash] (second :: rest) := by
        simp [Bytes.joinWith]
      rw [hjoin, components_append_slash, components_eq_singleton hfirst.1 hfirst.2,
        ih fun name hname => h name (List.mem_cons_of_mem _ hname)]
      rfl

theorem joinWith_concat (hne : names ≠ []) (last : Bytes) :
    Bytes.joinWith [Byte.slash] (names ++ [last]) =
      Bytes.joinWith [Byte.slash] names ++ Byte.slash :: last := by
  induction names with
  | nil => exact absurd rfl hne
  | cons first rest ih =>
    cases rest with
    | nil => simp [Bytes.joinWith]
    | cons second rest =>
      have hrest := ih (List.cons_ne_nil second rest)
      simp only [List.cons_append, Bytes.joinWith] at hrest ⊢
      rw [hrest]
      simp

/-- The text of a path, but for the path of no component. -/
theorem ofComponents_eq (h : absolute = true ∨ names ≠ []) : ofComponents absolute names =
    (if absolute then [Byte.slash] else []) ++ Bytes.joinWith [Byte.slash] names := by
  unfold ofComponents
  cases absolute with
  | true => simp
  | false => simp_all

theorem ofComponents_concat (hne : names ≠ []) (last : Bytes) :
    ofComponents absolute (names ++ [last]) =
      ofComponents absolute names ++ Byte.slash :: last := by
  rw [ofComponents_eq (Or.inr hne), ofComponents_eq (Or.inr (by simp)), joinWith_concat hne,
    List.append_assoc]

theorem isAbsolute_ofComponents (h : ∀ name ∈ names, name ≠ [] ∧ Byte.slash ∉ name) :
    isAbsolute (ofComponents absolute names) = absolute := by
  cases absolute with
  | true => simp [ofComponents, isAbsolute]
  | false =>
    cases names with
    | nil => rfl
    | cons first rest =>
      obtain ⟨b, text, rfl⟩ := List.exists_cons_of_ne_nil (h first List.mem_cons_self).1
      -- the text begins with the first byte of the first component
      have hb : b ≠ Byte.slash := by
        have hslash := (h _ List.mem_cons_self).2
        rintro rfl
        exact hslash List.mem_cons_self
      have hhead : (ofComponents false ((b :: text) :: rest)).head? = some b := by
        cases rest <;> simp [ofComponents, Bytes.joinWith]
      simp [isAbsolute, hhead, hb]

/-! ### What cleaning keeps -/

namespace IsClean

theorem component (h : IsClean absolute names) :
    ∀ name ∈ names, name ≠ [] ∧ Byte.slash ∉ name := by
  obtain ⟨ups, entries, rfl, hentries, -⟩ := h
  intro name hname
  rcases List.mem_append.1 hname with hname | hname
  · rw [List.eq_of_mem_replicate hname]
    decide
  · exact ⟨(hentries name hname).nonempty, (hentries name hname).slash⟩

/-- Further entries leave a path clean. -/
theorem append (h : IsClean absolute names) {more : List Bytes}
    (hmore : ∀ name ∈ more, IsEntry name) : IsClean absolute (names ++ more) := by
  obtain ⟨ups, entries, rfl, hentries, hups⟩ := h
  refine ⟨ups, entries ++ more, List.append_assoc _ _ _, ?_, hups⟩
  intro name hname
  rcases List.mem_append.1 hname with hname | hname
  · exact hentries name hname
  · exact hmore name hname

/-- What stands before the last component is clean, and the last is a step up only after others. -/
theorem concat_cases {last : Bytes} (h : IsClean absolute (names ++ [last])) :
    (IsEntry last ∧ IsClean absolute names) ∨
      (last = parentName ∧ absolute = false ∧ ∃ ups, names = List.replicate ups parentName) := by
  obtain ⟨ups, entries, hnames, hentries, hups⟩ := h
  rcases List.eq_nil_or_concat' entries with rfl | ⟨before, entry, rfl⟩
  · -- all components are steps up
    cases ups with
    | zero => simp at hnames
    | succ ups =>
      rw [List.append_nil, List.replicate_succ', List.append_singleton_inj] at hnames
      refine Or.inr ⟨hnames.2, ?_, ups, hnames.1⟩
      simpa using mt hups (Nat.succ_ne_zero ups)
  · rw [← List.append_assoc, List.append_singleton_inj] at hnames
    refine Or.inl ⟨?_, ups, before, hnames.1, ?_, hups⟩
    · exact hnames.2 ▸ hentries entry (List.mem_append_right _ (List.mem_singleton_self _))
    · exact fun name hname => hentries name (List.mem_append_left _ hname)

theorem of_replicate (ups : Nat) : IsClean false (List.replicate ups parentName) :=
  ⟨ups, [], by simp, by simp, by simp⟩

theorem of_concat {last : Bytes} (h : IsClean absolute (names ++ [last])) :
    IsClean absolute names := by
  rcases h.concat_cases with ⟨-, hnames⟩ | ⟨-, rfl, ups, rfl⟩
  · exact hnames
  · exact of_replicate ups

/-- **A component more leaves a path clean.** A step up takes the last entry away; where there is
none, it stays in a relative path and is dropped in an absolute one. -/
theorem addComponent (h : IsClean absolute kept.reverse) (hname : name ≠ [] ∧ Byte.slash ∉ name) :
    IsClean absolute (addComponent absolute kept name).reverse := by
  unfold Path.addComponent
  split
  · exact h
  rename_i hhere
  split
  · cases kept with
    | nil =>
      cases absolute with
      | true => exact ⟨0, [], by simp, by simp, by simp⟩
      | false => exact of_replicate 1
    | cons last rest =>
      rw [List.reverse_cons] at h
      rcases h.concat_cases with ⟨hlast, hrest⟩ | ⟨rfl, rfl, ups, hups⟩
      · simpa [hlast.above] using hrest
      · rw [List.reverse_eq_iff, List.reverse_replicate] at hups
        subst hups
        simpa [← List.replicate_succ] using of_replicate (ups + 2)
  · rename_i habove
    rw [List.reverse_cons]
    refine h.append fun other hother => ?_
    obtain rfl := List.mem_singleton.1 hother
    exact ⟨hname.1, hname.2, hhere, habove⟩

theorem foldl_addComponent {more : List Bytes} (h : IsClean absolute kept.reverse)
    (hmore : ∀ name ∈ more, name ≠ [] ∧ Byte.slash ∉ name) :
    IsClean absolute (more.foldl (Path.addComponent absolute) kept).reverse := by
  induction more generalizing kept with
  | nil => exact h
  | cons name more ih =>
    rw [List.foldl_cons]
    refine ih (h.addComponent (hmore name List.mem_cons_self)) fun other hother => ?_
    exact hmore other (List.mem_cons_of_mem _ hother)

end IsClean

/-- **Cleaning leaves a clean path.** -/
theorem isClean_cleanComponents (path : Bytes) :
    IsClean (isAbsolute path) (cleanComponents path) := by
  have hnil : IsClean (isAbsolute path) ([] : List Bytes).reverse :=
    ⟨0, [], rfl, by simp, by simp⟩
  exact hnil.foldl_addComponent fun _ => mem_components

theorem addComponent_entry (h : IsEntry name) (absolute : Bool) (kept : List Bytes) :
    addComponent absolute kept name = name :: kept := by
  unfold addComponent
  rw [if_neg h.here, if_neg h.above]

/-- Entries are kept as they come. -/
theorem foldl_addComponent_entries (h : ∀ name ∈ names, IsEntry name) :
    names.foldl (addComponent absolute) kept = names.reverse ++ kept := by
  induction names generalizing kept with
  | nil => rfl
  | cons name names ih =>
    rw [List.foldl_cons, addComponent_entry (h name List.mem_cons_self),
      ih fun other hother => h other (List.mem_cons_of_mem _ hother)]
    simp

/-- Steps up in front of a relative path are kept. -/
theorem foldl_addComponent_ups (ups : Nat) :
    (List.replicate ups parentName).foldl (addComponent false) [] =
      List.replicate ups parentName := by
  induction ups with
  | zero => rfl
  | succ ups ih =>
    rw [List.replicate_succ', List.foldl_append, ih, ← List.replicate_succ', List.replicate_succ]
    cases ups with
    | zero => rfl
    | succ ups => rfl

theorem foldl_addComponent_clean (h : IsClean absolute names) :
    names.foldl (addComponent absolute) [] = names.reverse := by
  obtain ⟨ups, entries, rfl, hentries, hups⟩ := h
  rw [List.foldl_append, foldl_addComponent_entries hentries, List.reverse_append,
    List.reverse_replicate]
  cases absolute with
  | true => rw [hups rfl]; rfl
  | false => rw [foldl_addComponent_ups]

/-- The components of a text are those it was made from, but for the path of no component. -/
theorem components_ofComponents (h : IsClean absolute names)
    (hsome : absolute = true ∨ names ≠ []) :
    components (ofComponents absolute names) = names := by
  rw [ofComponents_eq hsome]
  cases absolute with
  | true => exact (components_slash_cons _).trans (components_joinWith h.component)
  | false => exact components_joinWith h.component

/-- **A clean list of components is read back** from its text. -/
theorem cleanComponents_ofComponents (h : IsClean absolute names) :
    cleanComponents (ofComponents absolute names) = names := by
  rw [cleanComponents, isAbsolute_ofComponents h.component]
  by_cases hnone : absolute = false ∧ names = []
  · -- the text of no component is the directory itself
    obtain ⟨rfl, rfl⟩ := hnone
    decide
  · have hsome : absolute = true ∨ names ≠ [] := by simpa [or_iff_not_imp_left] using hnone
    rw [components_ofComponents h hsome, foldl_addComponent_clean h, List.reverse_reverse]

theorem clean_ofComponents (h : IsClean absolute names) :
    clean (ofComponents absolute names) = ofComponents absolute names := by
  rw [clean, cleanComponents_ofComponents h, isAbsolute_ofComponents h.component]

theorem isAbsolute_clean (path : Bytes) : isAbsolute (clean path) = isAbsolute path :=
  isAbsolute_ofComponents (isClean_cleanComponents path).component

theorem cleanComponents_clean (path : Bytes) :
    cleanComponents (clean path) = cleanComponents path :=
  cleanComponents_ofComponents (isClean_cleanComponents path)

/-- **A cleaned path stays as it is.** -/
theorem clean_clean (path : Bytes) : clean (clean path) = clean path :=
  clean_ofComponents (isClean_cleanComponents path)

theorem ofComponents_inj {others : List Bytes} (h : IsClean absolute names)
    (hothers : IsClean absolute others)
    (heq : ofComponents absolute names = ofComponents absolute others) : names = others := by
  rw [← cleanComponents_ofComponents h, heq, cleanComponents_ofComponents hothers]

/-! ### The last component and those before it -/

theorem splitLast_append_slash (before : Bytes) {last : Bytes} (h : Byte.slash ∉ last) :
    splitLast (before ++ Byte.slash :: last) = (some before, last) := by
  have hlast : ((before ++ Byte.slash :: last).reverse.takeWhile (· != Byte.slash)).reverse =
      last := by
    rw [List.reverse_append, List.reverse_cons, List.append_assoc, List.takeWhile_append_of_pos]
    · simp
    · intro b hb
      have : b ≠ Byte.slash := by
        rintro rfl
        exact h (List.mem_reverse.1 hb)
      simpa using this
  rw [splitLast, hlast, if_pos (by simp; omega)]
  congr 2
  rw [List.length_append, List.length_cons]
  exact List.take_left' (by omega)

theorem splitLast_of_notMem (h : Byte.slash ∉ name) : splitLast name = (none, name) := by
  have hname : (name.reverse.takeWhile (· != Byte.slash)).reverse = name := by
    rw [List.takeWhile_eq_self_iff.2, List.reverse_reverse]
    intro b hb
    have : b ≠ Byte.slash := by
      rintro rfl
      exact h (List.mem_reverse.1 hb)
    simpa using this
  rw [splitLast, hname, if_neg (Nat.lt_irrefl _)]

/-- The last name of a path is what no slash of it is in or after. -/
theorem lastName_eq_iff {last : Bytes} : lastName name = last ↔
    Byte.slash ∉ last ∧ (name = last ∨ ∃ before, name = before ++ Byte.slash :: last) := by
  constructor
  · rintro rfl
    by_cases hslash : Byte.slash ∈ name
    · obtain ⟨after, before, hsplit, hafter⟩ :=
        List.eq_append_cons_of_mem (List.mem_reverse.2 hslash)
      have hsplit : name = before.reverse ++ Byte.slash :: after.reverse := by
        simpa using congrArg List.reverse hsplit
      rw [← List.mem_reverse] at hafter
      rw [hsplit, lastName, splitLast_append_slash _ hafter]
      exact ⟨hafter, Or.inr ⟨_, rfl⟩⟩
    · rw [lastName, splitLast_of_notMem hslash]
      exact ⟨hslash, Or.inl rfl⟩
  · rintro ⟨hlast, rfl | ⟨before, rfl⟩⟩
    · rw [lastName, splitLast_of_notMem hlast]
    · rw [lastName, splitLast_append_slash before hlast]

/-- **The text of a path splits at its last component.** -/
theorem splitLast_ofComponents {last : Bytes} (hlast : Byte.slash ∉ last) :
    splitLast (ofComponents absolute (names ++ [last])) =
      (if names = [] then (if absolute then some [] else none)
        else some (ofComponents absolute names), last) := by
  by_cases hnames : names = []
  · subst hnames
    cases absolute with
    | true => exact splitLast_append_slash [] hlast
    | false => exact splitLast_of_notMem hlast
  · rw [ofComponents_concat hnames, splitLast_append_slash _ hlast, if_neg hnames]

/-- **The parent of a path lacks its last component.** -/
theorem parent_eq (path : Bytes) :
    parent path = ofComponents (isAbsolute path) (cleanComponents path).dropLast := by
  have hclean := isClean_cleanComponents path
  unfold parent clean
  rcases List.eq_nil_or_concat' (cleanComponents path) with hnil | ⟨names, last, hnames⟩
  · rw [hnil]
    cases isAbsolute path <;> decide
  rw [hnames] at hclean ⊢
  have hlast := (hclean.component last (by simp)).2
  rw [splitLast_ofComponents hlast, List.dropLast_concat]
  by_cases hne : names = []
  · subst hne
    cases isAbsolute path <;> rfl
  · rw [if_neg hne]
    -- a path with components has a text
    have htext : ofComponents (isAbsolute path) names ≠ [] := by
      intro hnil
      have hread := cleanComponents_ofComponents hclean.of_concat
      rw [hnil] at hread
      exact hne hread.symm
    obtain ⟨b, text, hcons⟩ := List.exists_cons_of_ne_nil htext
    rw [hcons]

theorem lastName_ofComponents {last : Bytes} (h : Byte.slash ∉ last) :
    lastName (ofComponents absolute (names ++ [last])) = last := by
  rw [lastName, splitLast_ofComponents h]

/-! ### Below a base -/

/-- The path is relative and does not lead out of where it starts. -/
structure Stays (path : Bytes) : Prop where
  relative : isAbsolute path = false
  entries : ∀ name ∈ cleanComponents path, IsEntry name

theorem components_append (hrel : isAbsolute rel = false) :
    components (append base rel) = components base ++ components rel := by
  unfold append
  rw [if_neg (by simp [hrel])]
  split
  · rename_i hbase
    rcases hbase with rfl | hlast
    · rfl
    · -- the slash at the end of the base is the one between the two
      obtain ⟨before, rfl⟩ := List.getLast?_eq_some_iff.1 hlast
      rw [List.append_assoc, List.singleton_append, components_append_slash,
        components_append_slash]
      simp [components]
  · exact components_append_slash base rel

theorem append_empty (rel : Bytes) : append [] rel = rel := by
  simp [append]

theorem isAbsolute_append (hrel : isAbsolute rel = false) :
    isAbsolute (append base rel) = isAbsolute base := by
  cases base with
  | nil =>
    rw [append_empty, hrel]
    rfl
  | cons b base =>
    unfold append
    rw [if_neg (by simp [hrel])]
    split <;> rfl

/-- Joining is cleaning what comes after the base. -/
theorem join_eq_clean (base rel : Bytes) : join base rel = clean (append base rel) := by
  unfold join
  split
  · rename_i hbase
    rw [hbase, append_empty]
  · rfl

/-- A relative path takes up the components that cleaning keeps of its base. -/
theorem cleanComponents_append (hrel : isAbsolute rel = false) :
    cleanComponents (append base rel) =
      ((components rel).foldl (addComponent (isAbsolute base))
        (cleanComponents base).reverse).reverse := by
  rw [cleanComponents, isAbsolute_append hrel, components_append hrel, List.foldl_append,
    cleanComponents, List.reverse_reverse]

/-- **A base may be cleaned first.** -/
theorem join_clean_left (base rel : Bytes) : join (clean base) rel = join base rel := by
  rw [join_eq_clean, join_eq_clean]
  by_cases hrel : isAbsolute rel = true
  · have hreplace : ∀ text, append text rel = rel := fun _ => if_pos hrel
    rw [hreplace, hreplace]
  · rw [Bool.not_eq_true] at hrel
    show ofComponents (isAbsolute (append (clean base) rel)) _ =
      ofComponents (isAbsolute (append base rel)) _
    rw [cleanComponents_append hrel, cleanComponents_append hrel, isAbsolute_append hrel,
      isAbsolute_append hrel, isAbsolute_clean, cleanComponents_clean]

/-- Steps up that are kept once are kept for good. -/
theorem parentName_mem_addComponent (h : parentName ∈ kept) :
    parentName ∈ addComponent absolute kept name := by
  unfold addComponent
  split
  · exact h
  split
  · cases kept with
    | nil => cases h
    | cons last rest =>
      simp only
      split
      · exact List.mem_cons_self
      · rename_i hlast
        exact (List.mem_cons.1 h).resolve_left (Ne.symm hlast)
  · exact List.mem_cons_of_mem _ h

theorem parentName_mem_foldl (h : parentName ∈ kept) :
    parentName ∈ names.foldl (addComponent absolute) kept := by
  induction names generalizing kept with
  | nil => exact h
  | cons name names ih => exact ih (parentName_mem_addComponent h)

/-- **What does not lead out of where it starts is the same anywhere.** -/
theorem foldl_addComponent_append {top : List Bytes} (below : List Bytes)
    (h : parentName ∉ names.foldl (addComponent false) top) :
    names.foldl (addComponent absolute) (top ++ below) =
      names.foldl (addComponent false) top ++ below := by
  induction names generalizing top with
  | nil => rfl
  | cons name names ih =>
    rw [List.foldl_cons] at h ⊢
    have hstep : parentName ∉ addComponent false top name := mt parentName_mem_foldl h
    -- the step touches none of the components below
    have heq : addComponent absolute (top ++ below) name = addComponent false top name ++ below := by
      unfold addComponent at hstep ⊢
      split
      · rfl
      rename_i hhere
      rw [if_neg hhere] at hstep
      split
      · rename_i habove
        rw [if_pos habove] at hstep
        cases top with
        | nil => simp at hstep
        | cons last rest =>
          by_cases hlast : last = parentName
          · simp [hlast] at hstep
          · simp [hlast]
      · rfl
    rw [heq]
    exact ih h

/-- **A base and a path that stays below it**: the components of the one after those of the
other. -/
theorem join_eq (h : Stays rel) : join base rel =
    ofComponents (isAbsolute base) (cleanComponents base ++ cleanComponents rel) := by
  have habove : parentName ∉ (components rel).foldl (addComponent false) [] := by
    intro hmem
    refine (h.entries parentName ?_).above rfl
    rw [cleanComponents, h.relative]
    exact List.mem_reverse.2 hmem
  rw [join_eq_clean, clean, isAbsolute_append h.relative, cleanComponents,
    isAbsolute_append h.relative, components_append h.relative, List.foldl_append]
  have hfold : ∀ below, (components rel).foldl (addComponent (isAbsolute base)) below =
      (components rel).foldl (addComponent false) [] ++ below :=
    fun below => foldl_addComponent_append below habove
  rw [hfold, List.reverse_append, cleanComponents, cleanComponents, h.relative]

theorem isClean_join (h : Stays rel) :
    IsClean (isAbsolute base) (cleanComponents base ++ cleanComponents rel) :=
  (isClean_cleanComponents base).append h.entries

theorem cleanComponents_join (h : Stays rel) :
    cleanComponents (join base rel) = cleanComponents base ++ cleanComponents rel := by
  rw [join_eq h, cleanComponents_ofComponents (isClean_join h)]

theorem isAbsolute_join (h : Stays rel) : isAbsolute (join base rel) = isAbsolute base := by
  rw [join_eq h, isAbsolute_ofComponents (isClean_join h).component]

/-! ### The files of a build -/

variable {filename dir : Bytes}

/-- Where a file lies below the base: in the directory that `names` lead to, under the name
`last`. -/
structure Below (filename : Bytes) (names : List Bytes) (last : Bytes) : Prop extends
    Stays filename where
  components : cleanComponents filename = names ++ [last]

namespace Below

variable {names others : List Bytes} {last other : Bytes}

theorem isClean (h : Below filename names last) : IsClean false (names ++ [last]) := by
  have hclean := isClean_cleanComponents filename
  rwa [h.components, h.relative] at hclean

theorem entry (h : Below filename names last) : IsEntry last :=
  h.entries last (h.components ▸ List.mem_append_right _ (List.mem_singleton_self _))

theorem clean_eq (h : Below filename names last) :
    clean filename = ofComponents false (names ++ [last]) := by
  rw [clean, h.components, h.relative]

theorem parent_clean (h : Below filename names last) :
    parent (clean filename) = ofComponents false names := by
  rw [parent_eq, h.clean_eq, isAbsolute_ofComponents h.isClean.component,
    cleanComponents_ofComponents h.isClean, List.dropLast_concat]

theorem lastName_clean (h : Below filename names last) : lastName (clean filename) = last := by
  rw [h.clean_eq, lastName_ofComponents h.entry.slash]

theorem stays_clean (h : Below filename names last) : Stays (clean filename) := by
  refine ⟨?_, ?_⟩
  · rw [isAbsolute_clean, h.relative]
  · rw [cleanComponents_clean]
    exact h.entries

theorem cleanComponents_dir (h : Below filename names last) :
    cleanComponents (ofComponents false names) = names :=
  cleanComponents_ofComponents h.isClean.of_concat

theorem stays_dir (h : Below filename names last) : Stays (ofComponents false names) := by
  refine ⟨isAbsolute_ofComponents h.isClean.of_concat.component, ?_⟩
  rw [h.cleanComponents_dir]
  exact fun name hname => h.entries name (h.components ▸ List.mem_append_left _ hname)

theorem isClean_dir (h : Below filename names last) :
    IsClean (isAbsolute base) (cleanComponents base ++ names) := by
  have hclean : IsClean (isAbsolute base) _ := isClean_join h.stays_dir
  rwa [h.cleanComponents_dir] at hclean

theorem cleanComponents_last (h : Below filename names last) : cleanComponents last = [last] := by
  have hlast : IsClean false [last] := ⟨0, [last], rfl, by simpa using h.entry, by simp⟩
  exact cleanComponents_ofComponents hlast

theorem stays_last (h : Below filename names last) : Stays last := by
  refine ⟨?_, ?_⟩
  · have hlast : ofComponents false [last] = last := rfl
    rw [← hlast, isAbsolute_ofComponents]
    simpa using ⟨h.entry.nonempty, h.entry.slash⟩
  · rw [h.cleanComponents_last]
    simpa using h.entry

/-- The directory of a file below the base. -/
theorem parent_join (h : Below filename names last) : parent (join base filename) =
    ofComponents (isAbsolute base) (cleanComponents base ++ names) := by
  rw [parent_eq, isAbsolute_join h.toStays, cleanComponents_join h.toStays, h.components,
    ← List.append_assoc, List.dropLast_concat]

theorem join_dir (h : Below filename names last) : join base (ofComponents false names) =
    ofComponents (isAbsolute base) (cleanComponents base ++ names) := by
  rw [join_eq h.stays_dir, h.cleanComponents_dir]

theorem lastName_join (h : Below filename names last) :
    lastName (join base filename) = last := by
  rw [join_eq h.toStays, h.components, ← List.append_assoc, lastName_ofComponents h.entry.slash]

end Below

/-- A step up in front shows in the text. -/
theorem text_of_parentName_cons (names : List Bytes) :
    ofComponents false (parentName :: names) = parentName ∨
      (parentName ++ [Byte.slash]).isPrefixOf (ofComponents false (parentName :: names)) := by
  cases names with
  | nil => exact Or.inl rfl
  | cons name names =>
    refine Or.inr ?_
    simp [ofComponents, Bytes.joinWith]

/-- **A name that is accepted lies below the base.** -/
theorem exists_below (h : directoryBelow? filename = some dir) :
    ∃ names last, Below filename names last ∧ dir = ofComponents false names := by
  unfold directoryBelow? at h
  simp only at h
  split at h
  · cases h
  rename_i hname
  split at h
  · cases h
  rename_i htext
  simp only [not_or, Bool.not_eq_true] at hname htext
  obtain ⟨ups, entries, hclean, hentries, -⟩ := isClean_cleanComponents filename
  have hrelative := hname.2.1
  have hcleaned : clean filename = ofComponents false (cleanComponents filename) := by
    rw [clean, hrelative]
  rw [hcleaned, hclean] at htext
  have hups : ups = 0 := by
    cases ups with
    | zero => rfl
    | succ ups =>
      rw [List.replicate_succ, List.cons_append] at htext
      rcases text_of_parentName_cons (List.replicate ups parentName ++ entries) with hup | hup
      · exact absurd hup htext.2.1
      · rw [htext.2.2] at hup
        cases hup
  subst hups
  rw [List.replicate_zero, List.nil_append] at hclean htext
  rcases List.eq_nil_or_concat' entries with rfl | ⟨names, last, rfl⟩
  · exact absurd rfl htext.1
  have hbelow : Below filename names last := ⟨⟨hrelative, hclean ▸ hentries⟩, hclean⟩
  refine ⟨names, last, hbelow, ?_⟩
  rw [← hbelow.parent_clean]
  exact (Option.some.inj h).symm

/-- The directory of a name that is accepted is that of the cleaned name. -/
theorem parent_clean (h : directoryBelow? filename = some dir) : parent (clean filename) = dir := by
  obtain ⟨names, last, hbelow, rfl⟩ := exists_below h
  exact hbelow.parent_clean

/-- **Two files of a base lie in one directory if their names say so**, whatever they are written
like. -/
theorem parent_join_eq_iff {other otherDir : Bytes} (h : directoryBelow? filename = some dir)
    (hother : directoryBelow? other = some otherDir) :
    parent (join base filename) = clean (join base otherDir) ↔ dir = otherDir := by
  obtain ⟨names, last, hbelow, rfl⟩ := exists_below h
  obtain ⟨otherNames, otherLast, hotherBelow, rfl⟩ := exists_below hother
  have hclean : IsClean (isAbsolute base) (cleanComponents base ++ names) := hbelow.isClean_dir
  have hotherClean : IsClean (isAbsolute base) (cleanComponents base ++ otherNames) :=
    hotherBelow.isClean_dir
  rw [hbelow.parent_join, hotherBelow.join_dir, clean_ofComponents hotherClean]
  constructor
  · intro heq
    rw [List.append_cancel_left (ofComponents_inj hclean hotherClean heq)]
  · intro heq
    rw [ofComponents_inj hbelow.isClean.of_concat hotherBelow.isClean.of_concat heq]

/-- **The file is found again in its directory**, under its last name. -/
theorem join_join_lastName (h : directoryBelow? filename = some dir) :
    join (join base dir) (lastName (join base filename)) = join base filename := by
  obtain ⟨names, last, hbelow, rfl⟩ := exists_below h
  rw [hbelow.lastName_join, join_eq hbelow.stays_last, isAbsolute_join hbelow.stays_dir,
    cleanComponents_join hbelow.stays_dir, hbelow.cleanComponents_dir, hbelow.cleanComponents_last,
    join_eq hbelow.toStays, hbelow.components, List.append_assoc]

/-- Below a base, it does not matter whether the name is cleaned before. -/
theorem join_clean (h : directoryBelow? filename = some dir) :
    join base (clean filename) = join base filename := by
  obtain ⟨names, last, hbelow, -⟩ := exists_below h
  rw [join_eq hbelow.stays_clean, join_eq hbelow.toStays, cleanComponents_clean]

/-- The last name of a file does not depend on the base. -/
theorem lastName_join (h : directoryBelow? filename = some dir) :
    lastName (join base filename) = lastName (clean filename) := by
  obtain ⟨names, last, hbelow, -⟩ := exists_below h
  rw [hbelow.lastName_join, hbelow.lastName_clean]

/-- **A cleaned name is its directory and its last name.** -/
theorem clean_eq_dir_append (h : directoryBelow? filename = some dir) :
    clean filename = if dir = [Byte.dot] then lastName (clean filename)
      else dir ++ [Byte.slash] ++ lastName (clean filename) := by
  obtain ⟨names, last, hbelow, rfl⟩ := exists_below h
  rw [hbelow.lastName_clean, hbelow.clean_eq]
  by_cases hnames : names = []
  · subst hnames
    rfl
  · have hdir : ofComponents false names ≠ [Byte.dot] := by
      intro hdot
      have hnil : names = [] :=
        ofComponents_inj hbelow.isClean.of_concat (IsClean.of_replicate 0) hdot
      exact hnames hnil
    rw [if_neg hdir, ofComponents_concat hnames]
    simp

end BuildOrder.Path
