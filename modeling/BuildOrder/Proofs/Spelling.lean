import BuildOrder.Proofs.Closure

/-!
# Import paths that stand for one directory

A workspace is asked for an import path as it is written, and looks for a directory by the cleaned
path.

* `ImportPath.stays_of_check`: **a legal path leads to a directory below the sources of a root**,
  however it is written.
* `Path.join_eq_cases`: two such paths lead to one directory if they are one when cleaned; else only
  if one of the places they start from lies inside the other.
* `Workspace.firstDirectory?_congr`: paths that are one when cleaned are found in one directory.
* `Builder.build_baseDir`: **two external packages have one directory if their paths are one when
  cleaned**; so a package that is imported under two spellings is there twice.
-/

namespace BuildOrder

/-! ### Paths that lead down only -/

namespace Path

variable {absolute : Bool} {names kept : List Bytes} {name path p q s t : Bytes}

theorem infix_of_mem_components (h : name ∈ components path) : name <:+: path := by
  have hall : ∀ names : List Bytes, name ∈ names → name <:+: [Byte.slash].intercalate names := by
    intro names hname
    induction names with
    | nil => cases hname
    | cons first rest ih =>
      cases rest with
      | nil =>
        rw [List.mem_singleton.1 hname]
        simp
      | cons second rest =>
        rw [List.intercalate_cons_cons]
        rcases List.mem_cons.1 hname with rfl | hname
        · exact ⟨[], _, by rw [List.nil_append, List.append_assoc]⟩
        · exact (ih hname).trans (List.suffix_append _ _).isInfix
  have hmem : name ∈ path.splitOn Byte.slash := (List.mem_filter.1 h).1
  simpa [List.intercalate_splitOn] using hall _ hmem

/-- Cleaning adds steps up only for components that are some. -/
theorem parentName_notMem_foldl (hkept : parentName ∉ kept) (hnames : parentName ∉ names) :
    parentName ∉ names.foldl (addComponent absolute) kept := by
  induction names generalizing kept with
  | nil => exact hkept
  | cons name names ih =>
    rw [List.mem_cons, not_or] at hnames
    apply ih _ hnames.2
    unfold addComponent
    split
    · exact hkept
    rw [if_neg (Ne.symm hnames.1), List.mem_cons, not_or]
    exact ⟨hnames.1, hkept⟩

/-- A relative path without steps up does not lead out of where it starts. -/
theorem stays_of_parentName_notMem (hrel : isAbsolute path = false)
    (h : parentName ∉ components path) : Stays path := by
  have hclean : parentName ∉ cleanComponents path := by
    intro hmem
    exact parentName_notMem_foldl (by simp) h (List.mem_reverse.1 hmem)
  obtain ⟨ups, entries, heq, hentries, -⟩ := isClean_cleanComponents path
  have hups : ups = 0 := by
    by_contra hne
    apply hclean
    rw [heq]
    exact List.mem_append_left _ (List.mem_replicate.2 ⟨hne, rfl⟩)
  subst hups
  rw [List.replicate_zero, List.nil_append] at heq
  exact ⟨hrel, heq ▸ hentries⟩

/-- The first path leads to a place below that of the second one. -/
def Inside (inner outer : Bytes) : Prop :=
  isAbsolute inner = isAbsolute outer ∧
    ∃ more, more ≠ [] ∧ cleanComponents inner = cleanComponents outer ++ more

theorem Stays.clean_eq_iff (hp : Stays p) (hq : Stays q) :
    clean p = clean q ↔ cleanComponents p = cleanComponents q := by
  have hpclean := isClean_cleanComponents p
  have hqclean := isClean_cleanComponents q
  rw [hp.relative] at hpclean
  rw [hq.relative] at hqclean
  rw [clean, clean, hp.relative, hq.relative]
  constructor
  · exact ofComponents_inj hpclean hqclean
  · intro h
    rw [h]

/-- Paths that are one when cleaned lead to one place, wherever they start. -/
theorem Stays.join_congr (hp : Stays p) (hq : Stays q) (h : clean p = clean q) (base : Bytes) :
    join base p = join base q := by
  rw [join_eq hp, join_eq hq, (hp.clean_eq_iff hq).1 h]

/-- **Paths that lead to one place are one when cleaned**, unless one starts inside the place that
the other starts from. -/
theorem join_eq_cases (hp : Stays p) (hq : Stays q) (h : join s p = join t q) :
    clean p = clean q ∨ Inside s t ∨ Inside t s := by
  have habs : isAbsolute s = isAbsolute t := by
    rw [← isAbsolute_join hp, h, isAbsolute_join hq]
  have hcomponents : cleanComponents s ++ cleanComponents p =
      cleanComponents t ++ cleanComponents q := by
    rw [← cleanComponents_join hp, h, cleanComponents_join hq]
  rcases List.append_eq_append_iff.1 hcomponents with ⟨more, hmore, hrest⟩ | ⟨more, hmore, hrest⟩
  · by_cases hnil : more = []
    · subst hnil
      exact Or.inl ((hp.clean_eq_iff hq).2 hrest)
    · exact Or.inr (Or.inr ⟨habs.symm, more, hnil, hmore⟩)
  · by_cases hnil : more = []
    · subst hnil
      exact Or.inl ((hp.clean_eq_iff hq).2 hrest.symm)
    · exact Or.inr (Or.inl ⟨habs, more, hnil, hmore⟩)

end Path

/-! ### Legal paths -/

namespace ImportPath

variable {path : Bytes}

theorem hasParentReference_append (before after : Bytes) :
    hasParentReference (before ++ Path.parentName ++ after) = true := by
  induction before with
  | nil => rfl
  | cons b before ih =>
    rw [List.cons_append, List.cons_append]
    cases htext : before ++ Path.parentName ++ after with
    | nil =>
      rw [htext] at ih
      cases ih
    | cons c text =>
      rw [htext] at ih
      rw [hasParentReference, ih, Bool.or_true]

/-- **A legal path does not lead out of where it starts.** -/
theorem stays_of_check (h : check path = .ok ()) : Path.Stays path := by
  unfold check at h
  split at h
  · cases h
  split at h
  · cases h
  split at h
  · cases h
  rename_i hhead
  split at h
  · cases h
  rename_i hparent
  have hrel : Path.isAbsolute path = false := by
    rw [not_or] at hhead
    simp [Path.isAbsolute, hhead.1]
  apply Path.stays_of_parentName_notMem hrel
  intro hmem
  obtain ⟨before, after, htext⟩ := Path.infix_of_mem_components hmem
  apply hparent
  rw [← htext]
  exact hasParentReference_append before after

end ImportPath

/-! ### The directories of a workspace -/

namespace Workspace

variable {t : FileTree} {context : BuildContext} {roots : List Bytes} {root path other dir : Bytes}
  {found : WorkspacePackage}

/-- The directory that a root keeps its sources in. -/
def sources (root : Bytes) : Bytes := Path.join root (ascii "src")

theorem directoryIn?_eq_some (h : directoryIn? root path = some dir) :
    dir = Path.join (sources root) path := by
  unfold directoryIn? at h
  simp only at h
  split at h
  · exact (Option.some.inj h).symm
  · cases h

/-- The directory of a path is below the sources of a root. -/
theorem exists_root (h : firstDirectory? t roots path = some dir) :
    ∃ root ∈ roots, dir = Path.join (sources root) path := by
  obtain ⟨root, hroot, hdir⟩ := List.mem_filterMap.1 (List.mem_of_find?_eq_some h)
  exact ⟨root, hroot, directoryIn?_eq_some hdir⟩

theorem firstDirectory?_congr (hp : Path.Stays path) (hq : Path.Stays other)
    (h : Path.clean path = Path.clean other) :
    firstDirectory? t roots path = firstDirectory? t roots other := by
  have hsame : (directoryIn? · path) = (directoryIn? · other) := by
    funext root
    unfold directoryIn?
    simp only
    rw [hp.join_congr hq h]
  rw [firstDirectory?, firstDirectory?, hsame]

/-- What is found is in the first directory of the path. -/
theorem dir_of_locate (h : ((ofRoots t context roots).locate path).value = .ok found) :
    firstDirectory? t roots path = some found.dir := by
  unfold ofRoots at h
  simp only at h
  split at h
  · cases h
  rename_i dir hdir
  rw [Traced.value_bind] at h
  split at h
  · cases h
  · cases h
  · rename_i scanned hscan
    obtain rfl : packageOf scanned = found := Except.ok.inj h
    -- the scan names the directory that it was given
    obtain ⟨entries, files, -, -, hscanned⟩ := scanDirectory_eq_ok.1 hscan
    obtain ⟨first, -, rfl⟩ := Option.map_eq_some_iff.1 hscanned.symm
    exact hdir

end Workspace

/-! ### The directories of external packages -/

namespace Builder

variable {b : Builder} {base : Bytes} {filenames : List Bytes} {app : Application}
  {t : FileTree} {context : BuildContext} {roots : List Bytes}

/-- The directory of an external package is the first one of its path, which is legal. -/
theorem baseDir_eq (h : (b.build base filenames).run.value = .ok app)
    (hworkspace : b.workspace = some (.ofRoots t context roots)) {p : Package}
    (hp : p ∈ app.packages) (hext : p.isExternal = true) :
    Path.Stays p.importPath ∧ ∃ dir, p.baseDir = some dir ∧
      Workspace.firstDirectory? t roots p.importPath = some dir := by
  obtain ⟨gathered, directories, assembled, resolved, hstages⟩ := build_eq_ok_iff.1 h
  obtain ⟨s, q, hs, -, hq, rfl⟩ := hstages.exists_isExternal hp hext
  obtain ⟨found, hloc, -, heq, -⟩ := hq.source
  have hsame : s.workspace = .ofRoots t context roots := Option.some.inj (hs.symm.trans hworkspace)
  rw [hsame] at hloc
  have hlegal := (Resolver.required_iff.1 hq.required).2.legal
  refine ⟨ImportPath.stays_of_check hlegal, found.dir, ?_, Workspace.dir_of_locate hloc⟩
  show q.baseDir = some found.dir
  rw [heq]

/-- **Two external packages have one directory if their paths are one when cleaned**, and else only
if the sources of one root lie inside those of another. -/
theorem build_baseDir (h : (b.build base filenames).run.value = .ok app)
    (hworkspace : b.workspace = some (.ofRoots t context roots)) :
    ∀ p ∈ app.packages, ∀ q ∈ app.packages, p.isExternal = true → q.isExternal = true →
      (Path.clean p.importPath = Path.clean q.importPath → p.baseDir = q.baseDir) ∧
      (p.baseDir = q.baseDir → Path.clean p.importPath = Path.clean q.importPath ∨
        ∃ inner ∈ roots, ∃ outer ∈ roots,
          Path.Inside (Workspace.sources inner) (Workspace.sources outer)) := by
  intro p hp q hq hpext hqext
  obtain ⟨hpstays, dir, hpdir, hpfirst⟩ := baseDir_eq h hworkspace hp hpext
  obtain ⟨hqstays, other, hqdir, hqfirst⟩ := baseDir_eq h hworkspace hq hqext
  constructor
  · intro hclean
    rw [hpdir, ← hpfirst, Workspace.firstDirectory?_congr hpstays hqstays hclean, hqfirst, hqdir]
  · intro hdirs
    obtain rfl : dir = other := Option.some.inj (hpdir.symm.trans (hdirs.trans hqdir))
    obtain ⟨root, hroot, hpjoin⟩ := Workspace.exists_root hpfirst
    obtain ⟨root', hroot', hqjoin⟩ := Workspace.exists_root hqfirst
    rcases Path.join_eq_cases hpstays hqstays (hpjoin.symm.trans hqjoin) with heq | hin | hin
    · exact Or.inl heq
    · exact Or.inr ⟨root, hroot, root', hroot', hin⟩
    · exact Or.inr ⟨root', hroot', root, hroot, hin⟩

/-- A program beside a workspace whose one directory it imports under two spellings. -/
def spelledTree : FileTree where
  entries := [
    ([ascii "app.go"], .file (ascii "package app\nimport \"x\"\nimport \"x/\"\n")),
    ([ascii "ws", ascii "src", ascii "x", ascii "x.go"], .file (ascii "package x\n"))]

def spelledWorkspace : Workspace := .ofRoots spelledTree .host [ascii "ws"]

def spelled : Builder where
  tree := spelledTree
  options := {}
  isStandard _ := false
  workspace := some spelledWorkspace
  names _ := ascii "main00001"

/-- What the workspace has at both paths. -/
def spelledFound : WorkspacePackage :=
  { dir := ascii "ws/src/x", name := ascii "x", files := [⟨ascii "x.go", []⟩] }

/-- The program without the packages of the workspace. -/
def spelledOwn : Application where
  files := [
    { name := ascii "app.go", packageName := ascii "app", imports := [ascii "x", ascii "x/"] }]
  packages := [{ importPath := ascii "main00001", files := [0] }]
  order := [0]

/-- The search with what it finds at both paths. -/
def spelledResolved : Application :=
  (spelledOwn.addExternal (ascii "x") spelledFound spelledFound.files).addExternal (ascii "x/")
    spelledFound spelledFound.files

theorem resolveExternal_spelled :
    (spelled.resolveExternal spelledOwn).run.value = .ok spelledResolved := by
  have hfound : ∀ path ∈ [ascii "x", ascii "x/"],
      (spelledWorkspace.locate path).value = .ok spelledFound := by decide +kernel
  have hsteps : Relation.ReflTransGen (spelled.resolver spelledWorkspace ⟨none⟩).Step
      ⟨{ app := spelledOwn }, spelledOwn.order, []⟩
      ⟨{ app := spelledResolved, lookups := [ascii "x", ascii "x/"] }, [], []⟩ := by
    -- both imports are looked up, and what is found imports nothing
    refine Relation.ReflTransGen.head (Resolver.Step.next _ _ _) ?_
    refine Relation.ReflTransGen.head (Resolver.Step.found ⟨by decide, by decide, by decide⟩
      (hfound _ (by decide)) (by decide)) ?_
    refine Relation.ReflTransGen.head (Resolver.Step.found ⟨by decide, by decide, by decide⟩
      (hfound _ (by decide)) (by decide)) ?_
    refine Relation.ReflTransGen.head (Resolver.Step.next _ _ _) ?_
    exact Relation.ReflTransGen.single (Resolver.Step.next _ _ _)
  exact resolveExternal_of_steps rfl rfl hsteps

/-- The program with these packages, in build order. -/
def spelledApp : Application := spelledResolved.withDependencies.sort.value.1

theorem spelled_value : (spelled.build [Byte.dot] [ascii "app.go"]).run.value = .ok spelledApp :=
  build_value { files := spelledOwn.files } [⟨topLevel, [0]⟩] spelledOwn (by decide)
    (by decide +kernel) (by decide +kernel) resolveExternal_spelled (by decide +kernel)

theorem build_baseDir_spelled :
    (spelled.build [Byte.dot] [ascii "app.go"]).run.value = .ok spelledApp ∧
      ∃ p ∈ spelledApp.packages, ∃ q ∈ spelledApp.packages,
        p.isExternal = true ∧ q.isExternal = true ∧
        Path.clean p.importPath = Path.clean q.importPath ∧ p.baseDir = q.baseDir ∧ p ≠ q := by
  have hpair : ∃ p ∈ spelledApp.packages, ∃ q ∈ spelledApp.packages,
      p.isExternal = true ∧ q.isExternal = true ∧
      Path.clean p.importPath = Path.clean q.importPath ∧ p ≠ q := by
    rw [spelledApp, Application.packages_sort]
    decide
  obtain ⟨p, hp, q, hq, hpext, hqext, hclean, hne⟩ := hpair
  have hdirs : p.baseDir = q.baseDir :=
    (build_baseDir spelled_value rfl p hp q hq hpext hqext).1 hclean
  exact ⟨spelled_value, p, hp, q, hq, hpext, hqext, hclean, hdirs, hne⟩

/-- A program that goes well has two external packages of one directory and of one file. -/
theorem exists_shared_baseDir :
    ∃ app, (spelled.build [Byte.dot] [ascii "app.go"]).run.value = .ok app ∧
      ∃ p ∈ app.packages, ∃ q ∈ app.packages, p ≠ q ∧ p.isExternal = true ∧
        p.baseDir = q.baseDir ∧ app.filesOf p = app.filesOf q :=
  ⟨spelledApp, spelled_value, by decide +kernel⟩

end Builder

end BuildOrder
