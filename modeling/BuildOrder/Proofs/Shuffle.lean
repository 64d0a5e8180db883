import BuildOrder.Proofs.Alike
import BuildOrder.Proofs.Closure
import Mathlib.Data.List.Perm.Basic

/-!
# The order of the names given

A build takes the names of its files as a list. In another order of the names each directory lists
the same files in another order, and files have other numbers; all that follows sees the packages of
directories and their paths.

* `scanDirectory_perm`: **a scan of a directory finds the same files**, in another order.
* `Builder.addDirectories_perm`: the directories get the same numbers, for the same files.
* `Builder.assembleAll_refile`: **the packages of the directories are the very same.**
* `Builder.Stages.exists_perm`: each stage goes well if it goes well for another order of the names.
* `Builder.build_perm`: **a build does not depend on the order of the names**, but for numbers and
  the order of files.
-/

namespace BuildOrder

open List (Forall₂)

/-! ### Listing and scanning -/

variable {t : FileTree} {context : BuildContext} {base dir : Bytes} {names₁ names₂ : List Bytes}

theorem FileTree.listNamed_perm (hnames : names₁.Perm names₂) {entries₁ : List DirEntry}
    (h : t.listNamed base names₁ dir = .ok entries₁) :
    ∃ entries₂, t.listNamed base names₂ dir = .ok entries₂ ∧ entries₂.Perm entries₁ := by
  have hhere := (hnames.map (Path.join base)).filter (Path.parent · = Path.clean dir)
  obtain ⟨entries₂, hall, hperm⟩ := List.perm_comp_forall₂ hhere.symm (mapM_eq_ok.1 h)
  exact ⟨entries₂, mapM_eq_ok.2 hall, hperm⟩

theorem scanEntries_perm {entries₁ entries₂ : List DirEntry} (hentries : entries₂.Perm entries₁)
    {files₁ : List ScannedFile}
    (h : (scanEntries t context dir [] entries₁).run.value = .ok files₁) :
    ∃ files₂, (scanEntries t context dir [] entries₂).run.value = .ok files₂ ∧
      files₂.Perm files₁ := by
  obtain ⟨hloads, hone, more, rfl, hscans⟩ := (scanEntries_eq_ok onePackage_nil).1 h
  obtain ⟨files₂, hall, hperm⟩ := List.perm_comp_forall₂ (hentries.filter _) hscans
  refine ⟨files₂, (scanEntries_eq_ok onePackage_nil).2 ⟨?_, ?_, files₂, rfl, hall⟩, hperm⟩
  · intro entry hentry
    exact hloads entry (hentries.mem_iff.1 hentry)
  · exact hone.subset hperm.subset

/-- **A scan of a directory finds the same files**, in another order, if it finds any. -/
theorem scanDirectory_perm (hnames : names₁.Perm names₂) {result₁ : Option ScannedPackage}
    (h : (scanDirectory t context dir (t.listNamed base names₁)).run.value = .ok result₁) :
    ∃ result₂, (scanDirectory t context dir (t.listNamed base names₂)).run.value = .ok result₂ ∧
      Option.Rel (fun s₂ s₁ => s₂.files.Perm s₁.files) result₂ result₁ := by
  obtain ⟨entries₁, files₁, hlist₁, hscan₁, rfl⟩ := scanDirectory_eq_ok.1 h
  obtain ⟨entries₂, hlist₂, hentries⟩ := FileTree.listNamed_perm hnames hlist₁
  obtain ⟨files₂, hscan₂, hfiles⟩ := scanEntries_perm hentries hscan₁
  refine ⟨_, scanDirectory_eq_ok.2 ⟨entries₂, files₂, hlist₂, hscan₂, rfl⟩, ?_⟩
  cases files₁ with
  | nil =>
    rw [hfiles.eq_nil]
    exact Option.Rel.none
  | cons first₁ more₁ =>
    cases files₂ with
    | nil => exact absurd hfiles.symm.eq_nil (by simp)
    | cons first₂ more₂ => exact Option.Rel.some hfiles

/-! ### Other files under the same numbers -/

namespace Application

/-- The application with other files under its numbers. -/
def refile (app : Application) (files : List File) : Application := { app with files := files }

/-- The packages have the same files, in another order, when the files are others. -/
def Refiles (app : Application) (files : List File) : Prop :=
  ∀ p ∈ app.packages, (app.filesOf p).Perm ((app.refile files).filesOf p)

variable {app : Application} {files : List File}

theorem Refiles.alike (h : app.Refiles files) : Alike app (app.refile files) := by
  constructor
  · intro p hp
    exact ⟨p, hp, rfl, h p hp, rfl, rfl, rfl⟩
  · intro p hp
    exact ⟨p, hp, rfl, (h p hp).symm, rfl, rfl, rfl⟩

/-- The graph is the same to the number. -/
theorem Refiles.packages_eq (h : app.Refiles files) :
    app.withDependencies.packages = (app.refile files).withDependencies.packages := by
  apply List.map_congr_left
  intro p hp
  have himports : Bytes.sortedSet ((app.filesOf p).flatMap (·.imports)) =
      Bytes.sortedSet (((app.refile files).filesOf p).flatMap (·.imports)) :=
    Bytes.sortedSet_congr fun _ => ((h p hp).flatMap_right _).mem_iff
  have hdependencies : app.dependencies p = (app.refile files).dependencies p := by
    unfold dependencies
    rw [himports]
    rfl
  rw [hdependencies]

end Application

/-! ### The stages of a build -/

namespace Builder

open Application

variable {b : Builder} {app app₁ app₂ built : Application} {found : List DirectoryFiles}

theorem selected_perm_of_perm (hnames : names₁.Perm names₂) (dir : Bytes) :
    (b.selected base names₁ dir).Perm (b.selected base names₂ dir) :=
  (hnames.filter _).filter _

theorem extractAll_perm {scanned₁ scanned₂ : List ScannedFile} (hscanned : scanned₂.Perm scanned₁)
    {files₁ : List File} (h : (b.extractAll dir scanned₁).run.value = .ok files₁) :
    ∃ files₂, (b.extractAll dir scanned₂).run.value = .ok files₂ ∧ files₂.Perm files₁ := by
  obtain ⟨files₂, hall, hperm⟩ := List.perm_comp_forall₂ hscanned (extractAll_eq_ok.1 h)
  exact ⟨files₂, extractAll_eq_ok.2 hall, hperm⟩

/-- **The directories get the same numbers.** -/
theorem addDirectories_perm (hnames : names₁.Perm names₂) {dirs : List Bytes}
    (hlength : app₁.files.length = app₂.files.length)
    (h : (b.addDirectories base names₁ app₁ dirs).run.value = .ok (built, found)) :
    ∃ built₂, (b.addDirectories base names₂ app₂ dirs).run.value = .ok (built₂, found) := by
  induction dirs generalizing app₁ app₂ built found with
  | nil =>
    obtain ⟨rfl, rfl⟩ := Prod.mk.inj (Except.ok.inj h)
    exact ⟨app₂, rfl⟩
  | cons dir rest ih =>
    unfold addDirectories at h ⊢
    simp only [Attempt.value_bind_eq_ok] at h ⊢
    obtain ⟨result₁, hscan₁, h⟩ := h
    obtain ⟨result₂, hscan₂, hresult⟩ := scanDirectory_perm hnames hscan₁
    cases hresult with
    | none =>
      obtain ⟨-, -, h⟩ := Attempt.value_bind_eq_ok.1 h
      obtain ⟨built₂, hbuilt₂⟩ := ih hlength h
      exact ⟨built₂, none, hscan₂, Attempt.value_bind_eq_ok.2 ⟨(), rfl, hbuilt₂⟩⟩
    | @some scanned₂ scanned₁ hfiles =>
      simp only [Attempt.value_bind_eq_ok] at h
      obtain ⟨files₁, hextract₁, ⟨last, others⟩, hothers, h⟩ := h
      obtain ⟨rfl, rfl⟩ := Prod.mk.inj (Except.ok.inj h)
      obtain ⟨files₂, hextract₂, hperm⟩ := extractAll_perm hfiles hextract₁
      -- there are as many files before, and as many in the directory
      have hmore : (app₁.addFiles files₁).files.length = (app₂.addFiles files₂).files.length := by
        simp only [addFiles, List.length_append]
        rw [hlength, hperm.length_eq]
      obtain ⟨built₂, hbuilt₂⟩ := ih hmore hothers
      refine ⟨built₂, some scanned₂, hscan₂, ?_⟩
      simp only [Attempt.value_bind_eq_ok]
      refine ⟨files₂, hextract₂, (built₂, others), hbuilt₂, ?_⟩
      rw [hperm.length_eq, hlength]
      rfl

/-- A name makes one file. -/
theorem makes_rightUnique : Relator.RightUnique (b.Makes base) := by
  intro n f g hf hg
  exact Except.ok.inj (hf.symm.trans hg)

/-- A directory with its numbers has the same files in both applications. -/
theorem Gathered.perm {dir₁ dir₂ : Bytes} {d : DirectoryFiles} (hnames : names₁.Perm names₂)
    (h₁ : b.Gathered base names₁ app₁ dir₁ d) (h₂ : b.Gathered base names₂ app₂ dir₂ d) :
    (d.files.filterMap app₁.file?).Perm (d.files.filterMap app₂.file?) := by
  have hdirs : dir₁ = dir₂ := h₁.here.symm.trans h₂.here
  subst hdirs
  have hselected : (b.selected base names₁ dir₁).Perm (b.selected base names₂ dir₁) :=
    selected_perm_of_perm hnames dir₁
  exact List.rel_perm_imp makes_rightUnique h₁.files h₂.files hselected

/-- The package of a directory does not depend on the order of its files. -/
theorem package_refile {a : Assembler} {files : List File} {ids : List FileId}
    (hblock : (ids.filterMap app.file?).Perm (ids.filterMap (app.refile files).file?))
    (path : Bytes) : a.package (app.refile files) path ids = a.package app path ids := by
  have hinit : (a.package (app.refile files) path ids).hasInit =
      (a.package app path ids).hasInit := by
    rw [Assembler.hasInit_package, Assembler.hasInit_package]
    exact hblock.any_eq.symm
  unfold Assembler.package at hinit ⊢
  simp only at hinit
  rw [hinit]

/-- **The packages of the directories are the very same** when the files of each directory come in
another order. -/
theorem assembleAll_refile {files : List File} {drawn : Nat} (hpackages : app.Refiles files)
    (hblocks : ∀ d ∈ found,
      (d.files.filterMap app.file?).Perm (d.files.filterMap (app.refile files).file?))
    (h : (b.assembleAll app drawn found).run.value = .ok built) :
    (b.assembleAll (app.refile files) drawn found).run.value = .ok (built.refile files) ∧
      built.Refiles files := by
  induction found generalizing app drawn with
  | nil =>
    obtain rfl : app = built := Except.ok.inj h
    exact ⟨rfl, hpackages⟩
  | cons d rest ih =>
    rw [List.forall_mem_cons] at hblocks
    obtain ⟨next, hnext, h⟩ := assembleAll_cons.1 h
    obtain ⟨path, hpath, hadd⟩ := Assembler.assemble_eq_ok.1 hnext
    obtain ⟨rfl, hnew, hreserved, hallowed⟩ := Assembler.add_eq_ok.1 hadd
    -- the path is chosen among the same paths, for a package with the same numbers
    have hpackage : b.assembler.package (app.refile files) path d.files =
        b.assembler.package app path d.files := package_refile hblocks.1 path
    have hadd₂ : (b.assembler.add (app.refile files) d.dir path d.files).run.value =
        .ok ((app.register (b.assembler.package app path d.files)).refile files) := by
      refine Assembler.add_eq_ok.2 ⟨?_, hnew, hreserved, hallowed⟩
      rw [hpackage]
      rfl
    have hdrawn : (b.assembler.assemble (app.refile files) d.dir d.files drawn).2 =
        (b.assembler.assemble app d.dir d.files drawn).2 := by
      rw [Assembler.assemble_snd, Assembler.assemble_snd]
      rfl
    have hassemble : (b.assembler.assemble (app.refile files) d.dir d.files drawn).1.run.value =
        .ok ((app.register (b.assembler.package app path d.files)).refile files) := by
      refine Assembler.assemble_eq_ok.2 ⟨path, ?_, hadd₂⟩
      rw [hdrawn]
      exact hpath
    have hrefiles : (app.register (b.assembler.package app path d.files)).Refiles files := by
      intro p hp
      rcases List.mem_append.1 hp with hp | hp
      · exact hpackages p hp
      · obtain rfl := List.mem_singleton.1 hp
        exact hblocks.1
    obtain ⟨hrest, hbuilt⟩ := ih hrefiles hblocks.2 h
    refine ⟨assembleAll_cons.2 ⟨_, hassemble, ?_⟩, hbuilt⟩
    rw [hdrawn]
    exact hrest

/-- **The search for external packages goes well for both applications, and finds counterparts.** -/
theorem resolveExternal_alike (h : Alike app₁ app₂) (h₁ : app₁.Sound []) (h₂ : app₂.Sound [])
    {resolved₁ : Application}
    (hresolve : (b.resolveExternal app₁).run.value = .ok resolved₁) :
    ∃ resolved₂, (b.resolveExternal app₂).run.value = .ok resolved₂ ∧ Alike resolved₁ resolved₂ ∧
      (b.workspace = none → resolved₁ = app₁ ∧ resolved₂ = app₂) := by
  rcases resolveExternal_eq_ok.1 hresolve with
    ⟨hnone, rfl⟩ | ⟨workspace, exclusion, r₁, hsome, hcompile, hrun, rfl⟩
  · exact ⟨app₂, resolveExternal_eq_ok.2 (Or.inl ⟨hnone, rfl⟩), h, fun _ => ⟨rfl, rfl⟩⟩
  · obtain ⟨r₂, hrun₂, halike⟩ := Resolver.resolve_alike h h₁.wellFormed h₂.wellFormed hrun
    have hresolve₂ : (b.resolveExternal app₂).run.value = .ok r₂.app :=
      resolveExternal_eq_ok.2 (Or.inr ⟨workspace, exclusion, r₂, hsome, hcompile, hrun₂, rfl⟩)
    refine ⟨r₂.app, hresolve₂, halike, ?_⟩
    intro hnone
    rw [hsome] at hnone
    cases hnone

/-! ### The build -/

theorem directories_perm (hnames : names₁.Perm names₂) : directories names₁ = directories names₂ :=
  Bytes.sortedSet_congr fun _ => (hnames.map _).mem_iff

namespace Stages

variable {gathered assembled resolved : Application}

/-- The files of the directories, and nothing else, are gathered. -/
theorem gathered_eq (h : b.Stages base names₁ gathered found assembled resolved app) :
    ∃ files, gathered = { files } := by
  obtain ⟨files, rfl, -⟩ := addDirectories_ok h.below (exists_of_mem_directories h.below) h.gather
  exact ⟨files, rfl⟩

/-- **Each stage goes well if it does for another order of the names.** The packages of directories
are the same, those of the workspace are counterparts. -/
theorem exists_perm (h : b.Stages base names₁ gathered found assembled resolved app)
    (hnames : names₁.Perm names₂) :
    ∃ files resolved₂ app₂,
      b.Stages base names₂ { files } found (assembled.refile files) resolved₂ app₂ ∧
      assembled.Refiles files ∧ Alike resolved resolved₂ ∧
      (b.workspace = none → resolved = assembled ∧ resolved₂ = assembled.refile files) := by
  obtain ⟨files₁, rfl⟩ := h.gathered_eq
  have hbelow : ∀ n ∈ names₂, ∃ dir, Path.directoryBelow? n = some dir :=
    fun n hn => h.below n (hnames.mem_iff.2 hn)
  have hempty : ({} : Application).files.length = ({} : Application).files.length := rfl
  obtain ⟨gathered₂, hgather₂⟩ := addDirectories_perm hnames hempty h.gather
  rw [directories_perm hnames] at hgather₂
  obtain ⟨files, rfl, hids, hgathered₂⟩ :=
    addDirectories_ok hbelow (exists_of_mem_directories hbelow) hgather₂
  obtain ⟨-, -, hgathered₁⟩ := h.gathered_ok
  have hblocks : ∀ d ∈ found, (d.files.filterMap ({ files := files₁ } : Application).file?).Perm
      (d.files.filterMap (({} : Application).addFiles files).file?) := by
    intro d hd
    obtain ⟨dir₁, -, hd₁⟩ := exists_of_forall₂ hgathered₁ hd
    obtain ⟨dir₂, -, hd₂⟩ := exists_of_forall₂ hgathered₂ hd
    exact hd₁.perm hnames hd₂
  have hstart : ({ files := files₁ } : Application).Refiles files := by
    intro p hp
    cases hp
  obtain ⟨hassemble₂, hrefiles⟩ := assembleAll_refile hstart hblocks h.assemble
  have hnonempty : ∀ d ∈ found, d.files ≠ [] := by
    intro d hd
    obtain ⟨dir, -, hdir⟩ := exists_of_forall₂ hgathered₂ hd
    exact hdir.nonempty
  have hsound₂ : (assembled.refile files).Sound [] :=
    assembleAll_sound hnonempty (hids ▸ Sound.empty.addFiles files) hassemble₂
  obtain ⟨resolved₂, hresolve₂, halike, hnone⟩ :=
    resolveExternal_alike hrefiles.alike h.assembled_sound hsound₂ h.resolve
  have hresolved₂ : resolved₂.Sound [] := (resolveExternal_ok hsound₂ hresolve₂).1
  obtain ⟨app₂, hsort₂⟩ := halike.sort h.resolved_sound hresolved₂ h.sort
  exact ⟨files, resolved₂, app₂, ⟨hbelow, hgather₂, hassemble₂, hresolve₂, hsort₂⟩, hrefiles,
    halike, hnone⟩

/-- The application has the paths of the search. -/
theorem paths_eq (h : b.Stages base names₁ gathered found assembled resolved app) :
    app.paths = resolved.paths := by
  rw [Application.paths, h.packages_linked.1, List.map_map]
  rfl

/-- Counterparts of the search are counterparts of the build. -/
theorem counterpart {gathered₂ assembled₂ resolved₂ : Application} {found₂ : List DirectoryFiles}
    (h₁ : b.Stages base names₁ gathered found assembled resolved app₁)
    (h₂ : b.Stages base names₂ gathered₂ found₂ assembled₂ resolved₂ app₂) {p q : Package}
    (hpq : Counterpart resolved resolved₂ p q) :
    Counterpart app₁ app₂ (resolved.linked p) (resolved₂.linked q) := by
  refine ⟨hpq.path, ?_, hpq.baseDir, hpq.hasInit, hpq.isShadow⟩
  rw [h₁.packages_linked.2, h₂.packages_linked.2]
  exact hpq.files

/-- Applications are alike if the searches ended alike. -/
theorem mirrored {gathered₂ assembled₂ resolved₂ : Application} {found₂ : List DirectoryFiles}
    (h₁ : b.Stages base names₁ gathered found assembled resolved app₁)
    (h₂ : b.Stages base names₂ gathered₂ found₂ assembled₂ resolved₂ app₂)
    (h : Mirrored resolved resolved₂) : Mirrored app₁ app₂ := by
  intro p hp
  rw [h₁.packages_linked.1] at hp
  obtain ⟨own, hown, rfl⟩ := List.mem_map.1 hp
  obtain ⟨other, hother, hpq⟩ := h own hown
  refine ⟨resolved₂.linked other, ?_, h₁.counterpart h₂ hpq⟩
  rw [h₂.packages_linked.1]
  exact List.mem_map_of_mem hother

end Stages

/-- A path is a root's if its package runs code at start. -/
theorem mem_rootPaths (h : app.Built) {path : Bytes} :
    path ∈ app.roots.map app.pathOf ↔
      ∃ p ∈ app.packages, p.hasInit = true ∧ p.importPath = path := by
  constructor
  · intro hpath
    obtain ⟨id, hid, rfl⟩ := List.mem_map.1 hpath
    obtain ⟨p, hp, hinit⟩ := (h.roots id).1 hid
    exact ⟨p, List.mem_of_getElem? hp, hinit, (pathOf_eq hp).symm⟩
  · rintro ⟨p, hp, hinit, rfl⟩
    obtain ⟨id, hid⟩ := List.mem_iff_getElem?.1 hp
    exact List.mem_map.2 ⟨id, (h.roots id).2 ⟨p, hid, hinit⟩, pathOf_eq hid⟩

theorem rootPaths_mirrored (h₁ : app₁.Built) (h₂ : app₂.Built) (h : Mirrored app₁ app₂)
    {path : Bytes} (hpath : path ∈ app₁.roots.map app₁.pathOf) :
    path ∈ app₂.roots.map app₂.pathOf := by
  obtain ⟨p, hp, hinit, rfl⟩ := (mem_rootPaths h₁).1 hpath
  obtain ⟨q, hq, hpq⟩ := h p hp
  exact (mem_rootPaths h₂).2 ⟨q, hq, hpq.hasInit ▸ hinit, hpq.path.symm⟩

theorem exists_build_perm (hnames : names₁.Perm names₂)
    (h : ∃ app, (b.build base names₁).run.value = .ok app) :
    ∃ app, (b.build base names₂).run.value = .ok app := by
  obtain ⟨app₁, h⟩ := h
  obtain ⟨gathered, found, assembled, resolved, h₁⟩ := build_eq_ok_iff.1 h
  obtain ⟨files, resolved₂, app₂, h₂, -⟩ := h₁.exists_perm hnames
  exact ⟨app₂, build_eq_ok_iff.2 ⟨_, _, _, _, h₂⟩⟩

/-- **A build does not depend on the order of the names.** For two orders it goes well or fails
alike. The applications have the same import paths; at each path the packages have the same files, in
another order, depend on the same paths, and have one base directory and the same flags. The roots
are at the same paths. Without a workspace the paths in build order are the same too. -/
theorem build_perm (hnames : names₁.Perm names₂) :
    ((∃ app, (b.build base names₁).run.value = .ok app) ↔
        ∃ app, (b.build base names₂).run.value = .ok app) ∧
      ∀ app₁ app₂, (b.build base names₁).run.value = .ok app₁ →
        (b.build base names₂).run.value = .ok app₂ →
        app₁.paths.Perm app₂.paths ∧
        (∀ p ∈ app₁.packages, ∀ q ∈ app₂.packages, p.importPath = q.importPath →
          Counterpart app₁ app₂ p q ∧
          p.dependencies.map app₁.pathOf = q.dependencies.map app₂.pathOf) ∧
        (∀ path, path ∈ app₁.roots.map app₁.pathOf ↔ path ∈ app₂.roots.map app₂.pathOf) ∧
        (b.workspace = none → app₁.orderedPaths = app₂.orderedPaths) := by
  refine ⟨⟨exists_build_perm hnames, exists_build_perm hnames.symm⟩, ?_⟩
  intro app₁ app₂ hbuild₁ hbuild₂
  obtain ⟨gathered, found, assembled, resolved₁, h₁⟩ := build_eq_ok_iff.1 hbuild₁
  obtain ⟨files, resolved₂, other, h₂, hrefiles, halike, hnone⟩ := h₁.exists_perm hnames
  have hother : (b.build base names₂).run.value = .ok other :=
    build_eq_ok_iff.2 ⟨_, _, _, _, h₂⟩
  obtain rfl : app₂ = other := Except.ok.inj (hbuild₂.symm.trans hother)
  have hbuilt₁ : app₁.Built := h₁.resolved_sound.built h₁.sort
  have hbuilt₂ : app₂.Built := h₂.resolved_sound.built h₂.sort
  have hsame : Alike app₁ app₂ := ⟨h₁.mirrored h₂ halike.left, h₂.mirrored h₁ halike.right⟩
  refine ⟨hsame.paths_perm hbuilt₁.paths hbuilt₂.paths, ?_, ?_, ?_⟩
  · intro p hp q hq hpath
    refine ⟨hsame.counterpart hbuilt₂.paths hp hq hpath, ?_⟩
    -- dependencies are those of the search, where numbers stand for the same paths
    rw [pathOf_congr h₁.paths_eq, pathOf_congr h₂.paths_eq]
    rw [h₁.packages_linked.1] at hp
    rw [h₂.packages_linked.1] at hq
    obtain ⟨own₁, hown₁, rfl⟩ := List.mem_map.1 hp
    obtain ⟨own₂, hown₂, rfl⟩ := List.mem_map.1 hq
    have hown : Counterpart resolved₁ resolved₂ own₁ own₂ :=
      halike.counterpart h₂.resolved_sound.paths hown₁ hown₂ hpath
    exact hown.dependencies halike
  · intro path
    exact ⟨rootPaths_mirrored hbuilt₁ hbuilt₂ hsame.left,
      rootPaths_mirrored hbuilt₂ hbuilt₁ hsame.right⟩
  · intro hworkspace
    obtain ⟨rfl, rfl⟩ := hnone hworkspace
    have hordered := orderedPaths_sort hrefiles.packages_eq rfl
    rw [h₁.sort, h₂.sort] at hordered
    exact hordered

/-- What the workspace has at a path: one file that imports nothing. -/
def leafFound (path : Bytes) : WorkspacePackage :=
  { dir := ascii "w/" ++ path, name := path, files := [⟨path ++ ascii ".go", []⟩] }

/-- A program of one directory whose files import a package of the workspace each. -/
def forked : Builder where
  tree := { entries := [
    ([ascii "a.go"], .file (ascii "package app\nimport \"x\"\n")),
    ([ascii "b.go"], .file (ascii "package app\nimport \"y\"\n"))] }
  options := {}
  isStandard _ := false
  workspace := some { locate := fun path => pure (.ok (leafFound path)) }
  names _ := ascii "main00001"

/-- The program without the packages of the workspace. -/
def forkedOwn : Application where
  files := [
    { name := ascii "a.go", packageName := ascii "app", imports := [ascii "x"] },
    { name := ascii "b.go", packageName := ascii "app", imports := [ascii "y"] }]
  packages := [{ importPath := ascii "main00001", files := [0, 1] }]
  order := [0]

/-- The program with what the search finds. -/
def forkedResolved : Application :=
  let x := leafFound (ascii "x")
  let y := leafFound (ascii "y")
  (forkedOwn.addExternal (ascii "x") x x.files).addExternal (ascii "y") y y.files

theorem resolveExternal_forked :
    (forked.resolveExternal forkedOwn).run.value = .ok forkedResolved := by
  have hsteps : Relation.ReflTransGen
      (forked.resolver { locate := fun path => pure (.ok (leafFound path)) } ⟨none⟩).Step
      ⟨{ app := forkedOwn }, forkedOwn.order, []⟩
      ⟨{ app := forkedResolved, lookups := [ascii "x", ascii "y"] }, [], []⟩ := by
    -- the imports are found in the order of the files, and import nothing
    refine Relation.ReflTransGen.head (Resolver.Step.next _ _ _) ?_
    refine Relation.ReflTransGen.head
      (Resolver.Step.found ⟨by decide, rfl, by decide⟩ rfl (by decide)) ?_
    refine Relation.ReflTransGen.head
      (Resolver.Step.found ⟨by decide, rfl, by decide⟩ rfl (by decide)) ?_
    refine Relation.ReflTransGen.head (Resolver.Step.next _ _ _) ?_
    exact Relation.ReflTransGen.single (Resolver.Step.next _ _ _)
  exact resolveExternal_of_steps rfl rfl hsteps

/-- The program with these packages, in build order. -/
def forkedApp : Application := forkedResolved.withDependencies.sort.value.1

theorem forked_value :
    (forked.build [Byte.dot] [ascii "a.go", ascii "b.go"]).run.value = .ok forkedApp :=
  build_value { files := forkedOwn.files } [⟨topLevel, [0, 1]⟩] forkedOwn (by decide)
    (by decide +kernel) (by decide +kernel) resolveExternal_forked (by decide +kernel)

theorem build_perm_forked :
    [ascii "a.go", ascii "b.go"].Perm [ascii "b.go", ascii "a.go"] ∧
      (forked.build [Byte.dot] [ascii "a.go", ascii "b.go"]).run.value = .ok forkedApp ∧
      forkedApp.paths = [ascii "main00001", ascii "x", ascii "y"] ∧
      ∃ app, (forked.build [Byte.dot] [ascii "b.go", ascii "a.go"]).run.value = .ok app ∧
        forkedApp.paths.Perm app.paths ∧
        ∀ p ∈ forkedApp.packages, ∀ q ∈ app.packages, p.importPath = q.importPath →
          (forkedApp.filesOf p).Perm (app.filesOf q) := by
  have hnames : [ascii "a.go", ascii "b.go"].Perm [ascii "b.go", ascii "a.go"] := by decide
  obtain ⟨app, hvalue⟩ := (build_perm hnames).1.1 ⟨forkedApp, forked_value⟩
  obtain ⟨hpaths, hpackages, -⟩ := (build_perm hnames).2 forkedApp app forked_value hvalue
  refine ⟨hnames, forked_value, by decide +kernel, app, hvalue, hpaths, ?_⟩
  intro p hp q hq hpath
  exact (hpackages p hp q hq hpath).1.files

end Builder

end BuildOrder
