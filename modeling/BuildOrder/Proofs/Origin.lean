import BuildOrder.Proofs.Build

/-!
# Where the files of an application come from

* `LiesIn`, `Slashed`: the directory that the text of a file name tells, and the import path that is
  written like a directory, byte by byte.
* `Builder.PackageOf`: the package of a directory within an application.
* `Builder.build_packages`: **the packages of a build that are not external are those of the
  directories with selected names**, one for each.
* `Builder.Accounted`, `Builder.build_files`: **no selected name is lost, and each file is in the
  package of its own directory**, for every build that goes well.
* `Builder.build_names`: the files are as many as the selected names; so a name given twice makes
  two files.
-/

namespace BuildOrder

open List (Forall₂)

/-! ### Lists in groups -/

section Lists

variable {α β : Type}

/-- Members that belong to no two others are one. -/
theorem eq_of_forall₂ {R : α → β → Prop} {xs : List α} {ys : List β} (h : Forall₂ R xs ys)
    (hxs : xs.Nodup) {y z : β} (hy : y ∈ ys) (hz : z ∈ ys)
    (hsame : ∀ x x', R x y → R x' z → x = x') : y = z := by
  obtain ⟨i, hi, rfl⟩ := List.getElem_of_mem hy
  obtain ⟨j, hj, rfl⟩ := List.getElem_of_mem hz
  obtain ⟨hlength, hget⟩ := List.forall₂_iff_get.1 h
  have hxy := hsame _ _ (hget i (hlength ▸ hi) hi) (hget j (hlength ▸ hj) hj)
  obtain rfl : i = j := by simpa using (hxs.get_inj_iff).1 hxy
  rfl

/-- The groups of a list by distinct keys that cover it make up the list. -/
theorem flatMap_filter_perm [BEq β] [LawfulBEq β] {key : α → β} {keys : List β} (hkeys : keys.Nodup)
    {xs : List α} (hcover : ∀ x ∈ xs, key x ∈ keys) :
    (keys.flatMap fun k => xs.filter (key · == k)).Perm xs := by
  induction keys generalizing xs with
  | nil =>
    have hnil : xs = [] := List.eq_nil_iff_forall_not_mem.2 fun x hx => by simpa using hcover x hx
    rw [hnil]
    rfl
  | cons k rest ih =>
    obtain ⟨hk, hrest⟩ := List.nodup_cons.1 hkeys
    -- the groups of the other keys are those of what the first leaves
    have hothers : ∀ other ∈ rest,
        xs.filter (key · == other) = (xs.filter (!key · == k)).filter (key · == other) := by
      intro other hother
      rw [List.filter_filter]
      refine List.filter_congr fun x _ => ?_
      by_cases hx : key x = other
      · have hne : other ≠ k := fun heq => hk (heq ▸ hother)
        simp [hx, hne]
      · simp [hx]
    rw [List.flatMap_cons, List.flatMap_congr hothers]
    refine List.Perm.trans (List.Perm.append_left _ (ih hrest ?_)) (List.filter_append_perm _ xs)
    intro x hx
    rw [List.mem_filter] at hx
    exact (List.mem_cons.1 (hcover x hx.1)).resolve_left (by simpa using hx.2)

end Lists

/-! ### Directories by their text -/

/-- The name of a file lies in a directory: after the directory it has a slash and one component, or
it is one component at the top level. -/
inductive LiesIn : Bytes → Bytes → Prop
  | here {name : Bytes} : Byte.slash ∉ name → LiesIn name topLevel
  | below {dir name : Bytes} : Byte.slash ∉ name → LiesIn (dir ++ Byte.slash :: name) dir

/-- **A name lies in one directory.** -/
theorem LiesIn.unique {name dir other : Bytes} (h : LiesIn name dir) (hother : LiesIn name other) :
    dir = other := by
  cases h with
  | here hname =>
    cases hother with
    | here _ => rfl
    | below _ => simp at hname
  | @below _ last hlast =>
    generalize htext : dir ++ Byte.slash :: last = text at hother
    cases hother with
    | here htop => simp [← htext] at htop
    | below hotherLast =>
      -- what stands before the last slash is the directory
      have hsplit := congrArg Path.splitLast htext
      rw [Path.splitLast_append_slash _ hlast, Path.splitLast_append_slash _ hotherLast] at hsplit
      exact Option.some.inj (Prod.mk.inj hsplit).1

/-- A cleaned name lies in the directory that was accepted for it. -/
theorem liesIn_clean {filename dir : Bytes} (h : Path.directoryBelow? filename = some dir) :
    LiesIn (Path.clean filename) dir := by
  have hlast : Byte.slash ∉ Path.lastName (Path.clean filename) :=
    (Path.lastName_eq_iff.1 rfl).1
  have htext := Path.clean_eq_dir_append h
  split at htext
  · rename_i htop
    rw [← htext] at hlast
    rw [htop]
    exact LiesIn.here hlast
  · rw [htext, List.append_assoc]
    exact LiesIn.below hlast

/-- A path is written like a directory, byte by byte, but with slashes for backslashes. -/
def Slashed : Bytes → Bytes → Prop :=
  Forall₂ fun b c => (b = Byte.backslash → c = Byte.slash) ∧ (b ≠ Byte.backslash → c = b)

theorem slashed_iff {dir path : Bytes} : Slashed dir path ↔ path = pathOfDirectory dir := by
  constructor
  · intro h
    induction h with
    | nil => rfl
    | cons hbyte _ ih =>
      rw [ih, pathOfDirectory, pathOfDirectory, List.map_cons]
      split
      · rename_i hb
        rw [hbyte.1 hb]
      · rename_i hb
        rw [hbyte.2 hb]
  · rintro rfl
    refine List.forall₂_map_right_iff.2 (List.forall₂_same.2 fun b _ => ⟨?_, ?_⟩)
    · exact fun hb => if_pos hb
    · exact fun hb => if_neg hb

/-- The package with its dependencies in an application. -/
def Application.linked (app : Application) (p : Package) : Package :=
  { p with dependencies := app.dependencies p }

namespace Builder

variable {b : Builder} {base : Bytes} {filenames : List Bytes} {app later : Application}
  {dir : Bytes} {p : Package}

/-- The package of a directory: its files are those that the selected names make, and they declare
one package name. -/
structure PackageOf (b : Builder) (base : Bytes) (filenames : List Bytes) (app : Application)
    (dir : Bytes) (p : Package) : Prop extends b.assembler.Assembled app ⟨dir, p.files⟩ p where
  makes : Forall₂ (b.Makes base) (b.selected base filenames dir) (app.filesOf p)
  packageName : ∃ name, ∀ f ∈ app.filesOf p, f.packageName = name

/-- The directories with files of the build. -/
def inhabited (b : Builder) (base : Bytes) (filenames : List Bytes) : List Bytes :=
  (directories filenames).filter (b.selected base filenames · ≠ [])

theorem mem_selected {n : Bytes} : n ∈ b.selected base filenames dir ↔
    n ∈ filenames ∧ Path.parent (Path.clean n) = dir ∧ b.selects base n = true := by
  rw [selected, named, List.mem_filter, List.mem_filter, beq_iff_eq, and_assoc]

theorem mem_inhabited {n : Bytes} (hn : n ∈ filenames) (hselects : b.selects base n = true) :
    Path.parent (Path.clean n) ∈ b.inhabited base filenames := by
  have hmem : n ∈ b.selected base filenames (Path.parent (Path.clean n)) :=
    mem_selected.2 ⟨hn, rfl, hselects⟩
  refine List.mem_filter.2 ⟨Bytes.mem_sortedSet.2 (List.mem_map_of_mem hn), ?_⟩
  simpa using List.ne_nil_of_mem hmem

theorem nodup_inhabited : (b.inhabited base filenames).Nodup :=
  (Bytes.nodup_sortedSet _).filter _

namespace PackageOf

/-- The package stays that of its directory when others come and dependencies are added. -/
theorem mono (h : b.PackageOf base filenames app dir p) (hfiles : later.filesOf p = app.filesOf p)
    (hpaths : ∀ path ∈ app.paths, path ∈ later.paths) (linking : Application) :
    b.PackageOf base filenames later dir (linking.linked p) := by
  have hassembled := h.toAssembled.mono hpaths
  have hsame : later.filesOf (linking.linked p) = app.filesOf p := hfiles
  refine ⟨⟨rfl, hassembled.own, hassembled.shadow, hassembled.reserved, hassembled.standard,
    hassembled.directory, hassembled.drawn⟩, ?_, ?_⟩
  · rw [hsame]
    exact h.makes
  · rw [hsame]
    exact h.packageName

/-- A file of the package is made by a name of its directory. -/
theorem exists_selected (h : b.PackageOf base filenames app dir p) {f : File}
    (hf : f ∈ app.filesOf p) :
    ∃ n ∈ filenames, b.selects base n = true ∧ Path.clean n = f.name ∧ Path.parent f.name = dir := by
  obtain ⟨n, hn, hmakes⟩ := exists_of_forall₂ h.makes hf
  obtain ⟨hmem, hdir, hselects⟩ := mem_selected.1 hn
  exact ⟨n, hmem, hselects, hmakes.name.symm, hmakes.name ▸ hdir⟩

/-- **A file of the package lies in its directory.** -/
theorem liesIn (h : b.PackageOf base filenames app dir p)
    (hbelow : ∀ n ∈ filenames, ∃ own, Path.directoryBelow? n = some own) {f : File}
    (hf : f ∈ app.filesOf p) : LiesIn f.name dir := by
  obtain ⟨n, hn, -, hname, hdir⟩ := h.exists_selected hf
  obtain ⟨own, hown⟩ := hbelow n hn
  rw [← hdir, ← hname, Path.parent_clean hown]
  exact liesIn_clean hown

/-- A file of the package declares what its source file does. -/
theorem exists_source (h : b.PackageOf base filenames app dir p) {f : File}
    (hf : f ∈ app.filesOf p) :
    ∃ source, (b.tree.sourceFile (Path.join base f.name)).run.value = .ok source ∧
      f.packageName = source.packageName := by
  obtain ⟨n, -, hmakes⟩ := exists_of_forall₂ h.makes hf
  exact Makes.exists_source hmakes

theorem names_eq (h : b.PackageOf base filenames app dir p) :
    (b.selected base filenames dir).map Path.clean = (app.filesOf p).map (·.name) :=
  map_eq_of_forall₂ h.makes fun _ _ hmakes => hmakes.name.symm

end PackageOf

/-! ### The packages of a build -/

namespace Stages

variable {gathered assembled resolved : Application} {found : List DirectoryFiles}
  (h : b.Stages base filenames gathered found assembled resolved app)

include h

theorem packageOf_assembled :
    Forall₂ (b.PackageOf base filenames assembled) (b.inhabited base filenames)
      assembled.packages := by
  obtain ⟨hempty, -, hgathered⟩ := h.gathered_ok
  have hdirs : found.map (·.dir) = b.inhabited base filenames := by
    have hsame : (b.inhabited base filenames).map id = found.map (·.dir) :=
      map_eq_of_forall₂ hgathered fun dir d hd => hd.here.symm
    rw [← hsame, List.map_id]
  obtain ⟨own, hown, hfiles, hassembled⟩ :=
    assembleAll_ok (hdirs ▸ nodup_inhabited) (fun _ => rfl) h.assemble
  rw [hempty, List.nil_append] at hown
  rw [hown]
  refine (forall₂_comp hgathered hassembled).imp ?_
  rintro dir p ⟨d, hd, hp⟩
  obtain rfl := hd.here
  have hsame : assembled.filesOf p = d.files.filterMap gathered.file? := by
    rw [Application.filesOf, hp.files]
    refine List.filterMap_congr fun id _ => ?_
    rw [Application.file?, Application.file?, hfiles]
  refine ⟨⟨rfl, hp.own, hp.shadow, hp.reserved, hp.standard, hp.directory, hp.drawn⟩, ?_, ?_⟩
  · rw [hsame]
    exact hd.files
  · rw [hsame]
    exact hd.package

/-- The packages of the application are those of the directories, with dependencies, and external
ones. -/
theorem packages_eq : ∃ new, (∀ p ∈ new, ∃ s : Resolver, b.workspace = some s.workspace ∧
      s.isStandard = b.isStandard ∧ s.IsExternal assembled resolved p) ∧
    app.packages = (assembled.packages ++ new).map resolved.linked ∧
    (∀ p ∈ assembled.packages, app.filesOf p = assembled.filesOf p) ∧
    ∀ p, app.filesOf p = resolved.filesOf p := by
  obtain ⟨hsound, hfiles, new, hnew, hexternal⟩ := resolveExternal_ok h.assembled_sound h.resolve
  obtain ⟨order, rfl, -⟩ := Application.sort_ok hsound.graphOK h.sort
  refine ⟨new, hexternal, ?_, hfiles, fun _ => rfl⟩
  rw [← hnew]
  rfl

/-- The packages that are not external are those of the directories, with dependencies. -/
theorem own_packages :
    app.packages.filter (!·.isExternal) = assembled.packages.map resolved.linked := by
  obtain ⟨new, hexternal, hpackages, -⟩ := h.packages_eq
  have hown : assembled.packages.filter (!·.isExternal) = assembled.packages := by
    refine List.filter_eq_self.2 fun p hp => ?_
    obtain ⟨dir, -, hdir⟩ := exists_of_forall₂ h.packageOf_assembled hp
    rw [hdir.own]
    rfl
  have hnew : new.filter (!·.isExternal) = [] := by
    refine List.filter_eq_nil_iff.2 fun p hp => ?_
    obtain ⟨s, -, -, hs⟩ := hexternal p hp
    rw [hs.isExternal]
    simp
  rw [hpackages, List.filter_map]
  show ((assembled.packages ++ new).filter (!·.isExternal)).map _ = _
  rw [List.filter_append, hown, hnew, List.append_nil]

/-- An external package was found by the search, and then got its dependencies. -/
theorem exists_isExternal (hp : p ∈ app.packages) (hext : p.isExternal = true) :
    ∃ (s : Resolver) (q : Package), b.workspace = some s.workspace ∧
      s.isStandard = b.isStandard ∧ s.IsExternal assembled resolved q ∧ p = resolved.linked q := by
  obtain ⟨new, hexternal, hpackages, -⟩ := h.packages_eq
  rw [hpackages] at hp
  obtain ⟨q, hq, rfl⟩ := List.mem_map.1 hp
  rcases List.mem_append.1 hq with hq | hq
  · obtain ⟨dir, -, hdir⟩ := exists_of_forall₂ h.packageOf_assembled hq
    have hown : q.isExternal = true := hext
    rw [hdir.own] at hown
    cases hown
  · obtain ⟨s, hworkspace, hstandard, hs⟩ := hexternal q hq
    exact ⟨s, q, hworkspace, hstandard, hs, rfl⟩

end Stages

/-- **The packages of a build that are not external are those of the directories with files**, one
for each. -/
theorem build_packages (h : (b.build base filenames).run.value = .ok app) :
    Forall₂ (b.PackageOf base filenames app) (b.inhabited base filenames)
      (app.packages.filter (!·.isExternal)) := by
  obtain ⟨gathered, found, assembled, resolved, hstages⟩ := build_eq_ok_iff.1 h
  obtain ⟨new, -, hpackages, hfiles, -⟩ := hstages.packages_eq
  have hpaths : ∀ path ∈ assembled.paths, path ∈ app.paths := by
    intro path hpath
    rw [Application.paths, hpackages, List.map_map, List.map_append]
    exact List.mem_append_left _ hpath
  rw [hstages.own_packages, List.forall₂_map_right_iff]
  refine (((List.forall₂_and_left _ _).2 ⟨hfiles, hstages.packageOf_assembled.flip⟩).imp ?_).flip
  exact fun p dir hp => PackageOf.mono hp.2 hp.1 hpaths _

/-- What is known of an external package of a build. -/
theorem build_external (h : (b.build base filenames).run.value = .ok app) (hp : p ∈ app.packages)
    (hext : p.isExternal = true) :
    ∃ (s : Resolver) (found : WorkspacePackage), b.workspace = some s.workspace ∧
      s.isStandard = b.isStandard ∧ (s.workspace.locate p.importPath).value = .ok found ∧
      app.filesOf p = (s.keptFiles p.importPath found).map found.file := by
  obtain ⟨gathered, found, assembled, resolved, hstages⟩ := build_eq_ok_iff.1 h
  obtain ⟨-, -, -, -, hfiles⟩ := hstages.packages_eq
  obtain ⟨s, q, hworkspace, hstandard, hs, rfl⟩ := hstages.exists_isExternal hp hext
  obtain ⟨found, hloc, -, -, hkept⟩ := hs.source
  exact ⟨s, found, hworkspace, hstandard, hloc, (hfiles _).trans hkept⟩

/-! ### The files of a build -/

/-- A package of the application is that of a directory. -/
theorem exists_packageOf (h : (b.build base filenames).run.value = .ok app)
    (hp : p ∈ app.packages) (hown : p.isExternal = false) :
    ∃ dir, b.PackageOf base filenames app dir p := by
  have hmem : p ∈ app.packages.filter (!·.isExternal) :=
    List.mem_filter.2 ⟨hp, by simp [hown]⟩
  obtain ⟨dir, -, hdir⟩ := exists_of_forall₂ (build_packages h) hmem
  exact ⟨dir, hdir⟩

/-- Each selected name makes a file of the package of its directory. -/
theorem exists_file (h : (b.build base filenames).run.value = .ok app) {n : Bytes}
    (hn : n ∈ filenames) (hselects : b.selects base n = true) :
    ∃ p ∈ app.packages, p.isExternal = false ∧ ∃ f ∈ app.filesOf p, f.name = Path.clean n := by
  obtain ⟨p, hp, hdir⟩ :=
    exists_of_forall₂ (build_packages h).flip (mem_inhabited hn hselects)
  obtain ⟨hmem, hown⟩ := List.mem_filter.1 hp
  have hselected := mem_selected.2 ⟨hn, rfl, hselects⟩
  obtain ⟨f, hf, hmakes⟩ := exists_of_forall₂ hdir.makes.flip hselected
  exact ⟨p, hmem, by simpa using hown, f, hf, Makes.name hmakes⟩

/-- The names that a build accepts lie below its base. -/
theorem build_below (h : (b.build base filenames).run.value = .ok app) :
    ∀ n ∈ filenames, ∃ own, Path.directoryBelow? n = some own := by
  obtain ⟨gathered, found, assembled, resolved, hstages⟩ := build_eq_ok_iff.1 h
  exact hstages.below

/-- All selected names are accounted for by the files of an application, which are in the packages
of their own directories. -/
structure Accounted (b : Builder) (base : Bytes) (filenames : List Bytes) (app : Application) :
    Prop where
  /-- The files that are not external have the cleaned names of the source files given. -/
  names : ∀ name,
    (∃ p ∈ app.packages, p.isExternal = false ∧ ∃ f ∈ app.filesOf p, f.name = name) ↔
      ∃ n ∈ filenames, b.selects base n = true ∧ Path.clean n = name
  /-- The package of a file is at the path of the file's directory or, at the top level, at a name
  drawn. -/
  directory : ∀ p ∈ app.packages, p.isExternal = false → ∀ f ∈ app.filesOf p,
    ∃ dir, LiesIn f.name dir ∧ (dir ≠ topLevel → Slashed dir p.importPath) ∧
      (dir = topLevel → ∃ k < maxNameAttempts, p.importPath = b.names k ∧
        ∀ i < k, b.names i ∈ app.paths)
  /-- Files are in one package if they lie in one directory. -/
  together : ∀ p ∈ app.packages, ∀ q ∈ app.packages, p.isExternal = false → q.isExternal = false →
    ∀ f ∈ app.filesOf p, ∀ g ∈ app.filesOf q, ∀ dir other, LiesIn f.name dir →
      LiesIn g.name other → (dir = other ↔ p = q)
  /-- A file declares the package name of the source file that it stands for. -/
  declares : ∀ p ∈ app.packages, p.isExternal = false → ∀ f ∈ app.filesOf p,
    ∃ source, (b.tree.sourceFile (Path.join base f.name)).run.value = .ok source ∧
      f.packageName = source.packageName
  /-- The files of a package declare one package name. -/
  packageName : ∀ p ∈ app.packages, ∀ f ∈ app.filesOf p, ∀ g ∈ app.filesOf p,
    f.packageName = g.packageName

/-- Packages of directories are one if files of theirs lie in one directory. -/
theorem eq_iff_liesIn (h : (b.build base filenames).run.value = .ok app) {q : Package}
    (hp : p ∈ app.packages) (hq : q ∈ app.packages) (hpown : p.isExternal = false)
    (hqown : q.isExternal = false) {f g : File} (hf : f ∈ app.filesOf p) (hg : g ∈ app.filesOf q)
    {other : Bytes} (hdir : LiesIn f.name dir) (hother : LiesIn g.name other) :
    dir = other ↔ p = q := by
  have hbelow := build_below h
  constructor
  · rintro rfl
    refine eq_of_forall₂ (build_packages h) nodup_inhabited
      (List.mem_filter.2 ⟨hp, by simp [hpown]⟩) (List.mem_filter.2 ⟨hq, by simp [hqown]⟩) ?_
    intro own ownOther hown hownOther
    rw [(hown.liesIn hbelow hf).unique hdir, (hownOther.liesIn hbelow hg).unique hother]
  · rintro rfl
    obtain ⟨own, hown⟩ := exists_packageOf h hp hpown
    rw [hdir.unique (hown.liesIn hbelow hf), hother.unique (hown.liesIn hbelow hg)]

/-- The files of one package, external or not, declare one package name. -/
theorem packageName_eq (h : (b.build base filenames).run.value = .ok app) (hp : p ∈ app.packages)
    {f g : File} (hf : f ∈ app.filesOf p) (hg : g ∈ app.filesOf p) :
    f.packageName = g.packageName := by
  cases hext : p.isExternal with
  | false =>
    obtain ⟨dir, hdir⟩ := exists_packageOf h hp hext
    obtain ⟨name, hname⟩ := hdir.packageName
    rw [hname f hf, hname g hg]
  | true =>
    -- the files of an external package have the name that the workspace gives
    obtain ⟨s, found, -, -, -, hkept⟩ := build_external h hp hext
    rw [hkept] at hf hg
    obtain ⟨f, -, rfl⟩ := List.mem_map.1 hf
    obtain ⟨g, -, rfl⟩ := List.mem_map.1 hg
    rfl

/-- **No selected name is lost, and each file is in the package of its own directory**, in every
build that goes well. -/
theorem build_files (h : (b.build base filenames).run.value = .ok app) :
    b.Accounted base filenames app := by
  refine ⟨fun name => ⟨?_, ?_⟩, ?_, ?_, ?_, fun p hp f hf g hg => packageName_eq h hp hf hg⟩
  · rintro ⟨p, hp, hown, f, hf, rfl⟩
    obtain ⟨dir, hdir⟩ := exists_packageOf h hp hown
    obtain ⟨n, hn, hselects, hname, -⟩ := hdir.exists_selected hf
    exact ⟨n, hn, hselects, hname⟩
  · rintro ⟨n, hn, hselects, rfl⟩
    exact exists_file h hn hselects
  · intro p hp hown f hf
    obtain ⟨dir, hdir⟩ := exists_packageOf h hp hown
    refine ⟨dir, hdir.liesIn (build_below h) hf, fun hne => ?_, hdir.drawn⟩
    exact slashed_iff.2 (hdir.directory hne)
  · intro p hp q hq hpown hqown f hf g hg dir other hdir hother
    exact eq_iff_liesIn h hp hq hpown hqown hf hg hdir hother
  · intro p hp hown f hf
    obtain ⟨dir, hdir⟩ := exists_packageOf h hp hown
    exact hdir.exists_source hf

/-- A program with a file at the top level and a directory whose name has a backslash. One file is
not for the build, and the first name drawn is taken. -/
def backslashed : Builder where
  tree := { entries := [
    ([ascii "app.go"], .file (ascii "package app\nimport \"-sub/x\"\n")),
    ([ascii "-sub\\x", ascii "b.go"], .file (ascii "package x\n")),
    ([ascii "-sub\\x", ascii "c.go"], .file (ascii "package x\n")),
    ([ascii "-sub\\x", ascii "old.go"], .file (ascii "// +build ignore\n\npackage old\n"))] }
  options := {}
  isStandard _ := false
  names n := if n = 0 then ascii "-sub/x" else ascii "main00001"

def backslashedNames : List Bytes :=
  [ascii "./app.go", ascii "-sub\\x/b.go", ascii "-sub\\x//./c.go", ascii "-sub\\x/old.go"]

def backslashedApp : Application where
  files := [
    { name := ascii "-sub\\x/b.go", packageName := ascii "x", imports := [] },
    { name := ascii "-sub\\x/c.go", packageName := ascii "x", imports := [] },
    { name := ascii "app.go", packageName := ascii "app", imports := [ascii "-sub/x"] }]
  packages := [
    { importPath := ascii "-sub/x", files := [0, 1] },
    { importPath := ascii "main00001", files := [2], dependencies := [0] }]
  order := [0, 1]

theorem backslashed_value :
    (backslashed.build (ascii "./lib/..//") backslashedNames).run.value = .ok backslashedApp := by
  decide +kernel

theorem build_files_backslashed :
    (backslashed.build (ascii "./lib/..//") backslashedNames).run.value = .ok backslashedApp ∧
      backslashed.Accounted (ascii "./lib/..//") backslashedNames backslashedApp ∧
      backslashedNames.map (backslashed.selects (ascii "./lib/..//")) = [true, true, true, false] :=
  ⟨backslashed_value, build_files backslashed_value, by decide +kernel⟩

/-- The names of the files that are not external. -/
def fileNames (app : Application) : List Bytes :=
  ((app.packages.filter (!·.isExternal)).flatMap app.filesOf).map (·.name)

/-- The directories share the selected names out among them. -/
theorem selected_perm : ((b.inhabited base filenames).flatMap (b.selected base filenames)).Perm
    (filenames.filter (b.selects base)) := by
  have hselected : b.selected base filenames = fun dir =>
      (filenames.filter (b.selects base)).filter fun n => Path.parent (Path.clean n) == dir := by
    funext dir
    rw [selected, named, List.filter_comm]
  rw [hselected]
  refine flatMap_filter_perm nodup_inhabited fun n hn => ?_
  obtain ⟨hmem, hselects⟩ := List.mem_filter.1 hn
  exact mem_inhabited hmem hselects

/-- **There is one file for each selected name.** So no two files have the same name if and only if
the selected names differ when they are cleaned. -/
theorem build_names (h : (b.build base filenames).run.value = .ok app) :
    (fileNames app).Perm ((filenames.filter (b.selects base)).map Path.clean) ∧
      ((fileNames app).Nodup ↔ ((filenames.filter (b.selects base)).map Path.clean).Nodup) := by
  have hnames : fileNames app =
      ((b.inhabited base filenames).flatMap (b.selected base filenames)).map Path.clean := by
    have hsame := map_eq_of_forall₂ (build_packages h) fun dir p hdir => hdir.names_eq
    rw [fileNames, List.map_flatMap, List.map_flatMap, List.flatMap_def, List.flatMap_def, hsame]
  have hperm : (fileNames app).Perm ((filenames.filter (b.selects base)).map Path.clean) := by
    rw [hnames]
    exact selected_perm.map Path.clean
  exact ⟨hperm, hperm.nodup_iff⟩

/-- A program of one file. -/
def single : Builder where
  tree := { entries := [([ascii "a.go"], .file (ascii "package a\n"))] }
  options := {}
  isStandard _ := false
  names _ := ascii "main00001"

/-- The file, written in two ways. -/
def twice : List Bytes := [ascii "a.go", ascii "./a.go"]

/-- The program has the file twice. -/
def doubled : Application where
  files := [
    { name := ascii "a.go", packageName := ascii "a", imports := [] },
    { name := ascii "a.go", packageName := ascii "a", imports := [] }]
  packages := [{ importPath := ascii "main00001", files := [0, 1] }]
  order := [0]

theorem single_value : (single.build [Byte.dot] twice).run.value = .ok doubled := by
  decide +kernel

theorem build_names_twice : (single.build [Byte.dot] twice).run.value = .ok doubled ∧
    (fileNames doubled).Perm ((twice.filter (single.selects [Byte.dot])).map Path.clean) ∧
    (twice.filter (single.selects [Byte.dot])).map Path.clean = [ascii "a.go", ascii "a.go"] :=
  ⟨single_value, (build_names single_value).1, by decide⟩

/-- A file that is given under two names makes two files of one name. -/
theorem build_twice : ∃ app, (single.build [Byte.dot] twice).run.value = .ok app ∧
    ¬ (fileNames app).Nodup :=
  ⟨doubled, single_value, by decide⟩

end Builder

end BuildOrder
