import BuildOrder.Build
import BuildOrder.Proofs.Path
import BuildOrder.Proofs.WellFormed
import Mathlib.Data.List.Forall2

/-!
# The files that a build takes

* `Builder.selects`, `Builder.selected`: the names given that stand for source files of the build;
  those of one directory.
* `Builder.Makes`: the file that a name given makes.
* `scanEntries_eq_ok`: **a scan takes up the source files among the entries of a directory**, if all
  that it reads can be parsed and they declare one package name.
* `Builder.lists_of_listNamed`: **the lister finds in a directory the names that belong there**,
  whatever the base and the names are written like.
* `Builder.addDirectories_ok`: **each directory gets the files of its own names**, in the order of
  the names, and a directory without such names is left out.
-/

namespace BuildOrder

open List (Forall₂)

section Lists

variable {ε α β γ : Type}

/-- A run over a list goes well if it goes well for each member. -/
theorem mapM_eq_ok {f : α → Except ε β} {xs : List α} {ys : List β} :
    xs.mapM f = .ok ys ↔ Forall₂ (fun x y => f x = .ok y) xs ys := by
  induction xs generalizing ys with
  | nil =>
    rw [List.mapM_nil, List.forall₂_nil_left_iff]
    constructor
    · exact fun h => (Except.ok.inj h).symm
    · rintro rfl
      rfl
  | cons x xs ih =>
    rw [List.mapM_cons, List.forall₂_cons_left_iff]
    cases hx : f x with
    | error e => exact ⟨nofun, nofun⟩
    | ok y =>
      cases hxs : xs.mapM f with
      | error e =>
        refine ⟨nofun, ?_⟩
        rintro ⟨_, rest, -, hrest, -⟩
        rw [ih.2 hrest] at hxs
        cases hxs
      | ok rest =>
        constructor
        · intro h
          exact ⟨y, rest, rfl, ih.1 hxs, (Except.ok.inj h).symm⟩
        · rintro ⟨_, others, ⟨⟩, hothers, rfl⟩
          rw [ih.2 hothers] at hxs
          obtain rfl := Except.ok.inj hxs
          rfl

/-- Lists that are related to a third member by member are related to each other. -/
theorem forall₂_comp {R : α → β → Prop} {S : β → γ → Prop} {xs : List α} {ys : List β}
    {zs : List γ} (hxy : Forall₂ R xs ys) (hyz : Forall₂ S ys zs) :
    Forall₂ (fun x z => ∃ y, R x y ∧ S y z) xs zs := by
  induction hxy generalizing zs with
  | nil =>
    cases hyz
    exact Forall₂.nil
  | cons hxy _ ih =>
    cases hyz with
    | cons hyz hrest => exact Forall₂.cons ⟨_, hxy, hyz⟩ (ih hrest)

/-- A member of the second list has a partner in the first. -/
theorem exists_of_forall₂ {R : α → β → Prop} {xs : List α} {ys : List β} (h : Forall₂ R xs ys)
    {y : β} (hy : y ∈ ys) : ∃ x ∈ xs, R x y := by
  induction h with
  | nil => cases hy
  | @cons x z xs ys hxz _ ih =>
    rcases List.mem_cons.1 hy with rfl | hy
    · exact ⟨x, List.mem_cons_self, hxz⟩
    · obtain ⟨other, hother, hR⟩ := ih hy
      exact ⟨other, List.mem_cons_of_mem _ hother, hR⟩

/-- Related lists agree in what related members agree in. -/
theorem map_eq_of_forall₂ {R : α → β → Prop} {f : α → γ} {g : β → γ} {xs : List α} {ys : List β}
    (h : Forall₂ R xs ys) (hvalue : ∀ x y, R x y → f x = g y) : xs.map f = ys.map g := by
  induction h with
  | nil => rfl
  | cons hxy _ ih => rw [List.map_cons, List.map_cons, hvalue _ _ hxy, ih]

end Lists

/-! ### Scanning a directory -/

theorem SourceFile.constraints_parse {source : Source} {file : SourceFile}
    (h : SourceFile.parse source = .ok file) : file.constraints = buildConstraints source.content := by
  unfold SourceFile.parse at h
  simp only [bind, Except.bind, pure, Except.pure] at h
  split at h
  · cases h
  split at h
  · cases h
  split at h
  · cases h
  rw [← Except.ok.inj h]

namespace FileTree

variable (t : FileTree) (context : BuildContext) (dir : Bytes)

/-- The file at a path can be read, and its build constraints hold. -/
def holds (path : Bytes) : Bool :=
  match t.read path with
  | .ok content => context.matchesConstraints (buildConstraints content)
  | .error _ => false

/-- The entry of a directory is a source file of the build. -/
def takes (entry : DirEntry) : Bool :=
  !entry.isDirectory && context.matchesFileName entry.name &&
    t.holds context (Path.join dir entry.name)

/-- The entry does not keep a scan of the directory from going well: if it is no directory and has
the name of a source file, it can be read and parsed. -/
def Loads (entry : DirEntry) : Prop :=
  (entry.isDirectory || !context.matchesFileName entry.name) = false →
    ∃ file, (t.sourceFile (Path.join dir entry.name)).run.value = .ok file

/-- The file that a scan of the directory makes of an entry. -/
structure Scans (entry : DirEntry) (file : ScannedFile) : Prop where
  name : file.name = entry.name
  source : (t.sourceFile (Path.join dir entry.name)).run.value = .ok file.source

variable {t context dir}

theorem holds_of_sourceFile {path : Bytes} {file : SourceFile}
    (h : (t.sourceFile path).run.value = .ok file) :
    t.holds context path = context.matchesConstraints file.constraints := by
  unfold sourceFile at h
  simp only [Attempt.value_bind_eq_ok, Attempt.value_liftExcept] at h
  obtain ⟨source, hsource, -, -, hparse⟩ := h
  unfold FileTree.source at hsource
  rw [SourceFile.constraints_parse hparse, holds]
  split at hsource
  · rename_i content hread
    rw [hread, ← Except.ok.inj hsource]
  · cases hsource
  · cases hsource

end FileTree

variable {t : FileTree} {context : BuildContext} {dir : Bytes}

/-- The files all declare one package name. -/
def OnePackage (files : List ScannedFile) : Prop :=
  ∃ name, ∀ file ∈ files, file.source.packageName = name

theorem onePackage_nil : OnePackage [] := ⟨[], by simp⟩

theorem OnePackage.subset {files more : List ScannedFile} (h : OnePackage more)
    (hsubset : files ⊆ more) : OnePackage files := by
  obtain ⟨name, hall⟩ := h
  exact ⟨name, fun file hfile => hall file (hsubset hfile)⟩

/-- A file is taken up if it declares the package name of those before. -/
theorem addScanned_eq_ok {files more : List ScannedFile} {file : ScannedFile}
    (hone : OnePackage files) :
    addScanned dir files file = .ok more ↔ more = files ++ [file] ∧ OnePackage more := by
  unfold addScanned
  split
  · constructor
    · intro h
      obtain rfl := Except.ok.inj h
      exact ⟨rfl, file.source.packageName, by simp⟩
    · rintro ⟨rfl, -⟩
      rfl
  · rename_i first rest
    obtain ⟨name, hall⟩ := hone
    have hfirst : first.source.packageName = name := hall first List.mem_cons_self
    constructor
    · intro h
      split at h
      · rename_i hname
        obtain rfl := Except.ok.inj h
        refine ⟨rfl, name, ?_⟩
        intro other hother
        rcases List.mem_append.1 hother with hother | hother
        · exact hall other hother
        · obtain rfl := List.mem_singleton.1 hother
          exact hname.trans hfirst
      · cases h
    · rintro ⟨rfl, other, hother⟩
      have hname : file.source.packageName = first.source.packageName := by
        rw [hother file (by simp), hother first (by simp)]
      rw [if_pos hname]

section Entries

variable {files scanned : List ScannedFile} {entry : DirEntry} {entries : List DirEntry}

/-- An entry is passed over that is a directory or has the name of no source file. -/
theorem scanEntries_skip (h : (entry.isDirectory || !context.matchesFileName entry.name) = true) :
    scanEntries t context dir files (entry :: entries) =
      scanEntries t context dir files entries := by
  rw [scanEntries, if_pos h]

/-- Another entry is read, and taken up if its constraints hold. -/
theorem scanEntries_read (h : (entry.isDirectory || !context.matchesFileName entry.name) = false) :
    (scanEntries t context dir files (entry :: entries)).run.value = .ok scanned ↔
      ∃ source, (t.sourceFile (Path.join dir entry.name)).run.value = .ok source ∧
        if context.matchesConstraints source.constraints = true then
          ∃ more, addScanned dir files ⟨entry.name, source⟩ = .ok more ∧
            (scanEntries t context dir more entries).run.value = .ok scanned
        else (scanEntries t context dir files entries).run.value = .ok scanned := by
  rw [scanEntries, if_neg (by simp [h])]
  simp only [Attempt.value_bind_eq_ok, Attempt.value_adapt, mapError_eq_ok]
  refine exists_congr fun source => and_congr_right fun _ => ?_
  split
  · simp only [Attempt.value_bind_eq_ok, Attempt.value_liftExcept]
  · constructor
    · intro h
      obtain ⟨-, -, h⟩ := Attempt.value_bind_eq_ok.1 h
      exact h
    · exact fun h => Attempt.value_bind_eq_ok.2 ⟨(), rfl, h⟩

theorem FileTree.takes_of_skip
    (h : (entry.isDirectory || !context.matchesFileName entry.name) = true) :
    t.takes context dir entry = false := by
  rw [Bool.or_eq_true, Bool.not_eq_true'] at h
  rcases h with hdir | hname
  · simp [takes, hdir]
  · simp [takes, hname]

/-- The constraints decide on an entry that is read. -/
theorem FileTree.takes_of_load {source : SourceFile}
    (h : (entry.isDirectory || !context.matchesFileName entry.name) = false)
    (hload : (t.sourceFile (Path.join dir entry.name)).run.value = .ok source) :
    t.takes context dir entry = context.matchesConstraints source.constraints := by
  rw [Bool.or_eq_false_iff, Bool.not_eq_false'] at h
  rw [takes, h.1, h.2, holds_of_sourceFile hload]
  simp

/-- A scan makes one file of an entry. -/
theorem FileTree.Scans.eq {file : ScannedFile} {source : SourceFile} (h : t.Scans dir entry file)
    (hload : (t.sourceFile (Path.join dir entry.name)).run.value = .ok source) :
    file = ⟨entry.name, source⟩ := by
  have hsource : file.source = source := Except.ok.inj (h.source.symm.trans hload)
  rw [← hsource, ← h.name]

/-- **A scan takes up the source files among the entries.** It goes well if and only if what it reads
can be parsed, and the files taken up declare one package name. -/
theorem scanEntries_eq_ok (hone : OnePackage files) :
    (scanEntries t context dir files entries).run.value = .ok scanned ↔
      (∀ entry ∈ entries, t.Loads context dir entry) ∧ OnePackage scanned ∧
        ∃ more, scanned = files ++ more ∧
          Forall₂ (t.Scans dir) (entries.filter (t.takes context dir)) more := by
  induction entries generalizing files with
  | nil =>
    constructor
    · intro h
      obtain rfl : files = scanned := Except.ok.inj h
      exact ⟨by simp, hone, [], by simp, Forall₂.nil⟩
    · rintro ⟨-, -, more, rfl, hmore⟩
      obtain rfl := List.forall₂_nil_left_iff.1 hmore
      rw [List.append_nil]
      rfl
  | cons entry rest ih =>
    rw [List.forall_mem_cons]
    cases hread : entry.isDirectory || !context.matchesFileName entry.name with
    | true =>
      have hloads : t.Loads context dir entry := fun h => by simp [hread] at h
      have hnot : ¬ t.takes context dir entry = true := by
        rw [FileTree.takes_of_skip hread]
        exact Bool.false_ne_true
      rw [scanEntries_skip hread, ih hone, List.filter_cons_of_neg hnot, and_iff_right hloads]
    | false =>
      rw [scanEntries_read hread]
      constructor
      · rintro ⟨source, hload, h⟩
        have htakes := FileTree.takes_of_load hread hload
        split at h
        · rename_i hholds
          obtain ⟨more, hadd, h⟩ := h
          obtain ⟨rfl, hmore⟩ := (addScanned_eq_ok hone).1 hadd
          obtain ⟨hrest, hscanned, others, rfl, hothers⟩ := (ih hmore).1 h
          rw [List.filter_cons_of_pos (by rw [htakes, hholds])]
          exact ⟨⟨fun _ => ⟨source, hload⟩, hrest⟩, hscanned, _, (List.append_cons _ _ _).symm,
            Forall₂.cons ⟨rfl, hload⟩ hothers⟩
        · rename_i hholds
          obtain ⟨hrest, hscanned, hothers⟩ := (ih hone).1 h
          rw [List.filter_cons_of_neg (by rwa [htakes])]
          exact ⟨⟨fun _ => ⟨source, hload⟩, hrest⟩, hscanned, hothers⟩
      · rintro ⟨⟨hloads, hrest⟩, hscanned, more, rfl, hmore⟩
        obtain ⟨source, hload⟩ := hloads hread
        have htakes := FileTree.takes_of_load hread hload
        refine ⟨source, hload, ?_⟩
        split
        · rename_i hholds
          rw [List.filter_cons_of_pos (by rw [htakes, hholds])] at hmore
          obtain ⟨file, others, hscan, hothers, rfl⟩ := List.forall₂_cons_left_iff.1 hmore
          obtain rfl := hscan.eq hload
          have hsplit := List.append_cons files ⟨entry.name, source⟩ others
          have hmore : OnePackage (files ++ [⟨entry.name, source⟩]) :=
            hscanned.subset (hsplit ▸ List.subset_append_left _ _)
          refine ⟨_, (addScanned_eq_ok hone).2 ⟨rfl, hmore⟩, ?_⟩
          exact (ih hmore).2 ⟨hrest, hscanned, others, hsplit, hothers⟩
        · rename_i hholds
          rw [List.filter_cons_of_neg (by rwa [htakes])] at hmore
          exact (ih hone).2 ⟨hrest, hscanned, more, rfl, hmore⟩

end Entries

/-- The package of a directory has the files that a scan of its entries finds. -/
theorem scanDirectory_eq_ok {lister : Lister} {result : Option ScannedPackage} :
    (scanDirectory t context dir lister).run.value = .ok result ↔
      ∃ entries files, lister dir = .ok entries ∧
        (scanEntries t context dir [] entries).run.value = .ok files ∧
        result = files.head?.map fun first => ⟨dir, first.source.packageName, files⟩ := by
  unfold scanDirectory
  simp only [Attempt.value_bind_eq_ok, Attempt.value_liftExcept, mapError_eq_ok]
  constructor
  · rintro ⟨entries, hlist, files, hscan, h⟩
    refine ⟨entries, files, hlist, hscan, ?_⟩
    cases files with
    | nil => exact (Except.ok.inj h).symm
    | cons first more =>
      obtain ⟨-, -, h⟩ := Attempt.value_bind_eq_ok.1 h
      exact (Except.ok.inj h).symm
  · rintro ⟨entries, files, hlist, hscan, rfl⟩
    refine ⟨entries, hlist, files, hscan, ?_⟩
    cases files with
    | nil => rfl
    | cons first more => exact Attempt.value_bind_eq_ok.2 ⟨(), rfl, rfl⟩

theorem scanDirectory_ok {lister : Lister} {result : Option ScannedPackage}
    (h : (scanDirectory t context dir lister).run.value = .ok result) :
    ∃ entries, lister dir = .ok entries ∧
      ((result = none ∧ entries.filter (t.takes context dir) = []) ∨
        ∃ scanned, result = some scanned ∧ OnePackage scanned.files ∧
          entries.filter (t.takes context dir) ≠ [] ∧
          Forall₂ (t.Scans dir) (entries.filter (t.takes context dir)) scanned.files) := by
  obtain ⟨entries, files, hlist, hscan, rfl⟩ := scanDirectory_eq_ok.1 h
  obtain ⟨-, hone, _, rfl, hscans⟩ := (scanEntries_eq_ok onePackage_nil).1 hscan
  refine ⟨entries, hlist, ?_⟩
  cases files with
  | nil => exact Or.inl ⟨rfl, List.forall₂_nil_right_iff.1 hscans⟩
  | cons first more =>
    refine Or.inr ⟨_, rfl, hone, ?_, hscans⟩
    intro hnil
    rw [hnil] at hscans
    cases hscans

/-- The entries that a list of names has for a directory. -/
theorem FileTree.listNamed_ok {base : Bytes} {filenames : List Bytes} {entries : List DirEntry}
    (h : t.listNamed base filenames dir = .ok entries) :
    Forall₂ (fun path entry => entry.name = Path.lastName path ∧
        entry.isDirectory = t.isDirectory path)
      ((filenames.map (Path.join base)).filter (Path.parent · = Path.clean dir)) entries := by
  refine (mapM_eq_ok.1 h).imp fun path entry hentry => ?_
  split at hentry
  · rename_i node hfind
    rw [← Except.ok.inj hentry, FileTree.isDirectory, hfind]
    cases node <;> exact ⟨rfl, rfl⟩
  · cases hentry
  · cases hentry
  · cases hentry

/-! ### The files of a directory -/

/-- What a source file makes has the source's names and imports. -/
theorem extract_ok {isStandard : Bytes → Bool} {exempt : List Bytes} {filename : Bytes}
    {source : SourceFile} {file : File}
    (h : (extract isStandard exempt filename source).run.value = .ok file) :
    file =
      { name := filename
        packageName := source.packageName
        imports := source.importPaths
        hasInit := source.hasInit } := by
  unfold extract at h
  simp only at h
  split at h
  · cases h
  obtain ⟨violations, -, h⟩ := Attempt.value_bind_eq_ok.1 h
  split at h
  · obtain ⟨-, -, h⟩ := Attempt.value_bind_eq_ok.1 h
    cases h
  · obtain ⟨-, -, h⟩ := Attempt.value_bind_eq_ok.1 h
    exact (Except.ok.inj h).symm

namespace Builder

variable (b : Builder) (base : Bytes) (filenames : List Bytes)

/-- The name given stands for a source file of the build: for no directory, under a name that
belongs to the build, with constraints that hold. -/
def selects (filename : Bytes) : Bool :=
  !b.tree.isDirectory (Path.join base filename) &&
    b.options.context.matchesFileName (Path.lastName (Path.clean filename)) &&
    b.tree.holds b.options.context (Path.join base filename)

/-- The names given of the files in a directory. -/
def named (dir : Bytes) : List Bytes :=
  filenames.filter fun filename => Path.parent (Path.clean filename) == dir

/-- Those that stand for source files of the build. -/
def selected (dir : Bytes) : List Bytes := (named filenames dir).filter (b.selects base)

/-- The file that a name given makes: its cleaned name is that of the file. -/
def Makes (filename : Bytes) (file : File) : Prop :=
  (extractFrom b.isStandard b.options.exemptions b.tree base (Path.clean filename)).run.value =
    .ok file

/-- What is known of the files of a directory within an application. -/
structure Gathered (app : Application) (dir : Bytes) (d : DirectoryFiles) : Prop where
  here : d.dir = dir
  nonempty : d.files ≠ []
  files : Forall₂ (b.Makes base) (b.selected base filenames dir) (d.files.filterMap app.file?)
  package : ∃ name, ∀ file ∈ d.files.filterMap app.file?, file.packageName = name

variable {b base filenames}

theorem Makes.name {filename : Bytes} {file : File} (h : b.Makes base filename file) :
    file.name = Path.clean filename := by
  unfold Makes extractFrom at h
  obtain ⟨source, -, h⟩ := Attempt.value_bind_eq_ok.1 h
  rw [extract_ok h]

/-- The file declares the package name of the source file under its name. -/
theorem Makes.exists_source {filename : Bytes} {file : File} (h : b.Makes base filename file) :
    ∃ source, (b.tree.sourceFile (Path.join base file.name)).run.value = .ok source ∧
      file.packageName = source.packageName := by
  have hname := h.name
  unfold Makes extractFrom at h
  obtain ⟨source, hsource, h⟩ := Attempt.value_bind_eq_ok.1 h
  rw [Attempt.value_adapt, mapError_eq_ok, ← hname] at hsource
  exact ⟨source, hsource, by rw [extract_ok h]⟩

/-- The entry of a directory that a name given stands for. -/
structure Lists (b : Builder) (base dir filename : Bytes) (entry : DirEntry) : Prop where
  below : Path.directoryBelow? filename = some dir
  name : entry.name = Path.lastName (Path.join base filename)
  isDirectory : entry.isDirectory = b.tree.isDirectory (Path.join base filename)

/-- **The lister finds in a directory the names that belong there.** -/
theorem lists_of_listNamed (hbelow : ∀ n ∈ filenames, ∃ dir, Path.directoryBelow? n = some dir)
    (hdir : ∃ n ∈ filenames, Path.directoryBelow? n = some dir) {entries : List DirEntry}
    (h : b.tree.listNamed base filenames (Path.join base dir) = .ok entries) :
    Forall₂ (b.Lists base dir) (named filenames dir) entries := by
  obtain ⟨other, -, hother⟩ := hdir
  have hlisted := FileTree.listNamed_ok h
  -- the lister compares directories of paths below the base, the build those of cleaned names
  have hnamed : (filenames.map (Path.join base)).filter
      (Path.parent · = Path.clean (Path.join base dir)) =
      (named filenames dir).map (Path.join base) := by
    rw [List.filter_map, named]
    congr 1
    refine List.filter_congr fun n hn => ?_
    obtain ⟨own, hown⟩ := hbelow n hn
    rw [Bool.eq_iff_iff, Path.parent_clean hown]
    simp [Path.parent_join_eq_iff hown hother]
  rw [hnamed, List.forall₂_map_left_iff] at hlisted
  have hall : ∀ n ∈ named filenames dir, Path.directoryBelow? n = some dir := by
    intro n hn
    rw [named, List.mem_filter, beq_iff_eq] at hn
    obtain ⟨own, hown⟩ := hbelow n hn.1
    rw [hown, ← hn.2, Path.parent_clean hown]
  refine ((List.forall₂_and_left _ _).2 ⟨hall, hlisted⟩).imp fun n entry hn => ?_
  exact ⟨hn.1, hn.2.1, hn.2.2⟩

namespace Lists

variable {filename : Bytes} {entry : DirEntry} (h : b.Lists base dir filename entry)

include h

theorem path_eq : Path.join (Path.join base dir) entry.name = Path.join base filename := by
  rw [h.name, Path.join_join_lastName h.below]

theorem name_eq : entry.name = Path.lastName (Path.clean filename) := by
  rw [h.name, Path.lastName_join h.below]

/-- The entry is taken if the name is selected. -/
theorem takes_eq :
    b.tree.takes b.options.context (Path.join base dir) entry = b.selects base filename := by
  rw [FileTree.takes, selects, h.isDirectory, h.path_eq, h.name_eq]

theorem relativeName_eq : relativeName dir entry.name = Path.clean filename := by
  rw [Path.clean_eq_dir_append h.below, h.name_eq, relativeName, topLevel]

/-- The file scanned under the entry makes what the name makes. -/
theorem makes {scanned : ScannedFile} {file : File}
    (hscan : b.tree.Scans (Path.join base dir) entry scanned)
    (hextract : (extract b.isStandard b.options.exemptions (relativeName dir scanned.name)
      scanned.source).run.value = .ok file) : b.Makes base filename file := by
  refine Attempt.value_bind_eq_ok.2 ⟨scanned.source, ?_, ?_⟩
  · rw [Attempt.value_adapt, mapError_eq_ok, Path.join_clean h.below, ← h.path_eq]
    exact hscan.source
  · rwa [hscan.name, h.relativeName_eq] at hextract

end Lists

theorem extractAll_eq_ok {scanned : List ScannedFile} {files : List File} :
    (b.extractAll dir scanned).run.value = .ok files ↔
      Forall₂ (fun s file => (extract b.isStandard b.options.exemptions (relativeName dir s.name)
        s.source).run.value = .ok file) scanned files := by
  induction scanned generalizing files with
  | nil =>
    rw [List.forall₂_nil_left_iff]
    constructor
    · exact fun h => (Except.ok.inj h).symm
    · rintro rfl
      rfl
  | cons s rest ih =>
    rw [List.forall₂_cons_left_iff]
    unfold extractAll
    simp only [Attempt.value_bind_eq_ok, ih]
    constructor
    · rintro ⟨file, hfile, more, hmore, h⟩
      exact ⟨file, more, hfile, hmore, (Except.ok.inj h).symm⟩
    · rintro ⟨file, more, hfile, hmore, rfl⟩
      exact ⟨file, hfile, more, hmore, rfl⟩

/-- **A scan of a directory finds the files of its own names.** -/
theorem scanDirectory_selected
    (hbelow : ∀ n ∈ filenames, ∃ dir, Path.directoryBelow? n = some dir)
    (hdir : ∃ n ∈ filenames, Path.directoryBelow? n = some dir) {result : Option ScannedPackage}
    (h : (scanDirectory b.tree b.options.context (Path.join base dir)
      (b.tree.listNamed base filenames)).run.value = .ok result) :
    (result = none ∧ b.selected base filenames dir = []) ∨
      ∃ scanned, result = some scanned ∧ b.selected base filenames dir ≠ [] ∧
        ∀ files, (b.extractAll dir scanned.files).run.value = .ok files →
          Forall₂ (b.Makes base) (b.selected base filenames dir) files ∧
          ∃ name, ∀ file ∈ files, file.packageName = name := by
  obtain ⟨entries, hlist, hresult⟩ := scanDirectory_ok h
  have htaken : Forall₂ (b.Lists base dir) (b.selected base filenames dir)
      (entries.filter (b.tree.takes b.options.context (Path.join base dir))) := by
    refine List.rel_filter (fun n entry hn => ?_) (lists_of_listNamed hbelow hdir hlist)
    simp only [hn.takes_eq]
  rcases hresult with ⟨rfl, hnil⟩ | ⟨scanned, rfl, hone, hne, hscans⟩
  · rw [hnil] at htaken
    exact Or.inl ⟨rfl, List.forall₂_nil_right_iff.1 htaken⟩
  refine Or.inr ⟨scanned, rfl, ?_, fun files hfiles => ⟨?_, ?_⟩⟩
  · intro hnil
    rw [hnil, List.forall₂_nil_left_iff] at htaken
    exact hne htaken
  · refine (forall₂_comp (forall₂_comp htaken hscans) (extractAll_eq_ok.1 hfiles)).imp ?_
    rintro n file ⟨s, ⟨entry, hn, hscan⟩, hextract⟩
    exact hn.makes hscan hextract
  · obtain ⟨name, hname⟩ := hone
    refine ⟨name, fun file hfile => ?_⟩
    obtain ⟨s, hs, hextract⟩ := exists_of_forall₂ (extractAll_eq_ok.1 hfiles) hfile
    rw [extract_ok hextract, ← hname s hs]

/-- **Each directory gets the files of its own names**, in the order of the names, and a directory
without such names is left out. -/
theorem addDirectories_ok {app built : Application} {dirs : List Bytes}
    {directories : List DirectoryFiles}
    (hbelow : ∀ n ∈ filenames, ∃ dir, Path.directoryBelow? n = some dir)
    (hdirs : ∀ dir ∈ dirs, ∃ n ∈ filenames, Path.directoryBelow? n = some dir)
    (h : (b.addDirectories base filenames app dirs).run.value = .ok (built, directories)) :
    ∃ files, built = app.addFiles files ∧
      directories.flatMap (·.files) = (List.range files.length).map (app.files.length + ·) ∧
      Forall₂ (b.Gathered base filenames built)
        (dirs.filter (b.selected base filenames · ≠ [])) directories := by
  -- the files of later directories come after those of the first
  induction dirs generalizing app directories with
  | nil =>
    obtain ⟨rfl, rfl⟩ := Prod.mk.inj (Except.ok.inj h)
    exact ⟨[], by simp [Application.addFiles], rfl, Forall₂.nil⟩
  | cons dir rest ih =>
    have hrest : ∀ dir ∈ rest, ∃ n ∈ filenames, Path.directoryBelow? n = some dir :=
      fun other hother => hdirs other (List.mem_cons_of_mem _ hother)
    unfold addDirectories at h
    obtain ⟨result, hscan, h⟩ := Attempt.value_bind_eq_ok.1 h
    rcases scanDirectory_selected hbelow (hdirs dir List.mem_cons_self) hscan with
      ⟨rfl, hnil⟩ | ⟨scanned, rfl, hne, hscanned⟩
    · obtain ⟨-, -, h⟩ := Attempt.value_bind_eq_ok.1 h
      rw [List.filter_cons_of_neg (by simpa using hnil)]
      exact ih hrest h
    simp only [Attempt.value_bind_eq_ok] at h
    obtain ⟨files, hfiles, ⟨app', others⟩, hothers, h⟩ := h
    obtain ⟨rfl, rfl⟩ := Prod.mk.inj (Except.ok.inj h)
    obtain ⟨hmakes, hpackage⟩ := hscanned files hfiles
    obtain ⟨more, rfl, hids, hgathered⟩ := ih hrest hothers
    have hblock : ((List.range files.length).map (app.files.length + ·)).filterMap
        ((app.addFiles files).addFiles more).file? = files :=
      Application.filterMap_getElem?_block app.files files more
    refine ⟨files ++ more, ?_, ?_, ?_⟩
    · simp [Application.addFiles]
    · rw [List.flatMap_cons, hids, List.length_append, List.range_add, List.map_append]
      simp [Application.addFiles, Nat.add_assoc, Function.comp_def]
    · rw [List.filter_cons_of_pos (by simpa using hne)]
      refine Forall₂.cons ⟨rfl, ?_, ?_, ?_⟩ hgathered
      · -- there are as many numbers as names
        have hlength := hmakes.length_eq
        intro hnil
        rw [List.map_eq_nil_iff, List.range_eq_nil] at hnil
        rw [hnil] at hlength
        exact hne (List.eq_nil_of_length_eq_zero hlength)
      · rw [hblock]
        exact hmakes
      · rw [hblock]
        exact hpackage

end Builder

end BuildOrder
