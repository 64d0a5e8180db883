import BuildOrder.Proofs.Build
import BuildOrder.Proofs.Untagged

/-!
# Why builds fail

* `Builder.Refuses`: why the files of a build cannot be gathered.
* `Builder.refuses_of_addDirectories`: **what a directory is refused for is wrong with a name that
  was given**, apart from directories that cannot be listed or have files of two packages.
* `Builder.Fails`, `Builder.fails_of_build`: **each failure of a build is that of one of its
  stages.**
-/

namespace BuildOrder

/-- A run over a list fails at one of its members. -/
theorem exists_of_mapM_eq_error {ε α β : Type} {f : α → Except ε β} {xs : List α} {e : ε}
    (h : xs.mapM f = .error e) : ∃ x ∈ xs, f x = .error e := by
  induction xs with
  | nil => cases h
  | cons x xs ih =>
    rw [List.mapM_cons] at h
    cases hx : f x with
    | error e' =>
      rw [hx] at h
      obtain rfl : e' = e := Except.error.inj h
      exact ⟨x, List.mem_cons_self, hx⟩
    | ok y =>
      cases hxs : xs.mapM f with
      | error e' =>
        rw [hx, hxs] at h
        obtain rfl : e' = e := Except.error.inj h
        obtain ⟨other, hin, hother⟩ := ih hxs
        exact ⟨other, List.mem_cons_of_mem _ hin, hother⟩
      | ok ys =>
        rw [hx, hxs] at h
        cases h

variable {t : FileTree} {context : BuildContext} {dir : Bytes} {e : BuildError}

/-! ### Directories that cannot be scanned -/

theorem addScanned_eq_error {files : List ScannedFile} {file : ScannedFile}
    (h : addScanned dir files file = .error e) : ∃ first, e = .mixedPackages dir first file := by
  unfold addScanned at h
  split at h
  · cases h
  · split at h
    · cases h
    · exact ⟨_, (Except.error.inj h).symm⟩

/-- A scan fails at an entry that cannot be parsed, or that declares another package. -/
theorem scanEntries_eq_error {files : List ScannedFile} {entries : List DirEntry}
    (h : (scanEntries t context dir files entries).run.value = .error e) :
    (∃ entry ∈ entries, ∃ cause,
      (t.sourceFile (Path.join dir entry.name)).run.value = .error cause ∧ e = .ofSyntax cause) ∨
      ∃ first other, e = .mixedPackages dir first other := by
  induction entries generalizing files with
  | nil => cases h
  | cons entry rest ih =>
    have later {files : List ScannedFile}
        (h : (scanEntries t context dir files rest).run.value = .error e) :
        (∃ entry' ∈ entry :: rest, ∃ cause,
          (t.sourceFile (Path.join dir entry'.name)).run.value = .error cause ∧
            e = .ofSyntax cause) ∨ ∃ first other, e = .mixedPackages dir first other := by
      refine (ih h).imp_left ?_
      rintro ⟨entry', hin, hcause⟩
      exact ⟨entry', List.mem_cons_of_mem _ hin, hcause⟩
    rw [scanEntries] at h
    split at h
    · exact later h
    rcases Attempt.value_bind_eq_error.1 h with h | ⟨source, -, h⟩
    · rw [Attempt.value_adapt, mapError_eq_error] at h
      obtain ⟨cause, hcause, rfl⟩ := h
      exact Or.inl ⟨entry, List.mem_cons_self, cause, hcause, rfl⟩
    split at h
    · rcases Attempt.value_bind_eq_error.1 h with h | ⟨more, -, h⟩
      · rw [Attempt.value_liftExcept] at h
        obtain ⟨first, rfl⟩ := addScanned_eq_error h
        exact Or.inr ⟨first, _, rfl⟩
      · exact later h
    · exact later h

theorem scanDirectory_eq_error {lister : Lister}
    (h : (scanDirectory t context dir lister).run.value = .error e) :
    (∃ reason, e = .unlisted dir reason) ∨
      ∃ entries, lister dir = .ok entries ∧
        (scanEntries t context dir [] entries).run.value = .error e := by
  unfold scanDirectory at h
  rcases Attempt.value_bind_eq_error.1 h with h | ⟨entries, hlist, h⟩
  · rw [Attempt.value_liftExcept, mapError_eq_error] at h
    obtain ⟨reason, -, rfl⟩ := h
    exact Or.inl ⟨reason, rfl⟩
  · rw [Attempt.value_liftExcept, mapError_eq_ok] at hlist
    refine Or.inr ⟨entries, hlist, ?_⟩
    rcases Attempt.value_bind_eq_error.1 h with h | ⟨files, -, h⟩
    · exact h
    · cases files with
      | nil => cases h
      | cons first more => cases h

namespace Builder

variable {b : Builder} {base : Bytes} {filenames : List Bytes} {app : Application}

theorem extractAll_eq_error {scanned : List ScannedFile}
    (h : (b.extractAll dir scanned).run.value = .error e) :
    ∃ s ∈ scanned, (extract b.isStandard b.options.exemptions (relativeName dir s.name)
      s.source).run.value = .error e := by
  induction scanned with
  | nil => cases h
  | cons s rest ih =>
    unfold extractAll at h
    rcases Attempt.value_bind_eq_error.1 h with h | ⟨file, -, h⟩
    · exact ⟨s, List.mem_cons_self, h⟩
    rcases Attempt.value_bind_eq_error.1 h with h | ⟨files, -, h⟩
    · obtain ⟨other, hin, h⟩ := ih h
      exact ⟨other, List.mem_cons_of_mem _ hin, h⟩
    · cases h

/-- Why the files of a build cannot be gathered. -/
inductive Refuses (b : Builder) (base : Bytes) (filenames : List Bytes) : BuildError → Prop
  | unlisted (dir reason : Bytes) : Refuses b base filenames (.unlisted dir reason)
  | mixed (dir : Bytes) (first other : ScannedFile) :
      Refuses b base filenames (.mixedPackages dir first other)
  | unparsed {n : Bytes} {cause : SyntaxError} : n ∈ filenames →
      (b.tree.sourceFile (Path.join base n)).run.value = .error cause →
      Refuses b base filenames (.ofSyntax cause)
  | unsound {n : Bytes} {source : SourceFile} {e : BuildError} : n ∈ filenames →
      (b.tree.sourceFile (Path.join base n)).run.value = .ok source →
      (extract b.isStandard b.options.exemptions (Path.clean n) source).run.value = .error e →
      Refuses b base filenames e

/-- **What a directory is refused for is wrong with a name that was given.** -/
theorem refuses_of_addDirectories {dirs : List Bytes}
    (hbelow : ∀ n ∈ filenames, ∃ dir, Path.directoryBelow? n = some dir)
    (hdirs : ∀ dir ∈ dirs, ∃ n ∈ filenames, Path.directoryBelow? n = some dir)
    (h : (b.addDirectories base filenames app dirs).run.value = .error e) :
    b.Refuses base filenames e := by
  induction dirs generalizing app with
  | nil => cases h
  | cons dir rest ih =>
    have hrest : ∀ dir ∈ rest, ∃ n ∈ filenames, Path.directoryBelow? n = some dir :=
      fun other hother => hdirs other (List.mem_cons_of_mem _ hother)
    -- an entry of the directory stands for a name that was given
    have given {entries : List DirEntry} {entry : DirEntry}
        (hlist : b.tree.listNamed base filenames (Path.join base dir) = .ok entries)
        (hentry : entry ∈ entries) : ∃ n ∈ filenames, b.Lists base dir n entry := by
      obtain ⟨n, hn, hlists⟩ := exists_of_forall₂
        (lists_of_listNamed hbelow (hdirs dir List.mem_cons_self) hlist) hentry
      exact ⟨n, List.mem_of_mem_filter hn, hlists⟩
    unfold addDirectories at h
    rcases Attempt.value_bind_eq_error.1 h with hscan | ⟨result, hscan, h⟩
    · rcases scanDirectory_eq_error hscan with ⟨reason, rfl⟩ | ⟨entries, hlist, hscan⟩
      · exact .unlisted _ _
      rcases scanEntries_eq_error hscan with ⟨entry, hentry, cause, hcause, rfl⟩ |
        ⟨first, other, rfl⟩
      · obtain ⟨n, hn, hlists⟩ := given hlist hentry
        rw [hlists.path_eq] at hcause
        exact .unparsed hn hcause
      · exact .mixed _ _ _
    cases result with
    | none => exact ih hrest h
    | some scanned =>
      rcases Attempt.value_bind_eq_error.1 h with h | ⟨files, -, h⟩
      · obtain ⟨s, hs, hextract⟩ := extractAll_eq_error h
        obtain ⟨entries, hlist, hresult⟩ := scanDirectory_ok hscan
        rcases hresult with ⟨hnone, -⟩ | ⟨other, hsome, -, -, hscans⟩
        · cases hnone
        obtain rfl := Option.some.inj hsome
        obtain ⟨entry, hentry, hmade⟩ := exists_of_forall₂ hscans hs
        obtain ⟨n, hn, hlists⟩ := given hlist (List.mem_of_mem_filter hentry)
        have hsource := hmade.source
        rw [hlists.path_eq] at hsource
        rw [hmade.name, hlists.relativeName_eq] at hextract
        exact .unsound hn hsource hextract
      rcases Attempt.value_bind_eq_error.1 h with h | ⟨parts, -, h⟩
      · exact ih hrest h
      · cases h

end Builder

/-! ### Packages that cannot be made -/

/-- A package with the import path is there already. -/
def BuildError.registeredTwice (path : Bytes) : BuildError :=
  .malformed (ascii "package " ++ path ++ ascii " registered twice")

theorem BuildError.registeredTwice_inj {path other : Bytes}
    (h : registeredTwice path = registeredTwice other) : path = other :=
  List.append_cancel_left (List.append_cancel_right (congrArg BuildError.message h))

namespace Assembler

variable {a : Assembler} {app : Application} {path : Bytes} {files : List FileId} {drawn : Nat}

/-- A package is refused at a path that is reserved, standard or taken. -/
theorem add_eq_error (h : (a.add app dir path files).run.value = .error e) :
    (e = .reserved ∧ path = reservedPath) ∨ (e = .shadowed path ∧ a.isStandard path = true) ∨
      (e = .registeredTwice path ∧ path ∈ app.paths) := by
  unfold add at h
  simp only at h
  split at h
  · rename_i hreserved
    exact Or.inl ⟨(Except.error.inj h).symm, hreserved⟩
  rw [Attempt.value_lift_bind, Traced.value_ask] at h
  split at h
  · rename_i hstandard
    exact Or.inr (Or.inl ⟨(Except.error.inj h).symm, hstandard.1⟩)
  rw [Attempt.value_lift_bind, Attempt.value_liftExcept, mapError_eq_error] at h
  obtain ⟨message, hmessage, rfl⟩ := h
  unfold Application.addPackage? at hmessage
  split at hmessage
  · rename_i htaken
    rw [← Except.error.inj hmessage]
    exact Or.inr (Or.inr ⟨rfl, Application.contains_iff.1 htaken⟩)
  · cases hmessage

theorem add_eq_registeredTwice {other : Bytes}
    (h : (a.add app dir path files).run.value = .error (.registeredTwice other)) :
    other = path ∧ path ∈ app.paths := by
  rcases add_eq_error h with ⟨heq, -⟩ | ⟨heq, -⟩ | ⟨heq, htaken⟩
  · cases congrArg BuildError.kind heq
  · cases congrArg BuildError.kind heq
  · exact ⟨BuildError.registeredTwice_inj heq, htaken⟩

/-- A directory makes no package if there is no path for it, or if the package is refused there. -/
theorem assemble_eq_error (h : (a.assemble app dir files drawn).1.run.value = .error e) :
    e = .noFreeName ∨ ∃ path, (a.importPath app dir drawn).1 = some path ∧
      (a.add app dir path files).run.value = .error e := by
  unfold assemble at h
  split at h
  · exact Or.inl (Except.error.inj h).symm
  · rename_i path next hchoice
    exact Or.inr ⟨path, by rw [hchoice], h⟩

end Assembler

namespace Builder

variable {b : Builder} {base : Bytes} {filenames : List Bytes} {app : Application}

theorem assembleAll_cons_eq_error {d : DirectoryFiles} {found : List DirectoryFiles} {drawn : Nat} :
    (b.assembleAll app drawn (d :: found)).run.value = .error e ↔
      (b.assembler.assemble app d.dir d.files drawn).1.run.value = .error e ∨
        ∃ next, (b.assembler.assemble app d.dir d.files drawn).1.run.value = .ok next ∧
          (b.assembleAll next (b.assembler.assemble app d.dir d.files drawn).2
            found).run.value = .error e := by
  rw [assembleAll]
  exact Attempt.value_bind_eq_error

/-- Directories make no packages if there is no path for one of them, or a path that is reserved,
standard or taken. -/
theorem assembleAll_eq_error {found : List DirectoryFiles} {drawn : Nat}
    (h : (b.assembleAll app drawn found).run.value = .error e) :
    e = .noFreeName ∨ e = .reserved ∨ (∃ path, e = .shadowed path) ∨
      ∃ path, e = .registeredTwice path := by
  induction found generalizing app drawn with
  | nil => cases h
  | cons d rest ih =>
    rcases assembleAll_cons_eq_error.1 h with h | ⟨next, -, h⟩
    · rcases Assembler.assemble_eq_error h with rfl | ⟨path, -, hadd⟩
      · exact Or.inl rfl
      rcases Assembler.add_eq_error hadd with ⟨rfl, -⟩ | ⟨rfl, -⟩ | ⟨rfl, -⟩
      · exact Or.inr (Or.inl rfl)
      · exact Or.inr (Or.inr (Or.inl ⟨path, rfl⟩))
      · exact Or.inr (Or.inr (Or.inr ⟨path, rfl⟩))
    · exact ih h

/-! ### Stages that fail -/

/-- Why a build fails: a name is not that of a file below the base, the files cannot be gathered,
directories cannot make packages, the search for external packages goes wrong, or there is a
cycle. -/
inductive Fails (b : Builder) (base : Bytes) (filenames : List Bytes) : BuildError → Prop
  | filename (n : Bytes) : Fails b base filenames (.badFilename n)
  | gather {e : BuildError} : b.Refuses base filenames e → Fails b base filenames e
  | assemble {gathered : Application} {found : List DirectoryFiles} {e : BuildError} :
      (∀ n ∈ filenames, ∃ dir, Path.directoryBelow? n = some dir) →
      (b.addDirectories base filenames {} (directories filenames)).run.value =
        .ok (gathered, found) →
      (b.assembleAll gathered 0 found).run.value = .error e → Fails b base filenames e
  | exclusion (pattern : Bytes) : Fails b base filenames (.badExclusion pattern)
  | excluded (path : Bytes) : Fails b base filenames (.allExcluded path)
  | cycle (paths : List Bytes) : Fails b base filenames (.cyclic paths)

theorem resolveExternal_eq_error (h : (b.resolveExternal app).run.value = .error e) :
    (∃ pattern, e = .badExclusion pattern) ∨ ∃ path, e = .allExcluded path := by
  unfold resolveExternal at h
  split at h
  · cases h
  rcases Attempt.value_bind_eq_error.1 h with h | ⟨exclusion, -, h⟩
  · rw [Attempt.value_liftExcept, Exclusion.compile] at h
    split at h
    · cases h
    · split at h
      · cases h
      · exact Or.inl ⟨_, (Except.error.inj h).symm⟩
  rcases Attempt.value_bind_eq_error.1 h with h | ⟨⟨r, result⟩, hrun, h⟩
  · cases h
  rcases Attempt.value_bind_eq_error.1 h with h | ⟨_, -, h⟩
  · rw [Attempt.value_liftExcept] at h
    subst h
    obtain ⟨last, -, hends⟩ := Resolver.run_steps (b.resolver _ exclusion) { app } app.order []
    rw [show ((b.resolver _ exclusion).run { app } app.order []).value = (r, .error e) from
      Except.ok.inj hrun] at hends
    cases hends with
    | excluded => exact Or.inr ⟨_, rfl⟩
  · cases h

theorem checkFilename_eq_error {n : Bytes} (h : checkFilename n = .error e) :
    e = .badFilename n := by
  unfold checkFilename at h
  split at h
  · cases h
  · exact (Except.error.inj h).symm

theorem sort_eq_error (h : app.sort.value.2 = .error e) : ∃ paths, e = .cyclic paths := by
  rw [Application.sort_value] at h
  by_cases hstuck : app.sweeps.stuck = []
  · rw [if_pos hstuck] at h
    cases h
  · rw [if_neg hstuck] at h
    exact ⟨_, (Except.error.inj h).symm⟩

/-- **Each failure of a build is that of one of its stages.** -/
theorem fails_of_build (h : (b.build base filenames).run.value = .error e) :
    b.Fails base filenames e := by
  unfold build at h
  rcases Attempt.value_bind_eq_error.1 h with h | ⟨dirs, hdirs, h⟩
  · rw [Attempt.value_liftExcept] at h
    obtain ⟨n, -, hn⟩ := exists_of_mapM_eq_error h
    rw [checkFilename_eq_error hn]
    exact .filename n
  rw [Attempt.value_liftExcept, mapM_checkFilename] at hdirs
  obtain ⟨hbelow, rfl⟩ := hdirs
  rcases Attempt.value_bind_eq_error.1 h with h | ⟨⟨gathered, found⟩, hgather, h⟩
  · exact .gather (refuses_of_addDirectories hbelow (exists_of_mem_directories hbelow) h)
  rcases Attempt.value_bind_eq_error.1 h with h | ⟨assembled, -, h⟩
  · exact .assemble hbelow hgather h
  rcases Attempt.value_bind_eq_error.1 h with h | ⟨resolved, -, h⟩
  · rcases resolveExternal_eq_error h with ⟨pattern, rfl⟩ | ⟨path, rfl⟩
    · exact .exclusion pattern
    · exact .excluded path
  -- dependencies are always built, and the sort always comes to an order
  rcases Attempt.value_bind_eq_error.1 h with h | ⟨built, -, h⟩
  · cases h
  rcases Attempt.value_bind_eq_error.1 h with h | ⟨⟨sorted, result⟩, hsort, h⟩
  · cases h
  rcases Attempt.value_bind_eq_error.1 h with h | ⟨_, -, h⟩
  · rw [Attempt.value_liftExcept] at h
    have hresult : built.sort.value.2 = result := congrArg Prod.snd (Except.ok.inj hsort)
    obtain ⟨paths, rfl⟩ := sort_eq_error (hresult.trans h)
    exact .cycle paths
  · cases h

end Builder

end BuildOrder
