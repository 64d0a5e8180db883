import BuildOrder.Proofs.Search
import BuildOrder.Proofs.WellFormed

/-!
# What the search for external packages finds

* `Resolver.Keeps`: the files of a package that are not excluded.
* `Resolver.Required`: the import paths that an application needs from a workspace, the least set
  closed under the imports of the files kept.
* `Resolver.Progress`: what every step of the search keeps (`Step.progress`): the packages found are
  required, and each import of a package is looked at, to be looked at, or settled.
* `Resolver.resolve_spec`: **the search adds the required packages and no others**, with the files
  that are not excluded, and fails only if one of them has no file left.
-/

namespace BuildOrder.Resolver

open Relation

variable (s : Resolver) (app : Application)

/-- The path is not the application's own, and a workspace package can be found at it. -/
structure Findable (path : Bytes) : Prop where
  new : app.contains path = false
  standard : s.isStandard path = false
  legal : ImportPath.check path = .ok ()
  located : ∃ found, (s.workspace.locate path).value = .ok found

/-- The package found at a path has the file, and the filter lets it pass. The filter knows it by
the path, a slash and its name. -/
structure Keeps (path : Bytes) (found : WorkspacePackage) (f : WorkspaceFile) : Prop where
  mem : f ∈ found.files
  included : s.isExcluded (path ++ ascii "/" ++ f.name) = false

/-- The import paths of the packages that an application needs from the workspace. -/
inductive Required : Bytes → Prop
  | imported {path : Bytes} : app.Imports path → s.Findable app path → Required path
  | follow {importer path : Bytes} {found : WorkspacePackage} {f : WorkspaceFile} :
      Required importer → (s.workspace.locate importer).value = .ok found →
      s.Keeps importer found f → path ∈ f.imports → s.Findable app path → Required path

/-- The path is imported by a file of the application or by a file kept of a required package. -/
def Reached (path : Bytes) : Prop :=
  app.Imports path ∨ ∃ importer found f, s.Required app importer ∧
    (s.workspace.locate importer).value = .ok found ∧ s.Keeps importer found f ∧ path ∈ f.imports

/-- The path is neither the application's own nor standard, and nothing can be found at it. -/
structure Unresolvable (path : Bytes) : Prop where
  new : app.contains path = false
  standard : s.isStandard path = false
  missing : (∃ fault, ImportPath.check path = .error fault) ∨
    ∃ reason, (s.workspace.locate path).value = .error reason

/-- The package is what the workspace has at a required path, with the files kept. -/
structure IsExternal (now : Application) (p : Package) : Prop where
  required : s.Required app p.importPath
  source : ∃ found, (s.workspace.locate p.importPath).value = .ok found ∧
    s.keptFiles p.importPath found ≠ [] ∧
    p = { importPath := p.importPath, files := p.files, baseDir := some found.dir } ∧
    now.filesOf p = (s.keptFiles p.importPath found).map found.file

/-- The path needs no look-up any more. -/
def Handled (r : Resolution) (path : Bytes) : Prop :=
  r.isSettled path = true ∨ s.isStandard path = true

/-- What every step of the search keeps. -/
structure Progress (x : Search) : Prop where
  wellFormed : x.reached.app.WellFormed
  packages : ∃ new, x.reached.app.packages = app.packages ++ new ∧
    ∀ p ∈ new, s.IsExternal app x.reached.app p
  files : ∀ p ∈ app.packages, x.reached.app.filesOf p = app.filesOf p
  unresolved : ∀ q ∈ x.reached.unresolved, s.Reached app q ∧ s.Unresolvable app q
  pending : ∀ q ∈ x.pending, s.Reached app q
  queue : ∀ id ∈ x.queue, id < x.reached.app.packages.length
  visited : ∀ id < x.reached.app.packages.length, id ∈ x.queue ∨
    ∀ q ∈ x.reached.app.importsOf id, q ∈ x.pending ∨ s.Handled x.reached q

variable {s app}

/-! ### The files kept -/

section Kept

variable {path : Bytes} {found : WorkspacePackage} {f : WorkspaceFile}

theorem mem_keptFiles : f ∈ s.keptFiles path found ↔ s.Keeps path found f := by
  rw [keptFiles, List.mem_filter, Bool.not_eq_true']
  exact ⟨fun ⟨hmem, hincluded⟩ => ⟨hmem, hincluded⟩, fun h => ⟨h.mem, h.included⟩⟩

/-- No file is kept if the filter holds all of them back. -/
theorem keptFiles_eq_nil_iff : s.keptFiles path found = [] ↔
    ∀ f ∈ found.files, s.isExcluded (path ++ ascii "/" ++ f.name) = true := by
  rw [keptFiles, List.filter_eq_nil_iff]
  refine forall₂_congr fun f _ => ?_
  rw [Bool.not_eq_true', Bool.not_eq_false]
  rfl

end Kept

theorem required_iff {path : Bytes} :
    s.Required app path ↔ s.Reached app path ∧ s.Findable app path := by
  constructor
  · intro h
    cases h with
    | imported himp hfind => exact ⟨Or.inl himp, hfind⟩
    | follow himporter hloc hf himp hfind =>
      exact ⟨Or.inr ⟨_, _, _, himporter, hloc, hf, himp⟩, hfind⟩
  · rintro ⟨himp | ⟨importer, found, f, himporter, hloc, hf, himp⟩, hfind⟩
    · exact Required.imported himp hfind
    · exact Required.follow himporter hloc hf himp hfind

/-- Nothing can be found where something is missing. -/
theorem Unresolvable.not_findable {path : Bytes} (h : s.Unresolvable app path) :
    ¬ s.Findable app path := by
  intro hfind
  obtain ⟨found, hloc⟩ := hfind.located
  rcases h.missing with ⟨fault, hcheck⟩ | ⟨reason, hmissing⟩
  · rw [hfind.legal] at hcheck
    cases hcheck
  · rw [hloc] at hmissing
    cases hmissing

/-- The files of an external package are those kept of what the workspace has. -/
theorem IsExternal.filesOf_eq {now : Application} {p : Package} {found : WorkspacePackage}
    (h : s.IsExternal app now p) (hloc : (s.workspace.locate p.importPath).value = .ok found) :
    now.filesOf p = (s.keptFiles p.importPath found).map found.file := by
  obtain ⟨source, hsource, -, -, hfiles⟩ := h.source
  rw [hloc] at hsource
  rw [Except.ok.inj hsource]
  exact hfiles

theorem IsExternal.isExternal {now : Application} {p : Package} (h : s.IsExternal app now p) :
    p.isExternal = true := by
  obtain ⟨found, -, -, heq, -⟩ := h.source
  rw [heq]
  rfl

/-- An external package is none of the application's own. -/
theorem Required.not_mem {path : Bytes} (h : s.Required app path) : path ∉ app.paths :=
  Application.not_contains_iff.1 (required_iff.1 h).2.new

namespace Progress

variable {r : Resolution} {queue : List PackageId} {path : Bytes} {pending : List Bytes}
  {id : PackageId}

/-- The search begins with the application's own packages. -/
theorem start (h : app.WellFormed) : s.Progress app ⟨{ app }, app.order, []⟩ := by
  refine ⟨h, ⟨[], by simp, by simp⟩, fun _ _ => rfl, by simp, by simp, ?_, ?_⟩
  · exact fun id hid => h.mem_order.1 hid
  · exact fun id hid => Or.inl (h.mem_order.2 hid)

/-- What a package of the application reached imports is reached. -/
theorem reached_of_importsOf {x : Search} (h : s.Progress app x)
    (hid : id < x.reached.app.packages.length) {q : Bytes} (hq : q ∈ x.reached.app.importsOf id) :
    s.Reached app q := by
  obtain ⟨new, hnew, hext⟩ := h.packages
  obtain ⟨p, hp⟩ : ∃ p, x.reached.app.packages[id]? = some p := ⟨_, List.getElem?_eq_getElem hid⟩
  obtain ⟨f, hf, hqf⟩ := (Application.mem_importsOf hp).1 hq
  -- the package is the application's own or one that was added
  have hmem := List.mem_of_getElem? hp
  rw [hnew, List.mem_append] at hmem
  rcases hmem with hmem | hmem
  · rw [h.files p hmem] at hf
    exact Or.inl ⟨p, hmem, f, hf, hqf⟩
  · obtain ⟨found, hloc, -, -, hfiles⟩ := (hext p hmem).source
    rw [hfiles] at hf
    obtain ⟨wf, hwf, rfl⟩ := List.mem_map.1 hf
    exact Or.inr
      ⟨p.importPath, found, wf, (hext p hmem).required, hloc, mem_keptFiles.1 hwf, hqf⟩

/-- The application's own paths stay, so a path that is not settled is none of them. -/
theorem new_of_unsettled {x : Search} (h : s.Progress app x)
    (hpath : x.reached.isSettled path = false) : app.contains path = false := by
  obtain ⟨new, hnew, -⟩ := h.packages
  have hnot := Resolution.not_mem_paths hpath
  rw [Application.paths, hnew, List.map_append, List.mem_append, not_or] at hnot
  exact Application.not_contains_iff.2 hnot.1

/-- The next package is taken up. -/
theorem next (h : s.Progress app ⟨r, id :: queue, []⟩) :
    s.Progress app ⟨r, queue, r.app.importsOf id⟩ := by
  refine ⟨h.wellFormed, h.packages, h.files, h.unresolved, ?_, ?_, ?_⟩
  · exact fun q hq => h.reached_of_importsOf (h.queue id List.mem_cons_self) hq
  · exact fun other hother => h.queue other (List.mem_cons_of_mem _ hother)
  · intro other hother
    rcases h.visited other hother with hmem | hdone
    · rcases List.mem_cons.1 hmem with rfl | hmem
      · exact Or.inr fun q hq => Or.inl hq
      · exact Or.inl hmem
    · refine Or.inr fun q hq => ?_
      rcases hdone q hq with hpending | hhandled
      · cases hpending
      · exact Or.inr hhandled

/-- A path is passed over that needs no look-up. -/
theorem skip (h : s.Progress app ⟨r, queue, path :: pending⟩) (hpath : s.Handled r path) :
    s.Progress app ⟨r, queue, pending⟩ := by
  refine ⟨h.wellFormed, h.packages, h.files, h.unresolved, ?_, h.queue, ?_⟩
  · exact fun q hq => h.pending q (List.mem_cons_of_mem _ hq)
  · intro id hid
    refine (h.visited id hid).imp_right fun hdone q hq => ?_
    rcases hdone q hq with hpending | hhandled
    · rcases List.mem_cons.1 hpending with rfl | hpending
      · exact Or.inr hpath
      · exact Or.inl hpending
    · exact Or.inr hhandled

/-- A look-up alone changes nothing. -/
theorem lookUp (h : s.Progress app ⟨r, queue, pending⟩) (path : Bytes) :
    s.Progress app ⟨r.lookUp path, queue, pending⟩ :=
  ⟨h.wellFormed, h.packages, h.files, h.unresolved, h.pending, h.queue, h.visited⟩

/-- A path is left at which nothing can be found. -/
theorem leave (h : s.Progress app ⟨r, queue, path :: pending⟩)
    (hpath : s.Unresolvable app path) : s.Progress app ⟨r.leave path, queue, pending⟩ := by
  -- while the path is still pending, it is known to be reached
  have hleft : s.Progress app ⟨r.leave path, queue, path :: pending⟩ := by
    refine ⟨h.wellFormed, h.packages, h.files, ?_, h.pending, h.queue, ?_⟩
    · intro q hq
      rcases Resolution.mem_unresolved_leave.1 hq with rfl | hq
      · exact ⟨h.pending q List.mem_cons_self, hpath⟩
      · exact h.unresolved q hq
    · intro id hid
      refine (h.visited id hid).imp_right fun hdone q hq => ?_
      refine (hdone q hq).imp_right fun hhandled => ?_
      exact hhandled.imp_left fun hq => Resolution.isSettled_leave.2 (Or.inr hq)
  exact hleft.skip (Or.inl (Resolution.isSettled_leave.2 (Or.inl rfl)))

/-- A package that is found is required. -/
theorem required {found : WorkspacePackage} (h : s.Progress app ⟨r, queue, path :: pending⟩)
    (hasks : s.Asks r path) (hloc : (s.workspace.locate path).value = .ok found) :
    s.Required app path :=
  required_iff.2 ⟨h.pending path List.mem_cons_self, h.new_of_unsettled hasks.unsettled,
    hasks.standard, hasks.legal, found, hloc⟩

/-- The packages reached keep their files when one is added. -/
theorem filesOf_added {found : WorkspacePackage} (h : s.Progress app ⟨r, queue, pending⟩)
    {p : Package} (hp : p ∈ r.app.packages) :
    (s.added r path found).app.filesOf p = r.app.filesOf p :=
  Application.filesOf_addExternal _ _ _ _ fun _ hid => h.wellFormed.file_lt hp hid

/-- Packages that were external stay so when one is added. -/
theorem isExternal_added {found : WorkspacePackage} (h : s.Progress app ⟨r, queue, pending⟩)
    {p : Package} (hp : p ∈ r.app.packages) (hext : s.IsExternal app r.app p) :
    s.IsExternal app (s.added r path found).app p := by
  obtain ⟨source, hloc, hkept, heq, hfiles⟩ := hext.source
  exact ⟨hext.required, source, hloc, hkept, heq, (h.filesOf_added hp).trans hfiles⟩

/-- A package is added that was found at a path. -/
theorem found {found : WorkspacePackage} (h : s.Progress app ⟨r, queue, path :: pending⟩)
    (hasks : s.Asks r path) (hloc : (s.workspace.locate path).value = .ok found)
    (hkept : s.keptFiles path found ≠ []) :
    s.Progress app ⟨s.added r path found, queue ++ [r.app.packages.length], pending⟩ := by
  have hnew : r.app.contains path = false :=
    Application.not_contains_iff.2 (Resolution.not_mem_paths hasks.unsettled)
  have hadded := s.packages_added r path found
  obtain ⟨new, hpackages, hext⟩ := h.packages
  refine ⟨Application.WellFormed.addExternal _ _ _ _ h.wellFormed hnew,
    ⟨new ++ [r.app.external path found (s.keptFiles path found)], ?_, ?_⟩, ?_, h.unresolved,
    fun q hq => h.pending q (List.mem_cons_of_mem _ hq), ?_, ?_⟩
  · rw [hadded, hpackages, List.append_assoc]
  · intro p hp
    rcases List.mem_append.1 hp with hp | hp
    · have hmem : p ∈ r.app.packages := hpackages ▸ List.mem_append_right _ hp
      exact h.isExternal_added hmem (hext p hp)
    · obtain rfl := List.mem_singleton.1 hp
      exact ⟨h.required hasks hloc, found, hloc, hkept, rfl, Application.filesOf_external _ _ _ _⟩
  · intro p hp
    have hmem : p ∈ r.app.packages := hpackages ▸ List.mem_append_left _ hp
    rw [h.filesOf_added hmem, h.files p hp]
  · intro id hid
    rw [hadded, List.length_append, List.length_singleton]
    rcases List.mem_append.1 hid with hid | hid
    · exact Nat.lt_succ_of_lt (h.queue id hid)
    · obtain rfl := List.mem_singleton.1 hid
      exact Nat.lt_succ_self _
  · intro id hid
    rw [hadded, List.length_append, List.length_singleton] at hid
    rcases Nat.lt_succ_iff_lt_or_eq.1 hid with hid | rfl
    · refine (h.visited id hid).imp (List.mem_append_left _) fun hdone q hq => ?_
      have himports : (s.added r path found).app.importsOf id = r.app.importsOf id :=
        Application.WellFormed.importsOf_addExternal _ _ _ _ h.wellFormed hid
      rw [himports] at hq
      -- only the path that was added is pending no more
      rcases hdone q hq with hpending | hhandled
      · rcases List.mem_cons.1 hpending with rfl | hpending
        · exact Or.inr (Or.inl (s.isSettled_added.2 (Or.inl rfl)))
        · exact Or.inl hpending
      · exact Or.inr (hhandled.imp_left fun hset => s.isSettled_added.2 (Or.inr hset))
    · exact Or.inl (List.mem_append_right _ (List.mem_singleton_self _))

end Progress

/-- **Every step of the search keeps what it has come to.** -/
theorem Step.progress {x y : Search} (hstep : s.Step x y) (h : s.Progress app x) :
    s.Progress app y := by
  cases hstep with
  | next r id queue => exact h.next
  | skip hpath => exact h.skip hpath
  | illegal hunsettled hstd hcheck =>
    exact h.leave ⟨h.new_of_unsettled hunsettled, hstd, Or.inl ⟨_, hcheck⟩⟩
  | @missing r _ path _ _ hasks hloc =>
    exact (h.lookUp path).leave
      ⟨h.new_of_unsettled hasks.unsettled, hasks.standard, Or.inr ⟨_, hloc⟩⟩
  | found hasks hloc hkept => exact h.found hasks hloc hkept

/-- What every step keeps, a walk of steps keeps. -/
theorem progress_of_steps {x y : Search} (hsteps : ReflTransGen s.Step x y)
    (h : s.Progress app x) : s.Progress app y := by
  induction hsteps with
  | refl => exact h
  | tail _ hstep ih => exact hstep.progress ih

/-! ### The end of the search -/

namespace Progress

variable {r : Resolution} {path : Bytes}

/-- A path that can be found and needs no look-up any more has its package. -/
theorem exists_external {x : Search} (h : s.Progress app x) (hfind : s.Findable app path)
    (hhandled : s.Handled x.reached path) :
    ∃ p ∈ x.reached.app.packages, p.importPath = path ∧ s.IsExternal app x.reached.app p := by
  obtain ⟨new, hnew, hext⟩ := h.packages
  rcases hhandled with hsettled | hstd
  · rcases Resolution.isSettled_iff.1 hsettled with hmem | hleft
    · obtain ⟨p, hp, rfl⟩ := List.mem_map.1 hmem
      refine ⟨p, hp, rfl, ?_⟩
      rw [hnew, List.mem_append] at hp
      -- the application's own packages are at none of these paths
      have hown := Application.not_contains_iff.1 hfind.new
      exact hext p (hp.resolve_left fun hp => hown (List.mem_map_of_mem hp))
    · exact absurd hfind (h.unresolved path hleft).2.not_findable
  · rw [hfind.standard] at hstd
    cases hstd

/-- At the end each import has been looked at. -/
theorem handled_of_mem (h : s.Progress app ⟨r, [], []⟩) {p : Package} (hp : p ∈ r.app.packages)
    {f : File} (hf : f ∈ r.app.filesOf p) (hpath : path ∈ f.imports) : s.Handled r path := by
  obtain ⟨id, hid⟩ := List.mem_iff_getElem?.1 hp
  rcases h.visited id (List.getElem?_eq_some_iff.1 hid).1 with hqueue | hdone
  · cases hqueue
  · rcases hdone path ((Application.mem_importsOf hid).2 ⟨f, hf, hpath⟩) with hpending | hhandled
    · cases hpending
    · exact hhandled

theorem handled_of_imports (h : s.Progress app ⟨r, [], []⟩) (himp : app.Imports path) :
    s.Handled r path := by
  obtain ⟨p, hp, f, hf, hpath⟩ := himp
  obtain ⟨new, hnew, -⟩ := h.packages
  refine h.handled_of_mem (p := p) ?_ ?_ hpath
  · rw [hnew]
    exact List.mem_append_left _ hp
  · rw [h.files p hp]
    exact hf

/-- What a file kept of an external package imports has been looked at. -/
theorem handled_of_kept (h : s.Progress app ⟨r, [], []⟩) {p : Package} (hp : p ∈ r.app.packages)
    (hext : s.IsExternal app r.app p) {found : WorkspacePackage} {f : WorkspaceFile}
    (hloc : (s.workspace.locate p.importPath).value = .ok found)
    (hf : s.Keeps p.importPath found f) (hpath : path ∈ f.imports) : s.Handled r path := by
  refine h.handled_of_mem hp (f := found.file f) ?_ hpath
  rw [hext.filesOf_eq hloc]
  exact List.mem_map_of_mem (mem_keptFiles.2 hf)

/-- **At the end every required package is there.** -/
theorem exists_of_required (h : s.Progress app ⟨r, [], []⟩) (hpath : s.Required app path) :
    ∃ p ∈ r.app.packages, p.importPath = path ∧ s.IsExternal app r.app p := by
  -- as the path is required: an import of the application, or of a package that is there
  induction hpath with
  | imported himp hfind => exact h.exists_external hfind (h.handled_of_imports himp)
  | follow _ hloc hf himp hfind ih =>
    obtain ⟨p, hp, rfl, hext⟩ := ih
    exact h.exists_external hfind (h.handled_of_kept hp hext hloc hf himp)

/-- **At the end the packages added are at the required paths**, and at no others. -/
theorem mem_added_iff (h : s.Progress app ⟨r, [], []⟩) {new : List Package}
    (hnew : r.app.packages = app.packages ++ new) (hext : ∀ p ∈ new, s.IsExternal app r.app p) :
    path ∈ new.map (·.importPath) ↔ s.Required app path := by
  constructor
  · intro hpath
    obtain ⟨p, hp, rfl⟩ := List.mem_map.1 hpath
    exact (hext p hp).required
  · intro hrequired
    obtain ⟨p, hp, rfl, -⟩ := h.exists_of_required hrequired
    rw [hnew, List.mem_append] at hp
    -- the application's own packages are at none of these paths
    have hown : p ∉ app.packages := fun hp => hrequired.not_mem (List.mem_map_of_mem hp)
    exact List.mem_map_of_mem (hp.resolve_left hown)

/-- The packages added are at different paths. -/
theorem nodup_added {x : Search} (h : s.Progress app x) {new : List Package}
    (hnew : x.reached.app.packages = app.packages ++ new) : (new.map (·.importPath)).Nodup := by
  have hpaths := h.wellFormed.paths
  rw [Application.paths, hnew, List.map_append] at hpaths
  exact (List.nodup_append'.1 hpaths).2.1

theorem handled_of_reached (h : s.Progress app ⟨r, [], []⟩) (hpath : s.Reached app path) :
    s.Handled r path := by
  rcases hpath with himp | ⟨importer, found, f, hrequired, hloc, hf, himp⟩
  · exact h.handled_of_imports himp
  · obtain ⟨p, hp, rfl, hext⟩ := h.exists_of_required hrequired
    exact h.handled_of_kept hp hext hloc hf himp

/-- **At the end nothing is left out but what cannot be found.** -/
theorem mem_unresolved_iff (h : s.Progress app ⟨r, [], []⟩) :
    path ∈ r.unresolved ↔ s.Reached app path ∧ s.Unresolvable app path := by
  constructor
  · exact h.unresolved path
  rintro ⟨hreached, hmissing⟩
  rcases h.handled_of_reached hreached with hsettled | hstd
  · rcases Resolution.isSettled_iff.1 hsettled with hmem | hleft
    · -- a package is there at the path, but nothing can be found at it
      obtain ⟨new, hnew, hext⟩ := h.packages
      rw [Application.paths, hnew, List.map_append, List.mem_append] at hmem
      have hown := Application.not_contains_iff.1 hmissing.new
      obtain ⟨p, hp, rfl⟩ := List.mem_map.1 (hmem.resolve_left hown)
      exact absurd (required_iff.1 (hext p hp).required).2 hmissing.not_findable
    · exact hleft
  · rw [hmissing.standard] at hstd
    cases hstd

end Progress

/-- The search keeps all that its steps keep, to its end. -/
theorem resolve_ends (s : Resolver) (h : app.WellFormed) :
    ∃ last, s.Progress app last ∧ s.Ends last (s.resolve app).value := by
  obtain ⟨last, hsteps, hends⟩ := s.run_steps { app } app.order []
  exact ⟨last, progress_of_steps hsteps (Progress.start h), hends⟩

/-- A search that goes well has looked at every import. -/
theorem progress_of_resolve {s : Resolver} {r : Resolution} (h : app.WellFormed)
    (hrun : (s.resolve app).value = (r, .ok ())) : s.Progress app ⟨r, [], []⟩ := by
  obtain ⟨last, hprogress, hends⟩ := s.resolve_ends h
  rw [hrun] at hends
  cases hends
  exact hprogress

/-- **The search adds the required packages and no others.** It fails if and only if one of them has
no file left, as all are excluded. Else the application's own packages and their files are as
before. Each required path has one package more, in the directory that the workspace has for it and
with the files that are not excluded, in their order. The paths left out are those at which nothing
can be found. -/
theorem resolve_spec (s : Resolver) (h : app.WellFormed) :
    ((∃ e, (s.resolve app).value.2 = .error e) ↔ ∃ path found, s.Required app path ∧
        (s.workspace.locate path).value = .ok found ∧
        ∀ f ∈ found.files, s.isExcluded (path ++ ascii "/" ++ f.name) = true) ∧
      ((s.resolve app).value.2 = .ok () →
        (s.resolve app).value.1.app.WellFormed ∧
        ∃ new, (s.resolve app).value.1.app.packages = app.packages ++ new ∧
          (∀ p ∈ app.packages, (s.resolve app).value.1.app.filesOf p = app.filesOf p) ∧
          (new.map (·.importPath)).Nodup ∧
          (∀ path, path ∈ new.map (·.importPath) ↔ s.Required app path) ∧
          (∀ p ∈ new, ∃ found, (s.workspace.locate p.importPath).value = .ok found ∧
            p = { importPath := p.importPath, files := p.files, baseDir := some found.dir } ∧
            (s.resolve app).value.1.app.filesOf p =
              (found.files.filter fun f =>
                !s.isExcluded (p.importPath ++ ascii "/" ++ f.name)).map fun f =>
                  { name := f.name, packageName := found.name, imports := f.imports }) ∧
          ∀ path, path ∈ (s.resolve app).value.1.unresolved ↔
            s.Reached app path ∧ s.Unresolvable app path) := by
  obtain ⟨last, hprogress, hends⟩ := s.resolve_ends h
  generalize (s.resolve app).value = result at hends ⊢
  cases hends with
  | all r =>
    refine ⟨⟨by rintro ⟨e, ⟨⟩⟩, ?_⟩, fun _ => ⟨hprogress.wellFormed, ?_⟩⟩
    · rintro ⟨path, found, hrequired, hloc, hexcluded⟩
      obtain ⟨p, -, rfl, hext⟩ := hprogress.exists_of_required hrequired
      obtain ⟨source, hsource, hne, -⟩ := hext.source
      rw [hloc] at hsource
      obtain rfl := Except.ok.inj hsource
      exact absurd (keptFiles_eq_nil_iff.2 hexcluded) hne
    obtain ⟨new, hnew, hext⟩ := hprogress.packages
    refine ⟨new, hnew, hprogress.files, hprogress.nodup_added hnew,
      fun path => hprogress.mem_added_iff hnew hext, fun p hp => ?_,
      fun path => hprogress.mem_unresolved_iff⟩
    obtain ⟨found, hloc, -, heq, hfiles⟩ := (hext p hp).source
    exact ⟨found, hloc, heq, hfiles⟩
  | excluded hasks hloc hkept =>
    refine ⟨⟨fun _ => ?_, fun _ => ⟨_, rfl⟩⟩, ?_⟩
    · exact ⟨_, _, hprogress.required hasks hloc, hloc, keptFiles_eq_nil_iff.1 hkept⟩
    intro hok
    cases hok

/-- A file that imports a package of the workspace, a standard one and one that is nowhere. -/
def importing : Application where
  files := [
    { name := ascii "app.go"
      packageName := ascii "app"
      imports := [ascii "a", ascii "fmt", ascii "lost"] }]
  packages := [{ importPath := ascii "app", files := [0] }]
  order := [0]

/-- A package whose second file, which imports a third one, is to be excluded. -/
def foundA : WorkspacePackage where
  dir := ascii "w/a"
  name := ascii "a"
  files := [⟨ascii "a.go", [ascii "b"]⟩, ⟨ascii "old.go", [ascii "c"]⟩]

/-- A package that imports that one. -/
def foundB : WorkspacePackage where
  dir := ascii "w/b"
  name := ascii "b"
  files := [⟨ascii "b.go", [ascii "a"]⟩]

/-- A search for the two packages, which import each other. -/
def circular : Resolver where
  workspace := ⟨fun path => pure <|
    if path = ascii "a" then .ok foundA
    else if path = ascii "b" then .ok foundB
    else .error (ascii "nowhere")⟩
  isStandard path := path == ascii "fmt"
  isExcluded name := name == ascii "a/old.go"

/-- What the search comes to. -/
def circularEnd : Resolution where
  app :=
    { files := [
        { name := ascii "app.go"
          packageName := ascii "app"
          imports := [ascii "a", ascii "fmt", ascii "lost"] },
        { name := ascii "a.go", packageName := ascii "a", imports := [ascii "b"] },
        { name := ascii "b.go", packageName := ascii "b", imports := [ascii "a"] }]
      packages := [
        { importPath := ascii "app", files := [0] },
        { importPath := ascii "a", files := [1], baseDir := some (ascii "w/a") },
        { importPath := ascii "b", files := [2], baseDir := some (ascii "w/b") }]
      order := [0, 1, 2] }
  unresolved := [ascii "lost"]
  lookups := [ascii "a", ascii "lost", ascii "b"]

theorem circular_value : (circular.resolve importing).value = (circularEnd, .ok ()) := by
  have hend : circularEnd = circular.added
      (((circular.added { app := importing } (ascii "a") foundA).lookUp (ascii "lost")).leave
        (ascii "lost")) (ascii "b") foundB := by decide
  have hsteps : ReflTransGen circular.Step ⟨{ app := importing }, importing.order, []⟩
      ⟨circularEnd, [], []⟩ := by
    rw [hend]
    refine ReflTransGen.head (Step.next _ _ _) ?_
    -- the application's imports: one is found, one is standard, one is missing
    refine ReflTransGen.head (Step.found ⟨by decide, by decide, by decide⟩ rfl (by decide)) ?_
    refine ReflTransGen.head (Step.skip (Or.inr (by decide))) ?_
    refine ReflTransGen.head (Step.missing ⟨by decide, by decide, by decide⟩ rfl) ?_
    -- what the package found imports is found, and imports nothing new
    refine ReflTransGen.head (Step.next _ _ _) ?_
    refine ReflTransGen.head (Step.found ⟨by decide, by decide, by decide⟩ rfl (by decide)) ?_
    refine ReflTransGen.head (Step.next _ _ _) ?_
    exact ReflTransGen.single (Step.skip (Or.inl (by decide)))
  exact (answer_of_steps hsteps).trans (Ends.all circularEnd).answer

/-- The same search, but all files of the second package are excluded. -/
def strict : Resolver := { circular with isExcluded := fun name => name == ascii "b/b.go" }

/-- The second package is required, since the first one imports it. -/
theorem required_strict : strict.Required importing (ascii "b") := by
  have himports : importing.Imports (ascii "a") := by
    refine ⟨_, List.mem_singleton_self _, _, List.mem_singleton_self _, ?_⟩
    decide
  have hfirst : strict.Required importing (ascii "a") :=
    Required.imported himports ⟨by decide, by decide, by decide, foundA, rfl⟩
  have hkept : strict.Keeps (ascii "a") foundA ⟨ascii "a.go", [ascii "b"]⟩ :=
    ⟨by decide, by decide⟩
  exact Required.follow hfirst rfl hkept (by decide)
    ⟨by decide, by decide, by decide, foundB, rfl⟩

theorem resolve_circular :
    importing.WellFormed ∧ (circular.resolve importing).value = (circularEnd, .ok ()) ∧
      (∃ new, circularEnd.app.packages = importing.packages ++ new ∧
        (∀ p ∈ importing.packages, circularEnd.app.filesOf p = importing.filesOf p) ∧
        (new.map (·.importPath)).Nodup ∧
        (∀ path, path ∈ new.map (·.importPath) ↔ circular.Required importing path) ∧
        (∀ p ∈ new, ∃ found, (circular.workspace.locate p.importPath).value = .ok found ∧
          p = { importPath := p.importPath, files := p.files, baseDir := some found.dir } ∧
          circularEnd.app.filesOf p =
            (found.files.filter fun f =>
              !circular.isExcluded (p.importPath ++ ascii "/" ++ f.name)).map fun f =>
                { name := f.name, packageName := found.name, imports := f.imports }) ∧
        ∀ path, path ∈ circularEnd.unresolved ↔
          circular.Reached importing path ∧ circular.Unresolvable importing path) ∧
      ∃ e, (strict.resolve importing).value.2 = .error e := by
  have h : importing.WellFormed := ⟨by decide, by decide, by decide⟩
  have hspec := (resolve_spec circular h).2
  rw [circular_value] at hspec
  obtain ⟨-, hnew⟩ := hspec rfl
  refine ⟨h, circular_value, hnew, (resolve_spec strict h).1.2 ?_⟩
  exact ⟨ascii "b", foundB, required_strict, rfl, by decide⟩

end BuildOrder.Resolver
