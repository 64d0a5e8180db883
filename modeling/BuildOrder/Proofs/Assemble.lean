import BuildOrder.Build
import BuildOrder.Proofs.Sound
import Mathlib.Data.List.Forall2

/-!
# The packages of directories

* `Assembler.Assembled`: the package that a directory makes.
* `Builder.assembleAll_ok`: **each directory makes one package**, with all its files, at the path
  that its name gives or, at the top level, that is drawn.
* `Builder.assembleAll_sound`: and the application stays sound.
-/

namespace BuildOrder

open List (Forall₂)

theorem chooseName_ok {names : Namer} {taken : Bytes → Bool} {drawn attempts next : Nat}
    {path : Bytes} (h : chooseName names taken drawn attempts = (some path, next)) :
    ∃ k < attempts, path = names (drawn + k) ∧ ∀ i < k, taken (names (drawn + i)) = true := by
  induction attempts generalizing drawn with
  | zero => cases h
  | succ attempts ih =>
    unfold chooseName at h
    split at h
    · rename_i htaken
      obtain ⟨k, hk, hpath, hbefore⟩ := ih h
      have hnext : ∀ i, drawn + (i + 1) = drawn + 1 + i := fun i => by omega
      refine ⟨k + 1, Nat.succ_lt_succ hk, by rw [hnext, hpath], ?_⟩
      intro i hi
      cases i with
      | zero => exact htaken
      | succ i =>
        rw [hnext]
        exact hbefore i (Nat.lt_of_succ_lt_succ hi)
    · obtain ⟨hpath, -⟩ := Prod.mk.inj h
      refine ⟨0, Nat.succ_pos _, (Option.some.inj hpath).symm, ?_⟩
      exact fun i hi => absurd hi (Nat.not_lt_zero i)

namespace Assembler

variable (a : Assembler)

/-- The package that a directory makes within an application: it has the directory's files. At the
top level its path is drawn, after draws of paths that are taken. -/
structure Assembled (app : Application) (d : DirectoryFiles) (p : Package) : Prop where
  files : p.files = d.files
  own : p.isExternal = false
  shadow : p.isShadow = a.isStandard p.importPath
  reserved : p.importPath ≠ reservedPath
  standard : a.isStandard p.importPath = true → p.importPath ∈ a.allowedShadows
  directory : d.dir ≠ topLevel → p.importPath = pathOfDirectory d.dir
  drawn : d.dir = topLevel → ∃ k < maxNameAttempts, p.importPath = a.names k ∧
    ∀ i < k, a.names i ∈ app.paths

variable {a} {app built : Application} {d : DirectoryFiles}

/-- A package runs code at start if one of its files does. -/
theorem hasInit_package (app : Application) (path : Bytes) (files : List FileId) :
    (a.package app path files).hasInit =
      (app.filesOf (a.package app path files)).any (·.hasInit) := by
  rw [Application.filesOf, List.any_filterMap]
  refine List.any_congr rfl fun id => ?_
  cases app.file? id <;> rfl

/-- A package may be added at a path that is free, not reserved, and allowed if it is standard. -/
theorem add_eq_ok {dir path : Bytes} {files : List FileId} :
    (a.add app dir path files).run.value = .ok built ↔
      built = app.register (a.package app path files) ∧ app.contains path = false ∧
        path ≠ reservedPath ∧ (a.isStandard path = true → path ∈ a.allowedShadows) := by
  unfold add
  simp only
  constructor
  · intro h
    split at h
    · cases h
    rename_i hreserved
    obtain ⟨standard, hstandard, h⟩ := Attempt.value_bind_eq_ok.1 h
    obtain rfl : a.isStandard path = standard := Except.ok.inj hstandard
    split at h
    · cases h
    rename_i hshadow
    obtain ⟨-, -, h⟩ := Attempt.value_bind_eq_ok.1 h
    rw [Attempt.value_liftExcept, mapError_eq_ok, Application.addPackage?] at h
    split at h
    · cases h
    rename_i hnew
    refine ⟨(Except.ok.inj h).symm, Bool.eq_false_iff.2 hnew, hreserved, ?_⟩
    simpa using hshadow
  · rintro ⟨rfl, hnew, hreserved, hallowed⟩
    have hshadow : ¬ (a.isStandard path = true ∧ path ∉ a.allowedShadows) :=
      fun h => h.2 (hallowed h.1)
    rw [if_neg hreserved]
    refine Attempt.value_bind_eq_ok.2 ⟨a.isStandard path, rfl, ?_⟩
    rw [if_neg hshadow]
    refine Attempt.value_bind_eq_ok.2 ⟨(), rfl, ?_⟩
    have htaken : ¬ app.contains path = true := Bool.eq_false_iff.1 hnew
    rw [Attempt.value_liftExcept, mapError_eq_ok, Application.addPackage?]
    exact if_neg htaken

theorem importPath_ok {dir path : Bytes} {drawn next : Nat}
    (h : a.importPath app dir drawn = (some path, next)) :
    (dir ≠ topLevel → path = pathOfDirectory dir ∧ next = drawn) ∧
      (dir = topLevel → ∃ k < maxNameAttempts, path = a.names (drawn + k) ∧
        ∀ i < k, a.names (drawn + i) ∈ app.paths) := by
  unfold importPath at h
  split at h
  · rename_i htop
    refine ⟨fun hdir => absurd htop hdir, fun _ => ?_⟩
    obtain ⟨k, hk, hpath, hbefore⟩ := chooseName_ok h
    exact ⟨k, hk, hpath, fun i hi => Application.contains_iff.1 (hbefore i hi)⟩
  · rename_i hdir
    obtain ⟨hpath, hnext⟩ := Prod.mk.inj h
    exact ⟨fun _ => ⟨(Option.some.inj hpath).symm, hnext.symm⟩, fun htop => absurd htop hdir⟩

theorem assemble_snd {dir : Bytes} {files : List FileId} {drawn : Nat} :
    (a.assemble app dir files drawn).2 = (a.importPath app dir drawn).2 := by
  unfold assemble
  split
  · rename_i hchoice
    rw [hchoice]
  · rename_i hchoice
    rw [hchoice]

/-- An attempt goes well if there is a path for the directory and the package may be added there. -/
theorem assemble_eq_ok {dir : Bytes} {files : List FileId} {drawn : Nat} :
    (a.assemble app dir files drawn).1.run.value = .ok built ↔
      ∃ path, a.importPath app dir drawn = (some path, (a.assemble app dir files drawn).2) ∧
        (a.add app dir path files).run.value = .ok built := by
  unfold assemble
  cases hchoice : a.importPath app dir drawn with
  | mk choice next =>
    cases choice with
    | none => exact ⟨nofun, by rintro ⟨_, ⟨⟩, _⟩⟩
    | some path =>
      constructor
      · exact fun h => ⟨path, rfl, h⟩
      · rintro ⟨other, hpath, h⟩
        obtain rfl : path = other := Option.some.inj (Prod.mk.inj hpath).1
        exact h

/-- A later application has the paths that were taken before. -/
theorem Assembled.mono {later : Application} {p : Package} (h : a.Assembled app d p)
    (hpaths : ∀ path ∈ app.paths, path ∈ later.paths) : a.Assembled later d p := by
  refine ⟨h.files, h.own, h.shadow, h.reserved, h.standard, h.directory, fun htop => ?_⟩
  obtain ⟨k, hk, hpath, hbefore⟩ := h.drawn htop
  exact ⟨k, hk, hpath, fun i hi => hpaths _ (hbefore i hi)⟩

end Assembler

namespace Builder

variable {b : Builder} {app built : Application} {directories : List DirectoryFiles} {drawn : Nat}

/-- The directories are taken in turn. -/
theorem assembleAll_cons {d : DirectoryFiles} :
    (b.assembleAll app drawn (d :: directories)).run.value = .ok built ↔
      ∃ next, (b.assembler.assemble app d.dir d.files drawn).1.run.value = .ok next ∧
        (b.assembleAll next (b.assembler.assemble app d.dir d.files drawn).2
          directories).run.value = .ok built := by
  rw [assembleAll]
  exact Attempt.value_bind_eq_ok

/-- **Each directory makes one package**, in the order of the directories. -/
theorem assembleAll_ok (hdirs : (directories.map (·.dir)).Nodup)
    (hdrawn : topLevel ∈ directories.map (·.dir) → drawn = 0)
    (h : (b.assembleAll app drawn directories).run.value = .ok built) :
    ∃ own, built.packages = app.packages ++ own ∧ built.files = app.files ∧
      Forall₂ (b.assembler.Assembled built) directories own := by
  induction directories generalizing app drawn with
  | nil =>
    obtain rfl : app = built := Except.ok.inj h
    exact ⟨[], by simp, rfl, Forall₂.nil⟩
  | cons d rest ih =>
    obtain ⟨next, hnext, h⟩ := assembleAll_cons.1 h
    rw [List.map_cons, List.nodup_cons] at hdirs
    obtain ⟨path, hpath, hadd⟩ := Assembler.assemble_eq_ok.1 hnext
    obtain ⟨rfl, -, hreserved, hstandard⟩ := Assembler.add_eq_ok.1 hadd
    obtain ⟨hdir, htop⟩ := Assembler.importPath_ok hpath
    have hassembled : b.assembler.Assembled app d (b.assembler.package app path d.files) := by
      refine ⟨rfl, rfl, rfl, hreserved, hstandard, fun hne => (hdir hne).1, fun heq => ?_⟩
      have hdraws := htop heq
      simp only [hdrawn (heq ▸ List.mem_cons_self), Nat.zero_add] at hdraws
      exact hdraws
    have hlater : topLevel ∈ rest.map (·.dir) →
        (b.assembler.assemble app d.dir d.files drawn).2 = 0 := by
      intro hmem
      -- there is one directory at the top level
      have hne : d.dir ≠ topLevel := fun heq => hdirs.1 (heq ▸ hmem)
      rw [(hdir hne).2, hdrawn (List.mem_cons_of_mem _ hmem)]
    obtain ⟨own, hpackages, hfiles, hown⟩ := ih hdirs.2 hlater h
    refine ⟨_ :: own, hpackages.trans (List.append_assoc _ _ own), hfiles, Forall₂.cons ?_ hown⟩
    refine hassembled.mono fun path hpath => ?_
    rw [Application.paths, hpackages, List.map_append]
    refine List.mem_append_left _ ?_
    show path ∈ (app.register _).paths
    rw [Application.paths_register]
    exact List.mem_append_left _ hpath

/-- **Packages of directories leave an application sound**, which take its loose files in turn. -/
theorem assembleAll_sound (hne : ∀ d ∈ directories, d.files ≠ [])
    (hsound : app.Sound (directories.flatMap (·.files)))
    (h : (b.assembleAll app drawn directories).run.value = .ok built) : built.Sound [] := by
  induction directories generalizing app drawn with
  | nil =>
    obtain rfl : app = built := Except.ok.inj h
    exact hsound
  | cons d rest ih =>
    obtain ⟨next, hnext, h⟩ := assembleAll_cons.1 h
    obtain ⟨path, -, hadd⟩ := Assembler.assemble_eq_ok.1 hnext
    obtain ⟨rfl, hnew, -⟩ := Assembler.add_eq_ok.1 hadd
    refine ih (fun e he => hne e (List.mem_cons_of_mem _ he)) ?_ h
    refine Application.Sound.register hsound hnew (hne d List.mem_cons_self) ?_ nofun
    exact Assembler.hasInit_package app path d.files

end Builder

end BuildOrder
