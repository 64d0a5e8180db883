import BuildOrder.Proofs.Failures
import BuildOrder.Proofs.Origin
import Mathlib.Data.Nat.Find

/-!
# The path of the top-level package

The import path of the top-level package is drawn when its turn comes among the directories, so it
is new among those of the directories before it only.

* `chooseName_eq`: the first name that is free is drawn.
* `Builder.assembleAll_append`: directories below the top level draw no names.
* `Builder.assembleAll_eq_registeredTwice`: a path that is taken twice below the top level was taken
  before.
* `Builder.build_topLevel`: **the top-level package gets the first name drawn that is no path of a
  directory before it**, and a path is taken twice only where that name is one of a directory after
  it.
* `Builder.exists_clash`: and then it is, even if a name was left to be drawn that is new among all.
-/

namespace BuildOrder

open List (Forall₂)

/-- Related lists have related members at the same place, with equal values there. -/
theorem exists_of_forall₂_map {α β γ : Type} {R : α → β → Prop} {f : β → γ} {g : α → γ}
    {xs : List α} {ys : List β} (h : Forall₂ R xs ys) (heq : ys.map f = xs.map g) {x : α}
    (hx : x ∈ xs) : ∃ y ∈ ys, R x y ∧ f y = g x := by
  induction h with
  | nil => cases hx
  | cons hxy _ ih =>
    obtain ⟨hhead, htail⟩ := List.cons.inj heq
    rcases List.mem_cons.1 hx with rfl | hx
    · exact ⟨_, List.mem_cons_self, hxy, hhead⟩
    · obtain ⟨y, hy, hR, hvalue⟩ := ih htail hx
      exact ⟨y, List.mem_cons_of_mem _ hy, hR, hvalue⟩

/-- The first name that is free is drawn. -/
theorem chooseName_eq {names : Namer} {taken : Bytes → Bool} {drawn attempts k : Nat}
    (hk : k < attempts) (hfree : taken (names (drawn + k)) = false)
    (hbefore : ∀ i < k, taken (names (drawn + i)) = true) :
    chooseName names taken drawn attempts = (some (names (drawn + k)), drawn + k + 1) := by
  induction attempts generalizing drawn k with
  | zero => exact absurd hk (Nat.not_lt_zero k)
  | succ attempts ih =>
    unfold chooseName
    cases k with
    | zero => exact if_neg (Bool.eq_false_iff.1 hfree)
    | succ k =>
      have htaken : taken (names drawn) = true := hbefore 0 (Nat.succ_pos k)
      have hlater : ∀ i, drawn + (i + 1) = drawn + 1 + i := fun i => by omega
      rw [hlater k] at hfree ⊢
      rw [if_pos htaken]
      refine ih (Nat.lt_of_succ_lt_succ hk) hfree fun i hi => ?_
      rw [← hlater i]
      exact hbefore (i + 1) (Nat.succ_lt_succ hi)

namespace Builder

variable {b : Builder} {base : Bytes} {filenames : List Bytes} {app built : Application}
  {found front back : List DirectoryFiles} {drawn k : Nat} {path : Bytes} {e : BuildError}

/-! ### Directories below the top level -/

theorem assemble_below {d : DirectoryFiles} (hd : d.dir ≠ topLevel) :
    b.assembler.assemble app d.dir d.files drawn =
      (b.assembler.add app d.dir (pathOfDirectory d.dir) d.files, drawn) := by
  unfold Assembler.assemble Assembler.importPath
  rw [if_neg hd]

/-- Directories below the top level draw no names. -/
theorem assembleAll_append (h : ∀ d ∈ front, d.dir ≠ topLevel) :
    (b.assembleAll app drawn (front ++ back)).run.value =
      (b.assembleAll app drawn front >>= fun next => b.assembleAll next drawn back).run.value := by
  induction front generalizing app with
  | nil => rfl
  | cons d rest ih =>
    obtain ⟨hd, hrest⟩ := List.forall_mem_cons.1 h
    rw [List.cons_append, assembleAll, assembleAll, assemble_below hd]
    simp only [ExceptT.run_bind, Traced.value_bind]
    cases (b.assembler.add app d.dir (pathOfDirectory d.dir) d.files).run.value with
    | error e => rfl
    | ok next =>
      have hnext : (b.assembleAll next drawn (rest ++ back)).run.value =
          (b.assembleAll next drawn rest >>= fun last => b.assembleAll last drawn back).run.value :=
        ih hrest
      rw [ExceptT.run_bind, Traced.value_bind] at hnext
      exact hnext

/-- Directories below the top level make packages at their own paths, which are new. -/
theorem assembleAll_below (hbelow : ∀ d ∈ found, d.dir ≠ topLevel)
    (h : (b.assembleAll app drawn found).run.value = .ok built) :
    built.paths = app.paths ++ found.map (pathOfDirectory ·.dir) ∧
      ∀ path ∈ found.map (pathOfDirectory ·.dir), path ∉ app.paths := by
  induction found generalizing app with
  | nil =>
    obtain rfl : app = built := Except.ok.inj h
    exact ⟨(List.append_nil _).symm, nofun⟩
  | cons d rest ih =>
    obtain ⟨hd, hrest⟩ := List.forall_mem_cons.1 hbelow
    obtain ⟨next, hnext, h⟩ := assembleAll_cons.1 h
    rw [assemble_below hd] at hnext h
    obtain ⟨rfl, hnew, -⟩ := Assembler.add_eq_ok.1 hnext
    obtain ⟨hpaths, hfresh⟩ := ih hrest h
    rw [Application.paths_register] at hpaths hfresh
    have hown : pathOfDirectory d.dir ∉ app.paths := by
      rw [← Application.contains_iff, hnew]
      exact Bool.false_ne_true
    refine ⟨by rw [hpaths, List.append_assoc]; rfl, ?_⟩
    rw [List.map_cons, List.forall_mem_cons]
    exact ⟨hown, fun path hpath hin => hfresh path hpath (List.mem_append_left _ hin)⟩

/-- **A path that is taken twice below the top level was taken before.** -/
theorem assembleAll_eq_registeredTwice (hbelow : ∀ d ∈ found, d.dir ≠ topLevel)
    (hdistinct : (found.map (pathOfDirectory ·.dir)).Nodup)
    (h : (b.assembleAll app drawn found).run.value = .error (.registeredTwice path)) :
    path ∈ app.paths ∧ path ∈ found.map (pathOfDirectory ·.dir) := by
  induction found generalizing app with
  | nil => cases h
  | cons d rest ih =>
    obtain ⟨hd, hrest⟩ := List.forall_mem_cons.1 hbelow
    obtain ⟨hother, hdistinct⟩ := List.nodup_cons.1 hdistinct
    rw [assembleAll_cons_eq_error, assemble_below hd] at h
    rcases h with h | ⟨next, hnext, h⟩
    · obtain ⟨rfl, htaken⟩ := Assembler.add_eq_registeredTwice h
      exact ⟨htaken, List.mem_cons_self⟩
    · obtain ⟨rfl, -⟩ := Assembler.add_eq_ok.1 hnext
      obtain ⟨htaken, hpath⟩ := ih hrest hdistinct h
      rw [Application.paths_register] at htaken
      rcases List.mem_append.1 htaken with htaken | htaken
      · exact ⟨htaken, List.mem_cons_of_mem _ hpath⟩
      · obtain rfl := List.mem_singleton.1 htaken
        exact absurd hpath hother

/-! ### The top level -/

/-- The path of the top-level package is the first name drawn that no package has yet. -/
theorem assemble_top {d : DirectoryFiles} (hd : d.dir = topLevel) (hk : k < maxNameAttempts)
    (hfree : b.names k ∉ app.paths) (hbefore : ∀ i < k, b.names i ∈ app.paths) :
    b.assembler.assemble app d.dir d.files 0 =
      (b.assembler.add app d.dir (b.names k) d.files, k + 1) := by
  have hchoice : chooseName b.assembler.names app.contains 0 maxNameAttempts =
      (some (b.names (0 + k)), 0 + k + 1) := by
    refine chooseName_eq hk ?_ fun i hi => ?_
    · rw [Nat.zero_add, Bool.eq_false_iff, ne_eq, Application.contains_iff]
      exact hfree
    · rw [Nat.zero_add, Application.contains_iff]
      exact hbefore i hi
  unfold Assembler.assemble Assembler.importPath
  rw [if_pos hd, hchoice, Nat.zero_add]

/-- What the packages of directories come to where the path of the top-level one is known. -/
theorem assembleAll_top {top : DirectoryFiles} (hempty : app.paths = [])
    (hfront : ∀ d ∈ front, d.dir ≠ topLevel) (htop : top.dir = topLevel) (hk : k < maxNameAttempts)
    (hfree : b.names k ∉ front.map (pathOfDirectory ·.dir))
    (hbefore : ∀ i < k, b.names i ∈ front.map (pathOfDirectory ·.dir))
    {result : Except BuildError Application}
    (h : (b.assembleAll app 0 (front ++ top :: back)).run.value = result) :
    (∃ e, (b.assembleAll app 0 front).run.value = .error e ∧ result = .error e) ∨
      ∃ mid, mid.paths = front.map (pathOfDirectory ·.dir) ∧
        ((∃ e, (b.assembler.add mid top.dir (b.names k) top.files).run.value = .error e ∧
            result = .error e) ∨
          ∃ next, next.paths = mid.paths ++ [b.names k] ∧
            (b.assembleAll next (k + 1) back).run.value = result) := by
  rw [assembleAll_append hfront, ExceptT.run_bind, Traced.value_bind] at h
  cases hfrontValue : (b.assembleAll app 0 front).run.value with
  | error e =>
    rw [hfrontValue] at h
    exact Or.inl ⟨e, rfl, h.symm⟩
  | ok mid =>
    rw [hfrontValue] at h
    obtain ⟨hmid, -⟩ := assembleAll_below hfront hfrontValue
    rw [hempty, List.nil_append] at hmid
    refine Or.inr ⟨mid, hmid, ?_⟩
    rw [← hmid] at hfree hbefore
    simp only [assembleAll, assemble_top htop hk hfree hbefore, ExceptT.run_bind,
      Traced.value_bind] at h
    cases hadd : (b.assembler.add mid top.dir (b.names k) top.files).run.value with
    | error e =>
      rw [hadd] at h
      exact Or.inl ⟨e, rfl, h.symm⟩
    | ok next =>
      rw [hadd] at h
      obtain ⟨rfl, -⟩ := Assembler.add_eq_ok.1 hadd
      exact Or.inr ⟨_, Application.paths_register _ _, h⟩

/-! ### The whole build -/

/-- A path is taken twice where packages of directories are made, and nowhere else. -/
theorem assembleAll_of_registeredTwice
    (h : (b.build base filenames).run.value = .error (.registeredTwice path)) :
    ∃ gathered found, (∀ n ∈ filenames, ∃ dir, Path.directoryBelow? n = some dir) ∧
      (b.addDirectories base filenames {} (directories filenames)).run.value =
        .ok (gathered, found) ∧
      (b.assembleAll gathered 0 found).run.value = .error (.registeredTwice path) := by
  have hword : (BuildError.registeredTwice path).message.head? = some 0x70 := rfl
  have hkind : (BuildError.registeredTwice path).kind = .malformedInput := rfl
  generalize hcause : BuildError.registeredTwice path = e at h hword hkind
  cases fails_of_build h with
  | filename n => cases hword
  | gather hrefuses =>
    cases hrefuses with
    | unlisted dir reason => cases hkind
    | mixed dir first other => cases hword
    | unparsed hn hparse => cases hkind
    | unsound hn hsource hextract =>
      rw [SourceFile.extract_value] at hextract
      split at hextract
      · obtain rfl := Except.error.inj hextract
        cases hkind
      · split at hextract
        · cases hextract
        · obtain rfl := Except.error.inj hextract
          cases hkind
  | assemble hbelow hgather hassemble => exact ⟨_, _, hbelow, hgather, hassemble⟩
  | exclusion pattern => cases hkind
  | excluded path => cases hkind
  | cycle paths => cases hkind

/-- The directories that are gathered, where the top level is one of them. -/
theorem gathered_split {gathered : Application} {before after : List Bytes}
    (hbelow : ∀ n ∈ filenames, ∃ dir, Path.directoryBelow? n = some dir)
    (hgather : (b.addDirectories base filenames {} (directories filenames)).run.value =
      .ok (gathered, found))
    (hsplit : b.inhabited base filenames = before ++ topLevel :: after) :
    gathered.paths = [] ∧ ∃ front top back, found = front ++ top :: back ∧ top.dir = topLevel ∧
      front.map (·.dir) = before ∧ back.map (·.dir) = after ∧
      (∀ d ∈ front, d.dir ≠ topLevel) ∧ ∀ d ∈ back, d.dir ≠ topLevel := by
  obtain ⟨files, rfl, -, hgathered⟩ :=
    addDirectories_ok hbelow (exists_of_mem_directories hbelow) hgather
  refine ⟨rfl, ?_⟩
  have hdirs : found.map (·.dir) = before ++ topLevel :: after := by
    have hsame : (b.inhabited base filenames).map id = found.map (·.dir) :=
      map_eq_of_forall₂ hgathered fun dir d hd => hd.here.symm
    rw [← hsame, List.map_id, hsplit]
  have hnodup : (before ++ topLevel :: after).Nodup := hsplit ▸ nodup_inhabited
  obtain ⟨hbefore, hrest, hdisjoint⟩ := List.nodup_append.1 hnodup
  obtain ⟨front, rest, rfl, rfl, hmore⟩ := List.map_eq_append_iff.1 hdirs
  obtain ⟨top, back, rfl, htop, rfl⟩ := List.map_eq_cons_iff.1 hmore
  refine ⟨front, top, back, rfl, htop, rfl, rfl, fun d hd heq => ?_, fun d hd heq => ?_⟩
  · exact hdisjoint _ (List.mem_map_of_mem hd) _ List.mem_cons_self heq
  · exact (List.nodup_cons.1 hrest).1 (heq ▸ List.mem_map_of_mem hd)

/-- The import paths of directories, where the path of the top level is known. -/
def pathsAt (top : Bytes) (dirs : List Bytes) : List Bytes :=
  dirs.map fun dir => if dir = topLevel then top else pathOfDirectory dir

theorem pathsAt_below {top : Bytes} {dirs : List Bytes} (h : topLevel ∉ dirs) :
    pathsAt top dirs = dirs.map pathOfDirectory := by
  refine List.map_congr_left fun dir hdir => if_neg ?_
  rintro rfl
  exact h hdir

section Clash

variable {before after : List Bytes}
  (hsplit : b.inhabited base filenames = before ++ topLevel :: after)
  (hk : k < maxNameAttempts) (hfree : b.names k ∉ before.map pathOfDirectory)
  (hbefore : ∀ i < k, b.names i ∈ before.map pathOfDirectory)

include hsplit hk hfree hbefore

/-- **In a build that goes well, the packages of directories are at their own paths**, the top-level
one at the name drawn, which is new among the others. -/
theorem paths_of_build (h : (b.build base filenames).run.value = .ok app) :
    b.names k ∉ after.map pathOfDirectory ∧
      (app.packages.filter (!·.isExternal)).map (·.importPath) =
        pathsAt (b.names k) (b.inhabited base filenames) := by
  obtain ⟨gathered, found, assembled, resolved, hstages⟩ := build_eq_ok_iff.1 h
  obtain ⟨hempty, front, top, back, rfl, htop, rfl, rfl, hfront, hback⟩ :=
    gathered_split hstages.below hstages.gather hsplit
  rw [List.map_map] at hfree hbefore
  rcases assembleAll_top hempty hfront htop hk hfree hbefore hstages.assemble with
    ⟨e, -, hresult⟩ | ⟨mid, hmid, ⟨e, -, hresult⟩ | ⟨next, hnext, hrest⟩⟩
  · cases hresult
  · cases hresult
  obtain ⟨hpaths, hfresh⟩ := assembleAll_below hback hrest
  have hown : (app.packages.filter (!·.isExternal)).map (·.importPath) = assembled.paths := by
    rw [hstages.own_packages, List.map_map]
    rfl
  constructor
  · intro hin
    rw [List.map_map] at hin
    exact hfresh _ hin (hnext ▸ List.mem_append_right _ (List.mem_singleton_self _))
  · have hfrontPaths : pathsAt (b.names k) (front.map (·.dir)) =
        front.map (pathOfDirectory ·.dir) := by
      rw [pathsAt_below (by simpa using hfront), List.map_map]
      rfl
    have hbackPaths : pathsAt (b.names k) (back.map (·.dir)) =
        back.map (pathOfDirectory ·.dir) := by
      rw [pathsAt_below (by simpa using hback), List.map_map]
      rfl
    rw [hown, hpaths, hnext, hmid, hsplit, ← hfrontPaths, ← hbackPaths]
    simp [pathsAt]

/-- **A path is taken twice only where the name drawn is the path of a directory after the top
level.** -/
theorem path_of_registeredTwice (hdistinct : ((before ++ after).map pathOfDirectory).Nodup)
    (h : (b.build base filenames).run.value = .error (.registeredTwice path)) :
    path = b.names k ∧ path ∈ after.map pathOfDirectory := by
  obtain ⟨gathered, found, hbelow, hgather, hassemble⟩ := assembleAll_of_registeredTwice h
  obtain ⟨hempty, front, top, back, rfl, htop, rfl, rfl, hfront, hback⟩ :=
    gathered_split hbelow hgather hsplit
  rw [List.map_append, List.map_map, List.map_map] at hdistinct
  obtain ⟨hfrontDistinct, hbackDistinct, hdisjoint⟩ := List.nodup_append'.1 hdistinct
  rw [List.map_map] at hfree hbefore ⊢
  rcases assembleAll_top hempty hfront htop hk hfree hbefore hassemble with
    ⟨e, herror, heq⟩ | ⟨mid, hmid, ⟨e, herror, heq⟩ | ⟨next, hnext, hrest⟩⟩
  · obtain rfl := Except.error.inj heq
    obtain ⟨htaken, -⟩ := assembleAll_eq_registeredTwice hfront hfrontDistinct herror
    rw [hempty] at htaken
    cases htaken
  · obtain rfl := Except.error.inj heq
    obtain ⟨-, htaken⟩ := Assembler.add_eq_registeredTwice herror
    exact absurd (hmid ▸ htaken) hfree
  · obtain ⟨htaken, hpath⟩ := assembleAll_eq_registeredTwice hback hbackDistinct hrest
    rw [hnext, hmid] at htaken
    rcases List.mem_append.1 htaken with htaken | htaken
    · exact absurd hpath (hdisjoint htaken)
    · exact ⟨List.mem_singleton.1 htaken, hpath⟩

end Clash

/-- **The top-level package gets the first name drawn that is no path of a directory before it.** A
path is taken twice only where that name is one of a directory after it, and then no build goes
well. -/
theorem build_topLevel {before after : List Bytes}
    (hsplit : b.inhabited base filenames = before ++ topLevel :: after)
    (hdistinct : ((before ++ after).map pathOfDirectory).Nodup)
    (hfree : ∃ k < maxNameAttempts, b.names k ∉ before.map pathOfDirectory) :
    ∃ k < maxNameAttempts, b.names k ∉ before.map pathOfDirectory ∧
      (∀ i < k, b.names i ∈ before.map pathOfDirectory) ∧
      (∀ app, (b.build base filenames).run.value = .ok app →
        b.names k ∉ after.map pathOfDirectory ∧
          ∃ p ∈ app.packages, b.PackageOf base filenames app topLevel p ∧
            p.importPath = b.names k) ∧
      ∀ path, (b.build base filenames).run.value = .error (.registeredTwice path) →
        path = b.names k ∧ path ∈ after.map pathOfDirectory := by
  obtain ⟨hk, hnew⟩ := Nat.find_spec hfree
  have hbefore : ∀ i < Nat.find hfree, b.names i ∈ before.map pathOfDirectory := by
    intro i hi
    by_contra hnot
    exact Nat.find_min hfree hi ⟨hi.trans hk, hnot⟩
  refine ⟨Nat.find hfree, hk, hnew, hbefore, fun app h => ?_, fun path h => ?_⟩
  · obtain ⟨hfresh, hpaths⟩ := paths_of_build hsplit hk hnew hbefore h
    have htop : topLevel ∈ b.inhabited base filenames := hsplit ▸ by simp
    obtain ⟨p, hp, hdir, hpath⟩ := exists_of_forall₂_map (build_packages h) hpaths htop
    exact ⟨hfresh, p, List.mem_of_mem_filter hp, hdir, hpath.trans (if_pos rfl)⟩
  · exact path_of_registeredTwice hsplit hk hnew hbefore hdistinct h

/-- A program of a file at the top level and one in a directory before it. -/
def prior : Builder where
  tree := { entries := [
    ([ascii "a.go"], .file (ascii "package a\n")),
    ([ascii "-x", ascii "x.go"], .file (ascii "package x\n"))] }
  options := {}
  isStandard _ := false
  names := .cycle [ascii "-x", ascii "y"]

theorem build_topLevel_prior :
    ∃ app, (prior.build (ascii ".") [ascii "a.go", ascii "-x/x.go"]).run.value = .ok app ∧
      ∃ p ∈ app.packages,
        prior.PackageOf (ascii ".") [ascii "a.go", ascii "-x/x.go"] app topLevel p ∧
        p.importPath = ascii "y" := by
  have hsplit : prior.inhabited (ascii ".") [ascii "a.go", ascii "-x/x.go"] =
      [ascii "-x"] ++ topLevel :: [] := by decide +kernel
  obtain ⟨k, -, hfresh, hbefore, hbuilt, -⟩ :=
    build_topLevel hsplit (by decide) ⟨1, by decide, by decide⟩
  have hgood : (prior.build (ascii ".") [ascii "a.go", ascii "-x/x.go"]).run.value.isOk = true := by
    decide +kernel
  cases hvalue : (prior.build (ascii ".") [ascii "a.go", ascii "-x/x.go"]).run.value with
  | error e =>
    rw [hvalue] at hgood
    cases hgood
  | ok app =>
    obtain ⟨-, p, hp, hdir, hpath⟩ := hbuilt app hvalue
    refine ⟨app, rfl, p, hp, hdir, hpath.trans ?_⟩
    -- the first name is that of the directory, and the second is new
    match k with
    | 0 => exact absurd (by decide) hfresh
    | 1 => decide
    | k + 2 => exact absurd (hbefore 1 (by omega)) (by decide)

/-- A program of a file at the top level and one in a directory after it, whose path is drawn
first. -/
def clashing : Builder where
  tree := { entries := [
    ([ascii "a.go"], .file (ascii "package a\n")),
    ([ascii "x", ascii "x.go"], .file (ascii "package x\n"))] }
  options := {}
  isStandard _ := false
  names := .cycle [ascii "x", ascii "main00001"]

/-- **A path may be taken twice although a name was left to be drawn** that is new among all
directories. -/
theorem exists_clash :
    clashing.inhabited (ascii ".") [ascii "a.go", ascii "x/x.go"] = [topLevel, ascii "x"] ∧
      clashing.names 1 ≠ pathOfDirectory (ascii "x") ∧
      (∀ k, clashing.names k ≠ reservedPath ∧ clashing.isStandard (clashing.names k) = false) ∧
      (clashing.build (ascii ".") [ascii "a.go", ascii "x/x.go"]).run.value =
        .error (.registeredTwice (ascii "x")) := by
  refine ⟨by decide +kernel, by decide, fun k => ⟨?_, rfl⟩, by decide +kernel⟩
  have hnames : clashing.names k = [ascii "x", ascii "main00001"].getD (k % 2) [] := rfl
  rw [hnames]
  rcases Nat.mod_two_eq_zero_or_one k with h | h <;> rw [h] <;> decide

end Builder

end BuildOrder
