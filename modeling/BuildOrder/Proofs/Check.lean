import BuildOrder.Program
import BuildOrder.Proofs.Failures

/-!
# Files that were checked

* `Session.KeepsTree`: nothing that is logged goes into a file.
* `Program.Undisturbed`: nothing that is logged changes what some files make.
* `Program.made_of_check`: **a check that goes well has found each file sound.**
* `Program.order_of_check`: **files that were checked can be parsed, and their imports and literals
  are not what their build fails for.**
-/

namespace BuildOrder

namespace Session

variable {s : Session} {events more : List Event}

/-- Nothing that is logged goes into a file. -/
def KeepsTree (s : Session) : Prop := ∀ events, (s.play events).tree = s.tree

theorem play_append : s.play (events ++ more) = (s.play events).play more := List.foldl_append

end Session

namespace Log

variable {l : Logger} {clock : Clock} {r : Record} {o : Output} {sinks : List Sink}

/-- The sink writes to the console. -/
def Sink.IsConsole (s : Sink) : Prop := ∃ format colours, s = .console format colours

theorem Sink.writeAll_consoles (h : ∀ s ∈ sinks, s.IsConsole) (o : Output) :
    (writeAll clock r sinks o).1 = sinks ∧ (writeAll clock r sinks o).2.tree = o.tree := by
  induction sinks generalizing o with
  | nil => exact ⟨rfl, rfl⟩
  | cons s rest ih =>
    obtain ⟨format, colours, rfl⟩ := h s List.mem_cons_self
    obtain ⟨hsinks, htree⟩ := ih (fun s hs => h s (List.mem_cons_of_mem _ hs))
      (o.complain (r.line format clock colours))
    exact ⟨congrArg (_ :: ·) hsinks, htree⟩

/-- Consoles stay consoles, and a record for them goes into no file. -/
theorem Logger.emit_consoles (h : ∀ s ∈ l.sinks, s.IsConsole) :
    (l.emit clock r o).1.sinks = l.sinks ∧ (l.emit clock r o).2.tree = o.tree := by
  unfold emit
  split
  · exact Sink.writeAll_consoles h o
  · exact ⟨rfl, rfl⟩

end Log

/-- **Without a log file nothing that is logged goes into a file.** -/
theorem Session.keepsTree_of_consoles {s : Session} (h : ∀ x ∈ s.logger.sinks, x.IsConsole) :
    s.KeepsTree := by
  intro events
  induction events generalizing s with
  | nil => rfl
  | cons e events ih =>
    have hstep : (s.playEvent e).logger.sinks = s.logger.sinks ∧ (s.playEvent e).tree = s.tree := by
      unfold playEvent
      split
      · exact ⟨rfl, rfl⟩
      · exact Log.Logger.emit_consoles h
    exact (ih (by rwa [hstep.1])).trans hstep.2

namespace Program

variable {config : Config} {files : List Bytes} {s : Session} {t : FileTree} {name : Bytes}

/-! ### The command that checks -/

/-- What a file makes in a tree. -/
def made (config : Config) (t : FileTree) (name : Bytes) : Except BuildError File :=
  (extractFrom (isStandard config t) config.options.exemptions t config.baseDir name).run.value

/-- Whatever is logged, the files make what they make in the tree `t`. -/
def Undisturbed (config : Config) (files : List Bytes) (t : FileTree) (s : Session) : Prop :=
  ∀ events, ∀ n ∈ files, made config (s.play events).tree n = made config t n

theorem undisturbed_of_keepsTree (h : s.KeepsTree) : Undisturbed config files s.tree s := by
  intro events n _
  rw [h events]

/-- A file that is found sound makes a file of the application. -/
theorem checkFile_sound (h : (checkFile config name s).1 = true) :
    (∃ file, made config s.tree name = .ok file) ∧
      ∃ events, (checkFile config name s).2 = s.play events := by
  unfold checkFile at h ⊢
  simp only at h ⊢
  split at h
  · cases h
  · rename_i file hvalue
    exact ⟨⟨file, hvalue⟩, _, Session.play_append.symm⟩

theorem checkFiles_sound (hlog : Undisturbed config files t s)
    (h : (checkFiles config s files).1 = 0) : ∀ n ∈ files, ∃ file, made config t n = .ok file := by
  induction files generalizing s with
  | nil => exact nofun
  | cons name rest ih =>
    rw [checkFiles] at h
    simp only at h
    split at h
    · rename_i hsound
      obtain ⟨⟨file, hfile⟩, events, hnext⟩ := checkFile_sound hsound
      have hname : made config t name = .ok file :=
        (hlog [] name List.mem_cons_self).symm.trans hfile
      have hlater : Undisturbed config rest t (checkFile config name s).2 := by
        intro more n hn
        rw [hnext, ← Session.play_append]
        exact hlog _ n (List.mem_cons_of_mem _ hn)
      exact List.forall_mem_cons.2 ⟨⟨file, hname⟩, ih hlater h⟩
    · exact absurd h (Nat.succ_ne_zero _)

/-- **A check that goes well has found each file sound.** -/
theorem made_of_check (hlog : Undisturbed config files t s)
    (h : (check config files s).1 = successCode) :
    ∀ n ∈ files, ∃ file, made config t n = .ok file := by
  unfold check at h
  simp only at h
  split at h
  · cases h
  · rename_i hnone
    exact checkFiles_sound hlog (Nat.eq_zero_of_not_pos hnone)

/-! ### The command that builds -/

end Program

/-- The error is about what is in a file: its syntax, its imports or its literals. -/
def BuildError.IsAboutContent (e : BuildError) : Prop :=
  e.kind = .syntaxError ∨ e.kind = .invalidImportPath ∨ e.kind = .untaggedLiteral

theorem BuildError.isAboutContent_iff {e : BuildError} : e.IsAboutContent ↔
    e.kind ∈ [ErrorKind.syntaxError, .invalidImportPath, .untaggedLiteral] := by
  simp [IsAboutContent]

namespace Builder

variable {b : Builder} {base : Bytes} {filenames : List Bytes} {app : Application} {e : BuildError}

/-- **What a build fails for, when it is about what is in a file, is wrong with a file that was
given.** -/
theorem exists_of_isAboutContent (hcontent : e.IsAboutContent)
    (h : (b.build base filenames).run.value = .error e) :
    ∃ n ∈ filenames, (∃ cause,
        (b.tree.sourceFile (Path.join base n)).run.value = .error cause ∧ e = .ofSyntax cause) ∨
      ∃ source, (b.tree.sourceFile (Path.join base n)).run.value = .ok source ∧
        (extract b.isStandard b.options.exemptions (Path.clean n) source).run.value = .error e := by
  cases fails_of_build h with
  | filename n => simp [BuildError.isAboutContent_iff, BuildError.badFilename] at hcontent
  | gather h =>
    cases h with
    | unlisted dir reason => simp [BuildError.isAboutContent_iff, BuildError.unlisted] at hcontent
    | mixed dir first other =>
      simp [BuildError.isAboutContent_iff, BuildError.mixedPackages] at hcontent
    | unparsed hn hcause => exact ⟨_, hn, Or.inl ⟨_, hcause, rfl⟩⟩
    | unsound hn hsource hextract => exact ⟨_, hn, Or.inr ⟨_, hsource, hextract⟩⟩
  | assemble _ _ h =>
    rcases assembleAll_eq_error h with rfl | rfl | ⟨path, rfl⟩ | ⟨path, rfl⟩ <;>
      simp [BuildError.isAboutContent_iff, BuildError.noFreeName, BuildError.reserved,
        BuildError.shadowed, BuildError.registeredTwice, BuildError.malformed] at hcontent
  | exclusion pattern => simp [BuildError.isAboutContent_iff, BuildError.badExclusion] at hcontent
  | excluded path => simp [BuildError.isAboutContent_iff, BuildError.allExcluded] at hcontent
  | cycle paths => simp [BuildError.isAboutContent_iff, BuildError.cyclic] at hcontent

end Builder

namespace Program

variable {config : Config} {files : List Bytes} {s : Session} {t : FileTree} {names : Namer}
  {e : BuildError}

/-- **Files that are sound do not make a build fail** by what is in them. -/
theorem not_isAboutContent (hsound : ∀ n ∈ files, ∃ file, made config t n = .ok file)
    (h : ((builder names config t).build config.baseDir files).run.value = .error e) :
    ¬ e.IsAboutContent := by
  intro hcontent
  obtain ⟨n, hn, hcause⟩ := Builder.exists_of_isAboutContent hcontent h
  obtain ⟨file, hfile⟩ := hsound n hn
  obtain ⟨source, hsource, hextract⟩ := Attempt.value_bind_eq_ok.1 hfile
  rw [Attempt.value_adapt, mapError_eq_ok] at hsource
  rcases hcause with ⟨cause, hcause, -⟩ | ⟨other, hother, hfault⟩
  · cases hcause.symm.trans hsource
  obtain rfl : other = source := Except.ok.inj (hother.symm.trans hsource)
  obtain ⟨made, hmade⟩ := SourceFile.extract_rename hextract (Path.clean n)
  cases hmade.symm.trans hfault

/-- **Files that were checked are built, or fail for something else than what is in them.** -/
theorem order_of_check {later : Session} (hlog : Undisturbed config files later.tree s)
    (hcheck : (check config files s).1 = successCode) (names : Namer) :
    let attempt := ((builder names config later.tree).build config.baseDir files).run
    (∃ app, attempt.value = .ok app ∧
      order names config files later =
        (successCode, (later.play attempt.events).print app.listing)) ∨
    ∃ e, attempt.value = .error e ∧ ¬ e.IsAboutContent ∧
      order names config files later =
        (failureCode, (later.play attempt.events).complain (errorText e.text)) := by
  intro attempt
  cases hvalue : attempt.value with
  | ok app =>
    refine Or.inl ⟨app, rfl, ?_⟩
    unfold order
    simp only
    rw [hvalue]
  | error e =>
    refine Or.inr ⟨e, rfl, ?_, ?_⟩
    · exact not_isAboutContent (made_of_check hlog hcheck) hvalue
    · unfold order
      simp only
      rw [hvalue]

/-- Files that are sound one by one, with two directories that import each other. -/
def circularTree : FileTree where
  entries := [
    ([ascii "go", ascii "src", ascii "net", ascii "http"], .directory),
    ([ascii "a.go"], .file (ascii "package a\nimport \"net/http\"\n" ++
      ascii "var x = http.C\x7bD: 1\x7d\n")),
    ([ascii "b", ascii "b.go"], .file (ascii "package b\nimport \"c\"\n")),
    ([ascii "c", ascii "c.go"], .file (ascii "package c\nimport \"b\"\n"))]

/-- A run that logs to the console. -/
def circularSession : Session where
  clock := ⟨ascii "12:00:00", 0⟩
  logger := (Log.Logger.init {} {} false { tree := circularTree }).1
  output := { tree := circularTree }

def circularConfig : Config where
  stdlibRoot := ascii "go"

def circularNames : List Bytes := [ascii "./a.go", ascii "b//b.go", ascii "c/c.go"]

theorem order_of_check_circular :
    Undisturbed circularConfig circularNames circularTree circularSession ∧
      (check circularConfig circularNames circularSession).1 = successCode ∧
      ∃ e, ((builder (.ofSeed 0) circularConfig circularTree).build (ascii ".")
        circularNames).run.value = .error e ∧ ¬ e.IsAboutContent := by
  have hlog : Undisturbed circularConfig circularNames circularTree circularSession := by
    refine undisturbed_of_keepsTree (Session.keepsTree_of_consoles fun x hx => ?_)
    obtain rfl := List.mem_singleton.1 hx
    exact ⟨_, _, rfl⟩
  have hcheck : (check circularConfig circularNames circularSession).1 = successCode := by
    decide +kernel
  have hfails :
      (order (.ofSeed 0) circularConfig circularNames circularSession).1 = failureCode := by
    decide +kernel
  refine ⟨hlog, hcheck, ?_⟩
  have hlater : Undisturbed circularConfig circularNames circularSession.tree circularSession :=
    hlog
  rcases order_of_check hlater hcheck (.ofSeed 0) with
    ⟨app, -, horder⟩ | ⟨e, hvalue, hcontent, -⟩
  · rw [horder] at hfails
    cases hfails
  · exact ⟨e, hvalue, hcontent⟩

end Program

end BuildOrder
