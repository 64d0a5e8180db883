import BuildOrder.Proofs.Arguments
import Mathlib.Data.List.Forall2

/-!
# Options over configuration files

The arguments are read twice: first for the configuration files that they name, then for what the
options set over them. Neither reader minds what the other one takes.

* `Config.change?`, `CommandLine.change_apart`: what an option sets, and that it is nothing else.
* `CommandLine.readArguments_others`: the second reader passes over the configuration files.
* `CommandLine.loadConfigs_eq_ok_iff`, `CommandLine.readArguments_eq_ok_iff`: what each comes to.
* `CommandLine.parse_moved`: **it does not matter where the configuration files are named** among
  the arguments; the last of them counts, and all options are applied to it in order.
-/

namespace BuildOrder

/-! ### What options set -/

namespace Config

/-- What the argument sets, if it is an option that sets something. -/
def change? (arg : Bytes) : Option (Config → Config) :=
  flags.findSome? fun (flag, set) => (Bytes.optionValue? flag arg).map set

theorem applyFlag?_eq (c : Config) (arg : Bytes) :
    c.applyFlag? arg = (change? arg).map fun change => change c := by
  rw [applyFlag?, change?, List.map_findSome?]
  congr 1
  funext ⟨flag, set⟩
  simp [Option.map_map, Function.comp_def]

/-- The changes one after the other. -/
def applyAll (c : Config) (changes : List (Config → Config)) : Config :=
  changes.foldl (fun c change => change c) c

end Config

namespace CommandLine

variable {t : FileTree} {c : Config} {arg : Bytes} {args args' files : List Bytes}

/-- The argument names a configuration file. -/
def namesConfig (arg : Bytes) : Bool := (configFile? arg).isSome

/-- An option that sets something is no file, no logging option, and names no configuration file. -/
theorem change_apart (h : (Config.change? arg).isSome = true) :
    isFile arg = false ∧ Log.isLogOption arg = false ∧ namesConfig arg = false := by
  obtain ⟨change, hchange⟩ := Option.isSome_iff_exists.1 h
  obtain ⟨⟨flag, set⟩, hmem, hset⟩ := List.exists_of_findSome?_eq_some hchange
  obtain ⟨value, hvalue, -⟩ := Option.map_eq_some_iff.1 hset
  obtain rfl := Bytes.optionValue?_eq_some.1 hvalue
  have hflag : flag ∈ Config.flags.map Prod.fst := List.mem_map_of_mem hmem
  simp only [Config.flags, List.map_cons, List.map_nil, List.mem_cons, List.not_mem_nil,
    or_false] at hflag
  rcases hflag with rfl | rfl | rfl | rfl | rfl | rfl | rfl | rfl | rfl
  all_goals exact ⟨rfl, rfl, rfl⟩

theorem isFile_of_namesConfig (h : namesConfig arg = true) : isFile arg = false := by
  obtain ⟨value, hvalue⟩ := Option.isSome_iff_exists.1 h
  rw [Bytes.optionValue?_eq_some.1 hvalue]
  rfl

theorem change?_eq_none (h : isFile arg = true ∨ (Log.isLogOption arg || namesConfig arg) = true) :
    Config.change? arg = none := by
  by_contra hne
  obtain ⟨hfile, hlog, hconfig⟩ := change_apart (Option.isSome_iff_ne_none.2 hne)
  simp [hfile, hlog, hconfig] at h

/-! ### The second reader -/

/-- One argument that is not the dashes. -/
theorem readArguments_cons (hne : arg ≠ dashes) (c : Config) (files rest : List Bytes) :
    readArguments c files (arg :: rest) =
      if isFile arg then readArguments c (files ++ [arg]) rest
      else if Log.isLogOption arg || namesConfig arg then readArguments c files rest
      else
        match Config.change? arg with
        | some change => readArguments (change c) files rest
        | none => .error (.unknownOption arg) := by
  have hdashes : ¬ arg = ascii "--" := hne
  rw [readArguments, if_neg hdashes, Config.applyFlag?_eq]
  cases Config.change? arg <;> rfl

/-- **The second reader passes over the configuration files.** -/
theorem readArguments_others (h : dashes ∉ args) (c : Config) (files : List Bytes) :
    readArguments c files (args.filter fun arg => !namesConfig arg) =
      readArguments c files args := by
  induction args generalizing c files with
  | nil => rfl
  | cons arg rest ih =>
    obtain ⟨hne, hrest⟩ := not_or.1 (mt List.mem_cons.2 h)
    by_cases hconfig : namesConfig arg = true
    · have hfile : ¬ isFile arg = true := by simp [isFile_of_namesConfig hconfig]
      rw [List.filter_cons_of_neg (by simp [hconfig]), ih hrest,
        readArguments_cons (Ne.symm hne), if_neg hfile, if_pos (by simp [hconfig])]
    · rw [List.filter_cons_of_pos (by simp [hconfig]), readArguments_cons (Ne.symm hne),
        readArguments_cons (Ne.symm hne)]
      simp only [ih hrest]

/-- The argument is a file or an option that is known. -/
def IsKnown (arg : Bytes) : Prop :=
  isFile arg = true ∨ (Log.isLogOption arg || namesConfig arg) = true ∨
    (Config.change? arg).isSome = true

/-- **What the second reader comes to**: it applies all options in order and takes the files. -/
theorem readArguments_eq_ok_iff (h : dashes ∉ args) {read : Config × List Bytes} :
    readArguments c files args = .ok read ↔ (∀ arg ∈ args, IsKnown arg) ∧
      read = (c.applyAll (args.filterMap Config.change?), files ++ args.filter isFile) := by
  induction args generalizing c files with
  | nil => simp [readArguments, Config.applyAll, eq_comm]
  | cons arg rest ih =>
    obtain ⟨hne, hrest⟩ := not_or.1 (mt List.mem_cons.2 h)
    rw [readArguments_cons (Ne.symm hne), List.forall_mem_cons]
    by_cases hfile : isFile arg = true
    · -- a file
      have hknown : IsKnown arg := Or.inl hfile
      rw [if_pos hfile, ih hrest, List.filterMap_cons_none (change?_eq_none (Or.inl hfile)),
        List.filter_cons_of_pos hfile, List.append_assoc, List.singleton_append,
        and_iff_right hknown]
    by_cases hskip : (Log.isLogOption arg || namesConfig arg) = true
    · -- an option of the other readers
      have hknown : IsKnown arg := Or.inr (Or.inl hskip)
      rw [if_neg hfile, if_pos hskip, ih hrest,
        List.filterMap_cons_none (change?_eq_none (Or.inr hskip)),
        List.filter_cons_of_neg hfile, and_iff_right hknown]
    rw [if_neg hfile, if_neg hskip, List.filter_cons_of_neg hfile]
    cases hchange : Config.change? arg with
    | none =>
      have hunknown : ¬ IsKnown arg := by simp [IsKnown, hfile, hskip, hchange]
      simp [hunknown]
    | some change =>
      have hknown : IsKnown arg := Or.inr (Or.inr (by rw [hchange]; rfl))
      rw [List.filterMap_cons_some hchange, and_iff_right hknown]
      exact ih hrest

/-! ### The first reader -/

/-- The configuration file is there and sound, and this is what it says. -/
def Loads (t : FileTree) (path : Bytes) (config : Config) : Prop :=
  (Config.load t path).run.value = .ok config

/-- **What the first reader comes to**: all files are sound, and the last one counts. -/
theorem loadConfigs_eq_ok_iff {paths : List Bytes} {config : Config} :
    (loadConfigs t c paths).run.value = .ok config ↔
      ∃ configs, List.Forall₂ (Loads t) paths configs ∧ config = configs.getLastD c := by
  induction paths generalizing c with
  | nil =>
    constructor
    · intro h
      exact ⟨[], List.Forall₂.nil, (Except.ok.inj h).symm⟩
    · rintro ⟨_, ⟨⟩, rfl⟩
      rfl
  | cons path rest ih =>
    rw [loadConfigs, Attempt.value_bind_eq_ok]
    simp only [Attempt.value_adapt, mapError_eq_ok, ih]
    constructor
    · rintro ⟨first, hfirst, configs, hconfigs, rfl⟩
      exact ⟨first :: configs, List.Forall₂.cons hfirst hconfigs, (List.getLastD_cons).symm⟩
    · rintro ⟨_, hload, rfl⟩
      cases hload with
      | cons hfirst hconfigs => exact ⟨_, hfirst, _, hconfigs, List.getLastD_cons⟩

/-! ### Command lines -/

/-- The same arguments, but those that name configuration files stand elsewhere among them. Both
they and the others keep their order. -/
structure Moved (args args' : List Bytes) : Prop where
  named : args'.filter namesConfig = args.filter namesConfig
  others : (args'.filter fun arg => !namesConfig arg) = args.filter fun arg => !namesConfig arg

theorem filterMap_configFile? (args : List Bytes) :
    (args.filter namesConfig).filterMap configFile? = args.filterMap configFile? := by
  rw [List.filterMap_filter]
  congr 1
  funext arg
  cases harg : configFile? arg <;> simp [namesConfig, harg]

theorem Moved.dashes_notMem (h : Moved args args') (hdashes : dashes ∉ args) : dashes ∉ args' := by
  intro hmem
  have hother : dashes ∈ args'.filter fun arg => !namesConfig arg :=
    List.mem_filter.2 ⟨hmem, by decide⟩
  rw [h.others] at hother
  exact hdashes (List.mem_filter.1 hother).1

theorem Moved.parse_eq (h : Moved args args') (hdashes : dashes ∉ args) (t : FileTree)
    (name : Bytes) : parse t (name :: args') = parse t (name :: args) := by
  have hnamed : args'.filterMap configFile? = args.filterMap configFile? := by
    rw [← filterMap_configFile?, h.named, filterMap_configFile?]
  have hread (c : Config) : readArguments c [] args' = readArguments c [] args := by
    rw [← readArguments_others (h.dashes_notMem hdashes), h.others, readArguments_others hdashes]
  simp only [parse, hnamed, hread]

/-- The arguments make this command line: the command and all arguments are known, there is a file,
all configuration files are sound, and the configuration is the last of them, or else the default,
with all options applied to it in order, and can be used. -/
structure Makes (t : FileTree) (name : Bytes) (args : List Bytes) (line : CommandLine) : Prop where
  command : Command.ofName? name = some line.command
  known : ∀ arg ∈ args, IsKnown arg
  files_eq : line.files = args.filter isFile
  files_ne : line.files ≠ []
  config : ∃ configs, List.Forall₂ (Loads t) (args.filterMap configFile?) configs ∧
    line.config = (configs.getLastD {}).applyAll (args.filterMap Config.change?)
  valid : line.config.validate = .ok ()

section Makes

variable {name : Bytes} {line : CommandLine}

theorem makes_of_parse (hdashes : dashes ∉ args)
    (h : (parse t (name :: args)).run.value = .ok line) : Makes t name args line := by
  simp only [parse] at h
  cases hcommand : Command.ofName? name with
  | none =>
    rw [hcommand] at h
    cases h
  | some command =>
    rw [hcommand] at h
    obtain ⟨config, hload, h⟩ := Attempt.value_bind_eq_ok.1 h
    obtain ⟨configs, hconfigs, rfl⟩ := loadConfigs_eq_ok_iff.1 hload
    obtain ⟨read, hread, h⟩ := Attempt.value_bind_eq_ok.1 h
    rw [Attempt.value_liftExcept, readArguments_eq_ok_iff hdashes] at hread
    obtain ⟨hknown, rfl⟩ := hread
    split at h
    · cases h
    · rename_i hfiles
      obtain ⟨_, hvalid, h⟩ := Attempt.value_bind_eq_ok.1 h
      rw [Attempt.value_liftExcept, mapError_eq_ok] at hvalid
      obtain rfl := Except.ok.inj h
      exact ⟨hcommand, hknown, rfl, hfiles, ⟨configs, hconfigs, rfl⟩, hvalid⟩

theorem Makes.value_parse (h : Makes t name args line) (hdashes : dashes ∉ args) :
    (parse t (name :: args)).run.value = .ok line := by
  obtain ⟨configs, hconfigs, hconfig⟩ := h.config
  have hload : (loadConfigs t {} (args.filterMap configFile?)).run.value =
      .ok (configs.getLastD {}) := loadConfigs_eq_ok_iff.2 ⟨configs, hconfigs, rfl⟩
  have hread : readArguments (configs.getLastD {}) [] args = .ok (line.config, line.files) :=
    (readArguments_eq_ok_iff hdashes).2 ⟨h.known, Prod.ext hconfig h.files_eq⟩
  simp only [parse, h.command]
  refine Attempt.value_bind_eq_ok.2 ⟨_, hload, Attempt.value_bind_eq_ok.2
    ⟨(line.config, line.files), ?_, ?_⟩⟩
  · rw [Attempt.value_liftExcept, hread]
  · rw [if_neg h.files_ne, h.valid]
    rfl

end Makes

/-- **It does not matter where configuration files are named** among the arguments: the outcome is
the same, a fault too. In a command line that is accepted, the last file counts, and all options are
applied to it in their own order. -/
theorem parse_moved (t : FileTree) (name : Bytes) (hdashes : dashes ∉ args)
    (hmoved : Moved args args') :
    parse t (name :: args') = parse t (name :: args) ∧
      ∀ line, (parse t (name :: args')).run.value = .ok line ↔ Makes t name args line := by
  refine ⟨hmoved.parse_eq hdashes t name, fun line => ?_⟩
  rw [hmoved.parse_eq hdashes t name]
  exact ⟨makes_of_parse hdashes, fun h => h.value_parse hdashes⟩

/-- Two configuration files for other targets. -/
def targetsTree : FileTree where
  entries := [
    ([ascii "a.toml"], .file (ascii "[context]\nos = \"darwin\"\narch = \"386\"\n")),
    ([ascii "b.toml"], .file (ascii "[context]\narch = \"arm64\"\n"))]

/-- The files come after the options that add to them. -/
theorem parse_moved_last :
    let args := [ascii "--config=a.toml", ascii "--tags=x", ascii "p.go", ascii "--config=b.toml",
      ascii "--tags=y"]
    let args' := [ascii "--tags=x", ascii "p.go", ascii "--tags=y", ascii "--config=a.toml",
      ascii "--config=b.toml"]
    let line : CommandLine :=
      ⟨.order, { arch := ascii "arm64", tags := some [ascii "y"] }, [ascii "p.go"]⟩
    dashes ∉ args ∧ Moved args args' ∧
      parse targetsTree (ascii "order" :: args') = parse targetsTree (ascii "order" :: args) ∧
      Makes targetsTree (ascii "order") args line := by
  intro args args' line
  have hdashes : dashes ∉ args := by decide
  have hmoved : Moved args args' := ⟨by decide, by decide⟩
  have hparse := parse_moved targetsTree (ascii "order") hdashes hmoved
  exact ⟨hdashes, hmoved, hparse.1, (hparse.2 line).1 (by decide +kernel)⟩

end CommandLine

end BuildOrder
