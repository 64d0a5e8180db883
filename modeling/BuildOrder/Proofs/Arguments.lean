import BuildOrder.CommandLine
import Mathlib.Data.List.Basic

/-!
# Arguments after two dashes

Two dashes end the options; the arguments after them are operands, and name files.

* `CommandLine.readArguments_dashes`: **operands are files as they stand**, and set nothing.
* `CommandLine.parse_operands`: what else the text of operands is good for. The two readers that do
  not look for the dashes see configuration files and logging options among them.
-/

namespace BuildOrder.CommandLine

/-- The argument that ends the options. -/
def dashes : Bytes := ascii "--"

variable {before after : List Bytes}

/-- **Operands are files as they stand.** The reader of options comes to the dashes with what the
arguments before them have set, and takes the rest for files. -/
theorem readArguments_dashes (hbefore : dashes ∉ before) (c : Config) (files : List Bytes) :
    readArguments c files (before ++ dashes :: after) =
      (readArguments c files before).map fun read => (read.1, read.2 ++ after) := by
  induction before generalizing c files with
  | nil =>
    have hfile : isFile dashes = false := by decide
    have hdashes : dashes = ascii "--" := rfl
    simp only [List.nil_append, readArguments, hfile, Bool.false_eq_true, if_false, if_pos hdashes]
    rfl
  | cons arg rest ih =>
    obtain ⟨hne, hrest⟩ := not_or.1 (mt List.mem_cons.2 hbefore)
    have hdashes : arg ≠ ascii "--" := fun heq => hne heq.symm
    rw [List.cons_append, readArguments, readArguments, if_neg hdashes, if_neg hdashes]
    by_cases hfile : isFile arg = true
    · rw [if_pos hfile, if_pos hfile, ih hrest]
    rw [if_neg hfile, if_neg hfile]
    by_cases hskip : (Log.isLogOption arg || (configFile? arg).isSome) = true
    · rw [if_pos hskip, if_pos hskip, ih hrest]
    rw [if_neg hskip, if_neg hskip]
    cases c.applyFlag? arg with
    | none => rfl
    | some c => exact ih hrest c files

/-- What the arguments before the dashes come to when there are operands, these apart. The operands
name the configuration files in `named`. -/
def beforeOperands (t : FileTree) (name : Bytes) (before named : List Bytes) :
    Attempt UsageFault CommandLine :=
  match Command.ofName? name with
  | none => throw (.unknownCommand name)
  | some command => do
    let config ← loadConfigs t {} (before.filterMap configFile? ++ named)
    let (config, files) ← liftExcept (readArguments config [] before)
    liftExcept (config.validate.mapError UsageFault.invalid)
    return { command, config, files }

theorem parse_dashes (hbefore : dashes ∉ before) (hafter : after ≠ []) (t : FileTree) (name : Bytes) :
    parse t (name :: (before ++ dashes :: after)) =
      (fun line => { line with files := line.files ++ after }) <$>
        beforeOperands t name before (after.filterMap configFile?) := by
  have hnamed : (before ++ dashes :: after).filterMap configFile? =
      before.filterMap configFile? ++ after.filterMap configFile? := by
    have hdashes : configFile? dashes = none := by decide
    rw [List.filterMap_append, List.filterMap_cons, hdashes]
  unfold parse beforeOperands
  simp only [hnamed, readArguments_dashes hbefore]
  cases Command.ofName? name with
  | none => rfl
  | some command =>
    rw [map_bind]
    refine bind_congr fun config => ?_
    cases readArguments config [] before with
    | error fault => rfl
    | ok read =>
      have hne : read.2 ++ after ≠ [] := fun heq => hafter (List.append_eq_nil_iff.1 heq).2
      have hmap : (Except.ok read : Except UsageFault _).map
          (fun read => (read.1, read.2 ++ after)) = .ok (read.1, read.2 ++ after) := rfl
      rw [hmap]
      simp only [liftExcept, pure_bind, if_neg hne]
      cases read.1.validate with
      | error fault => rfl
      | ok _ => rfl

/-- Logging options are looked for among all arguments. -/
theorem logConfig_dashes (before after : List Bytes) (environment : Bytes) :
    Log.LogConfig.ofArguments (before ++ dashes :: after) environment =
      Log.LogConfig.ofArguments (before ++ after) environment := by
  have hdashes : Log.LogOption.ofArgument? dashes = none := by decide
  unfold Log.LogConfig.ofArguments
  rw [List.filterMap_append, List.filterMap_cons, hdashes, List.filterMap_append]

/-- **The text of operands matters in two ways only.** Operands are files as they stand, and for
operands that name the same configuration files there is one outcome, a configuration or a fault, to
which they are added; but the configuration files that they name are loaded, and logging options
among them count as they do before the dashes. -/
theorem parse_operands (t : FileTree) (name : Bytes) (hbefore : dashes ∉ before) :
    (∀ named, ∃ outcome : Attempt UsageFault CommandLine, ∀ after, after ≠ [] →
      after.filterMap configFile? = named →
        parse t (name :: (before ++ dashes :: after)) =
          (fun line => { line with files := line.files ++ after }) <$> outcome) ∧
    ∀ after environment,
      Log.LogConfig.ofArguments (name :: (before ++ dashes :: after)) environment =
        Log.LogConfig.ofArguments (name :: (before ++ after)) environment := by
  refine ⟨fun named => ⟨beforeOperands t name before named, ?_⟩,
    fun after environment => logConfig_dashes (name :: before) after environment⟩
  rintro after hafter rfl
  exact parse_dashes hbefore hafter t name

/-- A configuration file for another target. -/
def targetTree : FileTree where
  entries := [([ascii "c.toml"], .file (ascii "[context]\nos = \"plan9\"\narch = \"arm64\"\n"))]

/-- The configuration file is loaded, but the options beside it among the operands set nothing. -/
theorem parse_operands_target :
    dashes ∉ [ascii "--os=linux", ascii "a.go"] ∧
      (∃ outcome : Attempt UsageFault CommandLine,
        parse targetTree ([ascii "order", ascii "--os=linux", ascii "a.go", dashes] ++
          [ascii "--os=darwin", ascii "--config=c.toml"]) =
            (fun line => { line with
              files := line.files ++ [ascii "--os=darwin", ascii "--config=c.toml"] }) <$> outcome ∧
        parse targetTree ([ascii "order", ascii "--os=linux", ascii "a.go", dashes] ++
          [ascii "--config=c.toml", dashes, ascii "--none"]) =
            (fun line => { line with
              files := line.files ++ [ascii "--config=c.toml", dashes, ascii "--none"] }) <$> outcome) ∧
      (parse targetTree ([ascii "order", ascii "--os=linux", ascii "a.go", dashes] ++
        [ascii "--os=darwin", ascii "--config=c.toml"])).run.value =
          .ok ⟨.order, { os := ascii "linux", arch := ascii "arm64" },
            [ascii "a.go", ascii "--os=darwin", ascii "--config=c.toml"]⟩ := by
  have hbefore : dashes ∉ [ascii "--os=linux", ascii "a.go"] := by decide
  obtain ⟨outcome, houtcome⟩ := (parse_operands targetTree (ascii "order") hbefore).1 [ascii "c.toml"]
  exact ⟨hbefore, ⟨outcome, houtcome _ (by decide) (by decide), houtcome _ (by decide) (by decide)⟩,
    by decide +kernel⟩

/-- **Operands are read for more than their names**: one makes the command line fail, for want of a
configuration file, and one changes the level of the log. -/
theorem operand_read :
    (parse ⟨[], []⟩ [ascii "order", dashes, ascii "a.go"]).run.value =
        .ok ⟨.order, {}, [ascii "a.go"]⟩ ∧
      (parse ⟨[], []⟩ [ascii "order", dashes, ascii "--config=a.go"]).run.value =
        .error (.notLoaded (.notReadable (ascii "a.go"))) ∧
      (Log.LogConfig.ofArguments [ascii "order", dashes, ascii "a.go"] []).level = .warn ∧
      (Log.LogConfig.ofArguments [ascii "order", dashes, ascii "-q"] []).level = .error := by
  exact ⟨rfl, rfl, rfl, rfl⟩

end BuildOrder.CommandLine
