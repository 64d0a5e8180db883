import BuildOrder.Log.Logger
import Mathlib.Data.List.Basic
import Mathlib.Data.Fintype.EquivFin

/-!
# Which records a logger accepts

A logger has a level for its first test, and a filter with a level for all components and levels
that some components have of their own. Three calls set them, each in its own way.

* `Filter.lookup_parse`, `Filter.default_parse`: what a filter text says, by its last entry on a
  component.
* `Call.run`, `Logger.after`: a call of a logger, and what a history of calls leaves.
* `Logger.lookup_after`: the levels of single components are those of the last filter text.
* `Logger.accepts_after_iff`: **the first test lets pass all that the filter accepts, unless the
  last call that set a level or filter left a level of the filter below it.**
* `Logger.accepts_init_iff`: **what a logger accepts that has just been initialised**, and when this
  is a matter of the configuration alone.
* `Logger.exists_rejected`, `Logger.exists_left`: the first test can stand in the way of the filter,
  and an earlier filter or level can outlive the initialisation.
-/

namespace BuildOrder.Log

/-! ### Levels -/

namespace Level

variable {a b c : Level}

theorem le_rfl : a ≤ a := Nat.le_refl a.rank

theorem le_trans (hab : a ≤ b) (hbc : b ≤ c) : a ≤ c := Nat.le_trans hab hbc

theorem le_of_not_le (h : ¬ a ≤ b) : b ≤ a := Nat.le_of_lt (Nat.lt_of_not_le h)

theorem least_le_iff : a.least b ≤ c ↔ a ≤ c ∨ b ≤ c := by
  unfold least
  split
  · rename_i hba
    exact ⟨Or.inr, fun h => h.elim (le_trans hba) id⟩
  · rename_i hba
    exact ⟨Or.inl, fun h => h.elim id (le_trans (le_of_not_le hba))⟩

end Level

/-! ### What a filter text says -/

/-- The level that an entry gives the component: of the component with a level, this level, and of
the component alone, the least. -/
def entryLevel? (component entry : Bytes) : Option Level :=
  match Bytes.cutAt 0x3d entry with
  | (name, some level) =>
    if name = component ∧ name ≠ ascii "*" then some (.ofName level) else none
  | (name, none) => if name = component ∧ name ≠ [] then some .trace else none

/-- The level that an entry gives all components without one of their own. -/
def entryDefault? (entry : Bytes) : Option Level :=
  match Bytes.cutAt 0x3d entry with
  | (name, some level) => if name = ascii "*" then some (.ofName level) else none
  | (_, none) => none

/-- The level that the last entry of a filter text on the component gives it. -/
def ownLevel? (text component : Bytes) : Option Level :=
  (text.splitOn 0x2c).reverse.findSome? (entryLevel? component)

/-- The level that the last entry of a filter text on all others gives them. -/
def otherLevel? (text : Bytes) : Option Level :=
  (text.splitOn 0x2c).reverse.findSome? entryDefault?

/-- The level that a filter text gives a component, where the others have the given level unless the
text gives them one. -/
def textLevel (default : Level) (text component : Bytes) : Level :=
  (ownLevel? text component).getD ((otherLevel? text).getD default)

namespace Filter

variable (f : Filter)

theorem lookup_filter_ne {name component : Bytes} (hne : name ≠ component)
    (levels : List (Bytes × Level)) :
    (levels.filter (·.1 != name)).lookup component = levels.lookup component := by
  induction levels with
  | nil => rfl
  | cons entry levels ih =>
    rw [List.lookup_cons]
    by_cases hentry : entry.1 = name
    · have hother : (component == entry.1) = false := by simpa [hentry] using Ne.symm hne
      rw [List.filter_cons_of_neg (by simp [hentry]), ih, hother]
    · rw [List.filter_cons_of_pos (by simp [hentry]), List.lookup_cons, ih]

theorem lookup_setLevel (name component : Bytes) (level : Level) :
    (f.setLevel name level).levels.lookup component =
      if name = component then some level else f.levels.lookup component := by
  rw [setLevel, List.lookup_cons]
  by_cases hname : name = component
  · simp [hname]
  · have hother : (component == name) = false := by simpa using Ne.symm hname
    rw [hother, if_neg hname]
    exact lookup_filter_ne hname f.levels

theorem lookup_addEntry (entry component : Bytes) :
    (f.addEntry entry).levels.lookup component =
      (entryLevel? component entry).or (f.levels.lookup component) := by
  unfold addEntry entryLevel?
  obtain ⟨name, value⟩ := Bytes.cutAt 0x3d entry
  cases value with
  | some level =>
    dsimp only
    by_cases hstar : name = ascii "*"
    · simp [hstar]
    rw [if_neg hstar, lookup_setLevel]
    by_cases hname : name = component
    · rw [if_pos hname, if_pos ⟨hname, hstar⟩, Option.some_or]
    · rw [if_neg hname, if_neg (fun h => hname h.1), Option.none_or]
  | none =>
    dsimp only
    by_cases hempty : name = []
    · simp [hempty]
    rw [if_neg hempty, lookup_setLevel]
    by_cases hname : name = component
    · rw [if_pos hname, if_pos ⟨hname, hempty⟩, Option.some_or]
    · rw [if_neg hname, if_neg (fun h => hname h.1), Option.none_or]

theorem default_addEntry (entry : Bytes) :
    (f.addEntry entry).default = (entryDefault? entry).getD f.default := by
  unfold addEntry entryDefault?
  obtain ⟨name, value⟩ := Bytes.cutAt 0x3d entry
  cases value with
  | some level => by_cases hstar : name = ascii "*" <;> simp [setLevel, hstar]
  | none => by_cases hempty : name = [] <;> simp [setLevel, hempty]

theorem lookup_foldl_addEntry (entries : List Bytes) (component : Bytes) :
    (entries.foldl addEntry f).levels.lookup component =
      (entries.reverse.findSome? (entryLevel? component)).or (f.levels.lookup component) := by
  induction entries generalizing f with
  | nil => simp
  | cons entry entries ih =>
    rw [List.foldl_cons, ih, lookup_addEntry, List.reverse_cons, List.findSome?_append,
      List.findSome?_singleton, Option.or_assoc]

theorem default_foldl_addEntry (entries : List Bytes) :
    (entries.foldl addEntry f).default =
      (entries.reverse.findSome? entryDefault?).getD f.default := by
  induction entries generalizing f with
  | nil => simp
  | cons entry entries ih =>
    rw [List.foldl_cons, ih, default_addEntry, List.reverse_cons, List.findSome?_append,
      List.findSome?_singleton, Option.getD_or]

/-- **A filter text gives each component the level of its last entry on it.** -/
theorem lookup_parse (text component : Bytes) :
    (f.parse text).levels.lookup component = ownLevel? text component := by
  rw [parse, lookup_foldl_addEntry, List.lookup_nil, Option.or_none]
  rfl

theorem default_parse (text : Bytes) :
    (f.parse text).default = (otherLevel? text).getD f.default :=
  default_foldl_addEntry _ _

theorem levelOf_parse (text component : Bytes) :
    (f.parse text).levelOf component = textLevel f.default text component := by
  rw [levelOf, lookup_parse, default_parse]
  rfl

theorem accepts_eq_true_iff {level : Level} {component : Bytes} :
    f.accepts level component = true ↔ f.levelOf component ≤ level :=
  decide_eq_true_iff

theorem foldl_least_le (levels : List (Bytes × Level)) (start : Level) :
    levels.foldl (fun least entry => least.least entry.2) start ≤ start ∧
      ∀ entry ∈ levels, levels.foldl (fun least entry => least.least entry.2) start ≤ entry.2 := by
  induction levels generalizing start with
  | nil => exact ⟨Level.le_rfl, by simp⟩
  | cons entry levels ih =>
    obtain ⟨hstart, hlevels⟩ := ih (start.least entry.2)
    refine ⟨Level.le_trans hstart (Level.least_le_iff.2 (Or.inl Level.le_rfl)), ?_⟩
    intro other hother
    rcases List.mem_cons.1 hother with rfl | hother
    · exact Level.le_trans hstart (Level.least_le_iff.2 (Or.inr Level.le_rfl))
    · exact hlevels other hother

theorem leastLevel_le (component : Bytes) : f.leastLevel ≤ f.levelOf component := by
  obtain ⟨hdefault, hlevels⟩ := foldl_least_le f.levels f.default
  unfold levelOf
  cases hown : f.levels.lookup component with
  | none => exact hdefault
  | some own =>
    obtain ⟨before, after, hlevel, -⟩ := List.lookup_eq_some_iff.1 hown
    exact hlevels (component, own) (by simp [hlevel])

end Filter

/-! ### Calls -/

/-- A call of a logger. -/
inductive Call where
  | init (c : LogConfig) (terminal : Bool)
  | setLevel (level : Level)
  | setFilter (text : Bytes)
  | addSink (s : Sink)
  | clearSinks
  | flush
  | write (clock : Clock) (r : Record)
  | emit (clock : Clock) (r : Record)

namespace Call

/-- The logger and the output after a call. -/
def run (s : Logger × Output) : Call → Logger × Output
  | init c terminal => s.1.init c terminal s.2
  | setLevel level => (s.1.setLevel level, s.2)
  | setFilter text => (s.1.setFilter text, s.2)
  | addSink sink => (s.1.addSink sink, s.2)
  | clearSinks => s.1.clearSinks s.2
  | flush => s.1.flush s.2
  | write clock r => s.1.write clock r s.2
  | emit clock r => s.1.emit clock r s.2

/-- The call sets a level or the filter. -/
def sets : Call → Bool
  | init _ _ | setLevel _ | setFilter _ => true
  | _ => false

/-- The filter text that a call brings. -/
def text? : Call → Option Bytes
  | init c _ => if c.filter = [] then none else some c.filter
  | setFilter text => some text
  | _ => none

end Call

namespace Logger

variable {l : Logger} {c : LogConfig} {s : Logger × Output} {call : Call} {text : Bytes}

theorem accepts_eq_true_iff {level : Level} {component : Bytes} :
    l.accepts level component = true ↔ l.level ≤ level ∧ l.filter.levelOf component ≤ level := by
  rw [accepts, Bool.and_eq_true, decide_eq_true_iff, Filter.accepts_eq_true_iff]

/-- The first test lets pass all that the filter accepts. -/
def Agrees (l : Logger) : Prop :=
  ∀ level component, l.accepts level component = l.filter.accepts level component

theorem agrees_iff : l.Agrees ↔ ∀ component, l.level ≤ l.filter.levelOf component := by
  constructor
  · intro h component
    have haccepts : l.filter.accepts (l.filter.levelOf component) component = true :=
      l.filter.accepts_eq_true_iff.2 Level.le_rfl
    rw [← h] at haccepts
    exact (accepts_eq_true_iff.1 haccepts).1
  · intro h level component
    rw [Bool.eq_iff_iff, accepts_eq_true_iff, Filter.accepts_eq_true_iff]
    exact and_iff_right_of_imp (Level.le_trans (h component))

/-! ### One call -/

theorem configure_of_empty (hc : c.filter = []) : l.configure c =
    { l with level := c.level, filter := { l.filter with default := c.level } } := by
  rw [configure, if_pos hc]

theorem configure_of_text (l : Logger) (hc : c.filter ≠ []) : (l.configure c).Agrees ∧
    ∀ component, (l.configure c).filter.levels.lookup component = ownLevel? c.filter component ∧
      (l.configure c).filter.levelOf component = (ownLevel? c.filter component).getD
        (c.level.least ((otherLevel? c.filter).getD l.filter.default)) := by
  rw [agrees_iff, configure, if_neg hc]
  refine ⟨fun component => Filter.leastLevel_le _ component, fun component => ?_⟩
  rw [← l.filter.lookup_parse, ← l.filter.default_parse, Level.least]
  dsimp only
  split <;> exact ⟨rfl, rfl⟩

/-- An initialisation sets the level and the filter of the configuration, whatever becomes of the
sinks. -/
theorem init_configures (l : Logger) (c : LogConfig) (terminal : Bool) (o : Output) :
    (l.init c terminal o).1.level = (l.configure c).level ∧
      (l.init c terminal o).1.filter = (l.configure c).filter := by
  simp only [init, clearSinks, flush]
  by_cases hc : c.filter = []
  · rw [configure_of_empty hc, configure_of_empty hc]
    exact ⟨rfl, rfl⟩
  · rw [configure, configure, if_neg hc, if_neg hc]
    exact ⟨rfl, rfl⟩

/-- A call that sets no level and no filter leaves both. -/
theorem run_of_quiet (h : call.sets = false) :
    (call.run s).1.level = s.1.level ∧ (call.run s).1.filter = s.1.filter := by
  cases call with
  | emit clock r =>
    simp only [Call.run, emit]
    split <;> exact ⟨rfl, rfl⟩
  | addSink | clearSinks | flush | write => exact ⟨rfl, rfl⟩
  | _ => cases h

/-- A call that brings a filter text gives single components the levels that it names, and any other
leaves them theirs. -/
theorem lookup_run (component : Bytes) : (call.run s).1.filter.levels.lookup component =
    call.text?.elim (s.1.filter.levels.lookup component) (ownLevel? · component) := by
  cases hsets : call.sets with
  | false =>
    have htext : call.text? = none := by cases call <;> trivial
    rw [(run_of_quiet hsets).2, htext, Option.elim_none]
  | true =>
    cases call with
    | init c terminal =>
      rw [Call.run, (s.1.init_configures c terminal s.2).2, Call.text?]
      by_cases hc : c.filter = []
      · rw [if_pos hc, configure_of_empty hc, Option.elim_none]
      · rw [if_neg hc, Option.elim_some, ((s.1.configure_of_text hc).2 component).1]
    | setLevel level => rfl
    | setFilter text => exact Filter.lookup_parse _ _ _
    | _ => cases hsets

end Logger

namespace Call

/-- The call leaves a component with a level below that of the first test. Before it the logger is
`l`, and `text` is the filter text in force. -/
def Overtakes (l : Logger) (text : Bytes) : Call → Prop
  | init c _ => c.filter = [] ∧
      ∃ component own, ownLevel? text component = some own ∧ ¬ c.level ≤ own
  | setLevel level => ∃ component own, ownLevel? text component = some own ∧ ¬ level ≤ own
  | setFilter given => ∃ component, ¬ l.level ≤ textLevel l.filter.default given component
  | _ => False

end Call

namespace Logger

variable {l : Logger} {c : LogConfig} {s : Logger × Output} {call : Call} {text : Bytes}

/-- Where the level is set for all components without one of their own, only theirs can be below. -/
theorem forall_le_getD {level : Level} {own? : Bytes → Option Level} :
    (∀ component, level ≤ (own? component).getD level) ↔
      ¬ ∃ component own, own? component = some own ∧ ¬ level ≤ own := by
  constructor
  · rintro h ⟨component, own, hown, hlevel⟩
    have := h component
    rw [hown] at this
    exact hlevel this
  · intro h component
    cases hown : own? component with
    | none => exact Level.le_rfl
    | some own => exact by_contra fun hlevel => h ⟨component, own, hown, hlevel⟩

theorem agrees_run_iff (hsets : call.sets = true)
    (hown : ∀ component, s.1.filter.levels.lookup component = ownLevel? text component) :
    (call.run s).1.Agrees ↔ ¬ call.Overtakes s.1 text := by
  rw [agrees_iff]
  cases call with
  | init c terminal =>
    obtain ⟨hlevel, hfilter⟩ := s.1.init_configures c terminal s.2
    rw [Call.run, hlevel, hfilter, Call.Overtakes]
    by_cases hc : c.filter = []
    · rw [configure_of_empty hc, and_iff_right hc, ← forall_le_getD]
      simp only [Filter.levelOf, hown]
    · rw [← agrees_iff]
      exact iff_of_true (s.1.configure_of_text hc).1 fun h => hc h.1
  | setLevel level =>
    rw [Call.Overtakes, ← forall_le_getD]
    simp only [Call.run, setLevel, Filter.levelOf, hown]
  | setFilter given =>
    rw [Call.Overtakes, not_exists]
    simp only [Call.run, setFilter, Filter.levelOf_parse, not_not]
  | _ => cases hsets

/-! ### A history of calls -/

variable {sinks : List Sink} {o : Output} {calls : List Call}

/-- The logger and the output after a history of calls. It starts without a filter text. -/
def play (sinks : List Sink) (o : Output) (calls : List Call) : Logger × Output :=
  calls.foldl Call.run ({ sinks }, o)

/-- The logger after a history of calls. -/
def after (sinks : List Sink) (o : Output) (calls : List Call) : Logger := (play sinks o calls).1

/-- The last filter text of a history of calls. -/
def lastText (calls : List Call) : Bytes := (calls.reverse.findSome? Call.text?).getD []

theorem after_concat (sinks : List Sink) (o : Output) (calls : List Call) (call : Call) :
    after sinks o (calls ++ [call]) = (call.run (play sinks o calls)).1 := by
  rw [after, play, List.foldl_concat]
  rfl

theorem ownLevel?_nil (component : Bytes) : ownLevel? [] component = none := by
  by_cases hname : component = [] <;> simp [ownLevel?, entryLevel?, Bytes.cutAt, hname]

/-- **The levels of single components are those of the last filter text.** -/
theorem lookup_after (component : Bytes) :
    (after sinks o calls).filter.levels.lookup component =
      ownLevel? (lastText calls) component := by
  induction calls using List.reverseRecOn with
  | nil => exact (ownLevel?_nil component).symm
  | append_singleton calls call ih =>
    rw [after_concat, lookup_run, lastText, List.reverse_concat, List.findSome?_cons]
    cases htext : call.text? with
    | none => exact ih
    | some text => rfl

/-- A call in a history is the last one, or before the last one. -/
theorem concat_eq_append_cons {before quiet : List Call} {last : Call} :
    calls ++ [last] = before ++ call :: quiet ↔
      quiet = [] ∧ calls = before ∧ last = call ∨
        ∃ quiet', quiet = quiet' ++ [last] ∧ calls = before ++ call :: quiet' := by
  rcases List.eq_nil_or_concat' quiet with rfl | ⟨quiet, other, rfl⟩
  · simp
  · rw [← List.cons_append, ← List.append_assoc]
    constructor
    · intro heq
      obtain ⟨hcalls, hlast⟩ := List.append_inj' heq rfl
      exact Or.inr ⟨quiet, by rw [List.singleton_inj.1 hlast], hcalls⟩
    · rintro (⟨hnil, -⟩ | ⟨quiet', hquiet, rfl⟩)
      · simp at hnil
      · obtain ⟨rfl, hlast⟩ := List.append_inj' hquiet rfl
        rw [hlast]

/-- **The first test lets pass all that the filter accepts, unless the last call that set a level or
filter left a level of the filter below it.** -/
theorem accepts_after_iff (sinks : List Sink) (o : Output) (calls : List Call) :
    (∀ level component, (after sinks o calls).accepts level component =
      (after sinks o calls).filter.accepts level component) ↔
      ∀ before call quiet, calls = before ++ call :: quiet → call.sets = true →
        (∀ other ∈ quiet, other.sets = false) →
          ¬ call.Overtakes (after sinks o before) (lastText before) := by
  change (after sinks o calls).Agrees ↔ _
  induction calls using List.reverseRecOn with
  | nil =>
    refine iff_of_true (agrees_iff.2 fun component => Level.le_rfl) ?_
    intro before call quiet heq
    simp at heq
  | append_singleton calls last ih =>
    rw [after_concat]
    cases hlast : last.sets with
    | false =>
      -- the call counts for neither side
      obtain ⟨hlevel, hfilter⟩ := run_of_quiet (s := play sinks o calls) hlast
      rw [agrees_iff, hlevel, hfilter, ← agrees_iff, ← after, ih]
      constructor
      · intro h before call quiet heq hcall hquiet
        rcases concat_eq_append_cons.1 heq with ⟨-, -, rfl⟩ | ⟨quiet, rfl, hcalls⟩
        · cases hlast.symm.trans hcall
        · exact h before call quiet hcalls hcall fun other hother =>
            hquiet other (List.mem_append_left _ hother)
      · rintro h before call quiet rfl hcall hquiet
        refine h before call (quiet ++ [last]) (by simp) hcall fun other hother => ?_
        rcases List.mem_append.1 hother with hother | hother
        · exact hquiet other hother
        · rw [List.mem_singleton.1 hother, hlast]
    | true =>
      -- the call is the last that sets something
      rw [agrees_run_iff hlast fun component => lookup_after component]
      constructor
      · intro h before call quiet heq hcall hquiet
        rcases concat_eq_append_cons.1 heq with ⟨-, rfl, rfl⟩ | ⟨quiet, rfl, -⟩
        · exact h
        · cases hlast.symm.trans (hquiet last (by simp))
      · intro h
        exact h calls last [] rfl hlast (by simp)

/-- **The first test can stand in the way of the filter**: a filter text gives a component the least
level, and the first test keeps its own. -/
theorem exists_rejected :
    (after [] { tree := ⟨[], []⟩ } [.setFilter (ascii "resolve=trace")]).filter.accepts .trace
        (ascii "resolve") = true ∧
      (after [] { tree := ⟨[], []⟩ } [.setFilter (ascii "resolve=trace")]).accepts .trace
        (ascii "resolve") = false := by
  decide

/-! ### An initialisation -/

theorem exists_unnamed (text : Bytes) : ∃ component, ownLevel? text component = none := by
  -- the text has finitely many entries
  obtain ⟨component, hcomponent⟩ := Infinite.exists_notMem_finset
    ((text.splitOn 0x2c).map fun entry => (Bytes.cutAt 0x3d entry).1).toFinset
  refine ⟨component, List.findSome?_eq_none_iff.2 fun entry hentry => ?_⟩
  have hname : (Bytes.cutAt 0x3d entry).1 ≠ component := by
    rintro rfl
    exact hcomponent (List.mem_toFinset.2 (List.mem_map_of_mem (List.mem_reverse.1 hentry)))
  unfold entryLevel?
  split <;> simp_all

theorem accepts_init_empty (hc : c.filter = []) {terminal : Bool} {level : Level}
    {component : Bytes} :
    (after sinks o (calls ++ [.init c terminal])).accepts level component = true ↔
      c.level ≤ level ∧ (ownLevel? (lastText calls) component).getD c.level ≤ level := by
  obtain ⟨hlevel, hfilter⟩ :=
    (after sinks o calls).init_configures c terminal (play sinks o calls).2
  rw [accepts_eq_true_iff, after_concat, Call.run, ← after, hlevel, hfilter, configure_of_empty hc,
    Filter.levelOf, lookup_after]

theorem accepts_init_text (hc : c.filter ≠ []) (hother : otherLevel? c.filter = none)
    {terminal : Bool} {level : Level} {component : Bytes} :
    (after sinks o (calls ++ [.init c terminal])).accepts level component = true ↔
      (ownLevel? c.filter component).getD
        (c.level.least (after sinks o calls).filter.default) ≤ level := by
  obtain ⟨hlevel, hfilter⟩ :=
    (after sinks o calls).init_configures c terminal (play sinks o calls).2
  obtain ⟨hagrees, hlevels⟩ := (after sinks o calls).configure_of_text hc
  rw [accepts_eq_true_iff, after_concat, Call.run, ← after, hlevel, hfilter, ← accepts_eq_true_iff,
    hagrees, Filter.accepts_eq_true_iff, (hlevels component).2, hother, Option.getD_none]

/-- **What a logger accepts that has just been initialised.** With a filter text that says nothing
of all others, a component that it names has the level named, and any other one that of the
configuration or the level that all others had, if that is less. Without a text the level is that of
the configuration, but the levels of the last text stay in force above it. So this is a matter of
the configuration alone unless it comes without a text and after a text that gave a component a
greater level, or with a text and while all others had a lesser one. -/
theorem accepts_init_iff (sinks : List Sink) (o : Output) (calls : List Call) (c : LogConfig)
    (terminal : Bool) (hother : otherLevel? c.filter = none) :
    (∀ level component,
      (after sinks o (calls ++ [.init c terminal])).accepts level component = true ↔
        if c.filter = [] then
          c.level ≤ level ∧ (ownLevel? (lastText calls) component).getD c.level ≤ level
        else
          (ownLevel? c.filter component).getD
            (c.level.least (after sinks o calls).filter.default) ≤ level) ∧
    ((∀ level component,
      (after sinks o (calls ++ [.init c terminal])).accepts level component = true ↔
        (ownLevel? c.filter component).getD c.level ≤ level) ↔
      if c.filter = [] then
        ∀ component own, ownLevel? (lastText calls) component = some own → own ≤ c.level
      else c.level ≤ (after sinks o calls).filter.default) := by
  by_cases hc : c.filter = []
  · simp only [accepts_init_empty hc, hc, if_true, ownLevel?_nil, Option.getD_none, implies_true,
      true_and]
    constructor
    · intro h component own hown
      have hlevel := ((h c.level component).2 Level.le_rfl).2
      rwa [hown] at hlevel
    · intro h level component
      refine and_iff_left_of_imp fun hlevel => ?_
      cases hown : ownLevel? (lastText calls) component with
      | none => exact hlevel
      | some own => exact Level.le_trans (h component own hown) hlevel
  · simp only [accepts_init_text hc hother, if_neg hc, implies_true, true_and]
    constructor
    · intro h
      -- a component that the text does not name tells the level of all others
      obtain ⟨component, hunnamed⟩ := exists_unnamed c.filter
      have hleast := (h (after sinks o calls).filter.default component).1
      rw [hunnamed] at hleast
      exact hleast (Level.least_le_iff.2 (Or.inr Level.le_rfl))
    · intro h level component
      cases hown : ownLevel? c.filter component with
      | none => exact Level.least_le_iff.trans (or_iff_left_of_imp (Level.le_trans h))
      | some own => exact Iff.rfl

/-- A configuration with a filter text, for a logger that a stricter one left. -/
def secondConfig : LogConfig where
  level := .info
  filter := ascii "resolve=trace,graph=off,resolve=debug"

/-- The last entry on a component counts, and the components without one have the level of the
configuration, whatever the earlier text said. -/
theorem accepts_init_second :
    otherLevel? secondConfig.filter = none ∧
      ∀ level component, (after [] { tree := ⟨[], []⟩ }
        ([.setFilter (ascii "scan=trace,*=error"), .setLevel .warn] ++
          [.init secondConfig false])).accepts level component = true ↔
            (ownLevel? secondConfig.filter component).getD .info ≤ level := by
  have hother : otherLevel? secondConfig.filter = none := by decide
  have htext : secondConfig.filter ≠ [] := by decide
  refine ⟨hother, (accepts_init_iff _ _ _ _ _ hother).2.2 ?_⟩
  rw [if_neg htext]
  decide

/-- **An earlier filter or level can outlive the initialisation**: a level above that of a
configuration without a text, and a level for all others below that of one with a text. -/
theorem exists_left :
    (after [] { tree := ⟨[], []⟩ } [.init { filter := ascii "graph=error" } false,
        .init { level := .info } false]).accepts .info (ascii "graph") = false ∧
      otherLevel? (ascii "resolve=trace") = none ∧
      ownLevel? (ascii "resolve=trace") (ascii "graph") = none ∧
      (after [] { tree := ⟨[], []⟩ } [.setLevel .trace,
        .init { filter := ascii "resolve=trace" } false]).accepts .info (ascii "graph") = true := by
  decide

end Logger

end BuildOrder.Log
