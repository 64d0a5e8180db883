import BuildOrder.Extract
import BuildOrder.Proofs.Declarations
import BuildOrder.Proofs.Path

/-!
# Literals without keys

* `SourceFile.StandardImport`: what a name stands for in a file: the last standard import that the
  file refers to by it.
* `SourceFile.Untagged`: the literal is of a standard type, and needs keys that it does not have.
* `LiteralCheck.knows_visit`: a step of the check keeps to the imports seen so far.
* `SourceFile.checkLiterals_value`: **each such literal is reported, at any depth, and no other.**
* `SourceFile.extract_untagged`: **a file is refused for its literals if its imports are legal and
  there is something to report**; the error carries the reports.
* `SourceFile.untagged_reported`: both, of a file that was read.
-/

namespace BuildOrder

namespace ImportSpec

/-- The file refers to the import by the name: it is written before the path, and is not `.`; or
nothing is, and the name is the last element of the path. -/
def Names (spec : ImportSpec) (name : Bytes) : Prop :=
  (spec.name = some name ∧ name ≠ ascii ".") ∨
    (spec.name = none ∧ Byte.slash ∉ name ∧
      (spec.path = name ∨ ∃ before, spec.path = before ++ Byte.slash :: name))

theorem localName?_eq_some {spec : ImportSpec} {name : Bytes} :
    spec.localName? = some name ↔ spec.Names name := by
  cases hname : spec.name with
  | none =>
    simp only [localName?, Names, hname, Option.some.injEq, Path.lastName_eq_iff]
    simp
  | some written =>
    simp only [localName?, Names, hname, reduceCtorEq, false_and, or_false, Option.some.injEq]
    constructor
    · intro h
      split at h
      · cases h
      · obtain rfl := Option.some.inj h
        exact ⟨rfl, ‹_›⟩
    · rintro ⟨rfl, hdot⟩
      exact if_neg hdot

end ImportSpec

/-- The name stands for the path among the imports: that of the last standard one that is referred
to by it. -/
def StandardImport (isStandard : Bytes → Bool) (specs : List ImportSpec) (name path : Bytes) :
    Prop :=
  ∃ before spec after, specs = before ++ spec :: after ∧ spec.path = path ∧
    isStandard path = true ∧ spec.Names name ∧
    ∀ later ∈ after, isStandard later.path = true → ¬ later.Names name

variable {isStandard : Bytes → Bool} {exempt : List Bytes} {specs : List ImportSpec}
  {spec : ImportSpec} {name path : Bytes}

theorem not_standardImport_nil : ¬ StandardImport isStandard [] name path := by
  rintro ⟨before, spec, after, heq, -⟩
  simp at heq

/-- One import more takes the name, if it is standard and referred to by it. -/
theorem standardImport_concat_of_names (hstandard : isStandard spec.path = true)
    (hname : spec.Names name) :
    StandardImport isStandard (specs ++ [spec]) name path ↔ spec.path = path := by
  constructor
  · rintro ⟨before, found, after, heq, hpath, -, -, hlater⟩
    rcases List.eq_nil_or_concat' after with rfl | ⟨init, last, rfl⟩
    · obtain ⟨-, hlast⟩ := List.append_inj' heq rfl
      rwa [List.cons.inj hlast |>.1]
    · rw [← List.cons_append, ← List.append_assoc] at heq
      obtain ⟨-, hlast⟩ := List.append_inj' heq rfl
      obtain rfl := (List.cons.inj hlast).1
      exact absurd hname (hlater spec (by simp) hstandard)
  · rintro rfl
    exact ⟨specs, spec, [], rfl, rfl, hstandard, hname, nofun⟩

/-- Any other leaves it to those before. -/
theorem standardImport_concat_of_not (h : isStandard spec.path = true → ¬ spec.Names name) :
    StandardImport isStandard (specs ++ [spec]) name path ↔
      StandardImport isStandard specs name path := by
  constructor
  · rintro ⟨before, found, after, heq, hpath, hstandard, hname, hlater⟩
    rcases List.eq_nil_or_concat' after with rfl | ⟨init, last, rfl⟩
    · obtain ⟨-, hlast⟩ := List.append_inj' heq rfl
      obtain rfl := (List.cons.inj hlast).1
      rw [← hpath] at hstandard
      exact absurd hname (h hstandard)
    · rw [← List.cons_append, ← List.append_assoc] at heq
      obtain ⟨hinit, -⟩ := List.append_inj' heq rfl
      refine ⟨before, found, init, hinit, hpath, hstandard, hname, fun later hin => ?_⟩
      exact hlater later (by simp [hin])
  · rintro ⟨before, found, after, rfl, hpath, hstandard, hname, hlater⟩
    refine ⟨before, found, after ++ [spec], by simp, hpath, hstandard, hname, fun later hin => ?_⟩
    rcases List.mem_append.1 hin with hin | hin
    · exact hlater later hin
    · obtain rfl := List.mem_singleton.1 hin
      exact h

/-! ### The check of a file -/

namespace SourceFile

/-- The literal has elements without keys, and its type, which the file refers to by the name of an
import, is a standard one that is not exempt. -/
structure Untagged (file : SourceFile) (isStandard : Bytes → Bool) (exempt : List Bytes)
    (lit : CompositeLit) (path : Bytes) : Prop where
  qualified : lit.type.qualifier ≠ []
  standard : StandardImport isStandard file.importSpecs lit.type.qualifier path
  notExempt : path ++ ascii "." ++ lit.type.name ∉ exempt
  unkeyed : ∃ element ∈ lit.elements, element.keyed = false

/-- What is said of such a literal. -/
def untaggedReport (lit : CompositeLit) (path : Bytes) : Diagnostic :=
  { location := lit.location
    message := ascii "composite struct literal " ++ (path ++ ascii "." ++ lit.type.name) ++
      ascii " with untagged fields" }

end SourceFile

/-- The import that a reader of a file meets, if it is one. -/
def SourceFile.Event.importSpec? : SourceFile.Event → Option ImportSpec
  | .importSpec spec => some spec
  | _ => none

/-- The literal that a reader of a file meets, if it is one. -/
def SourceFile.Event.literal? : SourceFile.Event → Option CompositeLit
  | .literal lit => some lit
  | _ => none

theorem Traced.value_foldlM {α β : Type} (f : β → α → Traced β) (b : β) (xs : List α) :
    (xs.foldlM f b).value = xs.foldl (fun b x => (f b x).value) b := by
  induction xs generalizing b with
  | nil => rfl
  | cons x xs ih => rw [List.foldlM_cons, value_bind, ih, List.foldl_cons]

namespace LiteralCheck

variable {c : LiteralCheck} {e : SourceFile.Event} {es : List SourceFile.Event}

/-- The check knows what names stand for, after the imports seen so far. -/
def Knows (isStandard : Bytes → Bool) (specs : List ImportSpec) (c : LiteralCheck) : Prop :=
  ∀ name path, c.names.lookup name = some path ↔ StandardImport isStandard specs name path

theorem knows_nil (isStandard : Bytes → Bool) : Knows isStandard [] {} := by
  intro name path
  simp [not_standardImport_nil]

theorem visit_importSpec : (c.visit isStandard exempt (.importSpec spec)).value =
    if isStandard spec.path then c.addImport spec else c := by
  rw [visit, Traced.value_bind, Traced.value_ask]
  split <;> rfl

/-- **One import more is known**, and nothing else changes. -/
theorem knows_visit (h : c.Knows isStandard specs) (exempt : List Bytes) (spec : ImportSpec) :
    (c.visit isStandard exempt (.importSpec spec)).value.Knows isStandard (specs ++ [spec]) := by
  intro name path
  rw [visit_importSpec]
  cases hstandard : isStandard spec.path with
  | false =>
    rw [standardImport_concat_of_not (by simp [hstandard])]
    exact h name path
  | true =>
    rw [if_pos rfl, addImport]
    cases hlocal : spec.localName? with
    | none =>
      have hnot : ¬ spec.Names name := by
        rw [← ImportSpec.localName?_eq_some, hlocal]
        nofun
      rw [standardImport_concat_of_not fun _ => hnot]
      exact h name path
    | some own =>
      have hown : spec.Names own := ImportSpec.localName?_eq_some.1 hlocal
      by_cases hname : name = own
      · subst hname
        rw [standardImport_concat_of_names hstandard hown]
        simp
      · have hnot : ¬ spec.Names name := by
          rw [← ImportSpec.localName?_eq_some, hlocal, Option.some.injEq]
          exact fun heq => hname heq.symm
        have hne : (name == own) = false := beq_false_of_ne hname
        rw [standardImport_concat_of_not fun _ => hnot, ← h name path]
        rw [List.lookup_cons, hne]

theorem diagnostics_visit_importSpec :
    (c.visit isStandard exempt (.importSpec spec)).value.diagnostics = c.diagnostics := by
  rw [visit_importSpec, addImport]
  split
  · split <;> rfl
  · rfl

/-- The check after all that is met. -/
def after (isStandard : Bytes → Bool) (exempt : List Bytes) (c : LiteralCheck)
    (es : List SourceFile.Event) : LiteralCheck :=
  es.foldl (fun c e => (c.visit isStandard exempt e).value) c

theorem after_append (es others : List SourceFile.Event) :
    c.after isStandard exempt (es ++ others) =
      (c.after isStandard exempt es).after isStandard exempt others :=
  List.foldl_append

theorem after_imports (h : c.Knows isStandard specs) (exempt : List Bytes)
    (more : List ImportSpec) :
    (c.after isStandard exempt (more.map .importSpec)).Knows isStandard (specs ++ more) ∧
      (c.after isStandard exempt (more.map .importSpec)).diagnostics = c.diagnostics := by
  induction more generalizing c specs with
  | nil =>
    rw [List.append_nil]
    exact ⟨h, rfl⟩
  | cons spec more ih =>
    obtain ⟨hknows, hdiagnostics⟩ := ih (knows_visit h exempt spec)
    rw [List.append_cons]
    exact ⟨hknows, hdiagnostics.trans diagnostics_visit_importSpec⟩

/-- Where no import is met any more, the literals are judged by the names that are known. -/
theorem after_others (h : ∀ e ∈ es, e.importSpec? = none) : c.after isStandard exempt es =
    { c with diagnostics := c.diagnostics ++
      (es.filterMap SourceFile.Event.literal?).filterMap (·.untagged? c.names exempt) } := by
  induction es generalizing c with
  | nil => rw [List.filterMap_nil, List.filterMap_nil, List.append_nil, after, List.foldl_nil]
  | cons e es ih =>
    have hes : ∀ e ∈ es, e.importSpec? = none := fun e he => h e (List.mem_cons_of_mem _ he)
    have hnext : c.after isStandard exempt (e :: es) =
        (c.visit isStandard exempt e).value.after isStandard exempt es := rfl
    rw [hnext, ih hes]
    cases e with
    | importSpec spec => cases h _ List.mem_cons_self
    | func f => rfl
    | literal lit =>
      have hvisit : (c.visit isStandard exempt (.literal lit)).value = c.addLiteral exempt lit :=
        rfl
      have hlit : (SourceFile.Event.literal lit :: es).filterMap SourceFile.Event.literal? =
          lit :: es.filterMap SourceFile.Event.literal? := rfl
      rw [hvisit, hlit, addLiteral, List.filterMap_cons]
      split
      · rename_i hnone
        simp [hnone]
      · rename_i d hsome
        simp [hsome]

end LiteralCheck

namespace SourceFile

variable {source : Source} {file : SourceFile} {filename : Bytes} {decls front : List Decl}

/-! ### What a reader of a file meets -/

theorem filterMap_literal? (lits : List CompositeLit) :
    (lits.map Event.literal).filterMap Event.literal? = lits := by
  rw [List.filterMap_map]
  exact List.filterMap_some

/-- The literals met are those of the declarations, outer ones first. -/
theorem literals_events (decls : List Decl) :
    (decls.flatMap Decl.events).filterMap Event.literal? =
      CompositeLit.preorderAll (decls.flatMap BuildOrder.Decl.literals) := by
  induction decls with
  | nil => rfl
  | cons d decls ih =>
    rw [List.flatMap_cons, List.filterMap_append, ih, List.flatMap_cons,
      CompositeLit.preorderAll_append]
    congr 1
    cases d with
    | imports specs =>
      rw [Decl.events, List.filterMap_map]
      exact List.filterMap_eq_nil_iff.2 fun spec _ => rfl
    | func f => exact filterMap_literal? _
    | value keyword literals => exact filterMap_literal? _

/-- In declarations that bring imports, nothing but imports is met. -/
theorem events_imports (h : ∀ d ∈ decls, d.isImport = true) :
    ∃ specs, decls.flatMap Decl.events = specs.map .importSpec ∧
      decls.flatMap BuildOrder.Decl.specs = specs := by
  induction decls with
  | nil => exact ⟨[], rfl, rfl⟩
  | cons d decls ih =>
    obtain ⟨more, hevents, hspecs⟩ := ih fun d hd => h d (List.mem_cons_of_mem _ hd)
    cases d with
    | imports specs =>
      refine ⟨specs ++ more, ?_, ?_⟩
      · rw [List.flatMap_cons, hevents, Decl.events, List.map_append]
      · rw [List.flatMap_cons, hspecs, BuildOrder.Decl.specs]
    | func f => cases h _ List.mem_cons_self
    | value keyword literals => cases h _ List.mem_cons_self

/-- In all others, no import is met. -/
theorem importSpec?_events (h : ∀ d ∈ decls, d.isImport = false) :
    (∀ e ∈ decls.flatMap Decl.events, e.importSpec? = none) ∧
      decls.flatMap BuildOrder.Decl.specs = [] := by
  refine ⟨fun e he => ?_, List.flatMap_eq_nil_iff.2 fun d hd => ?_⟩
  · obtain ⟨d, hd, he⟩ := List.mem_flatMap.1 he
    cases d with
    | imports specs => cases h _ hd
    | func f =>
      rcases List.mem_cons.1 he with rfl | he
      · rfl
      · obtain ⟨lit, -, rfl⟩ := List.mem_map.1 he
        rfl
    | value keyword literals =>
      obtain ⟨lit, -, rfl⟩ := List.mem_map.1 he
      rfl
  · cases d with
    | imports specs => cases h _ hd
    | func f => rfl
    | value keyword literals => rfl

/-! ### What is reported -/

/-- What is wrong with a literal, once all imports are known. -/
theorem untagged?_eq_some {names : List (Bytes × Bytes)} {lit : CompositeLit} {d : Diagnostic}
    (h : ∀ name path, names.lookup name = some path ↔
      StandardImport isStandard file.importSpecs name path) :
    lit.untagged? names exempt = some d ↔
      ∃ path, file.Untagged isStandard exempt lit path ∧ d = untaggedReport lit path := by
  unfold CompositeLit.untagged?
  by_cases hqualifier : lit.type.qualifier = []
  · rw [if_pos hqualifier]
    exact ⟨nofun, fun ⟨path, huntagged, _⟩ => absurd hqualifier huntagged.qualified⟩
  rw [if_neg hqualifier]
  cases hlookup : names.lookup lit.type.qualifier with
  | none =>
    refine ⟨nofun, fun ⟨path, huntagged, _⟩ => ?_⟩
    rw [(h _ _).2 huntagged.standard] at hlookup
    cases hlookup
  | some found =>
    have hfound := (h _ _).1 hlookup
    have hother {path : Bytes} (huntagged : file.Untagged isStandard exempt lit path) :
        found = path := by
      rw [(h _ _).2 huntagged.standard] at hlookup
      exact (Option.some.inj hlookup).symm
    simp only [Bool.or_eq_true, List.contains_iff_mem, List.all_eq_true]
    split
    · rename_i hfine
      refine ⟨nofun, fun ⟨path, huntagged, _⟩ => ?_⟩
      obtain rfl := hother huntagged
      rcases hfine with hexempt | hkeyed
      · exact absurd hexempt huntagged.notExempt
      · obtain ⟨element, hin, hunkeyed⟩ := huntagged.unkeyed
        rw [hkeyed element hin] at hunkeyed
        cases hunkeyed
    · rename_i hfaulty
      rw [not_or] at hfaulty
      constructor
      · intro hd
        obtain rfl := Option.some.inj hd
        refine ⟨found, ⟨hqualifier, hfound, hfaulty.1, ?_⟩, rfl⟩
        simpa using hfaulty.2
      · rintro ⟨path, huntagged, rfl⟩
        obtain rfl := hother huntagged
        rfl

/-- **Each literal that needs keys and has none is reported**, at any depth, the outer ones first,
and no other. -/
theorem checkLiterals_value (h : SourceFile.parse source = .ok file) :
    ∃ fault : CompositeLit → Option Diagnostic,
      (∀ lit d, fault lit = some d ↔
        ∃ path, file.Untagged isStandard exempt lit path ∧ d = untaggedReport lit path) ∧
      (checkLiterals isStandard exempt file).value = file.literals.filterMap fault := by
  obtain ⟨front, back, hdecls, hfront, hback⟩ := exists_importsFirst h
  obtain ⟨specs, hevents, hspecs⟩ := events_imports hfront
  obtain ⟨hothers, hnone⟩ := importSpec?_events hback
  have himports : file.importSpecs = specs := by
    rw [importSpecs_eq, hdecls, List.flatMap_append, hspecs, hnone, List.append_nil]
  have hliterals : file.literals = (back.flatMap Decl.events).filterMap Event.literal? := by
    have hfront : (specs.map Event.importSpec).filterMap Event.literal? = [] := by
      rw [List.filterMap_map]
      exact List.filterMap_eq_nil_iff.2 fun spec _ => rfl
    rw [literals, ← literals_events, hdecls, List.flatMap_append, List.filterMap_append, hevents,
      hfront, List.nil_append]
  -- the check meets all imports first, and after that the literals
  obtain ⟨hknows, hnothing⟩ :=
    LiteralCheck.after_imports (LiteralCheck.knows_nil isStandard) exempt specs
  rw [List.nil_append, ← himports] at hknows
  refine ⟨fun lit => lit.untagged? _ exempt, fun lit d => untagged?_eq_some hknows, ?_⟩
  have hvalue : (checkLiterals isStandard exempt file).value =
      (LiteralCheck.after isStandard exempt {} file.walk).diagnostics := by
    rw [checkLiterals, Traced.value_bind, Traced.value_foldlM]
    rfl
  rw [hvalue, walk, hdecls, List.flatMap_append, hevents, LiteralCheck.after_append,
    LiteralCheck.after_others hothers, hnothing, himports, hliterals]
  rfl

/-! ### Files that are refused -/

theorem firstBadImport?_eq_none {specs : List ImportSpec} :
    firstBadImport? specs = none ↔ ∀ spec ∈ specs, ImportPath.check spec.path = .ok () := by
  rw [firstBadImport?, List.findSome?_eq_none_iff]
  refine forall₂_congr fun spec _ => ?_
  cases hcheck : ImportPath.check spec.path with
  | ok u => simp
  | error fault => simp

/-- **What becomes of a source file**: the first import that is not legal is an error, and so are
all literals that are reported. -/
theorem extract_value : (extract isStandard exempt filename file).run.value =
    match firstBadImport? file.importSpecs with
    | some (spec, fault) => .error (.badImport filename spec fault)
    | none =>
      if (checkLiterals isStandard exempt file).value = [] then
        .ok
          { name := filename
            packageName := file.packageName
            imports := file.importPaths
            hasInit := file.hasInit }
      else .error (.untagged filename (checkLiterals isStandard exempt file).value) := by
  unfold extract
  cases hbad : firstBadImport? file.importSpecs with
  | some bad => rfl
  | none =>
    simp only [Attempt.value_lift_bind]
    by_cases hnothing : (checkLiterals isStandard exempt file).value = []
    · rw [if_pos hnothing, if_neg (not_not_intro hnothing)]
      rfl
    · rw [if_neg hnothing, if_pos hnothing]
      rfl

/-- The name that a file goes by decides on nothing but the words of an error. -/
theorem extract_rename {f : File}
    (h : (extract isStandard exempt filename file).run.value = .ok f) (other : Bytes) :
    ∃ f', (extract isStandard exempt other file).run.value = .ok f' := by
  rw [extract_value] at h
  split at h
  · cases h
  · rename_i hlegal
    split at h
    · rename_i hnothing
      rw [extract_value, hlegal]
      exact ⟨_, if_pos hnothing⟩
    · cases h

/-- **A file is refused for its literals** if and only if its imports are legal and there is
something to report; the error carries all reports. -/
theorem extract_untagged {e : BuildError} :
    (extract isStandard exempt filename file).run.value = .error e ∧ e.kind = .untaggedLiteral ↔
      (∀ spec ∈ file.importSpecs, ImportPath.check spec.path = .ok ()) ∧
        (checkLiterals isStandard exempt file).value ≠ [] ∧
        e = .untagged filename (checkLiterals isStandard exempt file).value := by
  rw [extract_value, ← firstBadImport?_eq_none]
  split
  · rename_i spec fault hbad
    rw [hbad]
    refine ⟨?_, nofun⟩
    rintro ⟨h, hkind⟩
    obtain rfl := Except.error.inj h
    cases hkind
  · rename_i hlegal
    rw [and_iff_right hlegal]
    split
    · rename_i hnothing
      exact ⟨nofun, fun h => absurd hnothing h.1⟩
    · rename_i hsome
      constructor
      · rintro ⟨h, -⟩
        exact ⟨hsome, (Except.error.inj h).symm⟩
      · rintro ⟨-, rfl⟩
        exact ⟨rfl, rfl⟩

/-- **The literals that need keys and have none are reported, and these alone**; a file is refused
for them if and only if its imports are legal. -/
theorem untagged_reported (h : SourceFile.parse source = .ok file) (isStandard : Bytes → Bool)
    (exempt : List Bytes) (filename : Bytes) :
    (∃ fault : CompositeLit → Option Diagnostic,
      (∀ lit d, fault lit = some d ↔
        ∃ path, file.Untagged isStandard exempt lit path ∧ d = untaggedReport lit path) ∧
      (checkLiterals isStandard exempt file).value = file.literals.filterMap fault) ∧
    ∀ e, (extract isStandard exempt filename file).run.value = .error e ∧
        e.kind = .untaggedLiteral ↔
      (∀ spec ∈ file.importSpecs, ImportPath.check spec.path = .ok ()) ∧
        (checkLiterals isStandard exempt file).value ≠ [] ∧
        e = .untagged filename (checkLiterals isStandard exempt file).value :=
  ⟨checkLiterals_value h, fun _ => extract_untagged⟩

/-- A file with a literal that needs keys inside one that has them. -/
def nestedSource : Source where
  filename := ascii "p.go"
  content := ascii "package p\nimport h \"net/http\"\nvar x = h.A\x7bB: h.C\x7b2\x7d\x7d\n"

def nestedReport : Diagnostic where
  location := nestedSource.location 45
  message := ascii "composite struct literal net/http.C with untagged fields"

theorem untagged_nested :
    ∃ file, SourceFile.parse nestedSource = .ok file ∧
      (checkLiterals (fun _ => true) [] file).value = [nestedReport] ∧
      (∃ lit ∈ file.literals, ∃ path, file.Untagged (fun _ => true) [] lit path) ∧
      (extract (fun _ => true) [] (ascii "p.go") file).run.value =
        .error (.untagged (ascii "p.go") [nestedReport]) := by
  have hcheck : (SourceFile.parse nestedSource).toOption.map (fun file =>
      ((checkLiterals (fun _ => true) [] file).value, firstBadImport? file.importSpecs)) =
      some ([nestedReport], none) := by
    decide +kernel
  cases hparse : SourceFile.parse nestedSource with
  | error e =>
    rw [hparse] at hcheck
    cases hcheck
  | ok file =>
    rw [hparse] at hcheck
    obtain ⟨hreports, hlegal⟩ := Prod.mk.inj (Option.some.inj hcheck)
    obtain ⟨⟨fault, hfault, hvalue⟩, hrefused⟩ :=
      untagged_reported hparse (fun _ => true) [] (ascii "p.go")
    refine ⟨file, rfl, hreports, ?_, ?_⟩
    · have hreport : nestedReport ∈ file.literals.filterMap fault := by
        rw [← hvalue, hreports]
        exact List.mem_singleton_self _
      obtain ⟨lit, hlit, hsome⟩ := List.mem_filterMap.1 hreport
      obtain ⟨path, huntagged, -⟩ := (hfault lit _).1 hsome
      exact ⟨lit, hlit, path, huntagged⟩
    · rw [← hreports]
      refine ((hrefused _).2 ⟨firstBadImport?_eq_none.1 hlegal, ?_, rfl⟩).1
      rw [hreports]
      exact List.cons_ne_nil _ _

end SourceFile

end BuildOrder
