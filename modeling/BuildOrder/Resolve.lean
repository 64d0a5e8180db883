import BuildOrder.Application
import BuildOrder.BuildError
import BuildOrder.ImportPath
import BuildOrder.Workspace

/-!
# External packages

The imports that an application does not hold and that are not standard are looked for in a
workspace, package after package, the packages found included. What is not found is noted and left
out.

* `Resolver.run`: the search. It stops whatever the workspace answers, since a look-up is for a
  legal path that was not looked up before, and there are finitely many legal paths.
* `ImportPath.shortStrings`: the strings of legal bytes up to the greatest length.
-/

namespace BuildOrder

namespace ImportPath

/-- The legal bytes. -/
def alphabet : List UInt8 := (List.range 256).map Nat.toUInt8 |>.filter isLegalByte

/-- The strings of a length over the legal bytes. -/
def stringsOfLength : Nat → List Bytes
  | 0 => [[]]
  | n + 1 => (stringsOfLength n).flatMap fun s => alphabet.map (· :: s)

/-- The strings of legal bytes up to the greatest length of an import path. They are too many to be
computed, and serve only to show that the search stops. -/
noncomputable def shortStrings : List Bytes := (List.range (maxLength + 1)).flatMap stringsOfLength

theorem mem_alphabet {b : UInt8} (h : isLegalByte b = true) : b ∈ alphabet := by
  simp only [alphabet, List.mem_filter, List.mem_map, List.mem_range]
  exact ⟨⟨b.toNat, b.toNat_lt, by simp⟩, h⟩

theorem mem_stringsOfLength {s : Bytes} (h : s.all isLegalByte = true) :
    s ∈ stringsOfLength s.length := by
  induction s with
  | nil => simp [stringsOfLength]
  | cons b s ih =>
    simp only [List.all_cons, Bool.and_eq_true] at h
    simp only [List.length_cons, stringsOfLength, List.mem_flatMap, List.mem_map]
    exact ⟨s, ih h.2, b, mem_alphabet h.1, rfl⟩

/-- **There are finitely many legal paths.** Each is among the short strings of legal bytes. -/
theorem mem_shortStrings {path : Bytes} (h : isLegal path = true) : path ∈ shortStrings := by
  unfold isLegal check at h
  split at h
  · simp [Except.isOk, Except.toBool] at h
  split at h
  · simp [Except.isOk, Except.toBool] at h
  rename_i _ length
  split at h
  · simp [Except.isOk, Except.toBool] at h
  split at h
  · simp [Except.isOk, Except.toBool] at h
  split at h
  · simp [Except.isOk, Except.toBool] at h
  rename_i _ _ bytes
  simp only [shortStrings, List.mem_flatMap, List.mem_range]
  exact ⟨path.length, by omega, mem_stringsOfLength (by simpa using bytes)⟩

end ImportPath

/-- The number of legal paths that an application does not hold. -/
noncomputable def Application.unseen (app : Application) : Nat :=
  ImportPath.shortStrings.countP (!app.contains ·)

/-- A count falls if fewer members are counted and one of them is not counted any more. -/
theorem countP_lt {α : Type} {p q : α → Bool} {xs : List α} {x : α} (hx : x ∈ xs)
    (imp : ∀ y, q y = true → p y = true) (hp : p x = true) (hq : q x = false) :
    xs.countP q < xs.countP p := by
  induction xs with
  | nil => simp at hx
  | cons y ys ih =>
    have le : ys.countP q ≤ ys.countP p := List.countP_mono_left fun z _ => imp z
    simp only [List.countP_cons]
    rcases List.mem_cons.mp hx with rfl | hx
    · simp only [hp, hq, if_true, Bool.false_eq_true, if_false]
      omega
    · have less := ih hx
      by_cases hqy : q y = true
      · simp only [hqy, imp y hqy, if_true]
        omega
      · rw [if_neg hqy]
        omega

/-- What the search for external packages has to go by. -/
structure Resolver where
  workspace : Workspace
  isStandard : Bytes → Bool
  /-- The files, as `import-path/name`, that are left out of external packages. -/
  isExcluded : Bytes → Bool

/-- What a search for external packages has come to. -/
structure Resolution where
  app : Application
  /-- The paths that could not be found, in order. -/
  unresolved : List Bytes := []
  /-- The paths that were looked up, the first one first. -/
  lookups : List Bytes := []
deriving DecidableEq, Repr

namespace Resolution

variable (r : Resolution)

/-- The path is not looked for any more: it is held, or was not found. -/
def isSettled (path : Bytes) : Bool := r.app.contains path || r.unresolved.contains path

def leave (path : Bytes) : Resolution :=
  { r with unresolved := Bytes.insertOrdered path r.unresolved }

def lookUp (path : Bytes) : Resolution := { r with lookups := r.lookups ++ [path] }

end Resolution

def BuildError.allExcluded (path : Bytes) : BuildError :=
  { kind := .fullyExcluded
    message := ascii "package " ++ path ++
      ascii " required, but all its files were excluded by the exclusion filter" }

/-- The application with an external package and its files. -/
def Application.addExternal (app : Application) (path : Bytes) (found : WorkspacePackage)
    (files : List WorkspaceFile) : Application :=
  let first := app.files.length
  let withFiles := app.addFiles (files.map fun f =>
    { name := f.name, packageName := found.name, imports := f.imports })
  withFiles.register
    { importPath := path
      files := (List.range files.length).map (first + ·)
      baseDir := some found.dir }

/-- A path that is added is held, and the paths held before stay so. -/
theorem Application.contains_addExternal (app : Application) (path other : Bytes)
    (found : WorkspacePackage) (files : List WorkspaceFile) :
    (app.addExternal path found files).contains other =
      (app.contains other || path == other) := by
  simp [addExternal, contains, register, addFiles]

theorem Application.unseen_addExternal (app : Application) {path : Bytes}
    (found : WorkspacePackage) (files : List WorkspaceFile) (legal : ImportPath.isLegal path)
    (new : app.contains path = false) : (app.addExternal path found files).unseen < app.unseen := by
  refine countP_lt (ImportPath.mem_shortStrings legal) (fun other => ?_) ?_ ?_
  · simp [contains_addExternal]
    intro h _
    exact h
  · simp [new]
  · simp [contains_addExternal]

namespace Resolver

variable (s : Resolver)

/-- The files of a package that was found, without those left out. -/
def keptFiles (path : Bytes) (found : WorkspacePackage) : List WorkspaceFile :=
  found.files.filter fun f => !s.isExcluded (path ++ [Byte.slash] ++ f.name)

/-- The records of the files left out. -/
def exclusionEvents (path : Bytes) (found : WorkspacePackage) : List Event :=
  (found.files.filter fun f => s.isExcluded (path ++ [Byte.slash] ++ f.name)).map fun f =>
    .note
      { level := .debug
        component := ascii "resolve"
        message := ascii "excluded " ++ path ++ ascii "/" ++ f.name }

def resolvedMessage (path : Bytes) (found : WorkspacePackage) (files : List WorkspaceFile) :
    Bytes :=
  ascii "resolved " ++ path ++ ascii " from " ++ found.dir ++ ascii " (" ++
    Bytes.decimal files.length ++ ascii " file(s))"

/-- Looks for the paths in `pending`, and then for the imports of the packages in `queue` and of
those found on the way. -/
def run (r : Resolution) (queue : List PackageId) (pending : List Bytes) :
    Traced (Resolution × Except BuildError Unit) :=
  match pending with
  | [] =>
    match queue with
    | [] => return (r, .ok ())
    | id :: queue => run r queue (r.app.importsOf id)
  | path :: pending =>
    if _settled : r.isSettled path then run r queue pending
    else do
      if ← Traced.ask s.isStandard path then run r queue pending
      else
        match _legal : ImportPath.check path with
        | .error fault =>
          Traced.note .warn "resolve" (ascii "ignoring import " ++ Bytes.quoted path ++
            ascii ": " ++ fault.message)
          run (r.leave path) queue pending
        | .ok () =>
          match ← s.workspace.locate path with
          | .error reason =>
            Traced.note .warn "resolve" (ascii "can't find package " ++ Bytes.quoted path ++
              ascii " in workspace: " ++ reason)
            run ((r.lookUp path).leave path) queue pending
          | .ok found =>
            ⟨(), s.exclusionEvents path found⟩
            let files := s.keptFiles path found
            if files = [] then return (r.lookUp path, .error (.allExcluded path))
            else
              Traced.note .info "resolve" (resolvedMessage path found files)
              run { r.lookUp path with app := r.app.addExternal path found files }
                (queue ++ [r.app.packages.length]) pending
termination_by (r.app.unseen, queue.length, pending.length)
decreasing_by
  · exact Prod.Lex.right _ (Prod.Lex.left _ _ (by simp))
  · exact Prod.Lex.right _ (Prod.Lex.right _ (by simp))
  · exact Prod.Lex.right _ (Prod.Lex.right _ (by simp))
  · exact Prod.Lex.right _ (Prod.Lex.right _ (by simp))
  · exact Prod.Lex.right _ (Prod.Lex.right _ (by simp))
  · refine Prod.Lex.left _ _ (r.app.unseen_addExternal found _ ?_ ?_)
    · simp [ImportPath.isLegal, _legal, Except.isOk, Except.toBool]
    · simp only [Resolution.isSettled, Bool.or_eq_true, not_or] at _settled
      simpa using _settled.1

/-- Finds the external packages of an application. -/
def resolve (app : Application) : Traced (Resolution × Except BuildError Unit) :=
  s.run { app } app.order []

end Resolver

end BuildOrder
