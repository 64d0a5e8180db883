import BuildOrder.Proofs.Spelling

/-!
# A workspace stays below its roots

A workspace tests the text of a cleaned path, and scans the directory if the text begins with that
of a root's sources and a slash.

* `Workspace.Below`: a directory below the sources of a root, told by its cleaned text.
* `Workspace.below_iff`: **the text tells where the directory lies**: its components are those of
  the root, `src`, and at least one entry, whatever root and directory are written like.
* `Workspace.firstDirectory?_eq_some_iff`: the directory of a path is that of the first root that
  has one there.
* `Workspace.locate_below`: **no other directories are listed**, for any path.
-/

namespace BuildOrder

/-! ### Text that goes on after a slash -/

namespace Path

variable {absolute : Bool} {before after : List Bytes} {path front rest : Bytes}

/-- What comes after an entry of a clean path are entries, since steps up stand in front. -/
theorem IsClean.entries_after (h : IsClean absolute (before ++ after))
    (hentry : ∃ name ∈ before, name ≠ parentName) : ∀ name ∈ after, IsEntry name := by
  obtain ⟨ups, entries, heq, hentries, -⟩ := h
  obtain ⟨entry, hmem, hne⟩ := hentry
  rcases List.append_eq_append_iff.1 heq with ⟨more, hups, -⟩ | ⟨more, -, hrest⟩
  · -- the entry would be one of the steps up
    have hup : entry ∈ List.replicate ups parentName := hups ▸ List.mem_append_left _ hmem
    exact absurd (List.eq_of_mem_replicate hup) hne
  · intro name hname
    exact hentries name (hrest ▸ List.mem_append_right _ hname)

/-- A cleaned text with a slash in it has the components of what stands on both sides. -/
theorem cleanComponents_of_text (h : clean path = front ++ Byte.slash :: rest) :
    cleanComponents path = components front ++ components rest := by
  have hsome : isAbsolute path = true ∨ cleanComponents path ≠ [] := by
    by_contra hnone
    rw [not_or, Bool.not_eq_true, not_not] at hnone
    -- the path of no component is written without a slash
    have htext : clean path = [Byte.dot] := by
      rw [clean, hnone.1, hnone.2]
      rfl
    have hmem : Byte.slash ∈ clean path := by simp [h]
    rw [htext] at hmem
    revert hmem
    decide
  rw [← components_ofComponents (isClean_cleanComponents path) hsome]
  show components (clean path) = _
  rw [h, components_append_slash]

/-- Components more are written after a slash. -/
theorem exists_text_append (absolute : Bool) (hbefore : before ≠ []) (hafter : after ≠ []) :
    ∃ rest, ofComponents absolute (before ++ after) =
      ofComponents absolute before ++ Byte.slash :: rest := by
  obtain ⟨first, more, rfl⟩ := List.exists_cons_of_ne_nil hafter
  clear hafter
  induction more using List.reverseRecOn with
  | nil => exact ⟨first, ofComponents_concat hbefore first⟩
  | append_singleton more last ih =>
    obtain ⟨rest, htext⟩ := ih
    refine ⟨rest ++ Byte.slash :: last, ?_⟩
    rw [← List.cons_append, ← List.append_assoc, ofComponents_concat (by simp), htext]
    simp

end Path

namespace Workspace

open BuildOrder.Path (IsEntry cleanComponents components isAbsolute parentName)

variable {t : FileTree} {context : BuildContext} {roots : List Bytes} {root path dir : Bytes}

/-! ### Below the sources of a root -/

theorem stays_src : Path.Stays (ascii "src") := by
  refine ⟨by decide, ?_⟩
  have hcomponents : cleanComponents (ascii "src") = [ascii "src"] := by decide
  rw [hcomponents]
  intro name hname
  rw [List.mem_singleton.1 hname]
  exact ⟨by decide, by decide, by decide, by decide⟩

theorem cleanComponents_sources (root : Bytes) :
    cleanComponents (sources root) = cleanComponents root ++ [ascii "src"] := by
  have hsrc : cleanComponents (ascii "src") = [ascii "src"] := by decide
  rw [sources, Path.cleanComponents_join stays_src, hsrc]

theorem isAbsolute_sources (root : Bytes) : isAbsolute (sources root) = isAbsolute root :=
  Path.isAbsolute_join stays_src

theorem clean_sources (root : Bytes) : Path.clean (sources root) = sources root := by
  rw [sources, Path.join_eq_clean, Path.clean_clean]

theorem sources_eq (root : Bytes) :
    sources root = Path.ofComponents (isAbsolute root) (cleanComponents root ++ [ascii "src"]) := by
  rw [← clean_sources, Path.clean, cleanComponents_sources, isAbsolute_sources]

theorem components_sources (root : Bytes) :
    components (sources root) = cleanComponents root ++ [ascii "src"] := by
  have hclean := Path.isClean_cleanComponents (sources root)
  rw [cleanComponents_sources, isAbsolute_sources] at hclean
  rw [sources_eq, Path.components_ofComponents hclean (Or.inr (by simp))]

/-- A text that goes on from that of the sources starts where the root does. -/
theorem isAbsolute_of_text {rest : Bytes}
    (h : Path.clean dir = sources root ++ Byte.slash :: rest) :
    isAbsolute dir = isAbsolute root := by
  have hne : sources root ≠ [] := by
    intro hnil
    have hcomponents := cleanComponents_sources root
    rw [hnil] at hcomponents
    exact List.concat_ne_nil _ _ hcomponents.symm
  obtain ⟨b, text, hcons⟩ := List.exists_cons_of_ne_nil hne
  rw [← Path.isAbsolute_clean dir, h, ← isAbsolute_sources root, hcons]
  rfl

/-- The directory lies below the sources of the root: its cleaned text goes on from theirs after a
slash, and takes no step up there. -/
def Below (root dir : Bytes) : Prop :=
  ∃ rest, Path.clean dir = sources root ++ Byte.slash :: rest ∧ parentName ∉ components rest

/-- What the text goes on with are entries, at least one of them. -/
theorem entries_of_text {rest : Bytes}
    (h : Path.clean dir = sources root ++ Byte.slash :: rest) :
    components rest ≠ [] ∧ (∀ name ∈ components rest, IsEntry name) ∧
      cleanComponents dir = cleanComponents root ++ [ascii "src"] ++ components rest := by
  have hcomponents := Path.cleanComponents_of_text h
  rw [components_sources] at hcomponents
  have hclean := Path.isClean_cleanComponents dir
  refine ⟨?_, ?_, hcomponents⟩
  · intro hnil
    -- with no component more, the text would be that of the sources
    rw [hnil, List.append_nil] at hcomponents
    have htext : Path.clean dir = sources root := by
      rw [Path.clean, hcomponents, isAbsolute_of_text h, ← sources_eq]
    simpa using h.symm.trans htext
  · rw [hcomponents] at hclean
    refine hclean.entries_after ⟨ascii "src", by simp, by decide⟩

/-- The test on the text says whether the directory lies below the sources. -/
theorem below_iff_isPrefixOf :
    Below root dir ↔ (sources root ++ [Byte.slash]).isPrefixOf (Path.clean dir) = true := by
  rw [List.isPrefixOf_iff_prefix]
  constructor
  · rintro ⟨rest, htext, -⟩
    exact ⟨rest, by simp [htext]⟩
  · rintro ⟨rest, htext⟩
    have h : Path.clean dir = sources root ++ Byte.slash :: rest := by simp [← htext]
    exact ⟨rest, h, fun hup => ((entries_of_text h).2.1 parentName hup).above rfl⟩

/-- **The text tells where a directory lies**: below the sources of a root if and only if its
components are those of the root, `src`, and at least one entry. -/
theorem below_iff : Below root dir ↔ isAbsolute dir = isAbsolute root ∧
    ∃ names, names ≠ [] ∧ (∀ name ∈ names, IsEntry name) ∧
      cleanComponents dir = cleanComponents root ++ [ascii "src"] ++ names := by
  constructor
  · rintro ⟨rest, htext, -⟩
    exact ⟨isAbsolute_of_text htext, components rest, entries_of_text htext⟩
  · rintro ⟨habs, names, hne, hentries, hcomponents⟩
    have hsrc : cleanComponents root ++ [ascii "src"] ≠ [] := by simp
    obtain ⟨rest, htext⟩ := Path.exists_text_append (isAbsolute root) hsrc hne
    have h : Path.clean dir = sources root ++ Byte.slash :: rest := by
      rw [Path.clean, hcomponents, habs, htext, ← sources_eq]
    exact ⟨rest, h, fun hup => ((entries_of_text h).2.1 parentName hup).above rfl⟩

/-! ### The first directory of a path -/

/-- The directory of an import path below the sources of a root, cleaned. -/
def directory (root path : Bytes) : Bytes :=
  Path.clean (Path.append (Path.append root (ascii "src")) path)

/-- The root has a directory for the path, below its sources. -/
structure Offers (t : FileTree) (path root : Bytes) : Prop where
  below : Below root (directory root path)
  isDirectory : t.isDirectory (directory root path) = true

theorem join_sources (root path : Bytes) : Path.join (sources root) path = directory root path := by
  rw [sources, Path.join_eq_clean root, Path.join_clean_left, Path.join_eq_clean]
  rfl

theorem clean_directory (root path : Bytes) :
    Path.clean (directory root path) = directory root path :=
  Path.clean_clean _

/-- A root has a directory for a path if that lies below its sources. -/
theorem directoryIn?_eq_some_iff :
    directoryIn? root path = some dir ↔ dir = directory root path ∧ Below root dir := by
  unfold directoryIn?
  simp only
  rw [← sources, join_sources]
  constructor
  · intro h
    split at h
    · rename_i htest
      obtain rfl := Option.some.inj h
      exact ⟨rfl, below_iff_isPrefixOf.2 ((clean_directory root path).symm ▸ htest)⟩
    · cases h
  · rintro ⟨rfl, hbelow⟩
    exact if_pos (clean_directory root path ▸ below_iff_isPrefixOf.1 hbelow)

/-- A path may leave the sources on its way if it ends below them. -/
example : directoryIn? (ascii "../w") (ascii "a/../../src/b") = some (ascii "../w/src/b") := by
  decide

/-- A name that only begins with that of the sources is not below them. -/
example : directoryIn? (ascii "../w") (ascii "../src2/b") = none := by decide

theorem offers_iff : Offers t path root ↔ (directoryIn? root path).any t.isDirectory = true := by
  rw [Option.any_eq_true]
  constructor
  · exact fun h => ⟨_, directoryIn?_eq_some_iff.2 ⟨rfl, h.below⟩, h.isDirectory⟩
  · rintro ⟨dir, hdir, htree⟩
    obtain ⟨rfl, hbelow⟩ := directoryIn?_eq_some_iff.1 hdir
    exact ⟨hbelow, htree⟩

/-- **The directory of a path is that of the first root that has one.** -/
theorem firstDirectory?_eq_some_iff : firstDirectory? t roots path = some dir ↔
    ∃ before root after, roots = before ++ root :: after ∧ Offers t path root ∧
      (∀ earlier ∈ before, ¬ Offers t path earlier) ∧ dir = directory root path := by
  rw [firstDirectory?, List.find?_filterMap, Option.bind_eq_some_iff]
  simp only [List.find?_eq_some_iff_append, directoryIn?_eq_some_iff]
  constructor
  · rintro ⟨root, ⟨hroot, before, after, hroots, hbefore⟩, rfl, -⟩
    refine ⟨before, root, after, hroots, offers_iff.2 hroot, fun earlier hearlier => ?_, rfl⟩
    rw [offers_iff]
    simpa using hbefore earlier hearlier
  · rintro ⟨before, root, after, hroots, hroot, hbefore, rfl⟩
    refine ⟨root, ⟨offers_iff.1 hroot, before, after, hroots, fun earlier hearlier => ?_⟩, rfl,
      hroot.below⟩
    have := hbefore earlier hearlier
    rw [offers_iff] at this
    simpa using this

theorem firstDirectory?_eq_none_iff :
    firstDirectory? t roots path = none ↔ ∀ root ∈ roots, ¬ Offers t path root := by
  rw [firstDirectory?, List.find?_eq_none]
  simp only [List.mem_filterMap, directoryIn?_eq_some_iff]
  constructor
  · intro h root hroot hoffers
    exact h _ ⟨root, hroot, rfl, hoffers.below⟩ hoffers.isDirectory
  · rintro h dir ⟨root, hroot, rfl, hbelow⟩ htree
    exact h root hroot ⟨hbelow, htree⟩

/-! ### What is listed -/

/-- What the scan of its directory says about a path. -/
def answerOf (path dir : Bytes) :
    Except BuildError (Option ScannedPackage) → Traced (Except Bytes WorkspacePackage)
  | .error e => pure (.error e.text)
  | .ok none => pure (.error (ascii "no buildable source files in " ++ dir))
  | .ok (some scanned) => do
    Traced.note .debug "resolve" (ascii "found " ++ path ++ ascii " in " ++ dir)
    pure (.ok (packageOf scanned))

/-- The scan of the directory of a path, as a lister shows it. -/
def scanAt (t : FileTree) (context : BuildContext) (lister : Lister) (path dir : Bytes) :
    Traced (Except Bytes WorkspacePackage) :=
  (scanDirectory t context dir lister).run >>= answerOf path dir

/-- The search for a path below the roots, with directories as a lister shows them. -/
def search (t : FileTree) (context : BuildContext) (lister : Lister) (roots : List Bytes)
    (path : Bytes) : Traced (Except Bytes WorkspacePackage) :=
  match firstDirectory? t roots path with
  | none => pure (.error (notFound roots path))
  | some dir => scanAt t context lister path dir

/-- The workspace of a list of roots lists directories as the tree has them. -/
theorem locate_eq_search :
    (ofRoots t context roots).locate path = search t context t.listDirectory roots path := by
  unfold ofRoots search
  simp only
  cases firstDirectory? t roots path with
  | none => rfl
  | some dir =>
    show (scanDirectory t context dir t.listDirectory).run >>= _ = _ >>= _
    refine congrArg _ (funext fun result => ?_)
    unfold answerOf
    split <;> rfl

/-- A scan lists its own directory and no other. -/
theorem scanAt_congr {lister other : Lister} (h : lister dir = other dir) :
    scanAt t context lister path dir = scanAt t context other path dir := by
  unfold scanAt scanDirectory
  rw [h]

/-- **A workspace lists no directory but those below the sources of a root**, whatever the roots,
the tree and the path: what a lister says of other directories makes no difference. It scans the
directory of the first root that has one there, and where no root has one it does not scan. What the
text of a directory says, its components say too. -/
theorem locate_below (t : FileTree) (context : BuildContext) (roots : List Bytes) (path : Bytes) :
    (∀ lister : Lister, (∀ root ∈ roots, ∀ dir, Below root dir → lister dir = t.listDirectory dir) →
      (ofRoots t context roots).locate path = search t context lister roots path) ∧
    ((∃ before root after, roots = before ++ root :: after ∧ Offers t path root ∧
        (∀ earlier ∈ before, ¬ Offers t path earlier) ∧
        (ofRoots t context roots).locate path =
          scanAt t context t.listDirectory path (directory root path)) ∨
      (∀ root ∈ roots, ¬ Offers t path root) ∧
        (ofRoots t context roots).locate path = pure (.error (notFound roots path))) ∧
    ∀ root dir, Below root dir ↔ isAbsolute dir = isAbsolute root ∧
      ∃ names, names ≠ [] ∧ (∀ name ∈ names, IsEntry name) ∧
        cleanComponents dir = cleanComponents root ++ [ascii "src"] ++ names := by
  rw [locate_eq_search]
  unfold search
  refine and_assoc.1 ⟨?_, fun _ _ => below_iff⟩
  cases hfirst : firstDirectory? t roots path with
  | none =>
    exact ⟨fun _ _ => rfl, Or.inr ⟨firstDirectory?_eq_none_iff.1 hfirst, rfl⟩⟩
  | some dir =>
    obtain ⟨before, root, after, rfl, hoffers, hbefore, rfl⟩ := firstDirectory?_eq_some_iff.1 hfirst
    refine ⟨fun lister hsame => scanAt_congr ?_,
      Or.inl ⟨before, root, after, rfl, hoffers, hbefore, rfl⟩⟩
    exact (hsame root (by simp) _ hoffers.below).symm

end Workspace

end BuildOrder
