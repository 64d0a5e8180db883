import BuildOrder.Proofs.Sites
import BuildOrder.Proofs.Untagged
import BuildOrder.Proofs.Written

/-!
# A file is walked in source order

Each place that a reader of a file meets is that of a token, and no reader goes back.

* `Reading.Places`: places of different tokens, one after the other, before those that are left.
* `Reading.step_places`: a step of the readers of literals takes the place of a literal from a token
  before those read next.
* `Reading.recorded_places`: **so the places of the literals found, at any depth, are in order**, by
  induction on the steps.
* `Reading.declarations_places`: and so are those of imports, functions and literals.
* `SourceFile.walk_pairwise`: **the places that are met have increasing offsets**; so no literal is
  met twice, and what is reported of them comes in source order.
-/

namespace BuildOrder

/-- The place of what a reader of the file meets. -/
def SourceFile.Event.location : SourceFile.Event → Location
  | .importSpec spec => spec.location
  | .func decl => decl.location
  | .literal lit => lit.location

namespace Reading

variable {r : Reading} {c : Spot} {t u : Token} {ts us mid inside body rest : List Token}
  {places more : List Location} {seenOther : Bool}

/-! ### Places in order -/

/-- The places are those of tokens that come one after the other, and the rest comes after them.
None is that of a terminator. -/
def Places (r : Reading) (places : List Location) (ts rest : List Token) : Prop :=
  ∃ starts : List Token, starts.map r.locate = places ∧ (starts ++ rest).Sublist ts ∧
    ∀ t ∈ starts, t.kind ≠ .semicolon

namespace Places

theorem none (h : rest.Sublist ts) : r.Places [] ts rest := ⟨[], rfl, h, nofun⟩

theorem one (ht : t.kind ≠ .semicolon) (h : rest.Sublist ts) :
    r.Places [r.locate t] (t :: ts) rest :=
  ⟨[t], rfl, h.cons_cons t, by simpa using ht⟩

/-- What comes after the rest comes after the places. -/
theorem trans (h : r.Places places ts mid) (h' : r.Places more mid rest) :
    r.Places (places ++ more) ts rest := by
  obtain ⟨starts, rfl, hsub, hstarts⟩ := h
  obtain ⟨starts', rfl, hsub', hstarts'⟩ := h'
  refine ⟨starts ++ starts', List.map_append, ?_, ?_⟩
  · rw [List.append_assoc]
    exact (hsub'.append_left starts).trans hsub
  · intro t ht
    exact (List.mem_append.1 ht).elim (hstarts t) (hstarts' t)

/-- Places in one part of the tokens come before those in the next. -/
theorem append (h : r.Places places ts []) (h' : r.Places more us rest) :
    r.Places (places ++ more) (ts ++ us) rest := by
  obtain ⟨starts, rfl, hsub, hstarts⟩ := h
  rw [List.append_nil] at hsub
  have hfirst : r.Places (starts.map r.locate) (ts ++ us) us :=
    ⟨starts, rfl, hsub.append_right us, hstarts⟩
  exact hfirst.trans h'

theorem flatMap {α : Type} {f : α → List Location} {g : α → List Token} {as : List α}
    (h : ∀ a ∈ as, r.Places (f a) (g a) []) : r.Places (as.flatMap f) (as.flatMap g) [] := by
  induction as with
  | nil => exact none (.refl [])
  | cons a as ih =>
    rw [List.flatMap_cons, List.flatMap_cons]
    exact (h a List.mem_cons_self).append (ih fun b hb => h b (List.mem_cons_of_mem _ hb))

/-- There may be more tokens, and fewer need to be left. -/
theorem mono (h : r.Places places mid us) (hts : mid.Sublist ts) (hrest : rest.Sublist us) :
    r.Places places ts rest := by
  obtain ⟨starts, rfl, hsub, hstarts⟩ := h
  exact ⟨starts, rfl, ((hrest.append_left starts).trans hsub).trans hts, hstarts⟩

end Places

/-! ### Literals -/

theorem literalStep_places {start : Token} (type : LiteralType) (brace : Token)
    (after : LiteralReader) (hstart : start.kind ≠ .semicolon) :
    r.Places ((r.literalStep type start brace after inside).site.map (·.literal.location)).toList
      (start :: inside) ((r.literalStep type start brace after inside).next.flatMap Spot.tokens) := by
  rcases literalStep_cases (r := r) type start brace after inside with
    heq | ⟨body, rest, elements, hgroup, -, heq⟩ <;> rw [heq]
  · exact .none (List.nil_sublist _)
  · exact .one hstart (by simpa using group_sublist hgroup)

/-- **A step takes the place of a literal from a token before those read next.** -/
theorem step_places (r : Reading) (c : Spot) :
    r.Places ((r.step c).site.map (·.literal.location)).toList c.tokens
      ((r.step c).next.flatMap Spot.tokens) := by
  have hsub := step_sublist r c
  revert hsub
  fun_cases step r c with
  | case11 s t ts hheader ht type inside hsome =>
    intro _
    have hinside : inside.Sublist ts :=
      (List.sublist_cons_self _ _).trans (literalAt?_sublist hsome)
    exact (literalStep_places type _ _ (by simp [ht])).mono (hinside.cons_cons t) (.refl _)
  | case14 ts inside hopen =>
    intro _
    obtain ⟨brace, hbrace, rfl⟩ := afterOpening?_eq_some.1 hopen
    exact literalStep_places _ _ _ (by simp [front, hbrace])
  | _ => exact fun hsub => .none hsub

/-- **The places of the literals found, at any depth, are in order.** -/
theorem recorded_places (h : r.Accepts c) :
    r.Places ((r.recorded c).map CompositeLit.location) c.tokens [] := by
  induction hsize : c.size using Nat.strongRecOn generalizing c with
  | ind n ih =>
    subst hsize
    obtain ⟨lits, hread⟩ := h
    have hstep := reads_step hread
    have hnext : ∀ d ∈ (r.step c).next,
        r.Places ((r.recorded d).map CompositeLit.location) d.tokens [] :=
      fun d hd => ih _ (size_lt_of_mem_step c d hd) (hstep.accepts d hd) rfl
    -- the literal of the step comes first, then those of the spots read next
    have hall := (step_places r c).trans (Places.flatMap hnext)
    rw [hstep.recorded, List.map_append, List.map_flatMap]
    cases hsite : (r.step c).site <;> rw [hsite] at hall <;> exact hall

/-- The literals of code come before what follows the code. -/
theorem scanLiterals_places {lits : List CompositeLit} (h : r.scanLiterals {} inside = .ok lits)
    (hsub : (inside ++ rest).Sublist ts) :
    r.Places ((CompositeLit.preorderAll lits).map CompositeLit.location) ts rest := by
  have hread : r.read ⟨.code {}, inside⟩ = .ok lits := h
  have hinside := recorded_places ⟨lits, hread⟩
  rw [recorded_eq hread] at hinside
  have hall := (hinside.append (.none (.refl rest))).mono hsub (.refl rest)
  rwa [List.append_nil] at hall

/-! ### Declarations -/

/-- An import starts with its local name, or with its path. -/
theorem importSpec_places {p : Parsed ImportSpec ts.length} (h : r.importSpec ts = .ok p) :
    r.Places [p.value.location] ts p.rest := by
  obtain ⟨path, hpath, h⟩ := bind_eq_ok.1 h
  obtain rfl := Except.ok.inj h
  obtain ⟨hkind, hrest⟩ := expect_ok hpath
  cases ts with
  | nil => cases hpath
  | cons t ts =>
    show r.Places [r.locate t] (t :: ts) path.rest
    simp only [importName] at hrest
    -- the first token is a name, a point, or the path itself
    split at hrest
    · rename_i ht
      have hsuffix : path.rest <:+ ts := ⟨[path.value], hrest.symm⟩
      exact .one (by simp [ht]) hsuffix.sublist
    split at hrest
    · rename_i ht
      have hsuffix : path.rest <:+ ts := ⟨[path.value], hrest.symm⟩
      exact .one (by simp [ht]) hsuffix.sublist
    · obtain ⟨ht, hts⟩ := List.cons.inj hrest
      have hstring : t.kind = .string := (congrArg Token.kind ht).trans hkind
      have hsuffix : path.rest <:+ ts := ⟨[], hts.symm⟩
      exact .one (by simp [hstring]) hsuffix.sublist

theorem importGroup_places {ts : List Token} {p : Parsed (List ImportSpec) (ts.length + 1)}
    (h : r.importGroup ts = .ok p) : r.Places (p.value.map ImportSpec.location) ts p.rest := by
  rcases importGroup_ok h with ⟨t, -, hts, hvalue⟩ |
    ⟨t, rest, specs, -, hts, hspecs, hvalue, hrest⟩ |
    ⟨spec, specs, hspec, hspecs, hvalue, hrest⟩
  · have hsuffix : p.rest <:+ ts := ⟨[t], hts.symm⟩
    rw [hvalue]
    exact .none hsuffix.sublist
  · have hsuffix : rest <:+ ts := ⟨[t], hts.symm⟩
    rw [hvalue, hrest]
    exact (importGroup_places hspecs).mono hsuffix.sublist (.refl _)
  · rw [hvalue, hrest]
    exact (importSpec_places hspec).trans (importGroup_places hspecs)
termination_by ts.length
decreasing_by
  · simp [hts]
  · exact spec.shorter

/-- The places of what a reader of the file meets in a declaration. -/
def placesOf (d : Decl) : List Location := (SourceFile.Decl.events d).map SourceFile.Event.location

theorem placesOf_imports (specs : List ImportSpec) :
    placesOf (.imports specs) = specs.map ImportSpec.location := by
  rw [placesOf, SourceFile.Decl.events, List.map_map]
  rfl

theorem placesOf_func (f : FuncDecl) : placesOf (.func f) =
    f.location :: (CompositeLit.preorderAll f.literals).map CompositeLit.location := by
  rw [placesOf, SourceFile.Decl.events, List.map_cons, List.map_map]
  rfl

theorem placesOf_value (keyword : ValueKeyword) (lits : List CompositeLit) :
    placesOf (.value keyword lits) =
      (CompositeLit.preorderAll lits).map CompositeLit.location := by
  rw [placesOf, SourceFile.Decl.events, List.map_map]
  rfl

theorem importDecl_places {d : Parsed Decl (ts.length + 1)} (h : r.importDecl ts = .ok d) :
    r.Places (placesOf d.value) ts d.rest := by
  rcases importDecl_ok h with
    ⟨inside, specs, hopen, hspecs, hvalue, hrest⟩ | ⟨spec, hspec, hvalue, hrest⟩
  all_goals rw [hvalue, hrest, placesOf_imports]
  · exact (importGroup_places hspecs).mono (afterOpening?_suffix hopen).sublist (.refl _)
  · exact importSpec_places hspec

/-- What is in the group at the front comes before what follows it. -/
theorem optionalGroup_sublist {b : Bracket} {p : Parsed (Option (List Token)) (ts.length + 1)}
    (h : r.optionalGroup b ts = .ok p) : (p.value.getD [] ++ p.rest).Sublist ts := by
  rcases optionalGroup_ok h with ⟨-, hvalue, hrest⟩ | ⟨inside, body, hopen, hgroup, hvalue⟩
  · rw [hvalue, hrest]
    exact .refl ts
  · rw [hvalue]
    exact (group_sublist hgroup).trans (afterOpening?_suffix hopen).sublist

/-- A function starts at its keyword, before the literals of its body. -/
theorem funcDecl_places {d : Parsed Decl (ts.length + 1)} (ht : t.kind ≠ .semicolon)
    (h : r.funcDecl t ts = .ok d) : r.Places (placesOf d.value) (t :: ts) d.rest := by
  obtain ⟨head, body, literals, hhead, hbody, hliterals, hvalue, hrest⟩ := funcDecl_ok h
  obtain ⟨-, -, -, -, -, -, -, -, -, -, -, hlocation⟩ := funcHead_ok hhead
  have hliteralPlaces := scanLiterals_places hliterals
    ((optionalGroup_sublist hbody).trans (funcHead_passes hhead).suffix.sublist)
  rw [hvalue, hrest, placesOf_func, ← List.singleton_append]
  dsimp only
  rw [hlocation]
  exact (Places.one ht (.refl ts)).trans hliteralPlaces

theorem valueTokens_sublist {tokens : Parsed (List Token) (ts.length + 1)}
    (h : r.valueTokens ts = .ok tokens) : (tokens.value ++ tokens.rest).Sublist ts := by
  rcases valueTokens_ok h with ⟨inside, hopen, hgroup⟩ | ⟨-, hskip, hvalue⟩
  · exact (group_sublist hgroup).trans (afterOpening?_suffix hopen).sublist
  · rw [hvalue, skipToTerminator_ok hskip, spanTop_append]

theorem valueDecl_places {keyword : ValueKeyword} {d : Parsed Decl (ts.length + 1)}
    (h : r.valueDecl keyword ts = .ok d) : r.Places (placesOf d.value) ts d.rest := by
  obtain ⟨tokens, literals, htokens, hliterals, hvalue, hrest⟩ := valueDecl_ok h
  rw [hvalue, hrest, placesOf_value]
  exact scanLiterals_places hliterals (valueTokens_sublist htokens)

theorem declaration_places {d : Parsed Decl (ts.length + 1)}
    (h : r.declaration seenOther t ts = .ok d) : r.Places (placesOf d.value) (t :: ts) d.rest := by
  rcases declaration_ok h with ⟨-, -, himport⟩ | ⟨ht, hfunc⟩ | ⟨keyword, -, hvalue⟩
  · exact (importDecl_places himport).mono (List.sublist_cons_self _ _) (.refl _)
  · exact funcDecl_places (by simp [ht]) hfunc
  · exact (valueDecl_places hvalue).mono (List.sublist_cons_self _ _) (.refl _)

/-- **What is met in a list of declarations is in order.** -/
theorem declarations_places : ∀ {decls : List Decl}, r.declarations seenOther ts = .ok decls →
    r.Places (decls.flatMap placesOf) ts [] := by
  induction seenOther, ts using declarations.induct with
  | case1 seenOther =>
    intro decls h
    rw [declarations] at h
    obtain rfl := Except.ok.inj h
    exact .none (.refl [])
  | case2 seenOther t ts ht ih =>
    intro decls h
    rcases declarations_cons h with ⟨-, h⟩ | ⟨-, -, -, hne, -⟩
    · exact (ih h).mono (List.sublist_cons_self _ _) (.refl _)
    · exact absurd ht hne
  | case3 seenOther t ts ht ih =>
    intro decls h
    rcases declarations_cons h with ⟨ht', -⟩ | ⟨d, next, decls', -, hd, hnext, hdecls', rfl⟩
    · exact absurd ht' ht
    have hrest := (endDeclaration_passes hnext).suffix.sublist
    exact ((declaration_places hd).mono (.refl _) hrest).trans (ih d next hdecls')

end Reading

/-! ### The whole file -/

namespace SourceFile

variable {source : Source} {file : SourceFile}

/-- **What is met in a file starts at different tokens written in it**, one after the other. -/
theorem exists_starts (h : SourceFile.parse source = .ok file) :
    ∃ starts : List Token, file.walk.map Event.location = starts.map (source.location ·.offset) ∧
      starts.Sublist ((tokenize source.content).tokens.filter Token.isWritten) := by
  obtain ⟨name, rest, hclause, hdecls⟩ := parse_ok h
  obtain ⟨starts, hplaces, hsub, hstarts⟩ := Reading.declarations_places hdecls
  rw [List.append_nil] at hsub
  have hlexed := lexed_tokenize source.content
  -- the declarations stand between the package clause and the end of the file
  obtain ⟨front, offset, hall, hfront⟩ := hlexed.exists_endOfFile
  have hrest : rest.Sublist front := by
    have hsuffix := (Reading.packageClause_passes hclause).suffix
    rw [hall, List.dropLast_concat] at hsuffix
    exact hsuffix.sublist
  have hsubAll := (hsub.trans hrest).trans (List.sublist_append_left front [Token.endOfFile offset])
  rw [← hall] at hsubAll
  refine ⟨starts, ?_, ?_⟩
  · rw [walk, List.map_flatMap]
    exact hplaces.symm
  · have hwritten : ∀ t ∈ starts, t.isWritten = true := fun t ht =>
      hlexed.isWritten t (hsubAll.subset ht) (hstarts t ht)
        (hfront t ((hsub.trans hrest).subset ht))
    rw [← List.filter_eq_self.2 hwritten]
    exact hsubAll.filter _

/-- The places of a text whose offsets are 32-bit numbers are in the order of these. -/
theorem offset_location_lt {a b : Nat} (hab : a < b) (hb : b < UInt32.size) :
    (source.location a).offset < (source.location b).offset := by
  show a.toUInt32 < b.toUInt32
  rw [UInt32.lt_iff_toNat_lt, Nat.toUInt32_eq, Nat.toUInt32_eq, UInt32.toNat_ofNat',
    UInt32.toNat_ofNat', Nat.mod_eq_of_lt hb, Nat.mod_eq_of_lt (hab.trans hb)]
  exact hab

/-- What is kept of a list keeps its places in their order. -/
theorem map_filterMap_sublist {α β γ : Type} {f : α → Option β} {g : β → γ} {k : α → γ}
    (h : ∀ a b, f a = some b → g b = k a) (as : List α) :
    ((as.filterMap f).map g).Sublist (as.map k) := by
  induction as with
  | nil => exact .refl []
  | cons a as ih =>
    rw [List.filterMap_cons, List.map_cons]
    split
    · exact ih.cons _
    · rename_i b hb
      rw [List.map_cons, h a b hb]
      exact ih.cons_cons _

/-- The literals of a file are among what is met. -/
theorem literals_sublist (file : SourceFile) :
    (file.literals.map CompositeLit.location).Sublist (file.walk.map Event.location) := by
  have hliterals : file.literals = file.walk.filterMap Event.literal? :=
    (literals_events file.decls).symm
  rw [hliterals]
  refine map_filterMap_sublist (fun e lit hlit => ?_) _
  cases e <;> cases hlit
  rfl

/-- **A file of less than 4 GiB is walked in source order**: the places of imports, functions and
literals at any depth have increasing offsets. So no two literals have one place, and what the check
of the literals reports comes in source order. -/
theorem walk_pairwise (h : SourceFile.parse source = .ok file)
    (hlength : source.content.length < UInt32.size) :
    (file.walk.map Event.location).Pairwise (·.offset < ·.offset) ∧
    (file.literals.map CompositeLit.location).Nodup ∧
    ∀ (isStandard : Bytes → Bool) (exempt : List Bytes),
      ((checkLiterals isStandard exempt file).value.map Diagnostic.location).Pairwise
        (·.offset < ·.offset) := by
  obtain ⟨starts, hplaces, hsub⟩ := exists_starts h
  obtain ⟨-, -, hbytes, hordered⟩ := tokenize_tiles source.content
  -- a written token has some bytes, so the next one starts later, and both start within the text
  have hwalk : (file.walk.map Event.location).Pairwise (·.offset < ·.offset) := by
    rw [hplaces, List.pairwise_map]
    refine (hordered.sublist hsub).imp_of_mem fun {t u} ht hu hstop => ?_
    have hfirst := List.length_pos_iff.2 (hbytes t (hsub.subset ht)).1
    have hsecond := List.length_pos_iff.2 (hbytes u (hsub.subset hu)).1
    have hwithin := (hbytes u (hsub.subset hu)).2.length_le
    rw [List.length_drop] at hwithin
    rw [Token.stop] at hstop
    exact offset_location_lt (by omega) (by omega)
  have hliterals := hwalk.sublist (literals_sublist file)
  refine ⟨hwalk, hliterals.imp fun {a b} hlt => ?_, fun isStandard exempt => ?_⟩
  · rintro rfl
    exact UInt32.lt_irrefl _ hlt
  · obtain ⟨fault, hfault, hvalue⟩ := checkLiterals_value h
    rw [hvalue]
    refine hliterals.sublist (map_filterMap_sublist (fun lit d hd => ?_) _)
    obtain ⟨path, -, rfl⟩ := (hfault lit d).1 hd
    rfl

/-- An import, and a function with a literal that has literals in a key and in a function in a
value. -/
def layeredSource : Source where
  filename := ascii "p.go"
  content := ascii "package p\nimport \"q\"\nfunc f() \x7b g(q.T\x7b\x7b1\x7d: " ++
    ascii "func() \x7b V\x7bW\x7b2\x7d, q.U\x7b3\x7d\x7d \x7d\x7d) \x7d\n"

theorem walk_pairwise_layered : ∃ file, SourceFile.parse layeredSource = .ok file ∧
    layeredSource.content.length < UInt32.size ∧ file.walk.length = 7 ∧ file.literals.length = 5 ∧
    (file.walk.map Event.location).Pairwise (·.offset < ·.offset) ∧
    (file.literals.map CompositeLit.location).Nodup := by
  have hcounts : (SourceFile.parse layeredSource).toOption.map
      (fun file => (file.walk.length, file.literals.length)) = some (7, 5) := by
    decide +kernel
  obtain ⟨file, hfile, hcount⟩ := Option.map_eq_some_iff.1 hcounts
  obtain ⟨hwalk, hliterals⟩ := Prod.mk.inj hcount
  have hparse := eq_ok_of_toOption hfile
  have hlength : layeredSource.content.length < UInt32.size := by decide
  obtain ⟨hordered, honce, -⟩ := walk_pairwise hparse hlength
  exact ⟨file, hparse, hlength, hwalk, hliterals, hordered, honce⟩

end SourceFile

end BuildOrder
