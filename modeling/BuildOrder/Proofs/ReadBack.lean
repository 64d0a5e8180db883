import BuildOrder.Proofs.Document

/-!
# Documents are read back

* `Config.skipBlanks_gap`, `Config.stringBody_escape`: what stands between words is passed over, and
  a string is the one that was escaped.
* `Config.Gets`: a reader gets a value and stops where that ends; from `Config.gets_items` to
  `Config.gets_entries`, each reader gets what was written.
* `Config.parse_document`: **a document is read as the configuration it says**, and as no other.
-/

namespace BuildOrder.Config

variable {s rest : Bytes} {line : Nat}

/-! ### Between the words -/

/-- A text that begins with neither white space nor a comment. -/
def Solid (s : Bytes) : Prop := ∃ b t, s = b :: t ∧ Byte.isSpace b = false ∧ b ≠ 0x23

theorem solid_cons {b : UInt8} (hspace : Byte.isSpace b = false) (hsign : b ≠ 0x23) (s : Bytes) :
    Solid (b :: s) := ⟨b, s, rfl, hspace, hsign⟩

theorem skipBlanks_solid (h : Solid s) (line : Nat) : skipBlanks false line s = (line, s) := by
  obtain ⟨b, t, rfl, hspace, hsign⟩ := h
  simp [skipBlanks, hspace, hsign]

theorem skipBlanks_inComment {text : Bytes} (h : Byte.newline ∉ text) (line : Nat) :
    skipBlanks true line (text ++ rest) = skipBlanks true line rest := by
  induction text with
  | nil => rfl
  | cons b text ih =>
    obtain ⟨hne, hrest⟩ := not_or.1 (mt List.mem_cons.2 h)
    have hb : b ≠ Byte.newline := fun heq => hne heq.symm
    rw [List.cons_append, skipBlanks, if_pos rfl, lineAfter, if_neg hb, bne_iff_ne.2 hb, ih hrest]

/-- **White space and comments are passed over.** -/
theorem skipBlanks_gap (g : Gap) (line : Nat) (rest : Bytes) :
    ∃ line', skipBlanks false line (g.written ++ rest) = skipBlanks false line' rest := by
  induction g generalizing line with
  | nil => exact ⟨line, rfl⟩
  | cons blank g ih =>
    have hwritten : Gap.written (blank :: g) ++ rest = blank.written ++ (Gap.written g ++ rest) := by
      simp [Gap.written]
    rw [hwritten]
    cases blank with
    | space b hspace =>
      obtain ⟨line', h⟩ := ih (lineAfter line b)
      refine ⟨line', ?_⟩
      simpa [Blank.written, skipBlanks, hspace] using h
    | comment c =>
      obtain ⟨line', h⟩ := ih (line + 1)
      refine ⟨line', ?_⟩
      have hsign : Byte.isSpace 0x23 = false := by decide
      rw [Blank.written, Comment.written, List.append_assoc, List.cons_append]
      simp only [skipBlanks, hsign]
      simp only [Bool.false_eq_true, if_false, if_true]
      rw [skipBlanks_inComment c.oneLine]
      simpa [skipBlanks, lineAfter] using h

theorem skipBlanks_gap_solid (g : Gap) (line : Nat) (h : Solid rest) :
    ∃ line', skipBlanks false line (g.written ++ rest) = (line', rest) := by
  obtain ⟨line', hskip⟩ := skipBlanks_gap g line rest
  exact ⟨line', hskip.trans (skipBlanks_solid h line')⟩

/-- A comment may end with the text. -/
theorem skipBlanks_ending (ending : Option Comment) (line : Nat) :
    ∃ line', skipBlanks false line ((ending.map Comment.written).getD []) = (line', []) := by
  cases ending with
  | none => exact ⟨line, rfl⟩
  | some c =>
    have hsign : Byte.isSpace 0x23 = false := by decide
    refine ⟨line, ?_⟩
    have h : skipBlanks true line (c.text ++ []) = (line, []) :=
      skipBlanks_inComment c.oneLine line
    rw [List.append_nil] at h
    simpa [Comment.written, skipBlanks, hsign] using h

/-- White space alone is passed over. -/
theorem skipSpace_spaces (spaces : Spaces) (line : Nat) (h : Solid rest) :
    ∃ line', skipSpace line (spaces.text ++ rest) = (line', rest) := by
  obtain ⟨text, hspaces⟩ := spaces
  induction text generalizing line with
  | nil =>
    obtain ⟨b, t, rfl, hspace, -⟩ := h
    exact ⟨line, by simp [skipSpace, hspace]⟩
  | cons c text ih =>
    have hc : Byte.isSpace c = true := hspaces c List.mem_cons_self
    obtain ⟨line', hskip⟩ := ih (lineAfter line c) fun b hb => hspaces b (List.mem_cons_of_mem c hb)
    refine ⟨line', ?_⟩
    rw [List.cons_append, skipSpace, if_pos hc]
    exact hskip

/-! ### Values -/

theorem stringBody_backslash (b : UInt8) (s : Bytes) :
    stringBody (Byte.backslash :: b :: s) =
      (stringBody s).map fun (text, rest) => (unescape b :: text, rest) := by
  have hback : Byte.backslash ≠ Byte.quote ∧ Byte.backslash ≠ Byte.newline := by decide
  rw [stringBody.eq_def]
  simp [hback]

/-- **A string is the one that was escaped.** -/
theorem stringBody_escape (s rest : Bytes) :
    stringBody (s.flatMap escape ++ Byte.quote :: rest) = .ok (s, rest) := by
  induction s with
  | nil =>
    rw [List.flatMap_nil, List.nil_append, stringBody.eq_def]
    simp
  | cons b s ih =>
    rw [List.flatMap_cons, List.append_assoc, escape]
    split
    · -- a newline
      rename_i hb
      subst hb
      simp only [List.cons_append, List.nil_append, stringBody_backslash, ih]
      rfl
    split
    · -- a quote or a backslash
      rename_i hb
      have hunescape : unescape b = b := by
        rcases hb with rfl | rfl <;> decide
      simp only [List.cons_append, List.nil_append, stringBody_backslash, ih, hunescape]
      rfl
    · -- any other byte
      rename_i hnewline hb
      obtain ⟨hquote, hbackslash⟩ := not_or.1 hb
      rw [List.singleton_append, stringBody.eq_def]
      simp [hquote, hnewline, hbackslash, ih, Except.map]

/-- The reader gets the value, and stops where the rest begins. -/
def Gets {α : Type} {bound : Nat} (read : Except LineFault (Read α bound)) (value : α)
    (rest : Bytes) : Prop :=
  ∃ r, read = .ok r ∧ r.value = value ∧ r.rest = rest

theorem stringText_append (s rest : Bytes) :
    stringText s ++ rest = Byte.quote :: (s.flatMap escape ++ Byte.quote :: rest) := by
  simp [stringText, Bytes.quoted]

theorem gets_string (line : Nat) (s rest : Bytes) :
    Gets (readString line (stringText s ++ rest)) s rest := by
  rw [stringText_append, readString, if_pos rfl]
  split
  · rename_i h
    rw [stringBody_escape] at h
    cases h
  · rename_i text rest' h
    rw [stringBody_escape, Except.ok.injEq, Prod.mk.injEq] at h
    exact ⟨_, rfl, h.1.symm, h.2.symm⟩

theorem Gets.bind {α β : Type} {bound bound' : Nat} {x : Except LineFault (Read α bound)}
    {f : Read α bound → Except LineFault (Read β bound')} {a : α} {b : β} {stop : Bytes}
    (hx : Gets x a stop)
    (hf : ∀ r : Read α bound, r.value = a → r.rest = stop → Gets (f r) b rest) :
    Gets (x >>= f) b rest := by
  obtain ⟨r, rfl, hvalue, hrest⟩ := hx
  exact hf r hvalue hrest

section Items

variable {body text after : Bytes} {line' : Nat}

theorem gets_last (hbody : stringBody body = .ok (text, after))
    (hskip : skipBlanks false line after = (line', 0x5d :: rest)) :
    Gets (readItems line (Byte.quote :: body)) [text] rest := by
  rw [readItems, if_neg (by decide), if_neg (by simp)]
  split
  · rename_i h
    cases hbody.symm.trans h
  rename_i h
  cases hbody.symm.trans h
  split
  · rename_i h
    cases hskip.symm.trans h
  · rename_i h
    cases hskip.symm.trans h
    exact ⟨_, rfl, rfl, rfl⟩
  · rename_i hclose h
    cases hskip.symm.trans h
    exact absurd rfl (hclose _)

theorem gets_more {next start : Bytes} {line'' : Nat} {values : List Bytes}
    (hbody : stringBody body = .ok (text, after))
    (hskip : skipBlanks false line after = (line', 0x2c :: next))
    (hnext : skipBlanks false line' next = (line'', start))
    (hitems : Gets (readItems line'' start) values rest) :
    Gets (readItems line (Byte.quote :: body)) (text :: values) rest := by
  rw [readItems, if_neg (by decide), if_neg (by simp)]
  split
  · rename_i h
    cases hbody.symm.trans h
  rename_i h
  cases hbody.symm.trans h
  split
  · rename_i h
    cases hskip.symm.trans h
    have hitems : Gets (readItems (skipBlanks false line' next).1 (skipBlanks false line' next).2)
        values rest := by
      rw [hnext]
      exact hitems
    exact hitems.bind fun r hvalue hrest => ⟨_, rfl, by rw [hvalue], hrest⟩
  · rename_i h
    cases hskip.symm.trans h
  · rename_i hcomma _ h
    cases hskip.symm.trans h
    exact absurd rfl (hcomma _)

end Items

theorem solid_items (items : Items) (rest : Bytes) : Solid (items.written ++ rest) := by
  cases items with
  | close => exact solid_cons (by decide) (by decide) rest
  | last item after =>
    rw [Items.written, List.append_assoc, stringText_append]
    exact solid_cons (by decide) (by decide) _
  | more item after next more =>
    rw [Items.written, List.append_assoc, stringText_append]
    exact solid_cons (by decide) (by decide) _

/-- **The items of an array**, with or without a comma at the end. -/
theorem gets_items (items : Items) (line : Nat) (rest : Bytes) :
    Gets (readItems line (items.written ++ rest)) items.values rest := by
  induction items generalizing line with
  | close =>
    rw [Items.written, List.singleton_append, readItems, if_pos rfl]
    exact ⟨_, rfl, rfl, rfl⟩
  | last item after =>
    have hclose : Solid (0x5d :: rest) := solid_cons (by decide) (by decide) rest
    obtain ⟨line', hskip⟩ := skipBlanks_gap_solid after line hclose
    rw [Items.written, List.append_assoc, List.append_assoc, List.singleton_append,
      stringText_append]
    exact gets_last (stringBody_escape item _) hskip
  | more item after next more ih =>
    have hcomma : Solid (0x2c :: (next.written ++ (more.written ++ rest))) :=
      solid_cons (by decide) (by decide) _
    obtain ⟨line', hskip⟩ := skipBlanks_gap_solid after line hcomma
    obtain ⟨line'', hnext⟩ := skipBlanks_gap_solid next line' (solid_items more rest)
    rw [Items.written, List.append_assoc, List.append_assoc, List.cons_append, List.append_assoc,
      stringText_append]
    exact gets_more (stringBody_escape item _) hskip hnext (ih line'')

theorem gets_array (lead : Gap) (items : Items) (line : Nat) (rest : Bytes) :
    Gets (readArray line (0x5b :: (lead.written ++ (items.written ++ rest)))) items.values rest := by
  obtain ⟨line', hskip⟩ := skipBlanks_gap_solid lead line (solid_items items rest)
  have hitems : Gets (readItems (skipBlanks false line (lead.written ++ (items.written ++ rest))).1
      (skipBlanks false line (lead.written ++ (items.written ++ rest))).2) items.values rest := by
    rw [hskip]
    exact gets_items items line' rest
  rw [readArray, if_pos rfl]
  exact hitems.bind fun r hvalue hrest => ⟨_, rfl, hvalue, hrest⟩

/-! ### Assignments -/

/-- How a key is set. -/
def Key.setting (k : Key) : Setting :=
  if k.isList then .list fun l => k.set (.list l) else .text fun s => k.set (.text s)

theorem lookup_settings (k : Key) : settings.lookup (k.owner, k.name) = some k.setting := by
  cases k <;> rfl

theorem solid_value (v : ValueText) (rest : Bytes) : Solid (v.written ++ rest) := by
  cases v with
  | text s =>
    rw [ValueText.written, stringText_append]
    exact solid_cons (by decide) (by decide) _
  | list lead items => exact solid_cons (by decide) (by decide) _

theorem gets_value {k : Key} {v : ValueText} (hfits : v.value.isList = k.isList) (c : Config)
    (line : Nat) (rest : Bytes) :
    Gets (readValue k.setting c line (v.written ++ rest)) (k.set v.value c) rest := by
  cases v with
  | text s =>
    have hkind : k.setting = .text fun s => k.set (.text s) :=
      if_neg (by simp [← hfits, ValueText.value, Value.isList])
    rw [hkind]
    exact (gets_string line s rest).bind fun r hvalue hrest => ⟨_, rfl, by rw [hvalue]; rfl, hrest⟩
  | list lead items =>
    have hkind : k.setting = .list fun l => k.set (.list l) :=
      if_pos (by simp [← hfits, ValueText.value, Value.isList])
    rw [hkind, ValueText.written, List.cons_append, List.append_assoc]
    exact (gets_array lead items line rest).bind fun r hvalue hrest =>
      ⟨_, rfl, by rw [hvalue]; rfl, hrest⟩

theorem Key.name_isName (k : Key) : k.name ≠ [] ∧ ∀ b ∈ k.name, isNameByte b = true := by
  have hall : k.name.all isNameByte = true := by cases k <;> rfl
  exact ⟨by cases k <;> decide, List.all_eq_true.1 hall⟩

theorem not_isNameByte_of_isSpace {b : UInt8} (h : Byte.isSpace b = true) : isNameByte b = false := by
  simp only [Byte.isSpace, isNameByte, Byte.isAlphanumeric, Byte.isAlpha, Byte.isUpper, Byte.isLower,
    Byte.isDigit] at *
  grind

/-- A name ends where white space or another sign follows. -/
theorem takeWhile_name {name : Bytes} (hname : ∀ b ∈ name, isNameByte b = true) (spaces : Spaces)
    {b : UInt8} (hb : isNameByte b = false) (rest : Bytes) :
    (name ++ (spaces.text ++ b :: rest)).takeWhile isNameByte = name := by
  rw [List.takeWhile_append_of_pos hname]
  obtain ⟨text, hspaces⟩ := spaces
  cases text with
  | nil => simp [hb]
  | cons c text => simp [not_isNameByte_of_isSpace (hspaces c List.mem_cons_self)]

/-- **An assignment sets its key.** -/
theorem gets_entry {owner : Bytes} (e : Entry owner) (c : Config) (line : Nat) (rest : Bytes) :
    Gets (readEntry owner c line (e.key.name ++ (e.before.text ++ 0x3d :: (e.after.text ++
      (e.value.written ++ rest))))) (e.key.set e.value.value c) rest := by
  obtain ⟨key, rfl, before, after, value, hfits, gap⟩ := e
  obtain ⟨hne, hname⟩ := key.name_isName
  have hkey := takeWhile_name hname before (b := 0x3d) (by decide)
    (after.text ++ (value.written ++ rest))
  have hequals : Solid (0x3d :: (after.text ++ (value.written ++ rest))) :=
    solid_cons (by decide) (by decide) _
  obtain ⟨line', hskip⟩ := skipSpace_spaces before line hequals
  obtain ⟨line'', hstart⟩ := skipSpace_spaces after line' (solid_value value rest)
  have hread : Gets (readValue key.setting c
      (skipSpace line' (after.text ++ (value.written ++ rest))).1
      (skipSpace line' (after.text ++ (value.written ++ rest))).2) (key.set value.value c) rest := by
    rw [hstart]
    exact gets_value hfits c line'' rest
  rw [readEntry]
  simp only [hkey, if_neg hne, lookup_settings]
  split
  · rename_i h
    rw [hkey, List.drop_left, hskip] at h
    cases h
    exact hread.bind fun r hvalue hrest => ⟨_, rfl, hvalue, hrest⟩
  · rename_i hnone h
    rw [hkey, List.drop_left, hskip] at h
    cases h
    exact absurd rfl (hnone _)

theorem solid_name {b : UInt8} (h : isNameByte b = true) (s : Bytes) : Solid (b :: s) ∧ b ≠ 0x5b := by
  have hspace : Byte.isSpace b = false := by
    cases hspace : Byte.isSpace b with
    | false => rfl
    | true => exact absurd h (Bool.eq_false_iff.1 (not_isNameByte_of_isSpace hspace))
  have hsign : b ≠ 0x23 := by
    rintro rfl
    exact absurd h (by decide)
  refine ⟨solid_cons hspace hsign s, ?_⟩
  rintro rfl
  exact absurd h (by decide)

section Entries

variable {name start stop : Bytes} {c c' c'' : Config} {line' : Nat}

/-- The assignments of a section end with the text, or where another section begins. -/
theorem gets_noEntries (hskip : skipBlanks false line s = (line', rest))
    (hend : rest = [] ∨ ∃ t, rest = 0x5b :: t) : Gets (readEntries name c line s) c rest := by
  rw [readEntries]
  split
  · rename_i h
    cases hskip.symm.trans h
    exact ⟨_, rfl, rfl, rfl⟩
  · rename_i b t h
    cases hskip.symm.trans h
    obtain hnil | ⟨t', ht⟩ := hend
    · cases hnil
    · cases ht
      rw [if_pos rfl]
      exact ⟨_, rfl, rfl, rfl⟩

theorem gets_nextEntry (hskip : skipBlanks false line s = (line', start))
    (hstart : ∃ b t, start = b :: t ∧ b ≠ 0x5b) (hentry : Gets (readEntry name c line' start) c' stop)
    (hmore : ∀ line, Gets (readEntries name c' line stop) c'' rest) :
    Gets (readEntries name c line s) c'' rest := by
  obtain ⟨b, t, rfl, hb⟩ := hstart
  rw [readEntries]
  split
  · rename_i h
    cases hskip.symm.trans h
  · rename_i h
    cases hskip.symm.trans h
    rw [if_neg hb]
    refine hentry.bind ?_
    rintro r rfl rfl
    exact (hmore r.line).bind fun more hvalue hrest => ⟨_, rfl, hvalue, hrest⟩

end Entries

/-- **The assignments of a section**, one after the other, up to the next section. -/
theorem gets_entries {name next : Bytes} (entries : List (Entry name)) (g : Gap) (c : Config)
    (line : Nat) (hnext : ∀ line, ∃ line', skipBlanks false line rest = (line', next))
    (hend : next = [] ∨ ∃ t, next = 0x5b :: t) :
    Gets (readEntries name c line (g.written ++ (entries.flatMap Entry.written ++ rest)))
      (entries.foldl (fun c e => e.key.set e.value.value c) c) next := by
  induction entries generalizing g c line with
  | nil =>
    obtain ⟨line', hgap⟩ := skipBlanks_gap g line rest
    obtain ⟨line'', hskip⟩ := hnext line'
    exact gets_noEntries (hgap.trans hskip) hend
  | cons e entries ih =>
    obtain ⟨hne, hname⟩ := e.key.name_isName
    obtain ⟨b, t, hkey⟩ := List.exists_cons_of_ne_nil hne
    have hentry := fun line => gets_entry e c line
      (e.gap.written ++ (entries.flatMap Entry.written ++ rest))
    have hb : isNameByte b = true := hname b (by simp [hkey])
    have hwritten : (e :: entries).flatMap Entry.written ++ rest =
        e.key.name ++ (e.before.text ++ 0x3d :: (e.after.text ++ (e.value.written ++
          (e.gap.written ++ (entries.flatMap Entry.written ++ rest))))) := by
      simp [Entry.written]
    rw [hwritten]
    have hsolid := solid_name hb (t ++ (e.before.text ++ 0x3d :: (e.after.text ++
      (e.value.written ++ (e.gap.written ++ (entries.flatMap Entry.written ++ rest))))))
    rw [← List.cons_append, ← hkey] at hsolid
    obtain ⟨line', hskip⟩ := skipBlanks_gap_solid g line hsolid.1
    refine gets_nextEntry hskip ⟨b, _, by rw [hkey, List.cons_append], hsolid.2⟩ (hentry line') ?_
    exact fun line => ih e.gap _ line

/-! ### Sections -/

theorem name_isName {name : Bytes} (h : name ∈ sectionNames) : ∀ b ∈ name, isNameByte b = true := by
  have hall : ∀ name ∈ sectionNames, name.all isNameByte = true := by decide
  exact List.all_eq_true.1 (hall name h)

section Sections

variable {name body stop : Bytes} {c c' c'' : Config} {line' : Nat}

theorem readSections_end (hskip : skipBlanks false line s = (line', [])) :
    readSections c line s = .ok c := by
  rw [readSections]
  split
  · rfl
  · rename_i h
    cases hskip.symm.trans h

theorem readSections_next (hskip : skipBlanks false line s = (line', 0x5b :: (name ++ 0x5d :: body)))
    (hname : name ∈ sectionNames) (hentries : Gets (readEntries name c line' body) c' stop)
    (hmore : ∀ line, readSections c' line stop = .ok c'') : readSections c line s = .ok c'' := by
  have htake : (name ++ 0x5d :: body).takeWhile isNameByte = name :=
    takeWhile_name (name_isName hname) .none (by decide) body
  rw [readSections]
  split
  · rename_i h
    cases hskip.symm.trans h
  rename_i h
  cases hskip.symm.trans h
  rw [if_neg (by simp)]
  dsimp only
  split
  · rename_i h
    rw [htake, List.drop_left] at h
    cases h
  rename_i h
  rw [htake, List.drop_left] at h
  cases h
  rw [if_neg (by simp), htake, if_neg (by simpa using hname)]
  obtain ⟨r, hr, rfl, rfl⟩ := hentries
  rw [hr]
  exact hmore r.line

end Sections

/-- A section ends where the next one begins, or with the text. -/
theorem skipBlanks_sections (sections : List Section) (ending : Option Comment) :
    ∃ next, (∀ line, ∃ line', skipBlanks false line (sectionsText sections ending) = (line', next)) ∧
      (sections = [] ∧ next = [] ∨ next = sectionsText sections ending ∧ ∃ t, next = 0x5b :: t) := by
  cases sections with
  | nil => exact ⟨[], skipBlanks_ending ending, .inl ⟨rfl, rfl⟩⟩
  | cons s sections =>
    have hheader : ∃ t, sectionsText (s :: sections) ending = 0x5b :: t := ⟨_, rfl⟩
    obtain ⟨t, ht⟩ := hheader
    have hsolid : Solid (0x5b :: t) := solid_cons (by decide) (by decide) t
    refine ⟨_, fun line => ⟨line, ?_⟩, .inr ⟨rfl, t, ht⟩⟩
    rw [ht]
    exact skipBlanks_solid hsolid line

theorem sectionsText_cons (s : Section) (sections : List Section) (ending : Option Comment) :
    sectionsText (s :: sections) ending = 0x5b :: (s.name ++ 0x5d :: (s.lead.written ++
      (s.entries.flatMap Entry.written ++ sectionsText sections ending))) := by
  simp [sectionsText, Section.written]

/-- **The sections**, one after the other. -/
theorem readSections_written (sections : List Section) (ending : Option Comment) (g : Gap)
    (c : Config) (line : Nat) :
    readSections c line (g.written ++ sectionsText sections ending) =
      .ok ((sections.flatMap Section.assignments).foldl (fun c a => a.1.set a.2 c) c) := by
  induction sections generalizing g c line with
  | nil =>
    obtain ⟨line', hgap⟩ := skipBlanks_gap g line (sectionsText [] ending)
    obtain ⟨line'', hskip⟩ := skipBlanks_ending ending line'
    exact readSections_end (hgap.trans hskip)
  | cons s sections ih =>
    have hsolid : Solid (sectionsText (s :: sections) ending) :=
      solid_cons (by decide) (by decide) _
    obtain ⟨line', hskip⟩ := skipBlanks_gap_solid g line hsolid
    rw [sectionsText_cons] at hskip ⊢
    obtain ⟨next, hnext, hend⟩ := skipBlanks_sections sections ending
    have hstop : next = [] ∨ ∃ t, next = 0x5b :: t := hend.imp And.right And.right
    have hentries := gets_entries s.entries s.lead c line' hnext hstop
    refine readSections_next hskip s.known hentries fun line => ?_
    rw [List.flatMap_cons, List.foldl_append, Section.assignments, List.foldl_map]
    obtain ⟨rfl, rfl⟩ | ⟨rfl, -⟩ := hend
    · exact readSections_end rfl
    · exact ih [] _ line

/-- A document is read as its assignments, one after the other. -/
theorem parse_text (d : Document) : parse d.text = .ok d.config :=
  readSections_written d.sections d.ending d.lead {} 1

/-- **A document is read as the configuration it says**, whatever its layout and the order of its
sections and keys; and there is a document for each configuration. -/
theorem parse_document (c : Config) :
    (∀ d : Document, parse d.text = .ok c ↔ d.Says c) ∧
      (c.baseDir = [Byte.dot] → ∃ d : Document, d.Says c) := by
  refine ⟨fun d => ?_, Document.exists_says⟩
  rw [parse_text, d.says_iff, Except.ok.injEq]
  exact eq_comm

/-- A configuration with bytes in a string that mean something outside it. -/
def ornate : Config where
  stdlibRoot := ascii "]#\"\\\n\x00="
  os := ascii "linux"
  tags := some [ascii "a", ascii "b"]

/-- The configuration in an order and a layout of its own, with two values for one key. -/
def Document.ornate : Document where
  lead := [.comment ⟨ascii " tags first", newline_notMem rfl⟩]
  sections := [{
    name := ascii "context"
    known := Key.owner_mem .tags
    lead := lineEnd
    entries := [{
      key := .tags
      owned := rfl
      before := .single 0x20 isSpace_blank
      after := .single 0x20 isSpace_blank
      value := .list [.space 0x20 isSpace_blank, .comment ⟨ascii " two", newline_notMem rfl⟩]
        (.more (ascii "a") lineEnd [] (.more (ascii "b") [] lineEnd .close))
      fits := rfl
      gap := lineEnd }, {
      key := .os
      owned := rfl
      before := .none
      after := .none
      value := .text (ascii "plan9")
      fits := rfl
      gap := lineEnd ++ lineEnd }, {
      key := .os
      owned := rfl
      before := .single 0x09 rfl
      after := .single Byte.newline isSpace_newline
      value := .text (ascii "linux")
      fits := rfl
      gap := [] }] }, {
    name := ascii "stdlib"
    known := Key.owner_mem .root
    lead := []
    entries := [{
      key := .root
      owned := rfl
      before := .single 0x20 isSpace_blank
      after := .single 0x20 isSpace_blank
      value := .text (ascii "]#\"\\\n\x00=")
      fits := rfl
      gap := [] }] }]
  ending := some ⟨ascii " end", newline_notMem rfl⟩

theorem parse_document_ornate :
    (Document.ornate.text = [
        ascii "# tags first\n[context]\n", ascii "tags = [ # two\n", ascii "\"a\"\n,\"b\",\n]\n",
        ascii "os=\"plan9\"\n\n", ascii "os\t=\n\"linux\"",
        ascii "[stdlib]root = \"]#\\\"\\\\\\n\x00=\"", ascii "# end"].flatten ∧
      parse Document.ornate.text = .ok ornate) ∧ ∃ d : Document, d.Says ornate := by
  have hsays : Document.ornate.Says ornate := ⟨rfl, fun k => by cases k <;> rfl⟩
  have hread := ((parse_document ornate).1 Document.ornate).2 hsays
  exact ⟨⟨rfl, hread⟩, (parse_document ornate).2 rfl⟩

end BuildOrder.Config
