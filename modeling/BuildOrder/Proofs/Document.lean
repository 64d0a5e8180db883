import BuildOrder.Config.Parse

/-!
# Configurations as they are written

A configuration file is a document: sections with assignments, in any order and as often as its
writer likes, and white space and comments between them.

* `Config.Document`: a document with its layout, and `Config.Document.text`: how it is written.
* `Config.Document.Says`: the configuration that a document gives, in which the last assignment of a
  key counts.
* `Config.Document.exists_says`: **every configuration can be written down.**
* `Config.Document.says_iff`: **a document gives one configuration**, that of its assignments one
  after the other.
-/

namespace BuildOrder.Config

/-! ### Between the words -/

/-- The text of a comment, without the sign before it and the newline after it. -/
structure Comment where
  text : Bytes
  oneLine : Byte.newline ∉ text

theorem newline_notMem {text : Bytes} (h : text.contains Byte.newline = false) :
    Byte.newline ∉ text := by
  simpa using h

theorem isSpace_blank : Byte.isSpace 0x20 = true := rfl

theorem isSpace_newline : Byte.isSpace Byte.newline = true := rfl

/-- A byte of white space, or a comment and its newline. -/
inductive Blank where
  | space (b : UInt8) (isSpace : Byte.isSpace b = true)
  | comment (c : Comment)

def Comment.written (c : Comment) : Bytes := 0x23 :: c.text

def Blank.written : Blank → Bytes
  | space b _ => [b]
  | comment c => c.written ++ [Byte.newline]

/-- White space and comments. -/
abbrev Gap := List Blank

def Gap.written (g : Gap) : Bytes := g.flatMap Blank.written

/-- White space alone. -/
structure Spaces where
  text : Bytes
  isSpace : ∀ b ∈ text, Byte.isSpace b = true

def Spaces.none : Spaces := ⟨[], by simp⟩

def Spaces.single (b : UInt8) (h : Byte.isSpace b = true) : Spaces := ⟨[b], by simpa using h⟩

/-! ### Values -/

/-- How a byte is written between quotes: a quote, a backslash and a newline after a backslash. -/
def escape (b : UInt8) : Bytes :=
  if b = Byte.newline then [Byte.backslash, 0x6e]
  else if b = Byte.quote ∨ b = Byte.backslash then [Byte.backslash, b]
  else [b]

/-- A string as it is written. -/
def stringText (s : Bytes) : Bytes := Bytes.quoted (s.flatMap escape)

/-- The items of an array from one on. A comma may stand before the end. -/
inductive Items where
  | close
  | last (item : Bytes) (after : Gap)
  | more (item : Bytes) (after next : Gap) (rest : Items)

def Items.written : Items → Bytes
  | close => [0x5d]
  | last item after => stringText item ++ (after.written ++ [0x5d])
  | more item after next rest =>
    stringText item ++ (after.written ++ 0x2c :: (next.written ++ rest.written))

def Items.values : Items → List Bytes
  | close => []
  | last item _ => [item]
  | more item _ _ rest => item :: rest.values

/-- A value of a key. -/
inductive Value where
  | text (s : Bytes)
  | list (items : List Bytes)
deriving DecidableEq, Repr

def Value.isList : Value → Bool
  | text _ => false
  | list _ => true

/-- A value with its layout. -/
inductive ValueText where
  | text (s : Bytes)
  | list (lead : Gap) (items : Items)

def ValueText.written : ValueText → Bytes
  | text s => stringText s
  | list lead items => 0x5b :: (lead.written ++ items.written)

def ValueText.value : ValueText → Value
  | text s => .text s
  | list _ items => .list items.values

/-! ### Keys -/

/-- What a configuration file can set. -/
inductive Key where
  | root
  | allowedShadows
  | roots
  | exclude
  | exempt
  | os
  | arch
  | tags
deriving DecidableEq, Repr

namespace Key

/-- The section of a key. -/
def owner : Key → Bytes
  | root | allowedShadows => ascii "stdlib"
  | roots | exclude => ascii "workspace"
  | exempt => ascii "literals"
  | os | arch | tags => ascii "context"

def name : Key → Bytes
  | root => ascii "root"
  | allowedShadows => ascii "allowed-shadows"
  | roots => ascii "roots"
  | exclude => ascii "exclude"
  | exempt => ascii "exempt"
  | os => ascii "os"
  | arch => ascii "arch"
  | tags => ascii "tags"

/-- The values of the key are lists, not strings. -/
def isList : Key → Bool
  | allowedShadows | roots | exempt | tags => true
  | root | exclude | os | arch => false

/-- The value of the key in a configuration; only the tags may have none. -/
def value? : Key → Config → Option Value
  | root, c => some (.text c.stdlibRoot)
  | allowedShadows, c => some (.list c.allowedShadows)
  | roots, c => some (.list c.roots)
  | exclude, c => some (.text c.exclude)
  | exempt, c => some (.list c.exempt)
  | os, c => some (.text c.os)
  | arch, c => some (.text c.arch)
  | tags, c => c.tags.map .list

/-- The configuration with another value of the key. -/
def set : Key → Value → Config → Config
  | root, .text s, c => { c with stdlibRoot := s }
  | allowedShadows, .list l, c => { c with allowedShadows := l }
  | roots, .list l, c => { c with roots := l }
  | exclude, .text s, c => { c with exclude := s }
  | exempt, .list l, c => { c with exempt := l }
  | os, .text s, c => { c with os := s }
  | arch, .text s, c => { c with arch := s }
  | tags, .list l, c => { c with tags := some l }
  | _, _, c => c

theorem baseDir_set (k : Key) (v : Value) (c : Config) : (k.set v c).baseDir = c.baseDir := by
  cases k <;> cases v <;> rfl

/-- **A key gets its value**, and all others keep theirs. -/
theorem value?_set {k : Key} {v : Value} (hfits : v.isList = k.isList) (other : Key) (c : Config) :
    other.value? (k.set v c) = if other = k then some v else other.value? c := by
  cases k <;> cases v <;> simp [Value.isList, isList] at hfits <;> cases other <;> rfl

/-- The values make up the configuration. -/
theorem ext_value? {c c' : Config} (hbase : c.baseDir = c'.baseDir)
    (h : ∀ k : Key, k.value? c = k.value? c') : c = c' := by
  have hroot : c.stdlibRoot = c'.stdlibRoot := Value.text.inj (Option.some.inj (h root))
  have hshadows : c.allowedShadows = c'.allowedShadows :=
    Value.list.inj (Option.some.inj (h allowedShadows))
  have hroots : c.roots = c'.roots := Value.list.inj (Option.some.inj (h roots))
  have hexclude : c.exclude = c'.exclude := Value.text.inj (Option.some.inj (h exclude))
  have hexempt : c.exempt = c'.exempt := Value.list.inj (Option.some.inj (h exempt))
  have hos : c.os = c'.os := Value.text.inj (Option.some.inj (h os))
  have harch : c.arch = c'.arch := Value.text.inj (Option.some.inj (h arch))
  have htags : c.tags = c'.tags := Option.map_injective (fun _ _ => Value.list.inj) (h tags)
  cases c
  cases c'
  rw [Config.mk.injEq]
  exact ⟨hbase, hroot, hshadows, hroots, hexclude, hexempt, hos, harch, htags⟩

end Key

/-! ### Documents -/

/-- An assignment `key = value` in a section, and what follows it up to the next. -/
structure Entry (owner : Bytes) where
  key : Key
  owned : key.owner = owner
  before : Spaces
  after : Spaces
  value : ValueText
  fits : value.value.isList = key.isList
  gap : Gap

def Entry.written {owner : Bytes} (e : Entry owner) : Bytes :=
  e.key.name ++ (e.before.text ++ 0x3d :: (e.after.text ++ (e.value.written ++ e.gap.written)))

/-- A header `[name]`, what follows it up to the first assignment, and the assignments. -/
structure Section where
  name : Bytes
  known : name ∈ sectionNames
  lead : Gap
  entries : List (Entry name)

def Section.written (s : Section) : Bytes :=
  0x5b :: (s.name ++ 0x5d :: (s.lead.written ++ s.entries.flatMap Entry.written))

/-- The assignments of a section, in order. -/
def Section.assignments (s : Section) : List (Key × Value) :=
  s.entries.map fun e => (e.key, e.value.value)

/-- The sections of a file up to its end, which may be a comment without a newline. -/
def sectionsText (sections : List Section) (ending : Option Comment) : Bytes :=
  sections.flatMap Section.written ++ (ending.map Comment.written).getD []

/-- A whole file. -/
structure Document where
  lead : Gap
  sections : List Section
  ending : Option Comment := none

namespace Document

variable (d : Document)

/-- How a document is written. -/
def text : Bytes := d.lead.written ++ sectionsText d.sections d.ending

/-- The assignments of a document, in order. -/
def assignments : List (Key × Value) := d.sections.flatMap Section.assignments

/-- The value that the last assignment of a key gives it. -/
def last? (k : Key) : Option Value := d.assignments.reverse.lookup k

/-- The document gives the configuration: each key has the value of its last assignment, or if it has
none the one it has by default. -/
structure Says (c : Config) : Prop where
  base : c.baseDir = [Byte.dot]
  values : ∀ k : Key, k.value? c = (d.last? k).or (k.value? {})

/-- The configuration after the assignments, one after the other. -/
def config : Config := d.assignments.foldl (fun c a => a.1.set a.2 c) {}

theorem fits_of_mem {a : Key × Value} (ha : a ∈ d.assignments) : a.2.isList = a.1.isList := by
  obtain ⟨s, -, ha⟩ := List.mem_flatMap.1 ha
  obtain ⟨e, -, rfl⟩ := List.mem_map.1 ha
  exact e.fits

/-- **The last assignment of a key counts.** -/
theorem value?_foldl {as : List (Key × Value)} (hfits : ∀ a ∈ as, a.2.isList = a.1.isList)
    (k : Key) (c : Config) :
    k.value? (as.foldl (fun c a => a.1.set a.2 c) c) = (as.reverse.lookup k).or (k.value? c) := by
  induction as generalizing c with
  | nil => rfl
  | cons a as ih =>
    rw [List.foldl_cons, ih (fun b hb => hfits b (List.mem_cons_of_mem _ hb)),
      Key.value?_set (hfits a List.mem_cons_self), List.reverse_cons, List.lookup_append,
      Option.or_assoc, List.lookup_cons]
    by_cases hk : k = a.1
    · simp [hk]
    · simp [hk, beq_false_of_ne hk]

theorem baseDir_foldl (as : List (Key × Value)) (c : Config) :
    (as.foldl (fun c a => a.1.set a.2 c) c).baseDir = c.baseDir := by
  induction as generalizing c with
  | nil => rfl
  | cons a as ih => rw [List.foldl_cons, ih, Key.baseDir_set]

theorem says_config : d.Says d.config :=
  ⟨baseDir_foldl _ _, fun k => value?_foldl (fun _ => d.fits_of_mem) k {}⟩

/-- **A document gives one configuration.** -/
theorem says_iff {c : Config} : d.Says c ↔ c = d.config := by
  constructor
  · intro h
    refine Key.ext_value? (h.base.trans d.says_config.base.symm) fun k => ?_
    rw [h.values, d.says_config.values]
  · rintro rfl
    exact d.says_config

end Document

/-! ### A document for each configuration -/

def Key.all : List Key := [root, allowedShadows, roots, exclude, exempt, os, arch, tags]

theorem Key.isList_of_value? {k : Key} {c : Config} {v : Value} (h : k.value? c = some v) :
    v.isList = k.isList := by
  cases k with
  | tags =>
    obtain ⟨l, -, rfl⟩ := Option.map_eq_some_iff.1 h
    rfl
  | _ =>
    obtain rfl := Option.some.inj h
    rfl

theorem Key.owner_mem (k : Key) : k.owner ∈ sectionNames := by
  cases k <;> decide

/-- The end of a line. -/
def lineEnd : Gap := [.space Byte.newline isSpace_newline]

def Items.ofList : List Bytes → Items
  | [] => .close
  | item :: rest => .more item [] [] (ofList rest)

theorem Items.values_ofList (items : List Bytes) : (ofList items).values = items := by
  induction items with
  | nil => rfl
  | cons item rest ih => rw [ofList, values, ih]

def ValueText.ofValue : Value → ValueText
  | .text s => .text s
  | .list items => .list [] (.ofList items)

theorem ValueText.value_ofValue (v : Value) : (ofValue v).value = v := by
  cases v with
  | text s => rfl
  | list items => rw [ofValue, value, Items.values_ofList]

/-- A section with one assignment. -/
def Section.single (k : Key) (v : Value) (hfits : v.isList = k.isList) : Section where
  name := k.owner
  known := k.owner_mem
  lead := lineEnd
  entries := [{
    key := k
    owned := rfl
    before := .single 0x20 isSpace_blank
    after := .single 0x20 isSpace_blank
    value := .ofValue v
    fits := by rw [ValueText.value_ofValue, hfits]
    gap := lineEnd }]

theorem Section.assignments_single (k : Key) (v : Value) (hfits : v.isList = k.isList) :
    (single k v hfits).assignments = [(k, v)] := by
  simp [assignments, single, ValueText.value_ofValue]

/-- A section for a key, if the key has a value. -/
def Section.ofKey (k : Key) (v? : Option Value) (hfits : ∀ v, v? = some v → v.isList = k.isList) :
    List Section :=
  (v?.attach.map fun v => single k v.1 (hfits v.1 v.2)).toList

theorem Section.assignments_ofKey {k : Key} {v? : Option Value}
    (hfits : ∀ v, v? = some v → v.isList = k.isList) :
    (ofKey k v? hfits).flatMap assignments = (v?.map (Prod.mk k)).toList := by
  cases v? with
  | none => rfl
  | some v => simp [ofKey, assignments_single]

namespace Document

/-- A document with all the values of a configuration. -/
def ofConfig (c : Config) : Document where
  lead := []
  sections := Key.all.flatMap fun k =>
    Section.ofKey k (k.value? c) fun _ => Key.isList_of_value?

theorem last?_ofConfig (c : Config) (k : Key) : (ofConfig c).last? k = k.value? c := by
  have hassignments : (ofConfig c).assignments =
      Key.all.flatMap fun k => ((k.value? c).map (Prod.mk k)).toList := by
    simp only [assignments, ofConfig, List.flatMap_assoc, Section.assignments_ofKey]
  rw [last?, hassignments]
  obtain ⟨baseDir, stdlibRoot, allowedShadows, roots, exclude, exempt, os, arch, tags⟩ := c
  cases tags <;> cases k <;> rfl

/-- **Every configuration can be written down**, but for the base directory, which a file does not
set. -/
theorem exists_says {c : Config} (hbase : c.baseDir = [Byte.dot]) : ∃ d : Document, d.Says c := by
  refine ⟨.ofConfig c, hbase, fun k => ?_⟩
  rw [last?_ofConfig]
  cases hvalue : k.value? c with
  | some v => rfl
  | none =>
    -- only the tags may have no value, and have none by default
    cases k with
    | tags => rfl
    | _ => cases hvalue

end Document

end BuildOrder.Config
