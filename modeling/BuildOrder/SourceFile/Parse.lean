import BuildOrder.Constraint
import BuildOrder.SourceFile.Literals
import BuildOrder.Token.Scan

/-!
# Reading source files

A source file is a package clause, imports, and functions, variables, constants and types, each
ended by a terminator or the end of the file.

* `SourceFile.parse`: the source file that a text holds, or the first error in it.
-/

namespace BuildOrder

/-- What a reader made of the front of a list of tokens, and the tokens after it: fewer than
`bound`. -/
structure Parsed (α : Type) (bound : Nat) where
  value : α
  rest : List Token
  shorter : rest.length < bound

/-- A step after another one. -/
theorem lt_add_one_trans {a b c : Nat} (h : a < b + 1) (h' : b < c + 1) : a < c + 1 := by omega

namespace Reading

variable (r : Reading)

def expect (kind : TokenKind) (expectation : Expectation) (ts : List Token) :
    Except SyntaxError (Parsed Token ts.length) :=
  match ts with
  | [] => .error (r.unexpected r.endOfFile expectation)
  | t :: rest =>
    if t.kind = kind then .ok ⟨t, rest, Nat.lt_succ_self _⟩ else .error (r.unexpected t expectation)

/-- Fewer tokens follow a group than there were. -/
theorem group_lt {b : Bracket} {ts inside body rest : List Token}
    (h : afterOpening? b ts = some inside) (h' : r.group b inside = .ok (body, rest)) :
    rest.length < ts.length + 1 := by
  have := afterOpening?_length h
  have := r.group_length h'
  omega

/-- The group at the front of the tokens, if they start with the bracket `b`: what is inside. -/
def optionalGroup (b : Bracket) (ts : List Token) :
    Except SyntaxError (Parsed (Option (List Token)) (ts.length + 1)) :=
  match h : afterOpening? b ts with
  | none => .ok ⟨none, ts, Nat.lt_succ_self _⟩
  | some inside =>
    match h' : r.group b inside with
    | .error e => .error e
    | .ok (body, rest) => .ok ⟨some body, rest, r.group_lt h h'⟩

/-- The tokens after the terminator of a declaration. -/
def endDeclaration (ts : List Token) : Except SyntaxError (Parsed Unit (ts.length + 1)) :=
  match ts with
  | [] => .ok ⟨(), [], by simp⟩
  | t :: rest =>
    if t.kind = .semicolon then .ok ⟨(), rest, by simp only [List.length_cons]; omega⟩
    else .error (r.unexpected t .endOfDeclaration)

/-! ### Package clause and imports -/

/-- The name token of the package clause. -/
def packageClause (ts : List Token) : Except SyntaxError (Token × List Token) := do
  let clause ← r.expect (.keyword .packageKw) .packageKeyword
    (ts.dropWhile fun t => t.kind == .semicolon)
  let name ← r.expect .identifier .packageName clause.rest
  if name.value.lexeme = ascii "_" then
    throw { location := r.locate name.value, fault := .blankPackageName }
  let rest ← r.endDeclaration name.rest
  return (name.value, rest.rest)

/-- The local name at the front of an import. -/
def importName (ts : List Token) : Parsed (Option Bytes) (ts.length + 1) :=
  match ts with
  | [] => ⟨none, [], by simp⟩
  | t :: rest =>
    if t.kind = .identifier then ⟨some t.lexeme, rest, by simp only [List.length_cons]; omega⟩
    else if t.kind = .period then ⟨some [Byte.dot], rest, by simp only [List.length_cons]; omega⟩
    else ⟨none, t :: rest, by simp⟩

def importSpec (ts : List Token) : Except SyntaxError (Parsed ImportSpec ts.length) := do
  let name := importName ts
  let path ← r.expect .string .importPath name.rest
  return {
    value := { name := name.value, path := path.value.value, location := r.locate (r.front ts) }
    rest := path.rest
    shorter := by have := name.shorter; have := path.shorter; omega }

/-- The imports up to the closing parenthesis of their group. -/
def importGroup (ts : List Token) : Except SyntaxError (Parsed (List ImportSpec) (ts.length + 1)) :=
  match ts with
  | [] => .error (r.unexpected r.endOfFile (.closing .paren))
  | t :: rest =>
    if t.kind = .closing .paren then .ok ⟨[], rest, by simp only [List.length_cons]; omega⟩
    else if t.kind = .semicolon then do
      let specs ← importGroup rest
      return ⟨specs.value, specs.rest, by have := specs.shorter; simp only [List.length_cons]; omega⟩
    else do
      let spec ← r.importSpec (t :: rest)
      let next := r.front spec.rest
      if next.kind = .closing .paren ∨ next.kind = .semicolon then
        let specs ← importGroup spec.rest
        return ⟨spec.value :: specs.value, specs.rest, by
          have := spec.shorter; have := specs.shorter; omega⟩
      else throw (r.unexpected next .endOfImport)
termination_by ts.length
decreasing_by
  · simp
  · exact spec.shorter

/-- An import declaration, after its keyword. -/
def importDecl (ts : List Token) : Except SyntaxError (Parsed Decl (ts.length + 1)) :=
  match h : afterOpening? .paren ts with
  | some inside => do
    let specs ← r.importGroup inside
    return ⟨.imports specs.value, specs.rest, by
      have := afterOpening?_length h; have := specs.shorter; omega⟩
  | none => do
    let spec ← r.importSpec ts
    return ⟨.imports [spec.value], spec.rest, by have := spec.shorter; omega⟩

/-! ### Functions, variables, constants and types -/

/-- How many results a signature has after its parameters, and the tokens after them: a list in
parentheses, a single type, or nothing. -/
def results (ts : List Token) : Except SyntaxError (Parsed Nat (ts.length + 1)) := do
  let listed ← r.optionalGroup .paren ts
  match listed.value with
  | some entries => return ⟨countEntries entries, listed.rest, listed.shorter⟩
  | none =>
    match h : r.skipType ts with
    | .error e => throw e
    | .ok rest =>
      -- A single type takes at least one token.
      let count := if rest.length < ts.length then 1 else 0
      return ⟨count, rest, by have := r.skipType_length h; omega⟩

/-- A function declaration up to its body, after its keyword `t`. -/
def funcHead (t : Token) (ts : List Token) :
    Except SyntaxError (Parsed FuncDecl (ts.length + 1)) := do
  let receiver ← r.optionalGroup .paren ts
  let name ← r.expect .identifier .functionName receiver.rest
  let typeParams ← r.optionalGroup .square name.rest
  let params ← r.optionalGroup .paren typeParams.rest
  match params.value with
  | none => throw (r.unexpected (r.front params.rest) .parameters)
  | some entries =>
    let results ← r.results params.rest
    return {
      value := {
        name := name.value.lexeme
        hasReceiver := receiver.value.isSome
        paramCount := countEntries entries
        resultCount := results.value
        hasBody := false
        literals := []
        location := r.locate t }
      rest := results.rest
      shorter := lt_add_one_trans results.shorter (lt_add_one_trans params.shorter
        (lt_add_one_trans typeParams.shorter
          (lt_add_one_trans (Nat.lt_succ_of_lt name.shorter) receiver.shorter))) }

/-- A function declaration, after its keyword `t`. -/
def funcDecl (t : Token) (ts : List Token) : Except SyntaxError (Parsed Decl (ts.length + 1)) := do
  let head ← r.funcHead t ts
  let body ← r.optionalGroup .brace head.rest
  let literals ← r.scanLiterals {} (body.value.getD [])
  return {
    value := .func { head.value with hasBody := body.value.isSome, literals }
    rest := body.rest
    shorter := lt_add_one_trans body.shorter head.shorter }

/-- The tokens from the first terminator outside groups on. -/
def skipToTerminator (ts : List Token) : Except SyntaxError (List Token) :=
  match ts with
  | [] => .ok []
  | t :: rest =>
    match t.kind with
    | .semicolon => .ok (t :: rest)
    | .opening b =>
      match _ : r.group b rest with
      | .error e => .error e
      | .ok (_, after) => skipToTerminator after
    | _ => skipToTerminator rest
termination_by ts.length
decreasing_by
  · have := r.group_length ‹_›
    simp only [List.length_cons]
    omega
  · simp

theorem skipToTerminator_length (n : Nat) : ∀ {ts rest : List Token}, ts.length ≤ n →
    r.skipToTerminator ts = .ok rest → rest.length ≤ ts.length := by
  induction n with
  | zero =>
    intro ts rest hts h
    obtain rfl : ts = [] := List.eq_nil_of_length_eq_zero (Nat.le_zero.mp hts)
    rw [skipToTerminator] at h
    simp [← Except.ok.inj h]
  | succ n ih =>
    intro ts rest hts h
    match ts with
    | [] =>
      rw [skipToTerminator] at h
      simp [← Except.ok.inj h]
    | t :: ts =>
      have hts : ts.length ≤ n := by simpa using hts
      rw [skipToTerminator] at h
      split at h
      · simp [← Except.ok.inj h]
      · split at h
        · simp at h
        · have := r.group_length ‹_›
          have := ih (by omega) h
          simp only [List.length_cons]
          omega
      · have := ih hts h
        simp only [List.length_cons]
        omega

/-- The tokens that a declaration of variables, constants or types is made of, after its keyword:
those of a group of them, or those up to the terminator. -/
def valueTokens (ts : List Token) :
    Except SyntaxError (Parsed (List Token) (ts.length + 1)) := do
  let grouped ← r.optionalGroup .paren ts
  match grouped.value with
  | some inside => return ⟨inside, grouped.rest, grouped.shorter⟩
  | none =>
    match h : r.skipToTerminator ts with
    | .error e => throw e
    | .ok rest =>
      return ⟨ts.take (ts.length - rest.length), rest, by
        have := r.skipToTerminator_length ts.length (Nat.le_refl _) h
        omega⟩

/-- A declaration of variables, constants or types, after its keyword. -/
def valueDecl (keyword : ValueKeyword) (ts : List Token) :
    Except SyntaxError (Parsed Decl (ts.length + 1)) := do
  let tokens ← r.valueTokens ts
  let literals ← r.scanLiterals {} tokens.value
  return ⟨.value keyword literals, tokens.rest, tokens.shorter⟩

/-! ### Files -/

/-- The declaration that starts with the token `t`. Once another declaration is seen, there is no
further import. -/
def declaration (seenOther : Bool) (t : Token) (ts : List Token) :
    Except SyntaxError (Parsed Decl (ts.length + 1)) :=
  match t.kind with
  | .keyword .importKw =>
    if seenOther then .error (r.unexpected t .importsFirst) else r.importDecl ts
  | .keyword .funcKw => r.funcDecl t ts
  | .keyword .varKw => r.valueDecl .var ts
  | .keyword .constKw => r.valueDecl .const ts
  | .keyword .typeKw => r.valueDecl .type ts
  | _ => .error (r.unexpected t .declaration)

/-- The declarations of a file. -/
def declarations (seenOther : Bool) (ts : List Token) : Except SyntaxError (List Decl) :=
  match ts with
  | [] => .ok []
  | t :: ts =>
    if t.kind = .semicolon then declarations seenOther ts
    else do
      let decl ← r.declaration seenOther t ts
      let next ← r.endDeclaration decl.rest
      let decls ← declarations (seenOther || t.kind != .keyword .importKw) next.rest
      return decl.value :: decls
termination_by ts.length
decreasing_by
  · simp
  · have := decl.shorter
    have := next.shorter
    simp only [List.length_cons]
    omega

end Reading

/-- What the readers of a text's tokens go by. -/
def Source.reading (source : Source) (stream : TokenStream) : Reading :=
  { source, endOfFile := stream.tokens.getLastD (Token.endOfFile 0) }

/-- The source file that a text holds. An error in a token comes before any other. -/
def SourceFile.parse (source : Source) : Except SyntaxError SourceFile := do
  let stream := tokenize source.content
  if let some (fault, offset) := stream.faults.head? then
    throw { location := source.location offset, fault := .lexical fault }
  let reading := source.reading stream
  let (name, rest) ← reading.packageClause stream.tokens.dropLast
  let decls ← reading.declarations false rest
  return {
    filename := source.filename
    packageName := name.lexeme
    packageLocation := reading.locate name
    constraints := buildConstraints source.content
    decls }

end BuildOrder
