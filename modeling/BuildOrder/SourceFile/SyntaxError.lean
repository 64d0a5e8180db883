import BuildOrder.Source
import BuildOrder.Token

/-!
# Syntax errors

A syntax error says what was expected where, or what is wrong with a token. The text is a function
of the cause (`SyntaxFault.message`).
-/

namespace BuildOrder

/-- What a source file had to go on with. -/
inductive Expectation where
  | packageKeyword
  | packageName
  | importPath
  | functionName
  | parameters
  | closing (b : Bracket)
  | endOfDeclaration
  | endOfImport
  | importsFirst
  | declaration
deriving DecidableEq, Repr

def Expectation.text : Expectation → Bytes
  | packageKeyword => ascii "expected 'package'"
  | packageName => ascii "expected package name"
  | importPath => ascii "expected import path"
  | functionName => ascii "expected function name"
  | parameters => ascii "expected '('"
  | closing b => ascii "expected " ++ (TokenKind.closing b).describe
  | endOfDeclaration => ascii "expected ';' after top level declaration"
  | endOfImport => ascii "expected ';' or ')' after import"
  | importsFirst => ascii "imports must appear before other declarations"
  | declaration => ascii "non-declaration statement outside function body"

/-- Why a source file could not be read. -/
inductive SyntaxFault where
  | lexical (fault : LexFault)
  | unexpected (expectation : Expectation) (found : Token)
  | blankPackageName
  | notReadable (path : Bytes)
  | notAFile (path : Bytes)
deriving DecidableEq, Repr

def SyntaxFault.message : SyntaxFault → Bytes
  | lexical fault => fault.message
  | unexpected expectation found => expectation.text ++ ascii ", found " ++ found.describe
  | blankPackageName => ascii "invalid package name _"
  | notReadable path => ascii "open " ++ path ++ ascii ": no such file or not readable"
  | notAFile path => ascii "read " ++ path ++ ascii ": I/O error"

structure SyntaxError where
  location : Location
  fault : SyntaxFault
deriving DecidableEq, Repr

namespace SyntaxError

def message (e : SyntaxError) : Bytes := e.fault.message

def text (e : SyntaxError) : Bytes := e.location.text ++ ascii ": " ++ e.message

end SyntaxError

end BuildOrder
