import BuildOrder.Bytes

/-!
# Legal import paths

* `ImportPath.check`: why a path is not legal, if it is not.
* `ImportPath.isLegal`: the test that the resolver of external packages relies on to stop.
-/

namespace BuildOrder

/-- Why an import path is not legal. -/
inductive ImportFault where
  | empty
  | tooLong
  | absolute
  | parentReference
  | illegalBytes
  | forbidden (path : Bytes)
deriving DecidableEq, Repr

namespace ImportPath

def maxLength : Nat := 1024

/-- A byte that an import path may hold: a letter, a digit, or one of `_ - . / ~`. -/
def isLegalByte (b : UInt8) : Bool :=
  Byte.isAlphanumeric b || b == 0x5f || b == 0x2d || b == Byte.dot || b == Byte.slash || b == 0x7e

/-- Two points stand next to each other. -/
def hasParentReference : Bytes → Bool
  | a :: b :: rest => (a == Byte.dot && b == Byte.dot) || hasParentReference (b :: rest)
  | _ => false

def check (path : Bytes) : Except ImportFault Unit :=
  if path = [] then .error .empty
  else if maxLength < path.length then .error .tooLong
  else if path.head? = some Byte.slash ∨ path.head? = some Byte.backslash then .error .absolute
  else if hasParentReference path then .error .parentReference
  else if !path.all isLegalByte then .error .illegalBytes
  else if path = ascii "syscall" ∨ path = ascii "unsafe" then .error (.forbidden path)
  else .ok ()

def isLegal (path : Bytes) : Bool := (check path).isOk

end ImportPath

def ImportFault.message : ImportFault → Bytes
  | empty => ascii "empty import path"
  | tooLong => ascii "import path longer than " ++ Bytes.decimal ImportPath.maxLength ++
      ascii " bytes"
  | absolute => ascii "absolute import path"
  | parentReference => ascii "import path contains \"..\""
  | illegalBytes => ascii "import path contains illegal characters"
  | forbidden path => ascii "import of " ++ path ++ ascii " is forbidden"

end BuildOrder
