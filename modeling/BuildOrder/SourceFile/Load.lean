import BuildOrder.FileTree
import BuildOrder.SourceFile.Parse
import BuildOrder.Trace

/-!
# Source files in a tree

* `FileTree.sourceFile`: the source file that a path stands for. An error without a line says that
  the file could not be read.
-/

namespace BuildOrder

/-- The text of a file under its path. -/
def FileTree.source (t : FileTree) (path : Bytes) : Except SyntaxError Source :=
  match t.read path with
  | .ok content => .ok { filename := path, content }
  | .error .isDirectory => .error { location := { file := path }, fault := .notAFile path }
  | .error _ => .error { location := { file := path }, fault := .notReadable path }

/-- Reads and parses a file. -/
def FileTree.sourceFile (t : FileTree) (path : Bytes) : Attempt SyntaxError SourceFile := do
  let source ← liftExcept (t.source path)
  Traced.note .trace "extract" (ascii "parsing " ++ path)
  liftExcept (SourceFile.parse source)

end BuildOrder
