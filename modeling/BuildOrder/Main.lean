import BuildOrder.Program
import Std.Time.Zoned

/-!
# The command

Loads the files that a command line speaks of, runs the program on them and puts out what it says.
-/

namespace BuildOrder.Main

def bytesOf (s : String) : Bytes := s.toUTF8.toList

def arrayOf (s : Bytes) : ByteArray := ⟨s.toArray⟩

/-- A text as a name for the operating system; the empty name if it is not valid. -/
def nameOf (s : Bytes) : String := (String.fromUTF8? (arrayOf s)).getD ""

/-- The names from the root to what a path stands for. -/
def absoluteNames (t : FileTree) (path : Bytes) : List Bytes :=
  let names := Path.components path
  Path.cleanComponents (Byte.slash :: Bytes.joinWith [Byte.slash]
    (if Path.isAbsolute path then names else t.workDir ++ names))

/-- Adds what a path stands for to a tree, with what is below it down to a depth. Only the `wanted`
files are read. -/
def load (wanted : Bytes → Bool) : Nat → FileTree → Bytes → IO FileTree
  | 0, t, _ => return t
  | depth + 1, t, path => do
    let place := (← IO.currentDir) / nameOf path
    let names := absoluteNames t path
    try
      if ← place.isDir then
        let inside ← place.readDir
        let t := { t with entries := (names, .directory) :: t.entries }
        inside.toList.foldlM (fun t entry =>
          load wanted depth t (Path.append path (bytesOf entry.fileName))) t
      else if wanted path then
        return t.put names (← IO.FS.readBinFile place).toList
      else return t
    catch _ => return t

/-- Adds the files of the given paths to a tree, and the directories they are in. -/
def loadFiles (t : FileTree) (paths : List Bytes) : IO FileTree :=
  paths.foldlM (fun t path => do
    load (fun _ => true) 1 (← load (fun _ => false) 1 t (Path.parent path)) path) t

/-- How deep directories may be nested. -/
def maxDepth : Nat := 64

/-- The tree of all that a command line speaks of. -/
def loadTree (args : List Bytes) (logFile : Bytes) : IO FileTree := do
  let workDir := Path.components (bytesOf (← IO.currentDir).toString)
  let t ← loadFiles { entries := [], workDir }
    ((if logFile = [] then [] else [logFile]) ++ args.filterMap CommandLine.configFile?)
  match (CommandLine.parse t args).run.value with
  | .error _ => return t
  | .ok line =>
    let config := line.config
    let t ← loadFiles t (line.files.map (Path.join config.baseDir))
    let t ← if config.stdlibRoot = [] then pure t else
      load (fun _ => false) maxDepth t (Path.append config.stdlibRoot (ascii "src"))
    config.roots.foldlM (fun t root =>
      load config.options.context.extension.isSuffixOf maxDepth t (Path.join root (ascii "src"))) t

/-- A number in at least the given number of digits. -/
def padded (width n : Nat) : Bytes :=
  let digits := Bytes.decimal n
  List.replicate (width - digits.length) 0x30 ++ digits

/-- The time of day, given the milliseconds since midnight. -/
def timeOfDay (ms : Nat) : Bytes :=
  padded 2 (ms / 3600000) ++ ascii ":" ++ padded 2 (ms / 60000 % 60) ++ ascii ":" ++
    padded 2 (ms / 1000 % 60) ++ ascii "." ++ padded 3 (ms % 1000)

/-- The local time, or the time of the meridian if no time zone is known. -/
def now : IO Log.Clock := do
  let milliseconds := (← Std.Time.Timestamp.now).toMillisecondsSinceUnixEpoch.toInt
  let sinceMidnight ← try
      pure (← Std.Time.PlainDateTime.now).time.toMilliseconds.toInt.toNat
    catch _ => pure (milliseconds % 86400000).toNat
  return { timeOfDay := timeOfDay sinceMidnight, milliseconds }

/-- The console shows colours. -/
def showsColours : IO Bool := do
  let terminal := (← IO.getEnv "TERM").getD "dumb"
  return terminal != "dumb" && (← (← IO.getStderr).isTty)

/-- Runs the program on the arguments and the files of the operating system. -/
def start (arguments : List String) : IO UInt32 := do
  let args := arguments.map bytesOf
  let logSettings := bytesOf ((← IO.getEnv "APPGRAPH_LOG").getD "")
  let logFile := (Log.LogConfig.ofArguments args logSettings).file
  let clock ← now
  let tree ← loadTree args logFile
  let (code, output) := Program.run
    { args, logSettings, tree, clock, terminal := ← showsColours
      names := .ofSeed clock.milliseconds.toNat }
  (← IO.getStdout).write (arrayOf output.stdout)
  (← IO.getStderr).write (arrayOf output.stderr)
  if logFile ≠ [] then
    if let .ok content := output.tree.read logFile then
      IO.FS.writeBinFile (nameOf logFile) (arrayOf content)
  return code.toUInt32

end BuildOrder.Main

def main (arguments : List String) : IO UInt32 := BuildOrder.Main.start arguments
