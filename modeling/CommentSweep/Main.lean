import CommentSweep.Run
import Std.Time.DateTime.Timestamp

/-!
The command line. The tree below the directory in question is read into memory together with what
cannot be read or written of it, the run is carried out there, and the files that it changed are
written back.
-/

namespace CommentSweep.Program

open Disk

def errnoOf : IO.Error → Errno
  | .noFileOrDirectory _ _ _ => .noEntry
  | .permissionDenied _ _ _ => .permission
  | .inappropriateType _ _ _ => .notDir
  | _ => .inputOutput

def addHazards (world : World) (path : Path) (accesses : List Access) (e : IO.Error) : World :=
  let hazards := accesses.map fun access => ⟨path, access, .system (errnoOf e) true⟩
  { world with hazards := world.hazards ++ hazards }

def readings : List Access := [.read, .rules]

def plant (world : World) (path : Path) (entry : Entry) : World :=
  { world with tree := world.tree.plant path.parts entry }

/-- Tries whether a file can be read and written. Nothing is written. -/
def probe (path : Path) (world : World) : IO World := do
  let attempt (accesses : List Access) (mode : IO.FS.Mode) (world : World) : IO World := do
    try
      let _ ← IO.FS.Handle.mk path.toString mode
      return world
    catch e =>
      return addHazards world path accesses e
  attempt [.write] .append (← attempt readings .read world)

def readFile (path : Path) (world : World) : IO World := do
  let world ← probe path world
  try
    let bytes ← IO.FS.readBinFile path.toString
    return plant world path (.file bytes.toList)
  catch e =>
    return plant (addHazards world path readings e) path (.file [])

/-- Reads a link. It is taken to lead straight to where it ends; one that ends nowhere leads to a
name that no entry has. -/
def readLink (path : Path) (world : World) : IO World := do
  try
    let target ← IO.FS.realPath path.toString
    let targetPath := Path.ofString target.toString
    let isNew := (world.tree.get? targetPath.parts).isNone
    let world := plant world path (.link target.toString)
    if ← target.isDir then
      return if isNew then plant world targetPath .dir else world
    else
      let world ← if isNew then readFile targetPath world else pure world
      probe path world
  catch _ =>
    return plant world path (.link "\x00")

def readDir : (depth : Nat) → Path → World → IO World
  | 0, _, world => return world
  | depth + 1, path, world => do
      try
        let dir ← IO.FS.realPath path.toString
        let mut world := plant world path .dir
        for entry in ← dir.readDir do
          let inner := path.child entry.fileName
          let info ← entry.path.symlinkMetadata
          match info.type with
          | .dir => world ← readDir depth inner world
          | .symlink => world ← readLink inner world
          | .file => world ← readFile inner world
          | .other => world := plant world inner (.file [])
        return world
      catch e =>
        return addHazards (plant world path .dir) path [.list] e

/-- The options with their directory as it really is, and the tree below it. -/
def survey (options : Options) (cwd : Path) : IO (Options × World) := do
  let world := plant { tree := .empty } cwd .dir
  try
    let some dir := options.dir? | return (options, world)
    let root := (← IO.FS.realPath (if dir == "" then "." else dir)).toString
    let world ← readDir FileTree.pathLimit (Path.ofString root) world
    return ({ options with dir? := some root }, world)
  catch _ =>
    return (options, world)

def writeBack (old new : FileTree) : IO Unit :=
  for (location, entry) in new.entries do
    match entry with
    | .file bytes =>
        if old.get? location != some entry then
          IO.FS.writeBinFile (Path.mk .root location).toString (ByteArray.mk bytes.toArray)
    | _ => pure ()

def seconds : IO Float :=
  return (← IO.monoNanosNow).toFloat / 1000000000

def now : IO Log.Instant :=
  return ⟨(← Std.Time.Timestamp.now).toNanosecondsSinceUnixEpoch.val.fdiv 1000⟩

def readEnvironment : IO Environment := do
  let names := ["DECOMMENT_JSON_LOGS", "DECOMMENT_DEBUG", "DEBUG", "DECOMMENT_VERSION"]
  let values ← names.mapM fun name => return (name, ← IO.getEnv name)
  return .ofVariables fun name => (values.lookup name).join

/-- Prints what a run leaves behind. Output that nobody reads is no error. -/
def deliver (result : Run.Result) : IO UInt32 := do
  IO.eprint result.stderr
  try
    IO.print result.stdout
    (← IO.getStdout).flush
  catch _ =>
    return 0
  match result.ending with
  | .completed _ _ => return 0
  | .exited code => return code.toUInt32
  | .aborted abort =>
      IO.eprintln abort.message
      return 1

def perform (options : Options) : IO Run.Result := do
  let environment ← readEnvironment
  let cwd := Path.ofString (← IO.currentDir).toString
  let started ← seconds
  let (options, world) ← survey options cwd
  let setting : Setting :=
    { environment, cwd := cwd.parts, started, now := ← now }
  let (swept, after) := (Run.sweep options setting).run.run world
  writeBack world.tree after.tree
  let setting := { setting with finished := ← seconds }
  let finish : Job Run.Ending := do Run.wrapUp options setting (← liftExcept swept)
  let (ending, after) := Run.settle finish after
  let stdout := ending.stdout
  let (ending, after) := Run.settle (Run.close environment ending) after
  let base := Run.logBase options environment
  return { ending, stdout, stderr := base.emitAll setting.now after.log.toList, world := after }

def run (args : List String) : IO UInt32 := do
  match Args.parse args with
  | .error halt => deliver (Run.halted {} true { tree := .empty } halt)
  | .ok options => deliver (← perform options)

end CommentSweep.Program

def main (args : List String) : IO UInt32 :=
  CommentSweep.Program.run args
