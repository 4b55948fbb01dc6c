import CommentSweep.Args
import CommentSweep.Disk
import CommentSweep.Settings
import CommentSweep.Log
import CommentSweep.Processor
import CommentSweep.Report
import CommentSweep.Walker

/-!
Runs of the program: the files of a tree are processed one after another, and the report counts what
became of them.
-/

namespace CommentSweep

open Disk

structure Setting where
  environment : Environment := {}
  cwd : Location := []
  registry : Registry := .standard
  /-- Whether nothing can be written to standard output. -/
  stdoutBroken : Bool := false
  /-- What the clock shows when the run starts and when it ends, in seconds. -/
  started : Float := 0
  finished : Float := 0
  now : Log.Instant := {}

namespace Run

def say (level : Log.Level) (message : String) : Job Unit :=
  Job.say { logger := Log.baseName, level, message }

def logBase (options : Options) (environment : Environment) : Log.Base :=
  Log.Base.setup {} (options.jsonLogs || environment.jsonLogs)
    (Log.resolveLevel environment.debugLogs)

/-- The directory that a run is about, free of links; nothing if there is no such directory. -/
def findRoot (cwd : Location) (dir? : Option String) : Job (Option Path) := do
  let some dir := dir? | throw .noPath
  let path := Path.ofString dir
  Job.checkPath path
  let tree ← Job.tree
  let some root := tree.canonical? cwd path | throw .nestedTooDeep
  match tree.entry root with
  | .ok .dir => return some root
  | .error .linkLoop => throw (.linkLoop root.toString)
  | .error .nameTooLong => throw (.system ⟨.nameTooLong, some root.toString⟩)
  | _ =>
      say .error ("directory " ++ root.toString ++ " not found")
      return none

def banner (options : Options) (walker : Walker) (extensions : List String) : Job Unit := do
  say .info "--- decomment ---"
  say .info ("directory: " ++ walker.root.toString)
  say .info ("extensions: " ++ String.intercalate ", " extensions)
  say .info ("excluded directories: " ++ String.intercalate ", " options.excludeDirs)
  say .info ("excluded files/patterns: " ++ String.intercalate ", " options.excludeFiles)
  if walker.hasIgnoreFile then
    say .info "ℹ️  using rules from .gitignore"
  if options.dryRun then
    say .warning "⚠️  DRY RUN: files will not be modified"

def step (processor : Processor) (state : Report × Registry) (path : Path) :
    Job (Report × Registry) := do
  let (outcome, registry) ← processor.process state.2 path
  return (state.1.record outcome, registry)

def sweepRoot (options : Options) (setting : Setting) (root : Path) : Job Report := do
  let extensions := Extension.normalize options.extensions
  let walker ← Walker.ofRoot root
    ⟨options.excludeDirs, options.excludeFiles, options.useIgnoreFile⟩ options.verbose
  banner options walker extensions
  let processor : Processor := ⟨extensions, some root, options.dryRun⟩
  let report : Report :=
    { started := .real setting.started, root := root.toString, dryRun := options.dryRun }
  let (report, _) ← walker.walk (step processor) (report, setting.registry)
  return report

def sweep (options : Options) (setting : Setting) : Job (Option Report) := do
  match ← findRoot setting.cwd options.dir? with
  | none => return none
  | some root => return some (← sweepRoot options setting root)

/-- Sums a run up. The text is what goes to standard output. -/
def conclude (options : Options) (stdoutBroken : Bool) (report : Report) : Job String := do
  say .info ("✅ done: " ++ toString report.changed ++ " changed, " ++
    toString report.unchanged ++ " unchanged, " ++ toString report.errors.length ++ " errors")
  if options.dryRun then
    say .info "ℹ️  no file was modified (--dry-run)"
  if options.report then
    if stdoutBroken then throw (.system ⟨.brokenPipe, none⟩)
    return report.text ++ "\n"
  else
    return ""

inductive Ending where
  | completed (report : Report) (stdout : String)
  | exited (code : Nat)
  | aborted (abort : Abort)

def wrapUp (options : Options) (setting : Setting) (swept : Option Report) : Job Ending := do
  match swept with
  | none => return .exited 1
  | some report =>
      let report := report.finish (.real setting.finished)
      return .completed report (← conclude options setting.stdoutBroken report)

def perform (options : Options) (setting : Setting) : Job Ending := do
  wrapUp options setting (← sweep options setting)

structure Result where
  ending : Ending
  stdout : String
  stderr : String
  world : World

/-- Carries a job out and turns what breaks it off into an ending. -/
def settle (job : Job Ending) (world : World) : Ending × World :=
  match job.run.run world with
  | (.ok ending, world) => (ending, world)
  | (.error abort, world) => (.aborted abort, world)

/-- The ending of the program. Unexpected errors are logged unless they are to be passed on. -/
def close (environment : Environment) (ending : Ending) : Job Ending := do
  match ending with
  | .completed _ _ => return .exited 0
  | .exited code => return .exited code
  | .aborted .interrupted =>
      say .error "Interrupted by user."
      return .exited 130
  | .aborted abort =>
      if abort matches .system ⟨.brokenPipe, _⟩ then return .exited 0
      else if environment.passErrors then return .aborted abort
      else
        say .error ("Unexpected error: " ++ abort.message)
        return .exited 1

def Ending.stdout : Ending → String
  | .completed _ text => text
  | _ => ""

def haltEnding (setting : Setting) (halt : Args.Halt) : Ending :=
  if halt.stdout != "" && setting.stdoutBroken then .aborted (.system ⟨.brokenPipe, none⟩)
  else .exited halt.exitCode

def halted (setting : Setting) (asProgram : Bool) (world : World) (halt : Args.Halt) : Result :=
  let ending := haltEnding setting halt
  let (ending, world) :=
    if asProgram then settle (close setting.environment ending) world else (ending, world)
  { ending, world
    stdout := if setting.stdoutBroken then "" else halt.stdout
    stderr := halt.stderr }

/-- Runs a command line. As a program, a run always ends with an exit code, unless errors are passed
on. -/
def run (argv : List String) (setting : Setting) (asProgram : Bool) (world : World) : Result :=
  match Args.parse argv with
  | .error halt => halted setting asProgram world halt
  | .ok options =>
      let (ending, world) := settle (perform options setting) world
      let stdout := ending.stdout
      let (ending, world) :=
        if asProgram then settle (close setting.environment ending) world else (ending, world)
      { ending, stdout, world
        stderr := (logBase options setting.environment).emitAll setting.now world.log.toList }

end Run

end CommentSweep
