import CommentSweep.Path
import CommentSweep.Report
import CommentSweep.Job
import CommentSweep.Text.Utf8
import CommentSweep.Registry

/-!
The processing of one file: it is read, transformed and, if that changes it, written back. A file
that cannot be read or written does not break the work off; it is logged and counts as an error.
-/

namespace CommentSweep

open Disk

structure Processor where
  allowed : List String
  /-- The directory from which log records name files. -/
  root? : Option Path
  dryRun : Bool

namespace Processor

def logger : String := Log.loggerName (some "io.processor")

def display (p : Processor) (path : Path) : String :=
  match p.root? with
  | none => path.toString
  | some root => path.relativeTo root

def report (level : Log.Level) (message shown : String) (status : Status) : Job Unit :=
  Job.say
    { logger, level, message
      context := [("path", .string shown), ("status", .string status.label)] }

/-- A file that cannot be read. Directories are passed over in silence. -/
def unreadable (path : Path) (shown : String) (fault : SystemFault) : Job Outcome := do
  match fault.errno with
  | .isDir => return ⟨path, .skipped, none⟩
  | .permission =>
      report .warning ("⚠  no access to file: " ++ shown) shown .error
      return ⟨path, .error, some "permission denied"⟩
  | .noEntry =>
      report .warning ("⚠  file not found (removed during the run?): " ++ shown) shown .error
      return ⟨path, .error, some "file not found"⟩
  | _ =>
      report .error ("❌ cannot process " ++ shown ++ ": " ++ fault.message) shown .error
      return ⟨path, .error, some fault.message⟩

def undecodable (path : Path) (shown : String) (fault : Text.Utf8.Fault) : Job Outcome := do
  report .error ("❌ cannot process " ++ shown ++ ": " ++ fault.message) shown .error
  return ⟨path, .error, some fault.message⟩

def store (path : Path) (shown : String) (content : Text) : Job Outcome := do
  match ← Job.overwrite path (Text.Utf8.encode (Text.finish content)) with
  | .error fault =>
      report .error ("❌ cannot write " ++ shown ++ ": " ++ fault.message) shown .error
      return ⟨path, .error, some ("write failed: " ++ fault.message)⟩
  | .ok () =>
      report .info ("🧹 comments removed from: " ++ shown) shown .written
      return ⟨path, .written, none⟩

def settle (p : Processor) (path : Path) (shown : String) (t : Transformed) : Job Outcome := do
  if !t.changed then
    return ⟨path, .unchanged, none⟩
  else if p.dryRun then
    report .info ("[DRY RUN] 🧹 comments would be removed from: " ++ shown) shown .changed
    return ⟨path, .changed, none⟩
  else
    store path shown t.content

/-- Processes a file. The registry comes back because a look-up can add to it. -/
def process (p : Processor) (registry : Registry) (path : Path) : Job (Outcome × Registry) := do
  if !Extension.isAllowed p.allowed path then
    return (⟨path, .skipped, none⟩, registry)
  let shown := p.display path
  match ← Job.read path with
  | .error fault => return (← unreadable path shown fault, registry)
  | .ok bytes =>
      match Text.Utf8.decode bytes with
      | .error fault => return (← undecodable path shown fault, registry)
      | .ok raw =>
          match registry.transform (some (Extension.ofPath path)) raw with
          | (.error e, _) => throw (.build e)
          | (.ok t, registry) => return (← p.settle path shown t, registry)

end Processor

end CommentSweep
