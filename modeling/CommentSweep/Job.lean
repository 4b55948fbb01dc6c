import CommentSweep.Disk
import CommentSweep.Ignore
import CommentSweep.Log
import CommentSweep.Registry

/-!
Jobs: work on a file tree that writes log records and can be broken off. What was done before a job
is broken off stays done.
-/

namespace CommentSweep

open Disk

/-- Ways of using a file or a directory. An ignore file that is read for its rules is apart from
files that are read to be processed. -/
inductive Access where
  | read
  | write
  | list
  | rules
  deriving DecidableEq, Repr

/-- Why an access fails although the tree allows it. All but one kind keep the file or directory
from being opened. -/
inductive Hindrance where
  | system (errno : Errno) (named : Bool)
  /-- A fault behind the opening. Of a write, so many bytes have arrived by then. -/
  | partway (errno : Errno) (named : Bool) (done : Nat)
  | interrupt
  | crash (message : String)
  deriving DecidableEq, Repr

structure Hazard where
  path : Path
  access : Access
  hindrance : Hindrance
  deriving DecidableEq, Repr

inductive Abort where
  | interrupted
  | crashed (message : String)
  | build (error : BuildError)
  | pattern (error : Ignore.PatternError)
  | system (fault : SystemFault)
  | linkLoop (path : String)
  | nestedTooDeep
  | nullInPath
  | noPath
  deriving DecidableEq, Repr

def Abort.message : Abort → String
  | .interrupted => ""
  | .crashed message => message
  | .build error => error.message
  | .pattern error => error.message
  | .system fault => fault.message
  | .linkLoop path => "Symlink loop from " ++ Text.quote path
  | .nestedTooDeep => "maximum recursion depth exceeded"
  | .nullInPath => "embedded null byte"
  | .noPath => "expected str, bytes or os.PathLike object, not list"

structure World where
  tree : FileTree
  hazards : List Hazard := []
  log : Array Log.Record := #[]

abbrev Job := ExceptT Abort (StateM World)

namespace Job

def say (record : Log.Record) : Job Unit :=
  modify fun world => { world with log := world.log.push record }

def tree : Job FileTree :=
  return (← get).tree

def hazards : Job (List Hazard) :=
  return (← get).hazards

/-- Texts for the system end at a null character, so a path cannot hold one. -/
def checkPath (path : Path) : Job Unit :=
  if path.parts.any (·.toList.contains '\x00') then throw .nullInPath else pure ()

def named (path : Path) (outcome : Except Errno α) : Except SystemFault α :=
  outcome.mapError fun errno => ⟨errno, some path.toString⟩

def met? (hazards : List Hazard) (kind : Access) (path : Path) : Option Hindrance :=
  (hazards.find? fun hazard => hazard.path == path && hazard.access == kind).map (·.hindrance)

def faultAt (path : Path) (errno : Errno) (isNamed : Bool) : SystemFault :=
  ⟨errno, if isNamed then some path.toString else none⟩

/-- The fault that strikes an access behind the opening, and how many bytes are through by then. -/
def strike? (hazards : List Hazard) (kind : Access) (path : Path) : Option (SystemFault × Nat) :=
  match met? hazards kind path with
  | some (.partway errno isNamed done) => some (faultAt path errno isNamed, done)
  | _ => none

def opening (kind : Access) (path : Path) (use : FileTree → Except Errno α) :
    Job (Except SystemFault α) := do
  match met? (← hazards) kind path with
  | some (.system errno isNamed) => return .error (faultAt path errno isNamed)
  | some .interrupt => throw .interrupted
  | some (.crash message) => throw (.crashed message)
  | _ =>
      checkPath path
      return named path (use (← tree))

def access (kind : Access) (path : Path) (use : FileTree → Except Errno α) :
    Job (Except SystemFault α) := do
  match ← opening kind path use with
  | .error fault => return .error fault
  | .ok answer =>
      match strike? (← hazards) kind path with
      | some (fault, _) => return .error fault
      | none => return .ok answer

def read (path : Path) : Job (Except SystemFault Bytes) :=
  access .read path (·.read path)

def list (path : Path) : Job (Except SystemFault FileTree.Listing) :=
  access .list path (·.list path)

def arriving (bytes : Bytes) : (struck : Option (SystemFault × Nat)) → Bytes
  | some (_, done) => bytes.take done
  | none => bytes

/-- Puts new bytes in place of those of a file. The old ones are gone once the file is open. -/
def overwrite (path : Path) (bytes : Bytes) : Job (Except SystemFault Unit) := do
  let struck := strike? (← hazards) .write path
  match ← opening .write path (·.overwrite path (arriving bytes struck)) with
  | .error fault => return .error fault
  | .ok tree =>
      modify fun world => { world with tree }
      match struck with
      | some (fault, _) => return .error fault
      | none => return .ok ()

end Job

end CommentSweep
