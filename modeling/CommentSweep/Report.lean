import CommentSweep.Json
import CommentSweep.Path

/-!
What became of files, and the report that counts it.
-/

namespace CommentSweep

inductive Status where
  | skipped
  | unchanged
  /-- Comments would be removed. -/
  | changed
  | written
  | error
  | other (label : String)
  deriving DecidableEq, Repr

namespace Status

def label : Status → String
  | .skipped => "skipped"
  | .unchanged => "unchanged"
  | .changed => "changed"
  | .written => "written"
  | .error => "error"
  | .other label => label

def ofLabel (label : String) : Status :=
  match label with
  | "skipped" => .skipped
  | "unchanged" => .unchanged
  | "changed" => .changed
  | "written" => .written
  | "error" => .error
  | label => .other label

end Status

structure Outcome where
  path : Path
  status : Status
  message? : Option String := none
  deriving DecidableEq, Repr

def Outcome.modified (outcome : Outcome) : Bool :=
  outcome.status == .changed || outcome.status == .written

/-- What a clock shows, in seconds: a whole number or a real one. -/
inductive Reading where
  | whole (n : Int)
  | real (x : Float)

namespace Reading

def isZero : Reading → Bool
  | .whole n => n == 0
  | .real x => x == 0

/-- The time between two readings. It is whole if both of them are. There is none if one is real and
the other too large to be taken as real. -/
def since? : (later earlier : Reading) → Option Reading
  | .whole m, .whole n => some (.whole (m - n))
  | .real x, .real y => some (.real (x - y))
  | .whole m, .real y => if (Float.ofInt m).isInf then none else some (.real (Float.ofInt m - y))
  | .real x, .whole n => if (Float.ofInt n).isInf then none else some (.real (x - Float.ofInt n))

def toJson : Reading → Json
  | .whole n => .int n
  | .real x => .real x

end Reading

structure Report where
  started : Reading
  finished? : Option Reading := none
  root : String := ""
  dryRun : Bool := false
  seen : Nat := 0
  skipped : Nat := 0
  unchanged : Nat := 0
  changed : Nat := 0
  written : Nat := 0
  changedPaths : List String := []
  errors : List String := []

namespace Report

def addError (r : Report) (message : String) : Report :=
  { r with errors := r.errors ++ [message] }

def errorOf (outcome : Outcome) : String :=
  let message := outcome.message?.getD ""
  outcome.path.toString ++ ": " ++ (if message == "" then "unknown error" else message)

/-- Counts an outcome. What is neither skipped nor unchanged nor an error counts as changed. -/
def record (r : Report) (outcome : Outcome) : Report :=
  let r := { r with seen := r.seen + 1 }
  match outcome.status with
  | .skipped => { r with skipped := r.skipped + 1 }
  | .unchanged => { r with unchanged := r.unchanged + 1 }
  | .error => r.addError (errorOf outcome)
  | status =>
      { r with
        changed := r.changed + 1
        changedPaths := r.changedPaths ++ [outcome.path.toString]
        written := if status == .written then r.written + 1 else r.written }

def finish (r : Report) (time : Reading) : Report :=
  { r with finished? := some time }

inductive ClockError where
  | tooLarge
  deriving DecidableEq, Repr

def ClockError.message : ClockError → String
  | .tooLarge => "int too large to convert to float"

/-- How long the run took. A clock that shows zero has not been started. -/
def elapsed (r : Report) : Except ClockError (Option Reading) :=
  match r.finished? with
  | none => .ok none
  | some finished =>
      if finished.isZero then .ok none
      else
        match finished.since? r.started with
        | some time => .ok (some time)
        | none => .error .tooLarge

def duration? (r : Report) : Option Reading :=
  r.elapsed.toOption.join

def toJson (r : Report) : Json :=
  .object
    [("root", .string r.root),
     ("dry_run", .bool r.dryRun),
     ("duration_s", match r.duration? with
       | some duration => duration.toJson
       | none => .null),
     ("files_seen", .int r.seen),
     ("files_skipped", .int r.skipped),
     ("files_unchanged", .int r.unchanged),
     ("files_changed", .int r.changed),
     ("files_written", .int r.written),
     ("changed_paths", .array (r.changedPaths.map .string)),
     ("errors", .array (r.errors.map .string))]

def text (r : Report) (layout : Json.Layout := .indented 2) : String :=
  r.toJson.text layout

end Report

end CommentSweep
