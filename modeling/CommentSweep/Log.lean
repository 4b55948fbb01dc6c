import CommentSweep.Decimal
import CommentSweep.Json
import CommentSweep.Settings
import CommentSweep.Text

/-!
Log records, the times and lines in which they are written, and the base logger, which decides what
is written. Until it is set up only warnings and worse come through, as bare messages.
-/

namespace CommentSweep.Log

abbrev Level := Int

namespace Level

def debug : Level := 10

def info : Level := 20

def warning : Level := 30

def error : Level := 40

/-- The name of a level; a level between the named ones is called by its number. -/
def name (level : Level) : String :=
  if level = 0 then "NOTSET"
  else if level = 10 then "DEBUG"
  else if level = 20 then "INFO"
  else if level = 30 then "WARNING"
  else if level = 40 then "ERROR"
  else if level = 50 then "CRITICAL"
  else "Level " ++ toString level

end Level

structure Record where
  logger : String
  level : Level
  message : String
  context : List (String × Json) := []

def baseName : String := "decomment"

/-- The full name of a logger. A name that starts with the base name is taken as it is. -/
def loggerName (name : Option String) : String :=
  match name with
  | none => baseName
  | some name =>
      if name == "" then baseName
      else if baseName.toList.isPrefixOf name.toList then name
      else baseName ++ "." ++ name

/-- Whether the way up from a logger meets the base logger. The name is read backwards. -/
def reachesBase (known : List String) : Text → Bool
  | '.' :: c :: rest =>
      let upper := String.ofList (c :: rest).reverse
      if upper == baseName then true
      else if known.contains upper then reachesBase known (c :: rest)
      else reachesBase known rest
  | _ :: rest => reachesBase known rest
  | [] => false

/-- Whether a logger takes its settings from the base logger when the given loggers are known. -/
def isGoverned (known : List String) (logger : String) : Bool :=
  logger == baseName || reachesBase known logger.toList.reverse

structure Date where
  year : Int
  month : Int
  day : Int
  deriving DecidableEq, Repr

/-- The date of a day that is counted from the first of January 1970. Years are counted from March
on, so that the leap day is their last, and in cycles of 400 years. -/
def Date.ofDay (n : Int) : Date :=
  let n := n + 719468
  let cycle := n.fdiv 146097
  let dayOfCycle := n - cycle * 146097
  let yearOfCycle :=
    (dayOfCycle - dayOfCycle / 1460 + dayOfCycle / 36524 - dayOfCycle / 146096) / 365
  let dayOfYear := dayOfCycle - (365 * yearOfCycle + yearOfCycle / 4 - yearOfCycle / 100)
  let month := (5 * dayOfYear + 2) / 153
  let day := dayOfYear - (153 * month + 2) / 5 + 1
  let year := yearOfCycle + cycle * 400
  if month < 10 then ⟨year, month + 3, day⟩ else ⟨year + 1, month - 9, day⟩

def roundEven (x : Float) : Float :=
  let near := x.round
  if (x - near).abs == 0.5 then 2 * (x / 2).round else near

/-- A point in time, counted from the start of 1970. -/
structure Instant where
  microseconds : Int := 0
  deriving DecidableEq, Repr

def Instant.seconds (t : Instant) : Int :=
  t.microseconds.fdiv 1000000

inductive TimeError where
  | secondsTooLarge
  | yearTooLarge
  | yearOutOfRange (year : Int)
  | undefined
  deriving DecidableEq, Repr

def TimeError.message : TimeError → String
  | .secondsTooLarge => "timestamp out of range for platform time_t"
  | .yearTooLarge => "[Errno 75] Value too large for defined data type"
  | .yearOutOfRange year => "year " ++ toString year ++ " is out of range"
  | .undefined => "Invalid value NaN (not a number)"

def wordLimit (bits : Nat) : Int :=
  Nat.pow 2 (bits - 1)

def fitsWord (bits : Nat) (n : Int) : Bool :=
  -wordLimit bits ≤ n && n < wordLimit bits

namespace Instant

def ofSeconds (n : Int) : Except TimeError Instant :=
  if fitsWord 64 n then .ok ⟨n * 1000000⟩ else .error .secondsTooLarge

/-- The time of a real number of seconds. The part behind the point is rounded on its own. The
largest number of seconds is no real that a float can hold; the next one is let through in its
place. -/
def ofFloat (x : Float) : Except TimeError Instant :=
  match Binary.ofFloat? x with
  | none => .error (if x.isNaN then .undefined else .secondsTooLarge)
  | some b =>
      let whole := if x < 0 then x.ceil else x.floor
      let t : Instant :=
        ⟨b.truncate * 1000000 + (roundEven ((x - whole) * 1000000)).toInt64.toInt⟩
      if fitsWord 64 t.seconds || t.seconds == wordLimit 64 then .ok t
      else .error .secondsTooLarge

/-- Checks that a time can be written. A year that is reported went through a word of 32 bits. -/
def check (t : Instant) : Except TimeError Unit := do
  let year := (Date.ofDay (t.seconds.fdiv 86400)).year
  unless fitsWord 32 (year - 1900) do throw .yearTooLarge
  unless 1 ≤ year && year ≤ 9999 do throw (.yearOutOfRange (year.bmod (Nat.pow 2 32)))

end Instant

def padded (width : Nat) (n : Int) : String :=
  let digits := Nat.toDigits 10 n.toNat
  String.ofList (List.replicate (width - digits.length) '0' ++ digits)

/-- The text of a point in time in the years 1 to 9999. -/
def Instant.text (t : Instant) : String :=
  let date := Date.ofDay (t.seconds.fdiv 86400)
  let clock := t.seconds.fmod 86400
  let ms := (t.microseconds.fdiv 1000).fmod 1000
  padded 4 date.year ++ "-" ++ padded 2 date.month ++ "-" ++ padded 2 date.day ++ "T" ++
    padded 2 (clock / 3600) ++ ":" ++ padded 2 (clock / 60 % 60) ++ ":" ++
    padded 2 (clock % 60) ++ "." ++ padded 3 ms ++ "Z"

def timestamp (t : Instant) : Except TimeError String := do
  t.check
  return t.text

inductive Style where
  | plain
  | json (version : String)
  deriving DecidableEq, Repr

/-- The version that log lines name: that of the program if it is known, else the one that the
environment states. -/
def shownVersion (known? stated? : Option String) : String :=
  known?.getD (stated?.getD "unknown")

/-- The members of a JSON line that is stamped with a time. Facts are left out if there are none. -/
def Record.members (record : Record) (version stamp : String) : List (String × Json) :=
  [("ts", .string stamp),
   ("level", .string record.level.name),
   ("module", .string record.logger),
   ("msg", .string record.message),
   ("version", .string version)] ++
    if record.context.isEmpty then [] else [("ctx", .object record.context)]

def Record.line (record : Record) (style : Style) (time : Instant) : Except TimeError String :=
  match style with
  | .plain => .ok (record.level.name ++ ": " ++ record.message)
  | .json version =>
      (timestamp time).map fun stamp => (Json.object (record.members version stamp)).text

structure Base where
  /-- Records below this level are dropped; zero sets no level. -/
  level : Level := 0
  style? : Option Style := none
  known : List String := []
  deriving DecidableEq, Repr

namespace Base

def setup (base : Base) (json : Bool) (level : Level) : Base :=
  let style := if json then Style.json (shownVersion (some Defaults.version) none) else .plain
  { base with level, style? := some style }

def ask (base : Base) (logger : String) : Base :=
  { base with known := logger :: base.known }

def bare (record : Record) : String :=
  if Level.warning ≤ record.level then record.message ++ "\n" else ""

/-- The text that is written for a record. Levels from zero down are never written, nor is a line
whose time cannot be. -/
def emit (base : Base) (time : Instant) (record : Record) : String :=
  if record.level ≤ 0 then ""
  else if isGoverned base.known record.logger then
    let least := if base.level = 0 then Level.warning else base.level
    if record.level < least then ""
    else
      match base.style? with
      | some style =>
          match record.line style time with
          | .ok line => line ++ "\n"
          | .error _ => ""
      | none => bare record
  else
    bare record

def emitAll (base : Base) (time : Instant) (records : List Record) : String :=
  String.join (records.map (base.emit time))

end Base

def resolveLevel (debug : Bool) (default : Level := .info) : Level :=
  if debug then .debug else default

/-- Hands out loggers, and sets the base logger up when the first one is asked for. -/
structure Factory where
  json : Bool
  level : Level
  done : Bool := false
  deriving DecidableEq, Repr

namespace Factory

def make (json : Bool) (level? : Option Level) (debug : Bool) : Factory :=
  { json, level := level?.getD (resolveLevel debug) }

def prepare (factory : Factory) (base : Base) : Factory × Base :=
  if factory.done then (factory, base)
  else ({ factory with done := true }, base.setup factory.json factory.level)

end Factory

end CommentSweep.Log
