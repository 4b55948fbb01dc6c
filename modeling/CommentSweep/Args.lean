import CommentSweep.Settings
import CommentSweep.Text
import CommentSweep.Text.Quoted

/-!
The command line: its switches, the words that it consists of and the options that it asks for.
-/

namespace CommentSweep.Args

inductive Switch where
  | help
  | dir
  | excludeDirs
  | excludeFiles
  | extensions
  | noIgnoreFile
  | dryRun
  | verbose
  | jsonLogs
  | report
  deriving DecidableEq, Repr

inductive Arity where
  | none
  | one
  | many
  deriving DecidableEq, Repr

namespace Switch

def all : List Switch :=
  [.help, .dir, .excludeDirs, .excludeFiles, .extensions, .noIgnoreFile, .dryRun, .verbose,
   .jsonLogs, .report]

def spellings : Switch → List String
  | .help => ["-h", "--help"]
  | .dir => ["-d", "--dir"]
  | .excludeDirs => ["--exclude-dirs", "--ed"]
  | .excludeFiles => ["--exclude-files", "--ef"]
  | .extensions => ["--extensions", "--ext"]
  | .noIgnoreFile => ["--no-gitignore"]
  | .dryRun => ["--dry-run", "--dr"]
  | .verbose => ["-v", "--verbose"]
  | .jsonLogs => ["--json-logs"]
  | .report => ["--report"]

def arity : Switch → Arity
  | .dir => .one
  | .excludeDirs | .excludeFiles | .extensions => .many
  | _ => .none

def label (switch : Switch) : String :=
  String.intercalate "/" switch.spellings

def table : List (String × Switch) :=
  all.flatMap fun switch => switch.spellings.map (·, switch)

def ofSpelling? (spelling : String) : Option Switch :=
  table.lookup spelling

def ofLetter? (c : Char) : Option Switch :=
  ofSpelling? (String.ofList ['-', c])

def candidates (abbreviation : Text) : List (String × Switch) :=
  table.filter fun (spelling, _) => abbreviation.isPrefixOf spelling.toList

end Switch

inductive UsageError where
  | ambiguous (argument : String) (spellings : List String)
  | expectedOne (switch : Switch)
  | expectedSome (switch : Switch)
  | ignoredValue (switch : Switch) (value : String)
  | unrecognized (arguments : List String)
  deriving DecidableEq, Repr

def UsageError.message : UsageError → String
  | .ambiguous argument spellings =>
      "ambiguous option: " ++ argument ++ " could match " ++ String.intercalate ", " spellings
  | .expectedOne switch => "argument " ++ switch.label ++ ": expected one argument"
  | .expectedSome switch => "argument " ++ switch.label ++ ": expected at least one argument"
  | .ignoredValue switch value =>
      "argument " ++ switch.label ++ ": ignored explicit argument " ++ Text.quote value
  | .unrecognized arguments =>
      "unrecognized arguments: " ++ String.intercalate " " arguments

inductive Word where
  | value (text : String)
  /-- The word after which everything is a value. -/
  | separator
  /-- A switch that is spelt with one hyphen or with two, and the value behind it. -/
  | switch (switch : Switch) (short : Bool) (value? : Option Text)
  | unknown (text : String)
  deriving DecidableEq, Repr

/-- The parts of a text before and behind the first equals sign. -/
def splitValue (t : Text) : Text × Option Text :=
  (t.takeWhile (· != '='), (t.dropWhile (· != '=')).tail?)

def chomp (t : Text) : Text :=
  if t.getLast? == some '\n' then t.dropLast else t

/-- Negative numbers are values. One line break may follow their digits. -/
def isNegative (t : Text) : Bool :=
  match t with
  | '-' :: digits =>
      let whole := digits.takeWhile Text.isDigit
      match chomp (digits.drop whole.length) with
      | [] => !whole.isEmpty
      | '.' :: places => !places.isEmpty && places.all Text.isDigit
      | _ => false
  | _ => false

namespace Word

/-- An argument with a hyphen that is no spelling and no abbreviation of a switch. -/
def other (argument : String) : Word :=
  let t := argument.toList
  if isNegative t || t.contains ' ' then .value argument else .unknown argument

def ofLong (argument : String) : Except UsageError Word :=
  let (abbreviation, value?) := splitValue argument.toList
  match Switch.candidates abbreviation with
  | [] => .ok (other argument)
  | [(_, found)] => .ok (.switch found false value?)
  | candidates => .error (.ambiguous argument (candidates.map (·.1)))

def ofShort (argument : String) (letter : Char) (rest : Text) : Word :=
  match Switch.ofLetter? letter with
  | some found => .switch found true (some rest)
  | none => other argument

def isShort (spelling : Text) : Bool :=
  (spelling.drop 1).head? != some '-'

def ofArgument (argument : String) : Except UsageError Word :=
  match argument.toList with
  | '-' :: letter :: rest =>
      let t := '-' :: letter :: rest
      let (spelling, value?) := splitValue t
      match Switch.ofSpelling? argument, Switch.ofSpelling? (String.ofList spelling) with
      | some found, _ => .ok (.switch found (isShort t) none)
      | none, some found => .ok (.switch found (isShort t) value?)
      | none, none => if letter == '-' then ofLong argument else .ok (ofShort argument letter rest)
  | _ => .ok (.value argument)

def ofArguments : List String → Except UsageError (List Word)
  | [] => .ok []
  | "--" :: rest => .ok (.separator :: rest.map .value)
  | argument :: rest => do
      let word ← ofArgument argument
      return word :: (← ofArguments rest)

end Word

inductive Halt where
  | help
  | misused (error : UsageError)
  deriving DecidableEq, Repr

/-- Switches that share one argument: all but the last take no value. -/
structure Bundle where
  flags : List Switch
  last : Switch
  value? : Option String
  deriving DecidableEq, Repr

/-- The value in the argument of the switches. The separator is no value. -/
def Bundle.given (bundle : Bundle) : List String :=
  bundle.value?.toList.filter (· != "--")

/-- Reads the text behind a switch: its value or, behind a single hyphen, further switches. -/
def Bundle.ofText (switch : Switch) (short : Bool) (t : Text) : Except UsageError Bundle :=
  if switch.arity != .none then .ok ⟨[], switch, some (String.ofList t)⟩
  else
    match t with
    | [] => .error (.ignoredValue switch "")
    | letter :: rest =>
        match short, Switch.ofLetter? letter with
        | true, some next =>
            if rest.isEmpty then .ok ⟨[switch], next, none⟩
            else (ofText next true rest).map fun bundle =>
              { bundle with flags := switch :: bundle.flags }
        | _, _ => .error (.ignoredValue switch (String.ofList (letter :: rest)))

def Bundle.ofWord (switch : Switch) (short : Bool) (value? : Option Text) :
    Except UsageError Bundle :=
  match value? with
  | none => .ok ⟨[], switch, none⟩
  | some t => ofText switch short t

def values : List Word → List String
  | .value text :: rest => text :: values rest
  | _ => []

def take (switch : Switch) (words : List Word) : Except UsageError (List String) :=
  match switch.arity, values words with
  | .none, _ => .ok []
  | .one, value :: _ => .ok [value]
  | .one, [] => .error (.expectedOne switch)
  | .many, [] => .error (.expectedSome switch)
  | .many, values => .ok values

/-- Follows a switch. Of a switch that is given twice the last one counts. -/
def apply (options : Options) (switch : Switch) (values : List String) : Except Halt Options :=
  match switch with
  | .help => .error .help
  | .dir => .ok { options with dir? := values.head? }
  | .excludeDirs => .ok { options with excludeDirs := values }
  | .excludeFiles => .ok { options with excludeFiles := values }
  | .extensions => .ok { options with extensions := values }
  | .noIgnoreFile => .ok { options with useIgnoreFile := false }
  | .dryRun => .ok { options with dryRun := true }
  | .verbose => .ok { options with verbose := true }
  | .jsonLogs => .ok { options with jsonLogs := true }
  | .report => .ok { options with report := true }

/-- Follows the words in order. What is left over is an error, but only at the end. -/
def follow (options : Options) (unused : List String) (words : List Word) :
    Except Halt Options :=
  match words with
  | [] => if unused.isEmpty then .ok options else .error (.misused (.unrecognized unused))
  | .value text :: rest => follow options (unused ++ [text]) rest
  | .unknown text :: rest => follow options (unused ++ [text]) rest
  | .separator :: rest => follow options (unused ++ ["--"]) rest
  | .switch switch short value? :: rest => do
      let bundle ← (Bundle.ofWord switch short value?).mapError .misused
      let taken ← match bundle.value? with
        | some _ => pure []
        | none => (take bundle.last rest).mapError .misused
      let options ← bundle.flags.foldlM (apply · · []) options
      let options ← apply options bundle.last (bundle.given ++ taken)
      follow options unused (rest.drop taken.length)
termination_by words.length

def parse (argv : List String) : Except Halt Options := do
  let words ← (Word.ofArguments argv).mapError Halt.misused
  follow {} [] words

def programName : String := "decomment"

def usage : String :=
  "usage: decomment [-h] [-d DIR] [--exclude-dirs NAME [NAME ...]]\n" ++
  "                 [--exclude-files GLOB [GLOB ...]]\n" ++
  "                 [--extensions EXT [EXT ...]] [--no-gitignore] [--dry-run]\n" ++
  "                 [-v] [--json-logs] [--report]\n"

def defaultLine (words : List String) : String :=
  "                        Default: " ++ String.intercalate " " words ++ "\n"

def help : String :=
  usage ++
  "\ndecomment – strip comments from a project tree\n" ++
  "Strings, template literals and regex literals are left untouched; " ++
  "JSDoc-style /** ... */ blocks are kept.\n" ++
  "\noptions:\n" ++
  "  -h, --help            show this help message and exit\n" ++
  "\nDiscovery:\n" ++
  "  -d DIR, --dir DIR     Root directory to process (default: current directory).\n" ++
  "  --exclude-dirs NAME [NAME ...], --ed NAME [NAME ...]\n" ++
  "                        Directory names to skip at any depth.\n" ++
  defaultLine Defaults.excludeDirs ++
  "  --exclude-files GLOB [GLOB ...], --ef GLOB [GLOB ...]\n" ++
  "                        File patterns to skip (gitignore syntax).\n" ++
  defaultLine Defaults.excludeFiles ++
  "  --extensions EXT [EXT ...], --ext EXT [EXT ...]\n" ++
  "                        File extensions to process, with or without the dot.\n" ++
  "  --no-gitignore        Do not read the root .gitignore.\n" ++
  "\nExecution:\n" ++
  "  --dry-run, --dr       Report the files that would change without writing them.\n" ++
  "\nLogging & report:\n" ++
  "  -v, --verbose         Also log every ignored path.\n" ++
  "  --json-logs           Emit logs as JSON lines (also DECOMMENT_JSON_LOGS=1).\n" ++
  "  --report              Print a JSON run report to stdout when done.\n" ++
  "\nFiles are rewritten in place unless --dry-run is given.\n"

namespace Halt

def exitCode : Halt → Nat
  | .help => 0
  | .misused _ => 2

def stdout : Halt → String
  | .help => Args.help
  | .misused _ => ""

def stderr : Halt → String
  | .help => ""
  | .misused error => usage ++ programName ++ ": error: " ++ error.message ++ "\n"

end Halt

end CommentSweep.Args
