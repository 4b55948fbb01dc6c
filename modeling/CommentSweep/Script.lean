import CommentSweep.Text

/-!
The scanner for script sources. It reads a source once from left to right and decides of every
character whether it is kept, so nothing is ever inserted or moved. Line comments and block comments
are dropped; strings, templates, regex literals and doc comments pass through unread.
-/

namespace CommentSweep.Script

inductive Quote where
  | single
  | double
  | template
  deriving DecidableEq, Repr

def Quote.char : Quote → Char
  | .single => '\x27'
  | .double => '\x22'
  | .template => '\x60'

def Quote.ofChar? (c : Char) : Option Quote :=
  if c == Quote.single.char then some .single
  else if c == Quote.double.char then some .double
  else if c == Quote.template.char then some .template
  else none

inductive Mode where
  | code
  | line
  | block
  | doc
  | quoted (quote : Quote)
  | regex (inClass : Bool)
  deriving DecidableEq, Repr

def Mode.label : Mode → String
  | .code => "CODE"
  | .line => "LINE_COMMENT"
  | .block => "BLOCK_COMMENT"
  | .doc => "DOC_COMMENT"
  | .quoted .single => "SINGLE_QUOTE_STRING"
  | .quoted .double => "DOUBLE_QUOTE_STRING"
  | .quoted .template => "TEMPLATE_LITERAL"
  | .regex _ => "REGEX_LITERAL"

/-- The modes that a construct of the language has of its own. A doc comment is part of the code. -/
def Mode.constructs : List Mode :=
  [.code, .line, .block, .quoted .single, .quoted .double, .quoted .template, .regex false]

/-- Characters after which an expression is expected, so that a slash opens a regex literal. -/
def regexPreceders : Text :=
  ['(', ',', '=', ':', '[', '!', '&', '|', '?', '\x7b', '\x7d', ';', '\n']

def opensRegex : Option Char → Bool
  | none => true
  | some c => regexPreceders.contains c

/-- Whether a doc comment starts here. The empty block `/**/` is none. -/
def opensDoc : Text → Bool
  | '/' :: '*' :: '*' :: rest => rest.head? != some '/'
  | _ => false

def opensDocAt (source : Text) (i : Int) : Bool :=
  source.startsAt ['/', '*', '*'] i && source.slice (i + 3) (i + 4) != ['/']

/-- What becomes of a character: whether it is kept, the mode behind it, and how many characters
after it share its fate because they belong to the same opener, closer or escape. -/
structure Verdict where
  keep : Bool
  mode : Mode
  tied : Nat := 0
  deriving DecidableEq, Repr

/-- The verdict on `c`, where `prev` is the nearest character before it that is not blank and
`ahead` is the source behind it. -/
def Mode.read (mode : Mode) (prev : Option Char) (c : Char) (ahead : Text) : Verdict :=
  match mode with
  | .line =>
      if c == '\n' then ⟨true, .code, 0⟩
      else ⟨c == '\r' && ahead.head? == some '\n', .line, 0⟩
  | .block =>
      if c == '*' && ahead.head? == some '/' then ⟨false, .code, 1⟩ else ⟨false, .block, 0⟩
  | .doc =>
      if c == '*' && ahead.head? == some '/' then ⟨true, .code, 1⟩ else ⟨true, .doc, 0⟩
  | .code =>
      if c == '\\' then ⟨true, .code, 1⟩
      else if c == '/' then
        if opensDoc (c :: ahead) then ⟨true, .doc, 2⟩
        else if ahead.head? == some '*' then ⟨false, .block, 1⟩
        else if ahead.head? == some '/' then ⟨false, .line, 1⟩
        else if opensRegex prev then ⟨true, .regex false, 0⟩
        else ⟨true, .code, 0⟩
      else
        match Quote.ofChar? c with
        | some quote => ⟨true, .quoted quote, 0⟩
        | none => ⟨true, .code, 0⟩
  | .quoted quote =>
      if c == '\\' then ⟨true, .quoted quote, 1⟩
      else if c == quote.char then ⟨true, .code, 0⟩
      else ⟨true, .quoted quote, 0⟩
  | .regex inClass =>
      if c == '\\' then ⟨true, .regex inClass, 1⟩
      else if c == '[' then ⟨true, .regex true, 0⟩
      else if c == ']' then ⟨true, .regex false, 0⟩
      else if c == '/' && !inClass then ⟨true, .code, 0⟩
      else ⟨true, .regex inClass, 0⟩

structure State where
  mode : Mode := .code
  /-- Characters to come that are tied to the last verdict. -/
  tied : Nat := 0
  keep : Bool := true
  /-- The last character of the source that is not blank, comments included. -/
  prev : Option Char := none
  deriving DecidableEq, Repr

def State.step (s : State) (c : Char) (ahead : Text) : Bool × State :=
  let prev := if Text.isBlank c then s.prev else some c
  match s.tied with
  | tied + 1 => (s.keep, { s with tied, prev })
  | 0 =>
      let v := s.mode.read s.prev c ahead
      (v.keep, { mode := v.mode, tied := v.tied, keep := v.keep, prev })

/-- Scans a source from a state; `out` is what is kept so far, last character first. -/
def State.scanFrom (out : Text) : State → Text → Text
  | _, [] => out.reverse
  | s, c :: rest =>
      match s.step c rest with
      | (true, s) => scanFrom (c :: out) s rest
      | (false, s) => scanFrom out s rest

def strip (source : Text) : Text :=
  State.scanFrom [] {} source

end CommentSweep.Script
