import CommentSweep.Text
import CommentSweep.Text.Quoted

/-!
Ignore rules. One line of an ignore file is a pattern that ignores paths or, behind an exclamation
mark, admits them again. A pattern is matched piece by piece from the front of a path, and each
piece lists the ways in which it can go on, the preferred way first.
-/

namespace CommentSweep.Ignore

inductive Member where
  | single (c : Char)
  | range (low high : Char)
  deriving DecidableEq, Repr

def Member.holds (member : Member) (c : Char) : Bool :=
  match member with
  | .single own => c == own
  | .range low high => decide (low ≤ c) && decide (c ≤ high)

inductive Piece where
  | char (c : Char)
  /-- One character of a name. -/
  | one
  /-- Any characters of a name. -/
  | run
  /-- At least one character of a name. -/
  | name
  /-- One character among the members or, if negated, outside of them. -/
  | oneOf (negated : Bool) (members : List Member)
  | slash
  /-- A slash that marks a directory. -/
  | dirSlash
  /-- The directories above the first name, or none. -/
  | upperDirs
  /-- Directories between two names, or none. -/
  | innerDirs
  /-- The end of a name: the slash that marks it as a directory, or the end of the path. -/
  | nameEnd
  deriving DecidableEq, Repr

def inName (c : Char) : Bool :=
  c != '/'

def inLine (c : Char) : Bool :=
  c != '\n'

/-- The end of a path. A line feed may stand behind it. -/
def atEnd : Text → Bool
  | [] => true
  | ['\n'] => true
  | _ => false

/-- What is left of a path after any number of the characters at its head that satisfy `p`, the
longest run first. -/
def afterMany (p : Char → Bool) (shorter : List Text) : Text → List Text
  | [] => [] :: shorter
  | c :: rest =>
      if p c then afterMany p ((c :: rest) :: shorter) rest else (c :: rest) :: shorter

def afterSome (p : Char → Bool) : Text → List Text
  | [] => []
  | c :: rest => if p c then afterMany p [] rest else []

def afterChar (p : Char → Bool) : Text → List Text
  | [] => []
  | c :: rest => if p c then [rest] else []

namespace Piece

/-- The ways in which a piece can match at the head of a path: what is left of the path, and whether
a directory mark was taken. -/
def ways (piece : Piece) (path : Text) : List (Text × Bool) :=
  match piece with
  | .char c => (afterChar (· == c) path).map (·, false)
  | .one => (afterChar inName path).map (·, false)
  | .run => (afterMany inName [] path).map (·, false)
  | .name => (afterSome inName path).map (·, false)
  | .oneOf negated members =>
      (afterChar (fun c => members.any (·.holds c) != negated) path).map (·, false)
  | .slash => (afterChar (· == '/') path).map (·, false)
  | .dirSlash => (afterChar (· == '/') path).map (·, true)
  | .upperDirs =>
      ((afterSome inLine path).flatMap (afterChar (· == '/')) ++ [path]).map (·, false)
  | .innerDirs =>
      ((afterChar (· == '/') path).flatMap (afterSome inLine) ++ [path]).map (·, false)
  | .nameEnd =>
      (afterChar (· == '/') path).map (·, true) ++ (if atEnd path then [(path, false)] else [])

/-- Matches pieces at the head of a path. The answer tells whether a directory mark was taken. -/
def matches? : List Piece → Text → Option Bool
  | [], _ => some false
  | piece :: pieces, path =>
      (piece.ways path).findSome? fun (rest, marked) =>
        (matches? pieces rest).map (marked || ·)

end Piece

def isSpecial (c : Char) : Bool :=
  "()[]\x7b\x7d?*+-|^$\\.&~# \t\n\r\x0b\x0c".toList.contains c

def memberText (c : Char) : Text :=
  if c == '\\' then ['\\', '\\'] else [c]

def Member.text : Member → Text
  | .single c => memberText c
  | .range low high => memberText low ++ '-' :: memberText high

def bracketStart (negated : Bool) : Text :=
  if negated then ['[', '^'] else ['[']

def Piece.text : Piece → Text
  | .char c => if isSpecial c then ['\\', c] else [c]
  | .one => "[^/]".toList
  | .run => "[^/]*".toList
  | .name => "[^/]+".toList
  | .oneOf negated members => bracketStart negated ++ members.flatMap Member.text ++ [']']
  | .slash => ['/']
  | .dirSlash => "(?P<ps_d>/)".toList
  | .upperDirs => "(?:.+/)?".toList
  | .innerDirs => "(?:/.+)?".toList
  | .nameEnd => "(?:(?P<ps_d>/)|$)".toList

def expression (pieces : List Piece) : Text :=
  '^' :: pieces.flatMap Piece.text

/-- A range that ends before it starts. -/
structure ReversedRange where
  low : Char
  high : Char
  whole : Text
  position : Nat
  deriving DecidableEq, Repr

namespace ReversedRange

def lineAndColumn (range : ReversedRange) : Nat × Nat :=
  let before := range.whole.take range.position
  (before.count '\n' + 1, (before.reverse.takeWhile (· != '\n')).length + 1)

/-- Line and column are stated only if the expression has several lines. -/
def message (range : ReversedRange) : String :=
  let (line, column) := range.lineAndColumn
  "bad character range " ++ String.ofList (Member.range range.low range.high).text ++
    " at position " ++ toString range.position ++
    if range.whole.contains '\n' then
      " (line " ++ toString line ++ ", column " ++ toString column ++ ")"
    else ""

def inMembers? (whole : Text) (position : Nat) : List Member → Option ReversedRange
  | [] => none
  | .range low high :: rest =>
      if high < low then some ⟨low, high, whole, position⟩
      else inMembers? whole (position + (Member.range low high).text.length) rest
  | member :: rest => inMembers? whole (position + member.text.length) rest

def inPieces? (whole : Text) (position : Nat) : List Piece → Option ReversedRange
  | [] => none
  | piece :: rest =>
      let here := match piece with
        | .oneOf negated members =>
            inMembers? whole (position + (bracketStart negated).length) members
        | _ => none
      here <|> inPieces? whole (position + piece.text.length) rest

def find? (pieces : List Piece) : Option ReversedRange :=
  inPieces? (expression pieces) 1 pieces

end ReversedRange

inductive PatternError where
  | invalid (line : String)
  | reversed (range : ReversedRange)
  deriving DecidableEq, Repr

def PatternError.message : PatternError → String
  | .invalid line => "Invalid git pattern: " ++ Text.quote line
  | .reversed range => range.message

inductive GlobFault where
  | danglingEscape
  | openBracket
  deriving DecidableEq, Repr

/-- The members that the text between brackets lists. A hyphen at the end stands for itself. -/
def membersOf : Text → List Member
  | low :: '-' :: high :: rest => .range low high :: membersOf rest
  | c :: rest => .single c :: membersOf rest
  | [] => []

/-- Reads a bracket expression behind its opening bracket: the piece, and how many characters it
has. A closing bracket right at the start is a member. -/
def bracket? (t : Text) : Option (Piece × Nat) :=
  let negated := t.head? == some '!' || t.head? == some '^'
  let start := if negated then 1 else 0
  let body := t.drop start
  let first := if body.head? == some ']' then 1 else 0
  match (body.drop first).findIdx? (· == ']') with
  | none => none
  | some i => some (.oneOf negated (membersOf (body.take (first + i))), start + first + i + 1)

def glob : Text → Except GlobFault (List Piece)
  | [] => .ok []
  | c :: rest =>
      if c == '\\' then
        match rest with
        | [] => .error .danglingEscape
        | c :: rest => (glob rest).map (.char c :: ·)
      else if c == '*' then
        (glob rest).map (.run :: ·)
      else if c == '?' then
        (glob rest).map (.one :: ·)
      else if c == '[' then
        match bracket? rest with
        | none => .error .openBracket
        | some (piece, size) => (glob (rest.drop size)).map (piece :: ·)
      else
        (glob rest).map (.char c :: ·)
termination_by t => t.length
decreasing_by all_goals simp; try omega

inductive Matcher where
  /-- Every path that is not empty. -/
  | anyPath
  /-- Every path with a slash. -/
  | anySlash (marked : Bool)
  | sequence (pieces : List Piece)
  deriving DecidableEq, Repr

def Matcher.find? (m : Matcher) (path : Text) : Option Bool :=
  match m with
  | .anyPath => if path.any inLine then some false else none
  | .anySlash marked => if path.contains '/' then some marked else none
  | .sequence list => Piece.matches? list path

structure Pattern where
  ignores : Bool
  matcher : Matcher
  deriving DecidableEq, Repr

def anyDirs : Text := ['*', '*']

/-- A segment of any directories makes another one before it superfluous. -/
def dropRepeats : List Text → List Text
  | a :: b :: rest =>
      if a == anyDirs && b == anyDirs then dropRepeats (b :: rest) else a :: dropRepeats (b :: rest)
  | segments => segments

/-- The segments of a pattern in their full form: a leading slash binds the pattern to the root, a
single name may lie below any directories, and a final slash stands for whatever lies below. -/
def segmentsOf (pattern : Text) : List Text :=
  let segments :=
    match pattern.splitOn '/' with
    | [] :: rest => rest
    | [name] => if name == anyDirs then [name] else [anyDirs, name]
    | [name, []] => if name == anyDirs then [name, []] else [anyDirs, name, []]
    | segments => segments
  dropRepeats
    (match segments.getLast? with
    | some [] => segments.dropLast ++ [anyDirs]
    | _ => segments)

def endsInSlash (pattern : Text) : Bool :=
  (pattern.splitOn '/').getLast? == some []

def namePieces (segment : Text) : Except GlobFault (List Piece) :=
  if segment == ['*'] then .ok [.name] else glob segment

def tailPieces (dirPattern : Bool) : (needSlash : Bool) → List Text → Except GlobFault (List Piece)
  | _, [] => .ok []
  | needSlash, segment :: rest =>
      if segment == anyDirs then
        if rest.isEmpty then
          .ok [if dirPattern then .dirSlash else .slash]
        else
          (tailPieces dirPattern true rest).map (.innerDirs :: ·)
      else do
        let pieces ← namePieces segment
        let last := if rest.isEmpty then [Piece.nameEnd] else []
        let others ← tailPieces dirPattern true rest
        return (if needSlash then [Piece.slash] else []) ++ pieces ++ last ++ others

def piecesOf (dirPattern : Bool) (segments : List Text) : Except GlobFault (List Piece) :=
  match segments with
  | first :: second :: rest =>
      if first == anyDirs then
        (tailPieces dirPattern false (second :: rest)).map (.upperDirs :: ·)
      else
        tailPieces dirPattern false segments
  | _ => tailPieces dirPattern false segments

/-- The line without the blanks behind it, unless the last of them is escaped. -/
def trimLine (line : Text) : Text :=
  if (line.drop (line.length - 2)) == ['\\', ' '] then line else Text.trimEnd line

/-- The matcher of a pattern without its exclamation mark; `none` if a bracket is left open. -/
def matcherOf? (line : String) (pattern : Text) : Except PatternError (Option Matcher) :=
  let dirPattern := endsInSlash pattern
  let segments := segmentsOf pattern
  if segments.isEmpty then .error (.invalid line)
  else if segments == [anyDirs] then
    .ok (some (if dirPattern then .anySlash true else .anyPath))
  else if segments == [anyDirs, ['*']] then
    .ok (some .anyPath)
  else if segments == [anyDirs, ['*'], anyDirs] then
    .ok (some (.anySlash dirPattern))
  else
    match piecesOf dirPattern segments with
    | .error .danglingEscape => .error (.invalid line)
    | .error .openBracket => .ok none
    | .ok pieces =>
        match ReversedRange.find? pieces with
        | some range => .error (.reversed range)
        | none => .ok (some (.sequence pieces))

/-- Reads one line. Empty lines, comments, a lone slash and lines with an open bracket say nothing.
-/
def Pattern.ofLine? (line : String) : Except PatternError (Option Pattern) :=
  let pattern := trimLine line.toList
  if pattern.isEmpty || pattern.head? == some '#' || pattern == ['/'] then
    .ok none
  else
    let ignores := pattern.head? != some '!'
    (matcherOf? line (if ignores then pattern else pattern.drop 1)).map fun matcher? =>
      matcher?.map fun matcher => ⟨ignores, matcher⟩

abbrev Rules := List Pattern

/-- The rules that lines state, in the order of the lines. The first line that is no pattern is the
error. -/
def rulesOf : List String → Except PatternError Rules
  | [] => .ok []
  | line :: lines => do
      let pattern? ← Pattern.ofLine? line
      let rules ← rulesOf lines
      return pattern?.toList ++ rules

/-- A path as rules see it: without a slash, or a dot and a slash, at its front. -/
def relativePath : Text → Text
  | '/' :: rest => rest
  | '.' :: '/' :: rest => rest
  | path => path

structure Ruling where
  ignores : Bool
  byName : Bool
  deriving DecidableEq, Repr

def Ruling.update (path : Text) (ruling : Option Ruling) (pattern : Pattern) : Option Ruling :=
  match pattern.matcher.find? path with
  | none => ruling
  | some marked =>
      match ruling with
      | some old => if old.byName && marked then some old else some ⟨pattern.ignores, !marked⟩
      | none => some ⟨pattern.ignores, !marked⟩

/-- Whether the rules ignore a path. A directory is given with a slash behind it. -/
def isIgnored (rules : Rules) (path : String) : Bool :=
  let path := relativePath path.toList
  match rules.foldl (Ruling.update path) none with
  | some ruling => ruling.ignores
  | none => false

def dirName (name : String) : String :=
  String.ofList (name.toList.reverse.dropWhile (· == '/')).reverse

def ruleLines (dirs files lines : List String) : List String :=
  (dirs.filter (· != "")).map (fun d => dirName d ++ "/") ++ files.filter (· != "") ++ lines

end CommentSweep.Ignore
