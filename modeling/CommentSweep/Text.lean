/-!
Texts as lists of code points: blank characters, digits, lists of names, signed positions, lines,
and the spacing of a finished text.
-/

namespace CommentSweep

/-- A text, as the list of its code points. -/
abbrev Text := List Char

namespace Text

/-- White space: the ASCII controls and separators, the next-line control and the Unicode spaces. A
zero-width space, a byte order mark and NUL are not blank. -/
def isBlank (c : Char) : Bool :=
  let n := c.toNat
  (0x9 ≤ n && n ≤ 0xD) || (0x1C ≤ n && n ≤ 0x20) || n == 0x85 || n == 0xA0 || n == 0x1680 ||
    (0x2000 ≤ n && n ≤ 0x200A) || n == 0x2028 || n == 0x2029 || n == 0x202F || n == 0x205F ||
    n == 0x3000

def trimStart (t : Text) : Text :=
  t.dropWhile isBlank

def trimEnd (t : Text) : Text :=
  (t.reverse.dropWhile isBlank).reverse

def trim (t : Text) : Text :=
  trimEnd (trimStart t)

/-- The zeros of Unicode 14, in ascending order. -/
def zeros : List Nat :=
  [0x30, 0x660, 0x6F0, 0x7C0, 0x966, 0x9E6, 0xA66, 0xAE6, 0xB66, 0xBE6, 0xC66, 0xCE6, 0xD66,
   0xDE6, 0xE50, 0xED0, 0xF20, 0x1040, 0x1090, 0x17E0, 0x1810, 0x1946, 0x19D0, 0x1A80, 0x1A90,
   0x1B50, 0x1BB0, 0x1C40, 0x1C50, 0xA620, 0xA8D0, 0xA900, 0xA9D0, 0xA9F0, 0xAA50, 0xABF0,
   0xFF10, 0x104A0, 0x10D30, 0x11066, 0x110F0, 0x11136, 0x111D0, 0x112F0, 0x11450, 0x114D0,
   0x11650, 0x116C0, 0x11730, 0x118E0, 0x11950, 0x11C50, 0x11D50, 0x11DA0, 0x16A60, 0x16AC0,
   0x16B50, 0x1D7CE, 0x1D7D8, 0x1D7E2, 0x1D7EC, 0x1D7F6, 0x1E140, 0x1E2F0, 0x1E950, 0x1FBF0]

def isDigit (c : Char) : Bool :=
  zeros.any fun start => start ≤ c.toNat && c.toNat < start + 10

def sortNames (names : List String) : List String :=
  names.mergeSort fun a b => decide (a ≤ b)

def nameSet (names : List String) : List String :=
  sortNames names.eraseDups

/-- The offset that a signed position stands for in a text of `size` characters. -/
def offset (size : Nat) (i : Int) : Nat :=
  let i := if i < 0 then i + size else i
  min i.toNat size

def slice (t : Text) (i j : Int) : Text :=
  let lo := offset t.length i
  (t.drop lo).take (offset t.length j - lo)

/-- Whether `word` stands in the text at position `i`. No word stands behind the end. -/
def startsAt (t word : Text) (i : Int) : Bool :=
  decide (i ≤ t.length) && word.isPrefixOf (t.drop (offset t.length i))

/-- Line feed, carriage return, vertical tab, form feed, the three information separators, the next
line control and the two Unicode separators. -/
def endsLine (c : Char) : Bool :=
  let n := c.toNat
  (0xA ≤ n && n ≤ 0xD) || (0x1C ≤ n && n ≤ 0x1E) || n == 0x85 || n == 0x2028 || n == 0x2029

/-- Cuts a text at its line ends; `line` is the current line, last character first, and `done` the
lines before it, last line first. `\r\n` is one line end, and a last line without one counts if it
is not empty. -/
def linesFrom (done : List Text) (line : Text) : Text → List Text
  | [] => (if line.isEmpty then done else line.reverse :: done).reverse
  | c :: rest =>
      if c == '\r' && rest.head? == some '\n' then
        linesFrom done line rest
      else if endsLine c then
        linesFrom (line.reverse :: done) [] rest
      else
        linesFrom done (c :: line) rest

def lines (t : Text) : List Text :=
  linesFrom [] [] t

def isIndent (c : Char) : Bool :=
  c == ' ' || c == '\t'

def newline? : Text → Option (Text × Text)
  | '\n' :: rest => some (['\n'], rest)
  | '\r' :: '\n' :: rest => some (['\r', '\n'], rest)
  | _ => none

/-- Follows the terminated blank lines at the head of a text. `pending` counts the characters of a
line whose terminator is not reached yet, `lines` and `width` the lines and characters before it. -/
def blankLines (lines width : Nat) : (pending : Nat) → Text → Nat × Nat
  | _, [] => (lines, width)
  | pending, c :: rest =>
      if c == '\n' then
        blankLines (lines + 1) (width + pending + 1) 0 rest
      else if isIndent c || (c == '\r' && rest.head? == some '\n') then
        blankLines lines width (pending + 1) rest
      else
        (lines, width)

/-- A gap starts at the terminator of the line before it. The answer is that terminator and how
many characters of the text follow its first character in the gap. -/
def gap? (t : Text) : Option (Text × Nat) :=
  match newline? t with
  | none => none
  | some (terminator, rest) =>
      let (lines, width) := blankLines 0 0 0 rest
      if lines < 2 then none else some (terminator, terminator.length - 1 + width)

/-- Reads a text from left to right. The next `skip` characters belong to a gap that is already
written; `out` is what is written so far, last character first. -/
def collapseFrom (out : Text) : (skip : Nat) → Text → Text
  | _, [] => out.reverse
  | skip + 1, _ :: rest => collapseFrom out skip rest
  | 0, c :: rest =>
      match gap? (c :: rest) with
      | some (terminator, skip) =>
          collapseFrom (terminator.reverseAux (terminator.reverseAux out)) skip rest
      | none => collapseFrom (c :: out) 0 rest

/-- Every gap becomes one empty line that ends as the line before the gap does. -/
def collapse (t : Text) : Text :=
  collapseFrom [] 0 t

def hasCrlf : Text → Bool
  | [] => false
  | c :: rest => (c == '\r' && rest.head? == some '\n') || hasCrlf rest

/-- The terminator of a finished text: `\r\n` if the text holds one already. -/
def finalNewline (body : Text) : Text :=
  if hasCrlf body then ['\r', '\n'] else ['\n']

/-- The trimmed text with one terminator after it. A text of blanks only is left empty. -/
def finish (t : Text) : Text :=
  match trim t with
  | [] => []
  | c :: rest => c :: rest ++ finalNewline (c :: rest)

end Text

end CommentSweep
