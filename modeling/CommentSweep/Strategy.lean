import CommentSweep.Script
import CommentSweep.Text
import CommentSweep.Text.Lower

/-!
Strategies: the ways of stripping comments, and which of them a file extension calls for. Apart from
the one for scripts they delete from left to right and do not look into literals.
-/

namespace CommentSweep.Comment

/-- How many characters the comment has that stands at the head of a text, if one does. -/
abbrev Span := Text → Option Nat

def isLineEnd (c : Char) : Bool :=
  c == '\r' || c == '\n'

/-- From an opener up to the end of the line, which is not part of the comment. -/
def toLineEnd (opener : Text) : Span := fun t =>
  if opener.isPrefixOf t then
    some (opener.length + ((t.drop opener.length).takeWhile (!isLineEnd ·)).length)
  else
    none

def find? (word : Text) (i : Nat) : Text → Option Nat
  | [] => if word.isEmpty then some i else none
  | c :: rest => if word.isPrefixOf (c :: rest) then some i else find? word (i + 1) rest

/-- From an opener to the first closer behind it. Without a closer there is no comment. -/
def enclosed (opener closer : Text) : Span := fun t =>
  if opener.isPrefixOf t then
    (find? closer opener.length (t.drop opener.length)).map (· + closer.length)
  else
    none

/-- Reads a text from left to right. The next `skip` characters belong to a comment; `out` is what
is kept so far, last character first. -/
def eraseFrom (span : Span) (out : Text) : (skip : Nat) → Text → Text
  | _, [] => out.reverse
  | skip + 1, _ :: rest => eraseFrom span out skip rest
  | 0, c :: rest =>
      match span (c :: rest) with
      | some (skip + 1) => eraseFrom span out skip rest
      | _ => eraseFrom span (c :: out) 0 rest

def erase (span : Span) (t : Text) : Text :=
  eraseFrom span [] 0 t

def block : Span := enclosed ['/', '*'] ['*', '/']

def markup : Span := enclosed ['<', '!', '-', '-'] ['-', '-', '>']

def slashes : Span := toLineEnd ['/', '/']

def hash : Span := toLineEnd ['#']

end CommentSweep.Comment

namespace CommentSweep

inductive Strategy where
  | script
  | block
  | markup
  | hash
  | cStyle
  | php
  | passthrough
  deriving DecidableEq, Repr

namespace Strategy

def all : List Strategy :=
  [.script, .block, .markup, .hash, .cStyle, .php, .passthrough]

def name : Strategy → String
  | .script => "js"
  | .block => "css"
  | .markup => "html"
  | .hash => "hash"
  | .cStyle => "c_style"
  | .php => "php"
  | .passthrough => "passthrough"

def ofName? (name : String) : Option Strategy :=
  all.find? (·.name == name)

def label : Strategy → String
  | .script => "strip_js_comments"
  | .block => "strip_css_comments"
  | .markup => "strip_html_comments"
  | .hash => "strip_hash_comments"
  | .cStyle => "strip_c_style_comments"
  | .php => "strip_php_comments"
  | .passthrough => "passthrough"

/-- Line comments go before block comments, so a `//` inside a block ends the block's line. -/
def stripCStyle (source : Text) : Text :=
  Comment.erase Comment.block (Comment.erase Comment.slashes source)

def strip : Strategy → Text → Text
  | .script => Script.strip
  | .block => Comment.erase Comment.block
  | .markup => Comment.erase Comment.markup
  | .hash => Comment.erase Comment.hash
  | .cStyle => stripCStyle
  | .php => fun source => Comment.erase Comment.hash (stripCStyle source)
  | .passthrough => id

/-- The strategy of each known extension, in the order in which they are registered. -/
def byExtension : List (String × Strategy) :=
  [(".js", .script), (".jsx", .script), (".ts", .script), (".tsx", .script), (".mjs", .script),
   (".cjs", .script),
   (".css", .block), (".scss", .block), (".less", .block),
   (".html", .markup), (".vue", .markup), (".svelte", .markup), (".xml", .markup),
   (".svg", .markup), (".md", .markup),
   (".py", .hash), (".rb", .hash), (".yml", .hash), (".yaml", .hash),
   (".java", .cStyle), (".cs", .cStyle), (".go", .cStyle), (".swift", .cStyle), (".kt", .cStyle),
   (".php", .php),
   (".json", .passthrough)]

def forExtension? (extension : Option String) : Option Strategy :=
  byExtension.lookup (Text.lowerString (extension.getD ""))

end Strategy

end CommentSweep
