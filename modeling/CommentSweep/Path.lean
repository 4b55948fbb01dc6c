import CommentSweep.Text
import CommentSweep.Text.Lower

/-!
File paths. A path is an anchor and a list of components; components that are empty or a single dot
are dropped when a path is read, while `..` is kept because it need not mean the textual parent.
Files are selected by their extension, in lower case and with its dot.
-/

namespace CommentSweep

/-- Where a path starts. Exactly two slashes at the front are a root of their own. -/
inductive Anchor where
  | relative
  | root
  | doubleRoot
  deriving DecidableEq, Repr

def Anchor.text : Anchor → String
  | .relative => ""
  | .root => "/"
  | .doubleRoot => "//"

structure Path where
  anchor : Anchor
  parts : List String
  deriving DecidableEq, Repr

namespace Path

def anchorOf (t : Text) : Anchor :=
  match (t.takeWhile (· == '/')).length with
  | 0 => .relative
  | 2 => .doubleRoot
  | _ => .root

def ofString (s : String) : Path :=
  let t := s.toList
  { anchor := anchorOf t
    parts := ((t.splitOn '/').map String.ofList).filter fun part => part != "" && part != "." }

protected def toString (p : Path) : String :=
  match p.anchor, p.parts with
  | .relative, [] => "."
  | anchor, parts => anchor.text ++ String.intercalate "/" parts

instance : ToString Path := ⟨Path.toString⟩

def child (p : Path) (name : String) : Path :=
  { p with parts := p.parts ++ [name] }

def join (p q : Path) : Path :=
  match q.anchor with
  | .relative => { p with parts := p.parts ++ q.parts }
  | _ => q

def name? (p : Path) : Option String :=
  p.parts.getLast?

/-- The part of a name from its last dot on. A dot at either end of the name starts no suffix. -/
def suffixOf (name : Text) : Text :=
  let tail := (name.reverse.takeWhile (· != '.')).reverse
  let front := name.take (name.length - tail.length)
  if tail.isEmpty || front.length ≤ 1 then [] else '.' :: tail

def suffix (p : Path) : String :=
  match p.name? with
  | some name => String.ofList (suffixOf name.toList)
  | none => ""

/-- The components left when every `..` takes the component before it away. At the front of an
anchored path there is nothing to take. -/
def foldDots (parts : List String) : List String :=
  (parts.foldl (fun kept part => if part == ".." then kept.drop 1 else part :: kept) []).reverse

/-- The components of `q` behind those that it shares with `p`, with a `..` for each further
component of `p`. -/
def climb : (p q : List String) → List String
  | a :: p, b :: q => if a == b then climb p q else (a :: p).map (fun _ => "..") ++ b :: q
  | p, q => p.map (fun _ => "..") ++ q

def relativeTo (p start : Path) : String :=
  match climb (foldDots start.parts) (foldDots p.parts) with
  | [] => "."
  | parts => String.intercalate "/" parts

end Path

end CommentSweep

namespace CommentSweep.Extension

def normalizeOne? (token : String) : Option String :=
  match Text.lower (Text.trim token.toList) with
  | [] => none
  | '.' :: rest => some (String.ofList ('.' :: rest))
  | word => some (String.ofList ('.' :: word))

/-- The set of the extensions asked for, in order. Empty tokens are dropped. -/
def normalize (tokens : List String) : List String :=
  Text.nameSet (tokens.filterMap normalizeOne?)

/-- The extension of a path, in lower case; empty if the path has none. -/
def ofPath (p : Path) : String :=
  Text.lowerString p.suffix

def isAllowed (allowed : List String) (p : Path) : Bool :=
  allowed.contains (ofPath p)

end CommentSweep.Extension
