import CommentSweep.Proofs.Script.Trace

/-!
Tokens of a script source. Each rule says how a token starts and how far it reaches, as a search in
the text that is left, without any state that is carried from one character to the next. The only
thing a token knows of the text before it is the last character there that is not blank.
-/

namespace CommentSweep

def Text.through (word : Text) : Text → Nat
  | [] => 0
  | c :: rest =>
      if word.isPrefixOf (c :: rest) then word.length else Text.through word rest + 1

namespace Script

/-- How many characters a quoted text has behind its opening quote: up to the first quote that is
not escaped, or to the end. -/
def quotedLength (quote : Quote) : Text → Nat
  | [] => 0
  | '\\' :: _ :: rest => quotedLength quote rest + 2
  | c :: rest => if c == quote.char then 1 else quotedLength quote rest + 1

/-- How many characters a regex literal has behind its opening slash: up to the first slash that is
neither escaped nor in a class, or to the end. Classes do not nest. -/
def regexLength (inClass : Bool) : Text → Nat
  | [] => 0
  | '\\' :: _ :: rest => regexLength inClass rest + 2
  | '[' :: rest => regexLength true rest + 1
  | ']' :: rest => regexLength false rest + 1
  | c :: rest => if c == '/' && !inClass then 1 else regexLength inClass rest + 1

def lineEnd (body : Text) : Text :=
  if ['\r', '\n'].isSuffixOf body then ['\r', '\n']
  else if ['\n'].isSuffixOf body then ['\n']
  else []

inductive Token.Kind where
  | escape
  | doc
  | block
  | line
  | regex
  | quoted (quote : Quote)
  | plain
  deriving DecidableEq, Repr

structure Token where
  kind : Token.Kind
  text : Text
  deriving DecidableEq, Repr

namespace Token

/-- The kind of the token at the head of a text, where `prev` is the last character before it that
is not blank. The first rule that applies counts. -/
def Kind.ofHead (prev : Option Char) (t : Text) : Kind :=
  if ['\\'].isPrefixOf t then .escape
  else if ['/', '*', '*'].isPrefixOf t && t[3]? != some '/' then .doc
  else if ['/', '*'].isPrefixOf t then .block
  else if ['/', '/'].isPrefixOf t then .line
  else if ['/'].isPrefixOf t && opensRegex prev then .regex
  else
    match t.head?.bind Quote.ofChar? with
    | some quote => .quoted quote
    | none => .plain

def Kind.length (kind : Kind) (t : Text) : Nat :=
  match kind with
  | .escape => 2
  | .doc => Text.through ['*', '/'] (t.drop 3) + 3
  | .block => Text.through ['*', '/'] (t.drop 2) + 2
  | .line => Text.through ['\n'] (t.drop 2) + 2
  | .regex => regexLength false (t.drop 1) + 1
  | .quoted quote => quotedLength quote (t.drop 1) + 1
  | .plain => 1

theorem Kind.length_pos (kind : Kind) (t : Text) : 0 < kind.length t := by
  cases kind <;> simp [Kind.length]

def kept (token : Token) : Text :=
  match token.kind with
  | .block => []
  | .line => lineEnd (token.text.drop 2)
  | _ => token.text

def isOpaque (token : Token) : Bool :=
  match token.kind with
  | .doc | .regex | .quoted _ => true
  | _ => false

def atHead (prev : Option Char) (t : Text) : Token :=
  ⟨Kind.ofHead prev t, t.take ((Kind.ofHead prev t).length t)⟩

def behindHead (prev : Option Char) (t : Text) : Text :=
  t.drop ((Kind.ofHead prev t).length t)

@[simp] theorem atHead_append_behindHead (prev : Option Char) (t : Text) :
    (atHead prev t).text ++ behindHead prev t = t :=
  List.take_append_drop _ t

theorem length_behindHead_lt (prev : Option Char) (c : Char) (tail : Text) :
    (behindHead prev (c :: tail)).length < (c :: tail).length := by
  have hpos := Kind.length_pos (Kind.ofHead prev (c :: tail)) (c :: tail)
  rw [behindHead, List.length_drop, List.length_cons]
  omega

end Token

/-- The tokens of `rest`, where `before` is the source up to there. -/
def tokensFrom (before rest : Text) : List Token :=
  match rest with
  | [] => []
  | c :: tail =>
      Token.atHead before.lastVisible (c :: tail) ::
        tokensFrom (before ++ (Token.atHead before.lastVisible (c :: tail)).text)
          (Token.behindHead before.lastVisible (c :: tail))
termination_by rest.length
decreasing_by exact Token.length_behindHead_lt before.lastVisible c tail

def tokens (source : Text) : List Token :=
  tokensFrom [] source

end Script

end CommentSweep
