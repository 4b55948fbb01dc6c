import CommentSweep.Json
import CommentSweep.Text.Quoted

/-!
Message templates. A directive starts with a percent sign and takes the next argument: `s` stands
for any value and `d` for a whole number, in a field of a given width if there is one.
-/

namespace CommentSweep.Log.Template

inductive Error where
  | tooFew
  | tooMany
  | notANumber (kind : String)
  | incomplete
  | unknownDirective (c : Char) (index : Nat)
  | infinite
  | undefined
  deriving DecidableEq, Repr

def Error.message : Error → String
  | .tooFew => "not enough arguments for format string"
  | .tooMany => "not all arguments converted during string formatting"
  | .notANumber kind => "%d format: a real number is required, not " ++ kind
  | .incomplete => "incomplete format"
  | .unknownDirective c index =>
      let shown := if 31 ≤ c.toNat && c.toNat ≤ 126 then c else '?'
      "unsupported format character \x27" ++ String.ofList [shown] ++ "\x27 (0x" ++
        String.ofList (Nat.toDigits 16 c.toNat) ++ ") at index " ++ toString index
  | .infinite => "cannot convert float infinity to integer"
  | .undefined => "cannot convert float NaN to integer"

mutual

def shown : Json → String
  | .null => "None"
  | .bool value => if value then "True" else "False"
  | .int value => toString value
  | .real value => Json.realTextWith "inf" "nan" value
  | .string value => Text.quote value
  | .array items => "[" ++ String.intercalate ", " (shownItems items) ++ "]"
  | .object members => "\x7b" ++ String.intercalate ", " (shownMembers members) ++ "\x7d"

def shownItems : List Json → List String
  | [] => []
  | item :: rest => shown item :: shownItems rest

def shownMembers : List (String × Json) → List String
  | [] => []
  | (key, value) :: rest => (Text.quote key ++ ": " ++ shown value) :: shownMembers rest

end

/-- A value on its own: a text stands without quotes. -/
def plain : Json → String
  | .string value => value
  | value => shown value

def number : Json → Except Error Int
  | .int n => .ok n
  | .bool value => .ok (if value then 1 else 0)
  | .real x =>
      match Binary.ofFloat? x with
      | some b => .ok b.truncate
      | none => .error (if x.isNaN then .undefined else .infinite)
  | .null => .error (.notANumber "NoneType")
  | .string _ => .error (.notANumber "str")
  | .array _ => .error (.notANumber "list")
  | .object _ => .error (.notANumber "dict")

structure Field where
  left : Bool := false
  zeros : Bool := false
  width : Nat := 0
  deriving DecidableEq, Repr

def Field.pad (f : Field) (t : Text) : Text :=
  let fill := List.replicate (f.width - t.length) ' '
  if f.left then t ++ fill else fill ++ t

/-- Fills a field with a number. Zeros go between its sign and its digits. -/
def Field.padNumber (f : Field) (n : Int) : Text :=
  let digits := Nat.toDigits 10 n.natAbs
  let sign := if n < 0 then ['-'] else []
  if f.zeros && !f.left then
    sign ++ List.replicate (f.width - sign.length - digits.length) '0' ++ digits
  else
    f.pad (sign ++ digits)

inductive Stage where
  | text
  | flags (field : Field)
  | width (field : Field)

/-- Fills one directive with the first of the arguments. A percent sign right behind another one
stands for itself. -/
def directive (f : Field) (c : Char) (index : Nat) :
    List Json → Except Error (Text × List Json)
  | args =>
      if c == '%' && f == {} then .ok (['%'], args)
      else
        match args with
        | [] => .error .tooFew
        | arg :: rest =>
            if c == 's' then .ok (f.pad (plain arg).toList, rest)
            else if c == 'd' then (number arg).map fun n => (f.padNumber n, rest)
            else .error (.unknownDirective c index)

/-- Fills a template from position `index` on. Arguments may be left over only if they are `spare`.
-/
def fillFrom (spare : Bool) (index : Nat) : Stage → Text → List Json → Except Error Text
  | .text, [], args => if args.isEmpty || spare then .ok [] else .error .tooMany
  | .text, c :: rest, args =>
      if c == '%' then fillFrom spare (index + 1) (.flags {}) rest args
      else (fillFrom spare (index + 1) .text rest args).map (c :: ·)
  | .flags _, [], _ => .error .incomplete
  | .flags f, c :: rest, args =>
      if c == '-' then fillFrom spare (index + 1) (.flags { f with left := true }) rest args
      else if c == '0' then fillFrom spare (index + 1) (.flags { f with zeros := true }) rest args
      else if c.isDigit then
        fillFrom spare (index + 1) (.width { f with width := c.toNat - '0'.toNat }) rest args
      else do
        let (text, args) ← directive f c index args
        return text ++ (← fillFrom spare (index + 1) .text rest args)
  | .width _, [], _ => .error .incomplete
  | .width f, c :: rest, args =>
      if c.isDigit then
        let width := f.width * 10 + (c.toNat - '0'.toNat)
        fillFrom spare (index + 1) (.width { f with width }) rest args
      else do
        let (text, args) ← directive f c index args
        return text ++ (← fillFrom spare (index + 1) .text rest args)

/-- A single object with members is a source of values, which need not all be used. -/
def isSource : List Json → Bool
  | [.object (_ :: _)] => true
  | _ => false

/-- The message of a template. Without arguments it is the template itself. -/
def fill (template : String) (args : List Json) : Except Error String :=
  if args.isEmpty then .ok template
  else (fillFrom (isSource args) 0 .text template.toList args).map String.ofList

end CommentSweep.Log.Template
