import CommentSweep.Decimal

/-!
JSON values and their text. Integers and reals are told apart, and the members of an object keep
their order.
-/

namespace CommentSweep

inductive Json where
  | null
  | bool (value : Bool)
  | int (value : Int)
  | real (value : Float)
  | string (value : String)
  | array (items : List Json)
  | object (members : List (String × Json))

namespace Json

instance : Inhabited Json := ⟨.null⟩

/-- The text of a finite number above zero. It is positional from `1e-4` up to `1e16` and keeps at
least one decimal place; elsewhere the exponent has a sign and at least two digits. -/
def magnitudeText (d : Decimal) : String :=
  let digits := Nat.toDigits 10 d.digits
  let point : Int := digits.length + d.exponent
  if -4 < point && point ≤ 16 then
    if point ≤ 0 then
      String.ofList ('0' :: '.' :: List.replicate (-point).toNat '0' ++ digits)
    else
      let whole := digits.take point.toNat
      let zeros := List.replicate (point.toNat - digits.length) '0'
      let places := digits.drop point.toNat
      String.ofList (whole ++ zeros ++ '.' :: (if places.isEmpty then ['0'] else places))
  else
    let exponent := point - 1
    let size := toString exponent.natAbs
    let mantissa :=
      match digits with
      | first :: second :: rest => first :: '.' :: second :: rest
      | short => short
    String.ofList mantissa ++ (if exponent < 0 then "e-" else "e+") ++
      (if size.length < 2 then "0" else "") ++ size

def realTextWith (infinity notANumber : String) (x : Float) : String :=
  if x.isNaN then notANumber
  else
    (if Binary.isNegative x then "-" else "") ++
      match Binary.ofFloat? x with
      | none => infinity
      | some b => if b.significand == 0 then "0.0" else magnitudeText (.ofBinary b)

def realText (x : Float) : String :=
  realTextWith "Infinity" "NaN" x

def escapeChar (c : Char) : List Char :=
  if c == '\x22' || c == '\\' then ['\\', c]
  else if c == '\n' then ['\\', 'n']
  else if c == '\r' then ['\\', 'r']
  else if c == '\t' then ['\\', 't']
  else if c == '\x0c' then ['\\', 'f']
  else if c == '\x08' then ['\\', 'b']
  else if c.toNat < 0x20 then
    ['\\', 'u', '0', '0', Nat.digitChar (c.toNat / 16), Nat.digitChar (c.toNat % 16)]
  else [c]

def stringText (s : String) : String :=
  "\"" ++ String.ofList (s.toList.flatMap escapeChar) ++ "\""

inductive Layout where
  | inline
  /-- Each part on a line of its own, `width` spaces further in than the brackets. -/
  | indented (width : Nat)
  deriving DecidableEq, Repr

def Layout.lineBreak (layout : Layout) (depth : Nat) : String :=
  match layout with
  | .inline => ""
  | .indented width => "\n" ++ String.ofList (List.replicate (width * depth) ' ')

def Layout.separator (layout : Layout) (depth : Nat) : String :=
  match layout with
  | .inline => ", "
  | .indented _ => "," ++ layout.lineBreak depth

def Layout.enclose (layout : Layout) (depth : Nat) (opening closing : String)
    (parts : List String) : String :=
  if parts.isEmpty then opening ++ closing
  else
    opening ++ layout.lineBreak (depth + 1) ++
      String.intercalate (layout.separator (depth + 1)) parts ++ layout.lineBreak depth ++ closing

mutual

def textAt (layout : Layout) (depth : Nat) : Json → String
  | .null => "null"
  | .bool value => if value then "true" else "false"
  | .int value => toString value
  | .real value => realText value
  | .string value => stringText value
  | .array items => layout.enclose depth "[" "]" (itemTexts layout (depth + 1) items)
  | .object members => layout.enclose depth "\x7b" "\x7d" (memberTexts layout (depth + 1) members)

def itemTexts (layout : Layout) (depth : Nat) : List Json → List String
  | [] => []
  | item :: rest => textAt layout depth item :: itemTexts layout depth rest

def memberTexts (layout : Layout) (depth : Nat) : List (String × Json) → List String
  | [] => []
  | (key, value) :: rest =>
      (stringText key ++ ": " ++ textAt layout depth value) :: memberTexts layout depth rest

end

def text (value : Json) (layout : Layout := .inline) : String :=
  value.textAt layout 0

end Json

end CommentSweep
