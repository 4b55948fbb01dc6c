import CommentSweep.Text.Quoted

/-!
UTF-8. Decoding stops at the first ill-formed sequence and says where it lies and what is wrong.
-/

namespace CommentSweep.Text.Utf8

inductive Flaw where
  | badStart
  | badContinuation
  | truncated
  deriving DecidableEq, Repr

/-- An ill-formed sequence of `length` bytes at offset `start`, the first of them `lead`. -/
structure Fault where
  flaw : Flaw
  start : Nat
  length : Nat
  lead : UInt8
  deriving DecidableEq, Repr

def Flaw.text : Flaw → String
  | .badStart => "invalid start byte"
  | .badContinuation => "invalid continuation byte"
  | .truncated => "unexpected end of data"

def Fault.message (fault : Fault) : String :=
  "\x27utf-8\x27 codec can\x27t decode " ++
    (if fault.length == 1 then
      "byte 0x" ++ String.ofList (Quoted.hex 2 fault.lead.toNat) ++ " in position " ++
        toString fault.start
    else
      "bytes in position " ++ toString fault.start ++ "-" ++
        toString (fault.start + fault.length - 1)) ++
    ": " ++ fault.flaw.text

/-- How many continuation bytes follow a lead byte, and the range of the first of them. -/
def continuation? (lead : Nat) : Option (Nat × Nat × Nat) :=
  if 0xC2 ≤ lead && lead ≤ 0xDF then some (1, 0x80, 0xBF)
  else if lead == 0xE0 then some (2, 0xA0, 0xBF)
  else if lead == 0xED then some (2, 0x80, 0x9F)
  else if 0xE1 ≤ lead && lead ≤ 0xEF then some (2, 0x80, 0xBF)
  else if lead == 0xF0 then some (3, 0x90, 0xBF)
  else if lead == 0xF4 then some (3, 0x80, 0x8F)
  else if 0xF1 ≤ lead && lead ≤ 0xF3 then some (3, 0x80, 0xBF)
  else none

def leadBits (lead : Nat) : Nat :=
  if lead < 0xE0 then lead % 0x20 else if lead < 0xF0 then lead % 0x10 else lead % 0x8

structure Pending where
  lead : UInt8
  missing : Nat
  /-- Range of the next of them. -/
  low : Nat
  high : Nat
  code : Nat
  length : Nat

/-- Reads bytes from offset `start` on, which is where the pending sequence begins if there is one;
`out` holds the characters before it, last one first. -/
def decodeFrom (start : Nat) (out : Text) : Option Pending → List UInt8 → Except Fault Text
  | none, [] => .ok out.reverse
  | some p, [] => .error ⟨.truncated, start, p.length, p.lead⟩
  | none, b :: rest =>
      if b.toNat < 0x80 then
        decodeFrom (start + 1) (Char.ofNat b.toNat :: out) none rest
      else
        match continuation? b.toNat with
        | none => .error ⟨.badStart, start, 1, b⟩
        | some (missing, low, high) =>
            decodeFrom start out (some ⟨b, missing, low, high, leadBits b.toNat, 1⟩) rest
  | some p, b :: rest =>
      if b.toNat < p.low || p.high < b.toNat then
        .error ⟨.badContinuation, start, p.length, p.lead⟩
      else
        let code := p.code * 0x40 + b.toNat % 0x40
        if p.missing ≤ 1 then
          decodeFrom (start + p.length + 1) (Char.ofNat code :: out) none rest
        else
          decodeFrom start out (some ⟨p.lead, p.missing - 1, 0x80, 0xBF, code, p.length + 1⟩) rest

def decode (bytes : List UInt8) : Except Fault Text :=
  decodeFrom 0 [] none bytes

def encode (t : Text) : List UInt8 :=
  t.flatMap String.utf8EncodeChar

end CommentSweep.Text.Utf8
