import Kotoba.Text.Decimal
import Kotoba.Text.Escaped

/-!
Text from bytes in UTF-8, with the first stretch of bytes that is none, and text with all line ends
made alike.
-/

namespace Kotoba

inductive Malformation where
  | invalidStart
  | invalidContinuation
  | truncated
deriving DecidableEq, Repr

structure Undecodable where
  first : UInt8
  position : Nat
  length : Nat
  reason : Malformation
deriving DecidableEq, Repr

namespace Undecodable

def reasonText : Malformation → Text
  | .invalidStart => "invalid start byte".toList
  | .invalidContinuation => "invalid continuation byte".toList
  | .truncated => "unexpected end of data".toList

def message (u : Undecodable) : Text :=
  "'utf-8' codec can't decode ".toList ++
    (if u.length = 1 then
      "byte 0x".toList ++ Text.hex 2 u.first.toNat ++ " in position ".toList ++
        Text.ofNat u.position
    else
      "bytes in position ".toList ++ Text.ofNat u.position ++
        '-' :: Text.ofNat (u.position + u.length - 1)) ++
    ": ".toList ++ reasonText u.reason

end Undecodable

namespace Text

/-- How many bytes follow a start byte, the bounds of the first of them, and the bits that the
start byte gives. -/
def startByte? (b : Nat) : Option (Nat × Nat × Nat × Nat) :=
  if b < 0x80 then some (0, 0x80, 0xBF, b)
  else if b < 0xC2 then none
  else if b < 0xE0 then some (1, 0x80, 0xBF, b - 0xC0)
  else if b < 0xF0 then
    some (2, if b = 0xE0 then 0xA0 else 0x80, if b = 0xED then 0x9F else 0xBF, b - 0xE0)
  else if b < 0xF5 then
    some (3, if b = 0xF0 then 0x90 else 0x80, if b = 0xF4 then 0x8F else 0xBF, b - 0xF0)
  else none

/-- Reads continuation bytes into a code point, or says how many bytes go wrong together. -/
def continued (low high code taken : Nat) : Nat → List UInt8 → Except (Malformation × Nat) Nat
  | 0, _ => .ok code
  | _ + 1, [] => .error (.truncated, taken)
  | n + 1, b :: bs =>
    if low ≤ b.toNat ∧ b.toNat ≤ high then
      continued 0x80 0xBF (code * 64 + (b.toNat - 0x80)) (taken + 1) n bs
    else .error (.invalidContinuation, taken)

def decodeFrom (position : Nat) (bytes : List UInt8) : Except Undecodable Text :=
  match bytes with
  | [] => .ok []
  | b :: bs =>
    match startByte? b.toNat with
    | none => .error ⟨b, position, 1, .invalidStart⟩
    | some (count, low, high, code) =>
      match continued low high code 1 count bs with
      | .error (reason, length) => .error ⟨b, position, length, reason⟩
      | .ok code =>
        (decodeFrom (position + count + 1) (bs.drop count)).map (Char.ofNat code :: ·)
termination_by bytes.length
decreasing_by simp only [List.length_drop, List.length_cons]; omega

def ofUtf8 (bytes : List UInt8) : Except Undecodable Text := decodeFrom 0 bytes

/-- Text in which every line ends with a newline, however it ended before. -/
def unifyLineEnds : Text → Text
  | [] => []
  | '\r' :: '\n' :: t => '\n' :: unifyLineEnds t
  | '\r' :: t => '\n' :: unifyLineEnds t
  | c :: t => c :: unifyLineEnds t

def utf8Size (t : Text) : Nat := t.foldl (fun n c ↦ n + c.utf8Size) 0

end Text

end Kotoba
