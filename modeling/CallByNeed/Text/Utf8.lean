import CallByNeed.Text.Quoted

/-!
# Reading UTF-8

`decode` reads bytes as text and refuses those that are not UTF-8.  A refusal
says which bytes are at fault: the first byte of the character that cannot be
read, with the bytes after it that could still have continued it.
-/

namespace CallByNeed.Text

/-- What is wrong with a sequence of bytes. -/
inductive Utf8Reason where
  | invalidStart
  | invalidContinuation
  | unexpectedEnd
deriving DecidableEq, Repr

def Utf8Reason.text : Utf8Reason → String
  | .invalidStart => "invalid start byte"
  | .invalidContinuation => "invalid continuation byte"
  | .unexpectedEnd => "unexpected end of data"

/-- Bytes that cannot be read: those from `start` up to `stop`, beginning with
`first`. -/
structure Utf8Fault where
  start : Nat
  stop : Nat
  first : UInt8
  reason : Utf8Reason
deriving DecidableEq, Repr

def Utf8Fault.text (fault : Utf8Fault) : String :=
  let place :=
    if fault.stop = fault.start + 1 then
      "byte 0x" ++ hexadecimal 2 fault.first.toNat
        ++ " in position " ++ toString fault.start
    else
      "bytes in position " ++ toString fault.start
        ++ "-" ++ toString (fault.stop - 1)
  "'utf-8' codec can't decode " ++ place ++ ": " ++ fault.reason.text

/-- A character of which some bytes are still to come.  The next one has to
lie between `low` and `high`. -/
structure Utf8Partial where
  start : Nat
  first : UInt8
  missing : Nat
  low : UInt8
  high : UInt8
  code : Nat
deriving DecidableEq, Repr

/-- What the first byte of a longer character asks of the bytes after it.  The
bounds on the second byte exclude overlong forms, surrogates and code points
past the last one. -/
def Utf8Partial.ofFirst (position : Nat) (byte : UInt8) : Option Utf8Partial :=
  if byte < 0xC2 then none
  else if byte < 0xE0 then
    some ⟨position, byte, 1, 0x80, 0xBF, byte.toNat - 0xC0⟩
  else if byte < 0xF0 then
    some ⟨position, byte, 2, if byte = 0xE0 then 0xA0 else 0x80,
      if byte = 0xED then 0x9F else 0xBF, byte.toNat - 0xE0⟩
  else if byte < 0xF5 then
    some ⟨position, byte, 3, if byte = 0xF0 then 0x90 else 0x80,
      if byte = 0xF4 then 0x8F else 0xBF, byte.toNat - 0xF0⟩
  else none

/-- The characters of the bytes from the given position on, where `open?` is
the character that the bytes before them have begun. -/
def decodeFrom (position : Nat) (open? : Option Utf8Partial) :
    List UInt8 → Except Utf8Fault (List Char)
  | [] =>
    match open? with
    | none => .ok []
    | some begun => .error ⟨begun.start, position, begun.first, .unexpectedEnd⟩
  | byte :: bytes =>
    match open? with
    | none =>
      if byte < 0x80 then
        (decodeFrom (position + 1) none bytes).map (Char.ofNat byte.toNat :: ·)
      else
        match Utf8Partial.ofFirst position byte with
        | none => .error ⟨position, position + 1, byte, .invalidStart⟩
        | some begun => decodeFrom (position + 1) (some begun) bytes
    | some begun =>
      if begun.low ≤ byte && byte ≤ begun.high then
        let code := begun.code * 0x40 + (byte.toNat - 0x80)
        if begun.missing = 1 then
          (decodeFrom (position + 1) none bytes).map (Char.ofNat code :: ·)
        else
          decodeFrom (position + 1)
            (some { begun with
              missing := begun.missing - 1, low := 0x80, high := 0xBF, code })
            bytes
      else .error ⟨begun.start, position, begun.first, .invalidContinuation⟩

/-- The text that the bytes of a file stand for. -/
def decode (bytes : List UInt8) : Except Utf8Fault (List Char) :=
  decodeFrom 0 none bytes

end CallByNeed.Text
