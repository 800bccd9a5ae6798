/-!
Reading bytes as UTF-8. A file that is not UTF-8 is refused at the first byte that cannot be read,
with the bytes that were taken together and the reason.
-/

namespace Lox.Text

/-- Why bytes are not UTF-8. -/
inductive Utf8Fault where
  | startByte
  | continuationByte
  | unexpectedEnd
  deriving DecidableEq, Repr

def Utf8Fault.reason : Utf8Fault → String
  | startByte => "invalid start byte"
  | continuationByte => "invalid continuation byte"
  | unexpectedEnd => "unexpected end of data"

/-- A fault, the position of its first byte, that byte, and how many bytes it spans. -/
structure Utf8Error where
  fault : Utf8Fault
  position : Nat
  byte : UInt8
  span : Nat
  deriving Repr

/-- The text of the fault, as internal errors quote it. -/
def Utf8Error.message (e : Utf8Error) : String :=
  let where_ :=
    if e.span = 1 then "byte 0x" ++ String.ofList ((Nat.toDigits 16 e.byte.toNat).leftpad 2 '0') ++
      " in position " ++ toString e.position
    else "bytes in position " ++ toString e.position ++ "-" ++ toString (e.position + e.span - 1)
  "'utf-8' codec can't decode " ++ where_ ++ ": " ++ e.fault.reason

/-- A tail byte `10xxxxxx`. -/
def isTail (b : UInt8) : Bool := 0x80 ≤ b && b < 0xC0

/-- What stands at the head of the bytes: a character and how many bytes it takes, or a fault and
its span. The second byte has narrower bounds after `E0`, `ED`, `F0` and `F4`, which rules out
overlong forms, surrogates and code points above `10FFFF`. -/
def utf8Head (b : UInt8) (rest : List UInt8) : Except (Utf8Fault × Nat) (Char × Nat) :=
  let bits (x : UInt8) (mask : Nat) : Nat := x.toNat % mask
  if b < 0x80 then .ok (Char.ofNat b.toNat, 1)
  else if b < 0xC2 || 0xF4 < b then .error (.startByte, 1)
  else if b < 0xE0 then
    match rest with
    | [] => .error (.unexpectedEnd, 1)
    | b₁ :: _ =>
      if isTail b₁ then .ok (Char.ofNat (bits b 32 * 64 + bits b₁ 64), 2)
      else .error (.continuationByte, 1)
  else
    let secondOk (b₁ : UInt8) : Bool :=
      isTail b₁ && (b != 0xE0 || 0xA0 ≤ b₁) && (b != 0xED || b₁ < 0xA0) &&
        (b != 0xF0 || 0x90 ≤ b₁) && (b != 0xF4 || b₁ < 0x90)
    match rest with
    | [] => .error (.unexpectedEnd, 1)
    | b₁ :: rest =>
      if !secondOk b₁ then .error (.continuationByte, 1)
      else match rest with
        | [] => .error (.unexpectedEnd, 2)
        | b₂ :: rest =>
          if !isTail b₂ then .error (.continuationByte, 2)
          else if b < 0xF0 then
            .ok (Char.ofNat ((bits b 16 * 64 + bits b₁ 64) * 64 + bits b₂ 64), 3)
          else match rest with
            | [] => .error (.unexpectedEnd, 3)
            | b₃ :: _ =>
              if !isTail b₃ then .error (.continuationByte, 3)
              else
                let high := bits b 8 * 64 + bits b₁ 64
                .ok (Char.ofNat ((high * 64 + bits b₂ 64) * 64 + bits b₃ 64), 4)

/-- The characters of the bytes from `position` on, after those in `done` (last first). -/
def utf8From (position : Nat) (done : List Char) : List UInt8 → Except Utf8Error (List Char)
  | [] => .ok done.reverse
  | b :: rest =>
    match utf8Head b rest with
    | .error (fault, span) => .error ⟨fault, position, b, span⟩
    | .ok (c, width) => utf8From (position + width) (c :: done) (rest.drop (width - 1))
termination_by bytes => bytes.length
decreasing_by simp only [List.length_drop, List.length_cons]; omega

def decodeUtf8 (bytes : ByteArray) : Except Utf8Error String :=
  (utf8From 0 [] bytes.toList).map String.ofList

end Lox.Text
