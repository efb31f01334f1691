import Parlance.Text.Quoted
/-!
# Text as bytes

The encoding UTF-8. `encode` writes a text; `decode` reads bytes back and refuses, with the exact
range and reason, overlong forms, surrogates, code points past U+10FFFF and sequences cut short.
-/
namespace Parlance.Text

/-- Why bytes are no text. -/
inductive Utf8Reason
  | invalidStart
  | invalidContinuation
  | cutShort
  deriving DecidableEq, Repr

/-- The first place where bytes are no text: the first bad sequence and how far it reaches. -/
structure Utf8Fault where
  reason : Utf8Reason
  first : UInt8
  start : Nat
  length : Nat
  deriving DecidableEq, Repr

def Utf8Reason.message : Utf8Reason → String
  | .invalidStart => "invalid start byte"
  | .invalidContinuation => "invalid continuation byte"
  | .cutShort => "unexpected end of data"

def Utf8Fault.message (fault : Utf8Fault) : String :=
  let place :=
    if fault.length = 1 then
      "byte 0x" ++ String.ofList (hex 2 fault.first.toNat) ++ " in position "
        ++ toString fault.start
    else
      "bytes in position " ++ toString fault.start ++ "-"
        ++ toString (fault.start + fault.length - 1)
  "'utf-8' codec can't decode " ++ place ++ ": " ++ fault.reason.message

/-- The bytes of one character. -/
def encodeChar (c : Char) : List UInt8 :=
  let n := c.toNat
  if n < 0x80 then [.ofNat n]
  else if n < 0x800 then [.ofNat (0xC0 + n / 0x40), .ofNat (0x80 + n % 0x40)]
  else if n < 0x10000 then
    [.ofNat (0xE0 + n / 0x1000), .ofNat (0x80 + n / 0x40 % 0x40), .ofNat (0x80 + n % 0x40)]
  else
    [.ofNat (0xF0 + n / 0x40000), .ofNat (0x80 + n / 0x1000 % 0x40),
      .ofNat (0x80 + n / 0x40 % 0x40), .ofNat (0x80 + n % 0x40)]

/-- The bytes of a text. -/
def encode (cs : List Char) : List UInt8 := cs.flatMap encodeChar

/-- How many continuation bytes follow a first byte, what it contributes, and the range in which
the second byte must lie; `none` for a byte that starts no sequence. -/
def leading (b : Nat) : Option (Nat × Nat × Nat × Nat) :=
  if b < 0x80 then some (0, b, 0x80, 0xBF)
  else if b < 0xC2 then none
  else if b < 0xE0 then some (1, b - 0xC0, 0x80, 0xBF)
  else if b < 0xF0 then
    some (2, b - 0xE0, if b = 0xE0 then 0xA0 else 0x80, if b = 0xED then 0x9F else 0xBF)
  else if b < 0xF5 then
    some (3, b - 0xF0, if b = 0xF0 then 0x90 else 0x80, if b = 0xF4 then 0x8F else 0xBF)
  else none

/-- Reads `count` continuation bytes after `value`, the first of them between `low` and `high`. The
answer on failure is the reason and the number of bytes read before it. -/
def continuation : (count value low high : Nat) → List UInt8 →
    Except (Utf8Reason × Nat) (Nat × List UInt8)
  | 0, value, _, _, bytes => .ok (value, bytes)
  | _ + 1, _, _, _, [] => .error (.cutShort, 0)
  | count + 1, value, low, high, b :: bytes =>
    if low ≤ b.toNat ∧ b.toNat ≤ high then
      match continuation count (value * 0x40 + (b.toNat - 0x80)) 0x80 0xBF bytes with
      | .ok r => .ok r
      | .error (reason, n) => .error (reason, n + 1)
    else .error (.invalidContinuation, 0)

theorem continuation_length {count value low high : Nat} {bytes rest : List UInt8} {n : Nat}
    (h : continuation count value low high bytes = .ok (n, rest)) : rest.length ≤ bytes.length := by
  fun_induction continuation count value low high bytes with
  | case1 => simp_all
  | case2 => simp at h
  | case3 count value low high b bytes hb r hr ih =>
    simp only [Except.ok.injEq] at h
    subst h
    have := ih hr
    simp only [List.length_cons]
    omega
  | case4 => simp at h
  | case5 => simp at h

/-- Reads a text from bytes that start at the given position. -/
def decodeFrom (start : Nat) (bytes : List UInt8) : Except Utf8Fault (List Char) :=
  match bytes with
  | [] => .ok []
  | b :: rest =>
    match leading b.toNat with
    | none => .error ⟨.invalidStart, b, start, 1⟩
    | some (count, value, low, high) =>
      match h : continuation count value low high rest with
      | .error (reason, n) => .error ⟨reason, b, start, n + 1⟩
      | .ok (n, after) => do
        let cs ← decodeFrom (start + count + 1) after
        return Char.ofNat n :: cs
  termination_by bytes.length
  decreasing_by
    have := continuation_length h
    simp only [List.length_cons]
    omega

/-- Reads a text from bytes. -/
def decode (bytes : List UInt8) : Except Utf8Fault (List Char) := decodeFrom 0 bytes

end Parlance.Text
