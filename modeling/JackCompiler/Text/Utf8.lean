/-!
# Decoding UTF-8

The bytes of a text are read one at a time. After a leading byte the decoder
waits for the continuation bytes of its sequence; the first of them is confined
to a narrower range where a longer range would allow overlong forms, surrogates
or codes past the last character.
-/

namespace JackCompiler.Utf8

/-- Why bytes are not UTF-8: a sequence of `size` bytes that starts at `start`
has no continuation of the next byte, or the bytes end inside the sequence that
starts at `start`. -/
inductive Fault
  | invalid (size start : Nat)
  | incomplete (start : Nat)
deriving DecidableEq, Repr

def Fault.message : Fault → String
  | .invalid size start =>
    "invalid utf-8 sequence of " ++ toString size ++ " bytes from index " ++ toString start
  | .incomplete start =>
    "incomplete utf-8 byte sequence from index " ++ toString start

/-- A sequence that has begun: how many of its bytes have been read, how many
are missing, the range of the next one, and the code so far. -/
structure Partial where
  read : Nat
  missing : Nat
  low : UInt8
  high : UInt8
  code : Nat
deriving DecidableEq, Repr

def begin? (b : UInt8) : Option Partial :=
  let n := b.toNat
  if n < 0x80 then some ⟨1, 0, 0x80, 0xbf, n⟩
  else if n < 0xc2 then none
  else if n < 0xe0 then some ⟨1, 1, 0x80, 0xbf, n - 0xc0⟩
  else if n = 0xe0 then some ⟨1, 2, 0xa0, 0xbf, 0⟩
  else if n = 0xed then some ⟨1, 2, 0x80, 0x9f, 0xd⟩
  else if n < 0xf0 then some ⟨1, 2, 0x80, 0xbf, n - 0xe0⟩
  else if n = 0xf0 then some ⟨1, 3, 0x90, 0xbf, 0⟩
  else if n < 0xf4 then some ⟨1, 3, 0x80, 0xbf, n - 0xf0⟩
  else if n = 0xf4 then some ⟨1, 3, 0x80, 0x8f, 4⟩
  else none

def Partial.extend? (p : Partial) (b : UInt8) : Option Partial :=
  if p.low ≤ b ∧ b ≤ p.high then
    some ⟨p.read + 1, p.missing - 1, 0x80, 0xbf, p.code * 64 + (b.toNat - 0x80)⟩
  else
    none

/-- Decodes the bytes from offset `start` on, `done` being the characters before
it, last one first, and `p` the sequence that starts there. -/
def decodeFrom (done : List Char) (start : Nat) (p : Option Partial) :
    List UInt8 → Except Fault (List Char)
  | [] =>
    match p with
    | none => .ok done.reverse
    | some _ => .error (.incomplete start)
  | b :: bs =>
    match p with
    | none =>
      match begin? b with
      | none => .error (.invalid 1 start)
      | some p =>
        if p.missing = 0 then decodeFrom (Char.ofNat p.code :: done) (start + p.read) none bs
        else decodeFrom done start (some p) bs
    | some p =>
      match p.extend? b with
      | none => .error (.invalid p.read start)
      | some p =>
        if p.missing = 0 then decodeFrom (Char.ofNat p.code :: done) (start + p.read) none bs
        else decodeFrom done start (some p) bs

def decode (bytes : List UInt8) : Except Fault (List Char) :=
  decodeFrom [] 0 none bytes

end JackCompiler.Utf8
