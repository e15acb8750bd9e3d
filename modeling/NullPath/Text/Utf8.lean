/-!
# Bytes as text

Bytes are read as UTF-8.  A byte that starts no well-formed sequence is read alone, as the
replacement character, and reading goes on with the next byte.

* `leading`: the first character of a byte sequence, and how many more bytes it takes up.
* `decode`: the characters of a byte sequence.
-/

namespace NullPath.Text

/-- The character that stands for bytes that are not text. -/
def replacement : Char :=
  '�'

/-- Whether a byte continues a sequence. -/
def isContinuation (b : Nat) : Bool :=
  0x80 ≤ b && b ≤ 0xBF

/-- The first character of a byte sequence, and the number of bytes that it takes up after the
first.  The bounds on the second byte exclude overlong forms, surrogates, and numbers beyond the
last code point. -/
def leading (b : Nat) (rest : List Nat) : Char × Nat :=
  if b < 0x80 then (Char.ofNat b, 0)
  else
    match rest with
    | c :: rest =>
      if 0xC2 ≤ b && b ≤ 0xDF && isContinuation c then
        (Char.ofNat ((b - 0xC0) * 0x40 + (c - 0x80)), 1)
      else
        match rest with
        | d :: rest =>
          if 0xE0 ≤ b && b ≤ 0xEF && isContinuation c && isContinuation d &&
              !(b == 0xE0 && c < 0xA0) && !(b == 0xED && 0x9F < c) then
            (Char.ofNat ((b - 0xE0) * 0x1000 + (c - 0x80) * 0x40 + (d - 0x80)), 2)
          else
            match rest with
            | e :: _ =>
              if 0xF0 ≤ b && b ≤ 0xF4 && isContinuation c && isContinuation d &&
                  isContinuation e && !(b == 0xF0 && c < 0x90) && !(b == 0xF4 && 0x8F < c) then
                (Char.ofNat ((b - 0xF0) * 0x40000 + (c - 0x80) * 0x1000 + (d - 0x80) * 0x40 +
                  (e - 0x80)), 3)
              else (replacement, 0)
            | [] => (replacement, 0)
        | [] => (replacement, 0)
    | [] => (replacement, 0)

/-- The characters of a byte sequence after a number of bytes that belong to a character
already read. -/
def decodeFrom : Nat → List Nat → List Char
  | _, [] => []
  | skipped + 1, _ :: bs => decodeFrom skipped bs
  | 0, b :: bs => (leading b bs).1 :: decodeFrom (leading b bs).2 bs

/-- The characters of a byte sequence. -/
def decode (bs : List Nat) : List Char :=
  decodeFrom 0 bs

end NullPath.Text
