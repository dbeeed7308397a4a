/-!
# UTF-16: texts as 16-bit units

A scalar value below `0x10000` is one unit; a higher one is a high surrogate followed by a low one, ten bits each. A unit of
the surrogate range that is not half of such a pair is no text (`Utf16.decode?`).
-/

namespace ManagedSymbols.Utf16

/-- A first half of a pair. -/
def isHigh (u : UInt16) : Bool :=
  0xD800 ≤ u && u < 0xDC00

/-- A second half of a pair. -/
def isLow (u : UInt16) : Bool :=
  0xDC00 ≤ u && u < 0xE000

/-- The scalar value of a pair of halves. -/
def joinPair (high low : UInt16) : Char :=
  Char.ofNat (0x10000 + (high.toNat - 0xD800) * 0x400 + (low.toNat - 0xDC00))

/-- The text that a sequence of units spells, if no half of a pair stands alone. It stands for the conversion of a string library,
whose contract is that it fails exactly where a half stands alone (`Utf16.decode?_eq_none_iff`) and otherwise inverts the encoding
(`Utf16.decode?_eq_some_iff`). -/
def decode? : List UInt16 → Option (List Char)
  | [] => some []
  | [u] => if isHigh u || isLow u then none else some [Char.ofNat u.toNat]
  | u :: v :: rest =>
    if isHigh u then
      if isLow v then (decode? rest).map (joinPair u v :: ·) else none
    else if isLow u then none
    else (decode? (v :: rest)).map (Char.ofNat u.toNat :: ·)

/-- The units of a character: itself below `0x10000`, a pair of halves above. -/
def encodeChar (c : Char) : List UInt16 :=
  if c.toNat < 0x10000 then [c.toNat.toUInt16]
  else
    let n := c.toNat - 0x10000
    [(0xD800 + n / 0x400).toUInt16, (0xDC00 + n % 0x400).toUInt16]

/-- The units of a text. -/
def encode (cs : List Char) : List UInt16 :=
  cs.flatMap encodeChar

end ManagedSymbols.Utf16
