/-!
# Hexadecimal text: lower-case digits, as few as the number needs or padded to a width

Positions, tokens, record kinds and identifiers are shown in base sixteen. A number is shown either with the fewest digits
(`hex`, zero is one digit) or with at least a given number of them (`hexPadded`, zeros in front).
-/

namespace ManagedSymbols

/-- The fewest lower-case hexadecimal digits of a number; zero has one digit. -/
def hexDigits (n : Nat) : List Char :=
  Nat.toDigits 16 n

/-- A number in hexadecimal after the mark `0x`, with the fewest digits. -/
def hex (n : Nat) : String :=
  "0x" ++ String.ofList (hexDigits n)

/-- The hexadecimal digits of a number, with zeros in front up to a width; a number that needs more digits keeps them. -/
def hexPadded (width n : Nat) : String :=
  let digits := hexDigits n
  String.ofList (List.replicate (width - digits.length) '0' ++ digits)

/-- The bytes of a sequence as two hexadecimal digits each, in order. -/
def hexBytes (bytes : List UInt8) : String :=
  String.join (bytes.map fun b => hexPadded 2 b.toNat)

end ManagedSymbols
