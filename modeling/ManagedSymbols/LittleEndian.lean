/-!
# Little-endian numbers

A number is stored with its lowest byte first. `LittleEndian.value` reads any number of bytes and `LittleEndian.bytes` writes
the lowest bytes of a number.
-/

namespace ManagedSymbols.LittleEndian

/-- The number that a sequence of bytes stores, lowest byte first. -/
def value : List UInt8 → Nat
  | [] => 0
  | b :: rest => b.toNat + 0x100 * value rest

/-- The lowest `width` bytes of a number, lowest first. -/
def bytes : (width : Nat) → Nat → List UInt8
  | 0, _ => []
  | width + 1, n => UInt8.ofNat n :: bytes width (n / 0x100)

@[simp] theorem length_bytes (width n : Nat) : (bytes width n).length = width := by
  induction width generalizing n with
  | zero => rfl
  | succ width ih => simp [bytes, ih]

end ManagedSymbols.LittleEndian
