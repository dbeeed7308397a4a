import Mathlib.Algebra.Group.Nat.Defs
import ManagedSymbols.LittleEndian

/-!
# Numbers are read back as they were written

A number that fits its width is read back (`value_bytes`), and bytes are written back as they were (`bytes_value`).
-/

namespace ManagedSymbols.LittleEndian

/-- A number that fits its width is read back. -/
theorem value_bytes {width n : Nat} (h : n < 0x100 ^ width) : value (bytes width n) = n := by
  induction width generalizing n with
  | zero => simp_all [bytes, value]
  | succ width ih =>
    have hn : n / 0x100 < 0x100 ^ width := by
      rw [Nat.div_lt_iff_lt_mul (by decide)]
      simpa [Nat.pow_succ] using h
    simp only [bytes, value, ih hn, UInt8.toNat_ofNat']
    omega

/-- Bytes store a number that fits their count. -/
theorem value_lt (bs : List UInt8) : value bs < 0x100 ^ bs.length := by
  induction bs with
  | nil => simp [value]
  | cons b rest ih =>
    have hb := b.toNat_lt
    simp only [value, List.length_cons, Nat.pow_succ]
    omega

/-- Bytes are written back as they were read. -/
theorem bytes_value (bs : List UInt8) : bytes bs.length (value bs) = bs := by
  induction bs with
  | nil => rfl
  | cons b rest ih =>
    have hb := b.toNat_lt
    have hd : (b.toNat + 0x100 * value rest) / 0x100 = value rest := by omega
    have hm : UInt8.ofNat (b.toNat + 0x100 * value rest) = b := by
      apply UInt8.toNat_inj.mp
      simp only [UInt8.toNat_ofNat']
      omega
    simp [bytes, value, hd, hm, ih]

end ManagedSymbols.LittleEndian
