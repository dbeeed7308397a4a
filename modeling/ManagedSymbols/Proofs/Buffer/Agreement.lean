import ManagedSymbols.Proofs.Reader.Held
import ManagedSymbols.Proofs.Reader.Success

/-!
# Buffers that agree on a range

Two buffers agree on a range of positions if each byte there is the same in both (`Buffer.AgreeOn`). They may hold anything
elsewhere, and they need not be equally long. What is told from the bytes of the range alone is the same for both: slices, what is
held there, words, the buffer cut at the end of the range, and, where the range reaches to the end of both, the next zero byte.
-/

namespace ManagedSymbols.Buffer

/-- Two buffers hold the same bytes from one position up to another. -/
def AgreeOn (b b' : Buffer) (lo hi : Nat) : Prop :=
  ∀ i < hi, lo ≤ i → b.bytes[i]? = b'.bytes[i]?

instance (b b' : Buffer) (lo hi : Nat) : Decidable (b.AgreeOn b' lo hi) :=
  inferInstanceAs (Decidable (∀ i < hi, lo ≤ i → b.bytes[i]? = b'.bytes[i]?))

/-- The bytes of a part of a buffer, place by place. -/
theorem getElem?_extract (b : Buffer) (start stop i : Nat) :
    (b.bytes.extract start stop)[i]? = if start + i < stop then b.bytes[start + i]? else none := by
  rw [Array.getElem?_extract]
  split
  · next h => rw [if_pos (by omega)]
  · next h =>
    split
    · rw [Array.getElem?_eq_none (by omega)]
    · rfl

namespace AgreeOn

variable {b b' : Buffer} {lo hi p q : Nat}

theorem mono (agree : b.AgreeOn b' lo hi) (hlo : lo ≤ p) (hhi : q ≤ hi) : b.AgreeOn b' p q :=
  fun i hq hp => agree i (Nat.lt_of_lt_of_le hq hhi) (Nat.le_trans hlo hp)

theorem extract_eq (agree : b.AgreeOn b' lo hi) (hlo : lo ≤ p) (hhi : q ≤ hi) :
    b.bytes.extract p q = b'.bytes.extract p q := by
  apply Array.ext_getElem?
  intro i
  rw [getElem?_extract, getElem?_extract]
  split
  · exact agree (p + i) (by omega) (by omega)
  · rfl

theorem slice_eq (agree : b.AgreeOn b' lo hi) (hlo : lo ≤ p) (hhi : q ≤ hi) : b.slice p q = b'.slice p q :=
  congrArg Array.toList (agree.extract_eq hlo hhi)

theorem word8_eq (agree : b.AgreeOn b' lo hi) (hlo : lo ≤ p) (hhi : p + 1 ≤ hi) : b.word8 p = b'.word8 p := by
  rw [word8, word8, agree.slice_eq hlo hhi]

theorem word32_eq (agree : b.AgreeOn b' lo hi) (hlo : lo ≤ p) (hhi : p + 4 ≤ hi) : b.word32 p = b'.word32 p := by
  rw [word32, word32, agree.slice_eq hlo hhi]

/-- Buffers that agree up to a position are the same when they are cut there. -/
theorem take_eq (agree : b.AgreeOn b' 0 hi) : b.take hi = b'.take hi := by
  have hbytes := agree.extract_eq (Nat.zero_le 0) (Nat.le_refl hi)
  simp only [take, hbytes]

/-- A buffer agrees with itself cut at the end of the range. -/
theorem take (b : Buffer) (lo hi : Nat) : b.AgreeOn (b.take hi) lo hi := by
  intro i hi _
  simp only [Buffer.take]
  rw [getElem?_extract, if_pos (by omega), Nat.zero_add]

/-- Buffers that agree on a range agree there when both are cut somewhere. -/
theorem take_take (agree : b.AgreeOn b' lo hi) (stop : Nat) : (b.take stop).AgreeOn (b'.take stop) lo hi := by
  intro i hi hlo
  simp only [Buffer.take]
  rw [getElem?_extract, getElem?_extract, Nat.zero_add]
  split
  · exact agree i hi hlo
  · rfl

/-- A byte of the range that one buffer has is the same in the other one. -/
theorem exists_getElem (agree : b.AgreeOn b' lo hi) (hlo : lo ≤ p) (hhi : p < hi) (hp : p < b.bytes.size) :
    ∃ hp' : p < b'.bytes.size, b'.bytes[p] = b.bytes[p] := by
  have hbyte := agree p hhi hlo
  rw [Array.getElem?_eq_getElem hp] at hbyte
  exact Array.getElem?_eq_some_iff.mp hbyte.symm

/-- A buffer that agrees from the start on with one that reaches to the end of the range reaches there too. -/
theorem le_size (agree : b.AgreeOn b' 0 hi) (h : hi ≤ b.size) : hi ≤ b'.size := by
  rcases Nat.eq_zero_or_pos hi with rfl | hpos
  · exact Nat.zero_le _
  · have hlast : hi - 1 < b.bytes.size := by
      rw [size] at h
      omega
    obtain ⟨hlast', _⟩ := agree.exists_getElem (Nat.zero_le _) (by omega) hlast
    rw [size]
    omega

/-- Buffers that hold the same bytes at a position agree there. -/
theorem of_holds {xs : List UInt8} (h : b.Holds p xs) (h' : b'.Holds p xs) : b.AgreeOn b' p (p + xs.length) := by
  have held {c : Buffer} (hc : c.Holds p xs) {i : Nat} (hlo : p ≤ i) (hhi : i < p + xs.length) :
      c.bytes[i]? = xs[i - p]? := by
    obtain ⟨front, back, hbytes, rfl⟩ := hc
    have hlist : c.toList[i]? = xs[i - front.length]? := by
      rw [hbytes, List.getElem?_append_left (by simp only [List.length_append]; omega), List.getElem?_append_right hlo]
    simpa only [toList, Array.getElem?_toList] using hlist
  intro i hhi hlo
  rw [held h hlo hhi, held h' hlo hhi]

/-- Buffers of one size that agree up to their end have the same next zero byte. -/
theorem zeroFrom_eq (agree : b.AgreeOn b' lo b.size) (hsize : b.size = b'.size) (hp : lo ≤ p) :
    b.zeroFrom p = b'.zeroFrom p := by
  fun_induction zeroFrom b p with
  | case1 p h hz =>
    obtain ⟨h', hbyte⟩ := agree.exists_getElem hp h h
    rw [zeroFrom, dif_pos h', if_pos (by rw [hbyte, hz])]
  | case2 p h hz ih =>
    obtain ⟨h', hbyte⟩ := agree.exists_getElem hp h h
    rw [ih (by omega), zeroFrom.eq_def b' p, dif_pos h', if_neg (by rw [hbyte]; exact hz)]
  | case3 p h =>
    simp only [size] at hsize
    rw [zeroFrom, dif_neg (by omega), size, size, hsize]

end AgreeOn

end ManagedSymbols.Buffer
