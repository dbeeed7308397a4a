import Mathlib.Order.Bounds.Basic
import ManagedSymbols.Layout.Metadata
import ManagedSymbols.Reader

/-!
# Aligning the cursor

The gap behind a position is the way to the next boundary: the position behind it is the least multiple of the alignment that is not
in front of the position (`Layout.isLeast_gap`), and it is a word. So aligning moves the cursor there if the buffer reaches that far,
and fails for no other reason (`Reader.run_align`). What aligning twice does follows from what the least multiple is: seen from it, the
least multiple of a multiple is the same as before (`Layout.isLeast_of_dvd`). The sum of this is `Reader.align_exact`.
-/

namespace ManagedSymbols

variable {alignment : Nat}

namespace Layout

/-- The gap behind a position is told from the remainder: none at a boundary, and else what is missing to the alignment. -/
theorem gap_eq (ha : alignment ≠ 0) (p : Nat) :
    gap alignment p = if p % alignment = 0 then 0 else alignment - p % alignment := by
  rw [gap]
  split
  · next h => rw [h, Nat.sub_zero, Nat.mod_self]
  · next h => exact Nat.mod_eq_of_lt (Nat.sub_lt (Nat.pos_of_ne_zero ha) (Nat.pos_of_ne_zero h))

/-- The gap behind a position leads to the least multiple of the alignment that is not in front of the position. -/
theorem isLeast_gap (ha : alignment ≠ 0) (p : Nat) : IsLeast {m | alignment ∣ m ∧ p ≤ m} (p + gap alignment p) := by
  have hdivision := Nat.div_add_mod p alignment
  have hremainder := Nat.mod_lt p (Nat.pos_of_ne_zero ha)
  rw [gap_eq ha]
  split
  · next h => exact ⟨⟨Nat.dvd_of_mod_eq_zero h, Nat.le_refl p⟩, fun m hm => hm.2⟩
  · next h =>
    have hnext : p + (alignment - p % alignment) = alignment * (p / alignment + 1) := by
      rw [Nat.mul_add, Nat.mul_one]
      omega
    refine ⟨⟨⟨_, hnext⟩, Nat.le_add_right p _⟩, ?_⟩
    rintro m ⟨⟨k, rfl⟩, hm⟩
    -- A multiple that is not greater than the last one in front of the position would have to be the position.
    rw [hnext]
    refine Nat.mul_le_mul_left alignment (Nat.lt_of_not_le fun hk => ?_)
    have := Nat.mul_le_mul_left alignment hk
    omega

/-- The least multiple that is not in front of a position stays the least one, as seen from the least multiple of a divisor. -/
theorem isLeast_of_dvd {multiple p near far : Nat} (hdvd : alignment ∣ multiple)
    (hnear : IsLeast {m | alignment ∣ m ∧ p ≤ m} near) (hfar : IsLeast {m | multiple ∣ m ∧ p ≤ m} far) :
    IsLeast {m | multiple ∣ m ∧ near ≤ m} far := by
  have hle : near ≤ far := hnear.2 ⟨Nat.dvd_trans hdvd hfar.1.1, hfar.1.2⟩
  exact ⟨⟨hfar.1.1, hle⟩, fun m hm => hfar.2 ⟨hm.1, Nat.le_trans hnear.1.2 hm.2⟩⟩

/-- The gap does not change with as many bytes more in front of the position as are a multiple of the alignment. -/
theorem gap_add {n : Nat} (hn : alignment ∣ n) (p : Nat) : gap alignment (n + p) = gap alignment p := by
  obtain ⟨k, rfl⟩ := hn
  rw [gap, gap, Nat.mul_add_mod]

/-- The position behind the gap is a word, whatever word the alignment is. -/
theorem add_gap_lt (ha : alignment ≠ 0) (hword : alignment < 0x10000000000000000) {p : Nat} (hp : p < 0x8000000000000000) :
    p + gap alignment p < 0x10000000000000000 := by
  have hremainder := Nat.mod_lt p (Nat.pos_of_ne_zero ha)
  have hle := Nat.mod_le p alignment
  by_cases hwide : p < alignment
  · rw [gap_eq ha, Nat.mod_eq_of_lt hwide]
    split <;> omega
  · rw [gap_eq ha]
    split <;> omega

end Layout

namespace Reader

/-- Aligning moves the cursor over the gap if the buffer reaches behind it. -/
theorem run_align (ha : alignment ≠ 0) (hword : alignment < 0x10000000000000000) {b : Buffer} {p : Nat} (hp : p ≤ b.size) :
    align alignment b p =
      if p + Layout.gap alignment p ≤ b.size then (.ok (), p + Layout.gap alignment p) else (.error .outOfBounds, p) := by
  have hmod : p % alignment ≤ alignment := Nat.le_of_lt (Nat.mod_lt p (Nat.pos_of_ne_zero ha))
  have hfits := Layout.add_gap_lt ha hword (Nat.lt_of_le_of_lt hp b.size_lt)
  rw [Layout.gap] at hfits ⊢
  simp only [align, run_bind, run_require, if_pos ha, position, run_minus, if_pos hmod, run_fits, if_pos hfits, size]
  by_cases hroom : p + (alignment - p % alignment) % alignment ≤ b.size
  · simp only [if_pos hroom, moveTo]
  · simp only [if_neg hroom]

/-- Aligning moves the cursor to the least multiple that is not in front of it, if that lies in the buffer. -/
theorem run_align_of_isLeast (ha : alignment ≠ 0) (hword : alignment < 0x10000000000000000) {b : Buffer} {p target : Nat}
    (hp : p ≤ b.size) (htarget : IsLeast {m | alignment ∣ m ∧ p ≤ m} target) :
    align alignment b p = if target ≤ b.size then (.ok (), target) else (.error .outOfBounds, p) := by
  rw [run_align ha hword hp, htarget.unique (Layout.isLeast_gap ha p)]

/-- There are no multiples of zero to align to. -/
theorem run_align_zero (b : Buffer) (p : Nat) : align 0 b p = (.error (.trap .divisionByZero), p) := by
  simp only [align, run_bind, run_require, ne_eq, not_true_eq_false, if_false]

/-- Where the cursor can be aligned to a multiple of the alignment, aligning it first does not change where it ends. -/
theorem align_of_dvd (ha : alignment ≠ 0) (hword : alignment < 0x10000000000000000) {b : Buffer} {p q multiple : Nat}
    (hp : p ≤ b.size) (hdvd : alignment ∣ multiple) (hmultiple : multiple < 0x10000000000000000)
    (hrun : align multiple b p = (.ok (), q)) :
    ∃ r, align alignment b p = (.ok (), r) ∧ align multiple b r = (.ok (), q) := by
  have hnonzero : multiple ≠ 0 := by
    rintro rfl
    simp [run_align_zero] at hrun
  have hnear := Layout.isLeast_gap ha p
  have hfar := Layout.isLeast_gap hnonzero p
  have hbetween := Layout.isLeast_of_dvd hdvd hnear hfar
  generalize p + Layout.gap alignment p = near at hnear hbetween
  generalize p + Layout.gap multiple p = far at hfar hbetween
  rw [run_align_of_isLeast hnonzero hmultiple hp hfar] at hrun
  split at hrun
  · next hroom =>
    obtain ⟨-, rfl⟩ := Prod.mk.inj hrun
    have hnearRoom : near ≤ b.size := Nat.le_trans hbetween.1.2 hroom
    refine ⟨near, ?_, ?_⟩
    · rw [run_align_of_isLeast ha hword hp hnear, if_pos hnearRoom]
    · rw [run_align_of_isLeast hnonzero hmultiple hnearRoom hbetween, if_pos hroom]
  · simp at hrun

/-- Aligning once more changes nothing, whether it has moved the cursor or failed. -/
theorem align_again (ha : alignment ≠ 0) (hword : alignment < 0x10000000000000000) {b : Buffer} {p : Nat} (hp : p ≤ b.size) :
    align alignment b (align alignment b p).2 = align alignment b p := by
  have hleast := Layout.isLeast_gap ha p
  have hstays := Layout.isLeast_of_dvd (Nat.dvd_refl alignment) hleast hleast
  rw [run_align ha hword hp]
  split
  · next hroom => rw [run_align_of_isLeast ha hword hroom hstays, if_pos hroom]
  · next hroom => rw [run_align ha hword hp, if_neg hroom]

/-- From a position of the buffer, for any word that is not zero: aligning moves the cursor to the least multiple of the alignment that
is not in front of it if that lies in the buffer, and else fails for want of bytes and leaves the cursor. That multiple is a word, and
no step on the way to it leaves the words. Aligning once more changes nothing. Where the cursor can be aligned to a multiple of the
alignment, it can be aligned first, and ends in the same place. -/
theorem align_exact {alignment : Nat} (ha : alignment ≠ 0) (hword : alignment < 0x10000000000000000) (b : Buffer) {p : Nat}
    (hp : p ≤ b.size) :
    ∃ target, IsLeast {m | alignment ∣ m ∧ p ≤ m} target ∧ target < 0x10000000000000000 ∧
      (∀ cause, (align alignment b p).1 ≠ .error (.trap cause)) ∧
      align alignment b p = (if target ≤ b.size then (.ok (), target) else (.error .outOfBounds, p)) ∧
      align alignment b (align alignment b p).2 = align alignment b p ∧
      ∀ multiple q, alignment ∣ multiple → multiple < 0x10000000000000000 → align multiple b p = (.ok (), q) →
        ∃ r, align alignment b p = (.ok (), r) ∧ align multiple b r = (.ok (), q) := by
  have hrun := run_align ha hword hp
  refine ⟨p + Layout.gap alignment p, Layout.isLeast_gap ha p, Layout.add_gap_lt ha hword (Nat.lt_of_le_of_lt hp b.size_lt),
    fun cause => ?_, hrun, align_again ha hword hp, fun multiple q => align_of_dvd ha hword hp⟩
  rw [hrun]
  split <;> simp

/-- Ten bytes. -/
def sampleZeros : Buffer :=
  ⟨#[0, 0, 0, 0, 0, 0, 0, 0, 0, 0], by decide⟩

/-- In the sample the cursor is aligned from 5 to 6 by three and then stays there by six, as it is aligned by six alone; the greatest
word is too far away. -/
theorem align_exact_sampleZeros :
    5 ≤ sampleZeros.size ∧ align 3 sampleZeros 5 = (.ok (), 6) ∧ align 3 sampleZeros 6 = (.ok (), 6) ∧
      (3 ∣ 6 ∧ align 6 sampleZeros 5 = (.ok (), 6) ∧ align 6 sampleZeros 6 = (.ok (), 6)) ∧
      align 0xFFFFFFFFFFFFFFFF sampleZeros 5 = (.error .outOfBounds, 5) := by
  have hp : 5 ≤ sampleZeros.size := by decide
  obtain ⟨near, hnear, -, -, hrun, hagain, hmultiple⟩ := align_exact (by decide : 3 ≠ 0) (by decide) sampleZeros hp
  obtain ⟨far, hfar, -, -, hfarRun, -⟩ := align_exact (by decide : 0xFFFFFFFFFFFFFFFF ≠ 0) (by decide) sampleZeros hp
  obtain rfl : near = 6 := hnear.unique (Layout.isLeast_gap (by decide) 5)
  obtain rfl : far = 0xFFFFFFFFFFFFFFFF := hfar.unique (Layout.isLeast_gap (by decide) 5)
  rw [if_pos (by decide)] at hrun
  rw [if_neg (by decide)] at hfarRun
  rw [hrun] at hagain
  have hsix : align 6 sampleZeros 5 = (.ok (), 6) := rfl
  obtain ⟨r, hr, hthen⟩ := hmultiple 6 6 (by decide) (by decide) hsix
  rw [hrun] at hr
  obtain ⟨-, rfl⟩ := Prod.mk.inj hr
  exact ⟨hp, hrun, hagain, ⟨by decide, hsix, hthen⟩, hfarRun⟩

end Reader

end ManagedSymbols
