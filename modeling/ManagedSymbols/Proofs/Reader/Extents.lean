import ManagedSymbols.Constant
import ManagedSymbols.Proofs.Reader.Success
import ManagedSymbols.Proofs.Reader.Texts
import ManagedSymbols.Slot

/-!
# How far a read goes

A reader of fixed size that succeeds has taken so many bytes (`Reader.Takes`, with a lemma of its name for each such reader). A
value takes the bytes that its tag and, for a string, its length tell of (`NumericLeaf.storedEnd`), and a text the bytes up to the
next zero byte of the buffer. So the cursor behind a slot, a constant or an imported namespace is known from the bytes without
reading it (`Slot.cursor_of_read`, `Constant.cursor_of_read`, `Reader.of_utf8`).
-/

namespace ManagedSymbols

open Reader

/-- A text that ends in front of a position has a zero byte in front of it. -/
theorem Buffer.zeroFrom_lt_iff {b : Buffer} {start stop : Nat} (hstop : stop ≤ b.size) :
    b.zeroFrom start < stop ↔ ∃ i, start ≤ i ∧ i < stop ∧ b.bytes[i]? = some 0 := by
  fun_induction zeroFrom b start with
  | case1 p hp hz =>
    constructor
    · intro hlt
      exact ⟨p, Nat.le_refl p, hlt, by rw [Array.getElem?_eq_getElem hp, hz]⟩
    · rintro ⟨i, hi, hlt, _⟩
      omega
  | case2 p hp hz ih =>
    rw [ih]
    constructor
    · rintro ⟨i, hi, hlt, hzero⟩
      exact ⟨i, by omega, hlt, hzero⟩
    · rintro ⟨i, hi, hlt, hzero⟩
      refine ⟨i, ?_, hlt, hzero⟩
      rcases Nat.lt_or_eq_of_le hi with hlater | rfl
      · exact hlater
      · rw [Array.getElem?_eq_getElem hp] at hzero
        exact absurd (Option.some.inj hzero) hz
  | case3 p hp =>
    constructor
    · intro hlt
      omega
    · rintro ⟨i, hi, hlt, _⟩
      simp only [size] at hstop
      omega

namespace Reader

variable {α β : Type}

/-- A reader that takes so many bytes whenever it succeeds. -/
def Takes (n : Nat) (r : Reader α) : Prop :=
  ∀ b p a q, r b p = (.ok a, q) → q = p + n ∧ q ≤ b.size

namespace Takes

variable {n : Nat} {r : Reader α}

theorem map (h : Takes n r) (f : α → β) : Takes n (f <$> r) := by
  intro b p c q hr
  obtain ⟨a, ha, _⟩ := exists_of_map hr
  exact h b p a q ha

theorem bytes (n : Nat) : Takes n (Reader.bytes n) := by
  intro b p xs q hr
  rw [run_bytes] at hr
  split at hr
  · next hp =>
    cases hr
    exact ⟨rfl, hp⟩
  · cases hr

theorem number (width : Nat) : Takes width (Reader.number width) :=
  (bytes width).map _

theorem u8 : Takes 1 Reader.u8 :=
  (number 1).map _

theorem u16 : Takes 2 Reader.u16 :=
  (number 2).map _

theorem u32 : Takes 4 Reader.u32 :=
  (number 4).map _

theorem u64 : Takes 8 Reader.u64 :=
  (number 8).map _

theorem sixteen : Takes 16 Reader.sixteen := by
  intro b p v q hr
  rw [Reader.sixteen] at hr
  split at hr
  · next hp =>
    cases hr
    exact ⟨rfl, hp⟩
  · cases hr

end Takes

/-- A text that is read starts inside the buffer or at its end, and the cursor is left behind its zero byte, or at the end of the
buffer if it has none. -/
theorem of_utf8 {b : Buffer} {p q : Nat} {s : String} (h : utf8 b p = (.ok s, q)) :
    p ≤ b.size ∧ q = min (b.zeroFrom p + 1) b.size := by
  by_cases hp : p ≤ b.size
  · rw [run_utf8 hp, Prod.mk.injEq] at h
    exact ⟨hp, h.2.symm⟩
  · obtain ⟨_, _, hposition, h⟩ := exists_of_bind h
    cases hposition
    obtain ⟨_, _, hend, h⟩ := exists_of_bind h
    cases hend
    obtain ⟨_, _, hslice, _⟩ := exists_of_bind h
    have hle := b.zeroFrom_le p
    rw [slice, if_neg (by omega)] at hslice
    cases hslice

end Reader

namespace NumericLeaf

/-- How many bytes the content of a value takes that starts at a position, as the tag in front of it tells. -/
def contentWidth (b : Buffer) (p : Nat) (tag : UInt16) : Nat :=
  match tag with
  | 0x8000 => 1
  | 0x8001 | 0x8002 => 2
  | 0x8003 | 0x8004 | 0x8005 => 4
  | 0x8006 | 0x8009 | 0x800A => 8
  | 0x8010 => 2 + (b.word16 p).toNat
  | 0x8019 => 16
  | _ => 0

/-- Where a value ends that starts at a position: behind the word alone, or behind the content that the word tells of. -/
def storedEnd (b : Buffer) (p : Nat) : Nat :=
  if b.word16 p < 0x8000 then p + 2 else p + 2 + contentWidth b (p + 2) (b.word16 p)

/-- The string of a value takes its length and so many bytes. -/
theorem cursor_of_readString {offset : Nat} {b : Buffer} {p q : Nat} {v : NumericLeaf}
    (h : readString offset b p = (.ok v, q)) : q = p + (2 + (b.word16 p).toNat) := by
  obtain ⟨length, _, hlength, h⟩ := exists_of_bind h
  obtain ⟨rfl, rfl, _⟩ := of_u16 hlength
  obtain ⟨found, _, hfound, h⟩ := exists_of_bind h
  obtain ⟨rfl, _⟩ := Takes.bytes _ _ _ _ _ hfound
  cases hd : Utf8.decode found with
  | error e =>
    rw [hd] at h
    cases h
  | ok cs =>
    rw [hd] at h
    obtain ⟨_, rfl⟩ := of_pure h
    omega

/-- The content of a value takes as many bytes as its tag tells. -/
theorem cursor_of_readTagged {offset : Nat} {tag : UInt16} {b : Buffer} {p q : Nat} {v : NumericLeaf}
    (h : readTagged offset tag b p = (.ok v, q)) : q = p + contentWidth b p tag := by
  revert h
  unfold readTagged contentWidth
  split
  · exact fun h => (((Takes.u8.map _).map _) _ _ _ _ h).1
  · exact fun h => (((Takes.u16.map _).map _) _ _ _ _ h).1
  · exact fun h => ((Takes.u16.map _) _ _ _ _ h).1
  · exact fun h => (((Takes.u32.map _).map _) _ _ _ _ h).1
  · exact fun h => ((Takes.u32.map _) _ _ _ _ h).1
  · exact fun h => (((Takes.u32.map _).map _) _ _ _ _ h).1
  · exact fun h => (((Takes.u64.map _).map _) _ _ _ _ h).1
  · exact fun h => (((Takes.u64.map _).map _) _ _ _ _ h).1
  · exact fun h => ((Takes.u64.map _) _ _ _ _ h).1
  · exact cursor_of_readString
  · exact fun h => ((Takes.sixteen.map _) _ _ _ _ h).1
  · intro h
    cases h

/-- A value takes the bytes up to where its word tells that it ends. -/
theorem cursor_of_read {b : Buffer} {p q : Nat} {v : NumericLeaf} (h : read b p = (.ok v, q)) : q = storedEnd b p := by
  obtain ⟨_, _, hposition, h⟩ := exists_of_bind h
  cases hposition
  obtain ⟨tag, _, htag, h⟩ := exists_of_bind h
  obtain ⟨rfl, rfl, _⟩ := of_u16 htag
  rw [storedEnd]
  split
  · next hsmall =>
    rw [if_pos hsmall] at h
    exact (of_pure h).2.symm
  · next hlarge =>
    rw [if_neg hlarge] at h
    exact cursor_of_readTagged h

end NumericLeaf

/-- The name of a slot starts behind sixteen bytes of fields. -/
theorem Slot.cursor_of_read {b : Buffer} {p q : Nat} {s : Slot} (h : Slot.read b p = (.ok s, q)) :
    p + 16 ≤ b.size ∧ q = min (b.zeroFrom (p + 16) + 1) b.size := by
  obtain ⟨_, _, hindex, h⟩ := exists_of_bind h
  obtain ⟨_, rfl, _⟩ := of_u32 hindex
  obtain ⟨_, _, htype, h⟩ := exists_of_bind h
  obtain ⟨rfl, _⟩ := (Takes.u32.map Token.mk) _ _ _ _ htype
  obtain ⟨_, _, haddress, h⟩ := exists_of_bind h
  obtain ⟨_, rfl, _⟩ := of_u32 haddress
  obtain ⟨_, _, hsegment, h⟩ := exists_of_bind h
  obtain ⟨_, rfl, _⟩ := of_u16 hsegment
  obtain ⟨_, _, hflags, h⟩ := exists_of_bind h
  obtain ⟨rfl, _⟩ := (Takes.u16.map SlotFlags.mk) _ _ _ _ hflags
  obtain ⟨_, _, hname, h⟩ := exists_of_bind h
  obtain ⟨_, rfl⟩ := of_pure h
  exact of_utf8 hname

/-- The name of a constant starts behind its type and its value. -/
theorem Constant.cursor_of_read {b : Buffer} {p q : Nat} {c : Constant} (h : Constant.read b p = (.ok c, q)) :
    NumericLeaf.storedEnd b (p + 4) ≤ b.size ∧ q = min (b.zeroFrom (NumericLeaf.storedEnd b (p + 4)) + 1) b.size := by
  obtain ⟨_, _, htype, h⟩ := exists_of_bind h
  obtain ⟨rfl, _⟩ := (Takes.u32.map Token.mk) _ _ _ _ htype
  obtain ⟨_, _, hvalue, h⟩ := exists_of_bind h
  obtain rfl := NumericLeaf.cursor_of_read hvalue
  obtain ⟨_, _, hname, h⟩ := exists_of_bind h
  obtain ⟨_, rfl⟩ := of_pure h
  exact of_utf8 hname

end ManagedSymbols
