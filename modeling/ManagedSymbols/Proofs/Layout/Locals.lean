import ManagedSymbols.Layout.Locals
import ManagedSymbols.Proofs.Reader.Texts

/-!
# Slots, values and constants are read where they are stored

Every value is read from each of its stored forms (`NumericLeaf.reads_of_stored`): the tagged one, and the word alone for a value
below `0x8000`. Slots and constants follow, since their fields stand in a row.
-/

namespace ManagedSymbols

open Reader

namespace NumericLeaf

/-- Every tag says that a value follows. -/
theorem not_tag_lt (v : NumericLeaf) : ¬ v.tag < 0x8000 := by
  cases v <;> simp [tag]

/-- The string of a leaf is read behind its tag. -/
theorem readString_reads (offset p : Nat) {s : String} (h : (Utf8.encode s.toList).length < 2 ^ 16) :
    Reads p (readString offset) (string s).content (string s) := by
  have hl : (UInt16.ofNat (Utf8.encode s.toList).length).toNat = (Utf8.encode s.toList).length := by
    rw [UInt16.toNat_ofNat', Nat.mod_eq_of_lt h]
  refine (Reads.u16 p _).bind ?_
  intro b hb
  rw [run_bind_ok (Reads.bytes _ hl.symm b hb), Utf8.decode_encode]
  simp only [String.ofList_toList, run_pure]

/-- The content of a value is read behind its tag. -/
theorem readTagged_reads (offset p : Nat) {v : NumericLeaf} (h : v.Storable) :
    Reads p (readTagged offset v.tag) v.content v := by
  cases v with
  | char n => exact (Reads.i8 p n).map char
  | short n => exact (Reads.i16 p n).map short
  | ushort n => exact (Reads.u16 p n).map ushort
  | long n => exact (Reads.i32 p n).map long
  | ulong n => exact (Reads.u32 p n).map ulong
  | real32 r => exact ((Reads.u32 p r.bits).map Real32.mk).map real32
  | real64 r => exact ((Reads.u64 p r.bits).map Real64.mk).map real64
  | quadWord n => exact (Reads.i64 p n).map quadWord
  | uquadWord n => exact (Reads.u64 p n).map uquadWord
  | string s => exact readString_reads offset p h
  | decimal bytes => exact (Reads.sixteen p bytes).map decimal

/-- A value is read from each of its stored forms. -/
theorem reads_of_stored (p : Nat) {v : NumericLeaf} {xs : List UInt8} (h : Stored v xs) : Reads p read xs v := by
  refine (Reads.position p).bind_nil ?_
  cases h with
  | tagged storable =>
    refine (Reads.u16 p v.tag).bind ?_
    rw [if_neg v.not_tag_lt]
    exact readTagged_reads p _ storable
  | plain small =>
    intro b hb
    rw [run_bind_ok (Reads.u16 p _ b hb), if_pos small, run_pure]

/-- Every stored form of a value has a word at least. -/
theorem Stored.two_le_length {v : NumericLeaf} {xs : List UInt8} (h : Stored v xs) : 2 ≤ xs.length := by
  cases h with
  | tagged storable => simp only [NumericLeaf.tagged, List.length_append, Layout.length_word16]; omega
  | plain small => simp only [Layout.length_word16]; omega

end NumericLeaf

theorem Slot.reads (p : Nat) {s : Slot} (h : Layout.NulFree s.name) : Reads p Slot.read s.stored s := by
  simp only [Slot.stored, List.append_assoc]
  refine (Reads.u32 p s.index).bind ?_
  refine ((Reads.u32 _ s.typeToken.value).map Token.mk).bind ?_
  refine (Reads.u32 _ s.address).bind ?_
  refine (Reads.u16 _ s.segment).bind ?_
  refine ((Reads.u16 _ s.flags.bits).map SlotFlags.mk).bind ?_
  exact (Reads.utf8 _ h).bind_pure _

/-- A constant is read where it is stored, whichever form its value has. -/
theorem Constant.reads (p : Nat) {c : Constant} {value : List UInt8} (hv : c.value.Stored value)
    (hn : Layout.NulFree c.name) : Reads p Constant.read (c.storedWith value) c := by
  simp only [Constant.storedWith, List.append_assoc]
  refine ((Reads.u32 p c.typeToken.value).map Token.mk).bind ?_
  refine (NumericLeaf.reads_of_stored _ hv).bind ?_
  exact (Reads.utf8 _ hn).bind_pure _

end ManagedSymbols
