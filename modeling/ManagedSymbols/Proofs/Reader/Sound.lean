import ManagedSymbols.Proofs.Reader.Held
import ManagedSymbols.Proofs.Reader.Success

/-!
# Reads that give no more than what is stored

A reader is sound for the stored forms of its values if, whenever it gives a value, the bytes from the cursor to where it stops are a
form of that value (`Reader.Sound`). It is the converse of `Reader.Reads`, by which a form is read. A word has one form only, so the
bytes that are read as a word are those that store it. A lemma that has the name of a reader says what the forms of its values
are.
-/

namespace ManagedSymbols.Reader

variable {α β : Type} {Form : α → List UInt8 → Prop} {Form' : β → List UInt8 → Prop}

/-- Whenever the reader gives a value, it has taken a form of it. -/
def Sound (r : Reader α) (Form : α → List UInt8 → Prop) : Prop :=
  ∀ b p a q, r b p = (.ok a, q) → ∃ xs, Form a xs ∧ b.Holds p xs ∧ q = p + xs.length

namespace Sound

variable {r : Reader α}

theorem fail (e : Fault) : Sound (Reader.fail e) Form := by
  rintro _ _ _ _ ⟨⟩

theorem map (h : Sound r Form) (f : α → β) (hf : ∀ a xs, Form a xs → Form' (f a) xs) : Sound (f <$> r) Form' := by
  intro b p c q hr
  obtain ⟨a, ha, rfl⟩ := exists_of_map hr
  obtain ⟨xs, hxs, hheld, hq⟩ := h b p a q ha
  exact ⟨xs, hf a xs hxs, hheld, hq⟩

theorem bytes (n : Nat) : Sound (Reader.bytes n) fun found xs => xs = found ∧ found.length = n := by
  intro b p found q hr
  rw [run_bytes] at hr
  split at hr
  · next hroom =>
    cases hr
    have hlength : (b.slice p (p + n)).length = n := by rw [Buffer.length_slice hroom, Nat.add_sub_cancel_left]
    exact ⟨_, ⟨rfl, hlength⟩, .slice hroom, by rw [hlength]⟩
  · cases hr

/-- A number is taken from the bytes that store it. -/
theorem number (width : Nat) :
    Sound (Reader.number width) fun n xs => xs = LittleEndian.bytes width n ∧ n < 0x100 ^ width := by
  refine (bytes width).map LittleEndian.value ?_
  rintro found _ ⟨rfl, rfl⟩
  exact ⟨(LittleEndian.bytes_value _).symm, LittleEndian.value_lt _⟩

theorem u8 : Sound Reader.u8 fun n xs => xs = [n] :=
  (number 1).map UInt8.ofNat fun _ _ h => h.1

theorem u16 : Sound Reader.u16 fun n xs => xs = Layout.word16 n := by
  refine (number 2).map UInt16.ofNat ?_
  rintro n _ ⟨rfl, hn⟩
  rw [Layout.word16, UInt16.toNat_ofNat', Nat.mod_eq_of_lt (show n < 2 ^ 16 from hn)]

theorem u32 : Sound Reader.u32 fun n xs => xs = Layout.word32 n := by
  refine (number 4).map UInt32.ofNat ?_
  rintro n _ ⟨rfl, hn⟩
  rw [Layout.word32, UInt32.toNat_ofNat', Nat.mod_eq_of_lt (show n < 2 ^ 32 from hn)]

theorem u64 : Sound Reader.u64 fun n xs => xs = Layout.word64 n := by
  refine (number 8).map UInt64.ofNat ?_
  rintro n _ ⟨rfl, hn⟩
  rw [Layout.word64, UInt64.toNat_ofNat', Nat.mod_eq_of_lt (show n < 2 ^ 64 from hn)]

theorem i8 : Sound Reader.i8 fun n xs => xs = [n.toUInt8] := by
  refine u8.map UInt8.toInt8 ?_
  rintro n _ rfl
  rw [UInt8.toUInt8_toInt8]

theorem i16 : Sound Reader.i16 fun n xs => xs = Layout.word16 n.toUInt16 := by
  refine u16.map UInt16.toInt16 ?_
  rintro n _ rfl
  rw [UInt16.toUInt16_toInt16]

theorem i32 : Sound Reader.i32 fun n xs => xs = Layout.word32 n.toUInt32 := by
  refine u32.map UInt32.toInt32 ?_
  rintro n _ rfl
  rw [UInt32.toUInt32_toInt32]

theorem i64 : Sound Reader.i64 fun n xs => xs = Layout.word64 n.toUInt64 := by
  refine u64.map UInt64.toInt64 ?_
  rintro n _ rfl
  rw [UInt64.toUInt64_toInt64]

theorem sixteen : Sound Reader.sixteen fun v xs => xs = v.toList := by
  intro b p v q hr
  rw [Reader.sixteen] at hr
  split at hr
  · next hroom =>
    cases hr
    exact ⟨_, rfl, Buffer.Holds.slice hroom, by rw [Vector.length_toList]⟩
  · cases hr

end Sound

end ManagedSymbols.Reader
