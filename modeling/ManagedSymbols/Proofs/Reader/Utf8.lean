import ManagedSymbols.Fault
import ManagedSymbols.Proofs.Reader.Extents
import ManagedSymbols.Proofs.Text.WellFormed

/-!
# The reader of UTF-8 texts

A UTF-8 text ends at the first zero byte that is not in front of the cursor, or with the buffer (`Buffer.isLeast_zeroFrom`). The
bytes up to there are read as a text exactly if they are well-formed, and the fault of all others tells where they stop being so.
The cursor is left behind the zero byte in any case (`Reader.utf8_exact`).
-/

namespace ManagedSymbols

namespace Buffer

variable {b : Buffer} {p : Nat}

/-- The bytes of the text at a position. -/
def textBytes (b : Buffer) (p : Nat) : List UInt8 :=
  b.slice p (b.zeroFrom p)

/-- A text ends at the first zero byte that is not in front of its position, or with the buffer. -/
theorem isLeast_zeroFrom (hp : p ≤ b.size) : IsLeast {i | p ≤ i ∧ (b.bytes[i]? = some 0 ∨ i = b.size)} (b.zeroFrom p) := by
  refine ⟨⟨le_zeroFrom hp, ?_⟩, ?_⟩
  · rcases Nat.lt_or_eq_of_le (b.zeroFrom_le p) with hinside | hend
    · obtain ⟨i, hi, hle, hzero⟩ := (zeroFrom_lt_iff hinside).mp (Nat.lt_succ_self _)
      obtain rfl : i = b.zeroFrom p := by
        refine Nat.le_antisymm (Nat.le_of_lt_succ hle) (Nat.le_of_not_lt fun hearlier => ?_)
        exact absurd ((zeroFrom_lt_iff (Nat.le_of_lt hinside)).mpr ⟨i, hi, hearlier, hzero⟩) (Nat.lt_irrefl _)
      exact .inl hzero
    · exact .inr hend
  · rintro i ⟨hi, hzero | rfl⟩
    · have hinside : i < b.size := (Array.getElem?_eq_some_iff.mp hzero).1
      exact Nat.le_of_lt_succ ((zeroFrom_lt_iff hinside).mpr ⟨i, hi, Nat.lt_succ_self i, hzero⟩)
    · exact b.zeroFrom_le p

end Buffer

namespace Reader

variable {b : Buffer} {p : Nat}

/-- The answer of a text is that of its bytes. -/
theorem utf8_answer (hp : p ≤ b.size) : (utf8 b p).1 =
    ((Utf8.decode (b.textBytes p)).mapError (fun f => .malformed (.utf8Text p (b.zeroFrom p) f))).map String.ofList := by
  rw [run_utf8 hp]
  rfl

/-- A text is read exactly from its bytes. -/
theorem utf8_eq_ok_iff (hp : p ≤ b.size) {s : String} : (utf8 b p).1 = .ok s ↔ Utf8.encode s.toList = b.textBytes p := by
  rw [utf8_answer hp, ← Utf8.decode_eq_ok_iff]
  cases Utf8.decode (b.textBytes p) with
  | error f => exact iff_of_false nofun nofun
  | ok cs =>
    simp only [Except.mapError, Except.map, Except.ok.injEq]
    constructor
    · rintro rfl
      exact String.toList_ofList.symm
    · rintro rfl
      exact String.ofList_toList

/-- A text fails exactly with the fault that tells of its bytes. -/
theorem utf8_eq_error_iff (hp : p ≤ b.size) {fault : Fault} :
    (utf8 b p).1 = .error fault ↔
      ∃ f, Utf8.Fault.Of (b.textBytes p) f ∧ fault = .malformed (.utf8Text p (b.zeroFrom p) f) := by
  simp only [utf8_answer hp, ← Utf8.decode_eq_error_iff]
  cases Utf8.decode (b.textBytes p) with
  | ok cs => exact iff_of_false nofun nofun
  | error f =>
    simp only [Except.mapError, Except.map, Except.error.injEq, exists_eq_left']
    exact eq_comm

/-- The reader of UTF-8 texts is exact. The text at a position ends at the first zero byte there, or with the buffer. It is read
exactly if its bytes are well-formed, as the text whose bytes these are. Else it fails with the fault that tells the position, the
end, the longest well-formed part in front, and the maximal legal part of the character behind that unless the bytes end inside of
it. In any case, and also if the text is stepped over, the cursor is left behind the zero byte or at the end of the buffer. -/
theorem utf8_exact {b : Buffer} {p : Nat} (hp : p ≤ b.size) :
    IsLeast {i | p ≤ i ∧ (b.bytes[i]? = some 0 ∨ i = b.size)} (b.zeroFrom p) ∧
    ((∃ s, (utf8 b p).1 = .ok s) ↔ Utf8.WellFormed (b.textBytes p)) ∧
    (∀ s, (utf8 b p).1 = .ok s ↔ Utf8.encode s.toList = b.textBytes p) ∧
    (∀ fault, (utf8 b p).1 = .error fault ↔
      ∃ f, Utf8.Fault.Of (b.textBytes p) f ∧ fault = .malformed (.utf8Text p (b.zeroFrom p) f)) ∧
    (∀ i n, (Fault.malformed (.utf8Text p (b.zeroFrom p) (.invalid i n))).message =
      "Invalid UTF-8 string at offset " ++ toString p ++ "-" ++ toString (b.zeroFrom p) ++ ": " ++
        ("invalid utf-8 sequence of " ++ toString n ++ " bytes from index " ++ toString i)) ∧
    (∀ i, (Fault.malformed (.utf8Text p (b.zeroFrom p) (.incomplete i))).message =
      "Invalid UTF-8 string at offset " ++ toString p ++ "-" ++ toString (b.zeroFrom p) ++ ": " ++
        ("incomplete utf-8 byte sequence from index " ++ toString i)) ∧
    (utf8 b p).2 = min (b.zeroFrom p + 1) b.size ∧ skipUtf8 b p = (.ok (), min (b.zeroFrom p + 1) b.size) := by
  refine ⟨Buffer.isLeast_zeroFrom hp, ?_, fun s => utf8_eq_ok_iff hp, fun fault => utf8_eq_error_iff hp, fun i n => rfl,
    fun i => rfl, ?_, run_skipUtf8 b p⟩
  · rw [Utf8.wellFormed_iff]
    constructor
    · rintro ⟨s, hs⟩
      exact ⟨s.toList, (utf8_eq_ok_iff hp).mp hs⟩
    · rintro ⟨cs, hcs⟩
      exact ⟨String.ofList cs, (utf8_eq_ok_iff hp).mpr (by rwa [String.toList_ofList])⟩
  · rw [run_utf8 hp]

/-- A text of one character, a text with a character that breaks off behind two bytes, and the start of a character. -/
def sampleTexts : Buffer where
  bytes := #[0xC3, 0xA9, 0x00, 0x61, 0xE2, 0x82, 0x28, 0x00, 0xF0, 0x9F, 0x98]
  size_lt := by decide

/-- The first text is read, the second fails behind its first byte, and the third one is not complete. -/
theorem utf8_exact_sampleTexts :
    utf8 sampleTexts 0 = (.ok "é", 3) ∧
      utf8 sampleTexts 3 = (.error (.malformed (.utf8Text 3 7 (.invalid 1 2))), 8) ∧
      (Fault.malformed (.utf8Text 3 7 (.invalid 1 2))).message =
        "Invalid UTF-8 string at offset 3-7: invalid utf-8 sequence of 2 bytes from index 1" ∧
      utf8 sampleTexts 8 = (.error (.malformed (.utf8Text 8 11 (.incomplete 0))), 11) ∧ skipUtf8 sampleTexts 8 = (.ok (), 11) := by
  obtain ⟨-, -, hok, -, -, -, hfirst, -⟩ := @utf8_exact sampleTexts 0 (by decide)
  obtain ⟨-, -, -, hbroken, -, -, hsecond, -⟩ := @utf8_exact sampleTexts 3 (by decide)
  obtain ⟨-, -, -, hcut, -, -, hthird, hskip⟩ := @utf8_exact sampleTexts 8 (by decide)
  obtain ⟨hend, hend', hend''⟩ : sampleTexts.zeroFrom 0 = 2 ∧ sampleTexts.zeroFrom 3 = 7 ∧ sampleTexts.zeroFrom 8 = 11 := by
    decide +kernel
  have hinvalid : Utf8.Fault.Of (sampleTexts.textBytes 3) (.invalid 1 2) := Utf8.decode_eq_error_iff.mp (by decide +kernel)
  have hincomplete : Utf8.Fault.Of (sampleTexts.textBytes 8) (.incomplete 0) := Utf8.decode_eq_error_iff.mp (by decide +kernel)
  rw [hend] at hfirst
  rw [hend'] at hbroken hsecond
  rw [hend''] at hcut hthird hskip
  refine ⟨Prod.ext ((hok _).mpr (by decide +kernel)) hfirst, Prod.ext ((hbroken _).mpr ⟨_, hinvalid, rfl⟩) hsecond,
    by decide +kernel, Prod.ext ((hcut _).mpr ⟨_, hincomplete, rfl⟩) hthird, hskip⟩

end Reader

end ManagedSymbols
