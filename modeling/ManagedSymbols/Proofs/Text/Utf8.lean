import ManagedSymbols.Text.Utf8

/-!
# UTF-8: what is written is read back, and what is read was written

The bytes of a character stand at the front of any sequence that starts with them (`front_encodeChar`), so a text is read back
from its bytes (`decode_encode`). Conversely, the bytes that are read as a character are those of the character
(`cons_eq_of_front`), so no other bytes are read as the text (`encode_of_decode`). The bytes of a text hold no zero as long as the
text is free of the character that ends stored texts.
-/

namespace ManagedSymbols.Utf8

/-- What a first byte announces, by its number. -/
theorem Lead.ofByte?_ofNat {n : Nat} (h : n < 0x100) :
    Lead.ofByte? (UInt8.ofNat n) =
      if n < 0x80 then some ⟨0, UInt8.ofNat 0x80, UInt8.ofNat 0xBF, n⟩
      else if n < 0xC2 then none
      else if n < 0xE0 then some ⟨1, UInt8.ofNat 0x80, UInt8.ofNat 0xBF, n % 0x20⟩
      else if n < 0xF0 then
        some ⟨2, UInt8.ofNat (if n = 0xE0 then 0xA0 else 0x80), UInt8.ofNat (if n = 0xED then 0x9F else 0xBF), n % 0x10⟩
      else if n < 0xF5 then
        some ⟨3, UInt8.ofNat (if n = 0xF0 then 0x90 else 0x80), UInt8.ofNat (if n = 0xF4 then 0x8F else 0xBF), n % 0x08⟩
      else none := by
  have ht : (UInt8.ofNat n).toNat = n := by rw [UInt8.toNat_ofNat', Nat.mod_eq_of_lt h]
  simp only [ofByte?, UInt8.lt_iff_toNat_lt, ← UInt8.toNat_inj, ht, UInt8.reduceToNat, apply_ite UInt8.ofNat]
  rfl

/-- A byte between the bounds is taken into the character. -/
theorem frontTail_cons {seen bits n low high owed : Nat} {rest : List UInt8} (hn : n < 0x100) (hh : high < 0x100)
    (h1 : low ≤ n) (h2 : n ≤ high) :
    frontTail seen bits (UInt8.ofNat low) (UInt8.ofNat high) (owed + 1) (UInt8.ofNat n :: rest) =
      frontTail (seen + 1) (bits * 0x40 + n % 0x40) 0x80 0xBF owed rest := by
  have ht : (UInt8.ofNat n).toNat = n := by rw [UInt8.toNat_ofNat', Nat.mod_eq_of_lt hn]
  have hl : (UInt8.ofNat low).toNat = low := by rw [UInt8.toNat_ofNat', Nat.mod_eq_of_lt (by omega)]
  have hr : (UInt8.ofNat high).toNat = high := by rw [UInt8.toNat_ofNat', Nat.mod_eq_of_lt hh]
  rw [frontTail, if_pos, ht]
  simp only [UInt8.le_iff_toNat_le, ht, hl, hr]
  exact ⟨h1, h2⟩

/-- A byte of the second half of a character is taken into it. -/
theorem frontTail_cons_later {seen bits n owed : Nat} {rest : List UInt8} (h1 : 0x80 ≤ n) (h2 : n ≤ 0xBF) :
    frontTail seen bits 0x80 0xBF (owed + 1) (UInt8.ofNat n :: rest) =
      frontTail (seen + 1) (bits * 0x40 + n % 0x40) 0x80 0xBF owed rest :=
  frontTail_cons (by omega) (by decide) h1 h2

/-- The bytes of a character stand at the front of any sequence that starts with them. -/
theorem front_encodeChar (c : Char) :
    ∃ b tail, String.utf8EncodeChar c = b :: tail ∧ ∀ rest, front b (tail ++ rest) = .char c (tail.length + 1) rest := by
  have hc : Char.ofNat c.val.toNat = c := Char.ofNat_toNat c
  have hv : c.val.toNat < 0xD800 ∨ 0xDFFF < c.val.toNat ∧ c.val.toNat < 0x110000 := c.valid
  unfold String.utf8EncodeChar
  dsimp only
  generalize c.val.toNat = v at hc hv ⊢
  split
  · refine ⟨_, _, rfl, fun rest => ?_⟩
    rw [front, Lead.ofByte?_ofNat (by omega), if_pos (by omega)]
    simp only [frontTail, hc, List.nil_append, List.length_nil, Nat.zero_add]
  · split
    · refine ⟨_, _, rfl, fun rest => ?_⟩
      have hbits : (v / 64 % 0x20 + 0xc0) % 0x20 * 0x40 + (v % 0x40 + 0x80) % 0x40 = v := by omega
      rw [front, Lead.ofByte?_ofNat (by omega), if_neg (by omega), if_neg (by omega), if_pos (by omega)]
      simp only [List.cons_append, List.nil_append, List.length_cons, List.length_nil]
      rw [frontTail_cons (by omega) (by decide) (by omega) (by omega), hbits, frontTail, hc]
    · split
      · refine ⟨_, _, rfl, fun rest => ?_⟩
        have hbits : ((v / 4096 % 0x10 + 0xe0) % 0x10 * 0x40 + (v / 64 % 0x40 + 0x80) % 0x40) * 0x40 +
            (v % 0x40 + 0x80) % 0x40 = v := by omega
        rw [front, Lead.ofByte?_ofNat (by omega), if_neg (by omega), if_neg (by omega), if_neg (by omega),
          if_pos (by omega)]
        simp only [List.cons_append, List.nil_append, List.length_cons, List.length_nil]
        rw [frontTail_cons (by omega) (by split <;> omega) (by split <;> omega) (by split <;> omega),
          frontTail_cons_later (by omega) (by omega), hbits, frontTail, hc]
      · refine ⟨_, _, rfl, fun rest => ?_⟩
        have hbits : (((v / 262144 % 0x08 + 0xf0) % 0x08 * 0x40 + (v / 4096 % 0x40 + 0x80) % 0x40) * 0x40 +
            (v / 64 % 0x40 + 0x80) % 0x40) * 0x40 + (v % 0x40 + 0x80) % 0x40 = v := by omega
        rw [front, Lead.ofByte?_ofNat (by omega), if_neg (by omega), if_neg (by omega), if_neg (by omega),
          if_neg (by omega), if_pos (by omega)]
        simp only [List.cons_append, List.nil_append, List.length_cons, List.length_nil]
        rw [frontTail_cons (by omega) (by split <;> omega) (by split <;> omega) (by split <;> omega),
          frontTail_cons_later (by omega) (by omega), frontTail_cons_later (by omega) (by omega), hbits, frontTail, hc]

/-- A text is read back from its bytes, whatever the index of the first one. -/
theorem decodeFrom_encode (index : Nat) (cs : List Char) : decodeFrom index (encode cs) = .ok cs := by
  induction cs generalizing index with
  | nil => simp [encode, decodeFrom]
  | cons c cs ih =>
    obtain ⟨b, tail, he, hf⟩ := front_encodeChar c
    have hs : encode (c :: cs) = b :: (tail ++ encode cs) := by
      rw [encode, List.flatMap_cons, he, encode, List.cons_append]
    rw [hs, decodeFrom]
    split
    · next c' count rest h =>
      rw [hf] at h
      cases h
      rw [ih]
      rfl
    · next h => rw [hf] at h; cases h
    · next h => rw [hf] at h; cases h

/-- A text is read back from its bytes. -/
theorem decode_encode (cs : List Char) : decode (encode cs) = .ok cs :=
  decodeFrom_encode 0 cs

/-! ## What is read was written -/

/-- The number of the character that a scalar value names. -/
theorem val_ofNat {v : Nat} (h : v < 0xD800 ∨ 0xDFFF < v ∧ v < 0x110000) : (Char.ofNat v).val.toNat = v := by
  rw [Char.ofNat, dif_pos h]
  rfl

/-- A byte below `0x80` is the character of its number. -/
theorem encodeChar_one {n : Nat} (h : n < 0x80) : String.utf8EncodeChar (Char.ofNat n) = [UInt8.ofNat n] := by
  rw [String.utf8EncodeChar, val_ofNat (by omega), if_pos (by omega)]

/-- Two bytes are the character of their bits if the first one is not needless. -/
theorem encodeChar_two {n m : Nat} (h : 0xC2 ≤ n ∧ n < 0xE0) (hm : 0x80 ≤ m ∧ m ≤ 0xBF) :
    String.utf8EncodeChar (Char.ofNat (n % 0x20 * 0x40 + m % 0x40)) = [UInt8.ofNat n, UInt8.ofNat m] := by
  generalize hv : n % 0x20 * 0x40 + m % 0x40 = v
  have hn : v / 64 % 0x20 + 0xC0 = n := by omega
  have hm' : v % 0x40 + 0x80 = m := by omega
  rw [String.utf8EncodeChar, val_ofNat (by omega), if_neg (by omega), if_pos (by omega), hn, hm']

/-- Three bytes are the character of their bits if these need three and are no surrogate. -/
theorem encodeChar_three {n m k : Nat} (h : 0xE0 ≤ n ∧ n < 0xF0)
    (hm : (if n = 0xE0 then 0xA0 else 0x80) ≤ m ∧ m ≤ if n = 0xED then 0x9F else 0xBF) (hk : 0x80 ≤ k ∧ k ≤ 0xBF) :
    String.utf8EncodeChar (Char.ofNat ((n % 0x10 * 0x40 + m % 0x40) * 0x40 + k % 0x40)) =
      [UInt8.ofNat n, UInt8.ofNat m, UInt8.ofNat k] := by
  have hlow : 0x80 ≤ m ∧ (n = 0xE0 → 0xA0 ≤ m) := by
    have := hm.1
    split at this <;> omega
  have hhigh : m ≤ 0xBF ∧ (n = 0xED → m ≤ 0x9F) := by
    have := hm.2
    split at this <;> omega
  clear hm
  generalize hv : (n % 0x10 * 0x40 + m % 0x40) * 0x40 + k % 0x40 = v
  have hn : v / 4096 % 0x10 + 0xE0 = n := by omega
  have hm' : v / 64 % 0x40 + 0x80 = m := by omega
  have hk' : v % 0x40 + 0x80 = k := by omega
  rw [String.utf8EncodeChar, val_ofNat (by omega), if_neg (by omega), if_neg (by omega), if_pos (by omega), hn, hm', hk']

/-- Four bytes are the character of their bits if these need four and are not past the last scalar value. -/
theorem encodeChar_four {n m k l : Nat} (h : 0xF0 ≤ n ∧ n < 0xF5)
    (hm : (if n = 0xF0 then 0x90 else 0x80) ≤ m ∧ m ≤ if n = 0xF4 then 0x8F else 0xBF) (hk : 0x80 ≤ k ∧ k ≤ 0xBF)
    (hl : 0x80 ≤ l ∧ l ≤ 0xBF) :
    String.utf8EncodeChar (Char.ofNat (((n % 0x08 * 0x40 + m % 0x40) * 0x40 + k % 0x40) * 0x40 + l % 0x40)) =
      [UInt8.ofNat n, UInt8.ofNat m, UInt8.ofNat k, UInt8.ofNat l] := by
  have hlow : 0x80 ≤ m ∧ (n = 0xF0 → 0x90 ≤ m) := by
    have := hm.1
    split at this <;> omega
  have hhigh : m ≤ 0xBF ∧ (n = 0xF4 → m ≤ 0x8F) := by
    have := hm.2
    split at this <;> omega
  clear hm
  generalize hv : ((n % 0x08 * 0x40 + m % 0x40) * 0x40 + k % 0x40) * 0x40 + l % 0x40 = v
  have hn : v / 262144 % 0x08 + 0xF0 = n := by omega
  have hm' : v / 4096 % 0x40 + 0x80 = m := by omega
  have hk' : v / 64 % 0x40 + 0x80 = k := by omega
  have hl' : v % 0x40 + 0x80 = l := by omega
  rw [String.utf8EncodeChar, val_ofNat (by omega), if_neg (by omega), if_neg (by omega), if_neg (by omega), hn, hm', hk', hl']

/-- What follows in a character starts with a byte between the bounds. -/
theorem exists_of_frontTail {seen bits low high owed count : Nat} {bytes rest : List UInt8} {c : Char} (hl : low < 0x100)
    (hh : high < 0x100)
    (h : frontTail seen bits (UInt8.ofNat low) (UInt8.ofNat high) (owed + 1) bytes = .char c count rest) :
    ∃ b tail, bytes = b :: tail ∧ (low ≤ b.toNat ∧ b.toNat ≤ high) ∧
      frontTail (seen + 1) (bits * 0x40 + b.toNat % 0x40) 0x80 0xBF owed tail = .char c count rest := by
  cases bytes with
  | nil => cases h
  | cons b tail =>
    rw [frontTail] at h
    split at h
    · next hb =>
      simp only [UInt8.le_iff_toNat_le, UInt8.toNat_ofNat', Nat.mod_eq_of_lt hl, Nat.mod_eq_of_lt hh] at hb
      exact ⟨b, tail, rfl, hb, h⟩
    · cases h

/-- Each later byte of a character lies in the second half. -/
theorem exists_of_frontTail_later {seen bits owed count : Nat} {bytes rest : List UInt8} {c : Char}
    (h : frontTail seen bits 0x80 0xBF (owed + 1) bytes = .char c count rest) :
    ∃ b tail, bytes = b :: tail ∧ (0x80 ≤ b.toNat ∧ b.toNat ≤ 0xBF) ∧
      frontTail (seen + 1) (bits * 0x40 + b.toNat % 0x40) 0x80 0xBF owed tail = .char c count rest :=
  exists_of_frontTail (by decide) (by decide) h

/-- The bytes at the front that are read as a character are those of the character. -/
theorem cons_eq_of_front {b : UInt8} {count : Nat} {bytes rest : List UInt8} {c : Char}
    (h : front b bytes = .char c count rest) : b :: bytes = String.utf8EncodeChar c ++ rest := by
  have hb := b.toNat_lt
  rw [← UInt8.ofNat_toNat (x := b)] at h ⊢
  generalize b.toNat = n at h hb ⊢
  rw [front, Lead.ofByte?_ofNat hb] at h
  split at h
  · cases h
  · next lead hlead =>
    split at hlead
    · next h1 =>
      cases hlead
      cases h
      rw [encodeChar_one h1, List.singleton_append]
    · split at hlead
      · cases hlead
      · split at hlead
        · cases hlead
          obtain ⟨m, _, rfl, hm, h⟩ := exists_of_frontTail_later h
          cases h
          simp only [encodeChar_two (show 0xC2 ≤ n ∧ n < 0xE0 by omega) hm, UInt8.ofNat_toNat, List.cons_append, List.nil_append]
        · split at hlead
          · cases hlead
            obtain ⟨m, _, rfl, hm, h⟩ := exists_of_frontTail (by split <;> decide) (by split <;> decide) h
            obtain ⟨k, _, rfl, hk, h⟩ := exists_of_frontTail_later h
            cases h
            simp only [encodeChar_three (show 0xE0 ≤ n ∧ n < 0xF0 by omega) hm hk, UInt8.ofNat_toNat, List.cons_append,
              List.nil_append]
          · split at hlead
            · cases hlead
              obtain ⟨m, _, rfl, hm, h⟩ := exists_of_frontTail (by split <;> decide) (by split <;> decide) h
              obtain ⟨k, _, rfl, hk, h⟩ := exists_of_frontTail_later h
              obtain ⟨l, _, rfl, hl, h⟩ := exists_of_frontTail_later h
              cases h
              simp only [encodeChar_four (show 0xF0 ≤ n ∧ n < 0xF5 by omega) hm hk hl, UInt8.ofNat_toNat, List.cons_append,
                List.nil_append]
            · cases hlead

/-- Bytes that are read as a text are those of the text, whatever the index of the first one. -/
theorem encode_of_decodeFrom {index : Nat} {bytes : List UInt8} {cs : List Char} (h : decodeFrom index bytes = .ok cs) :
    encode cs = bytes := by
  fun_induction decodeFrom index bytes generalizing cs with
  | case1 index =>
    cases h
    rfl
  | case2 index b bytes c count rest hfront _ ih =>
    rw [cons_eq_of_front hfront]
    cases hrest : decodeFrom (index + count) rest with
    | error fault =>
      rw [hrest] at h
      cases h
    | ok tail =>
      rw [hrest] at h
      cases h
      rw [← ih hrest]
      rfl
  | case3 => cases h
  | case4 => cases h

/-- Bytes that are read as a text are those of the text. -/
theorem encode_of_decode {bytes : List UInt8} {cs : List Char} (h : decode bytes = .ok cs) : encode cs = bytes :=
  encode_of_decodeFrom h

/-! ## Texts without a zero -/

/-- Only the character that ends stored texts has a zero byte. -/
theorem zero_notMem_encodeChar {c : Char} (h : c ≠ '\x00') : 0 ∉ String.utf8EncodeChar c := by
  have hz : c.val.toNat ≠ 0 := by
    intro hz
    apply h
    rw [← Char.ofNat_toNat c]
    show Char.ofNat c.val.toNat = _
    rw [hz]
  have hne : ∀ n : Nat, n < 0x100 → n ≠ 0 → (0 : UInt8) ≠ UInt8.ofNat n := by
    intro n hn h0 he
    have := congrArg UInt8.toNat he
    rw [UInt8.toNat_ofNat', Nat.mod_eq_of_lt hn] at this
    exact h0 this.symm
  have hv : c.val.toNat < 0xD800 ∨ 0xDFFF < c.val.toNat ∧ c.val.toNat < 0x110000 := c.valid
  unfold String.utf8EncodeChar
  dsimp only
  generalize c.val.toNat = v at hz hv ⊢
  split
  · simp only [List.mem_singleton]
    exact hne _ (by omega) hz
  · split
    · simp only [List.mem_cons, List.not_mem_nil, or_false, not_or]
      exact ⟨hne _ (by omega) (by omega), hne _ (by omega) (by omega)⟩
    · split
      · simp only [List.mem_cons, List.not_mem_nil, or_false, not_or]
        exact ⟨hne _ (by omega) (by omega), hne _ (by omega) (by omega), hne _ (by omega) (by omega)⟩
      · simp only [List.mem_cons, List.not_mem_nil, or_false, not_or]
        exact ⟨hne _ (by omega) (by omega), hne _ (by omega) (by omega), hne _ (by omega) (by omega),
          hne _ (by omega) (by omega)⟩

end ManagedSymbols.Utf8
