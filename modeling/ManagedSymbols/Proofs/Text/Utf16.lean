import ManagedSymbols.Text.Utf16

/-!
# UTF-16: what is written is read back, and what is read was written

The units of a character are read back as that character, whatever is behind them (`decode?_encodeChar`), so a text is read back
from its units (`decode?_encode`). Conversely, the units that are read as a text are those of the text (`decode?_eq_some_iff`), and
units are read as no text exactly if half of a surrogate pair stands alone among them (`decode?_eq_none_iff`). No unit is zero as
long as the text is free of the character that ends stored texts.
-/

namespace ManagedSymbols.Utf16

/-- A unit outside the surrogate range is no half of a pair. -/
theorem not_surrogate_ofNat {n : Nat} (h : n < 0x10000) (hn : n < 0xD800 ∨ 0xDFFF < n) :
    isHigh (UInt16.ofNat n) = false ∧ isLow (UInt16.ofNat n) = false := by
  have ht : (UInt16.ofNat n).toNat = n := by rw [UInt16.toNat_ofNat', Nat.mod_eq_of_lt h]
  constructor
  · simp only [isHigh, Bool.and_eq_false_iff, decide_eq_false_iff_not, UInt16.le_iff_toNat_le, UInt16.lt_iff_toNat_lt, ht,
      UInt16.reduceToNat]
    omega
  · simp only [isLow, Bool.and_eq_false_iff, decide_eq_false_iff_not, UInt16.le_iff_toNat_le, UInt16.lt_iff_toNat_lt, ht,
      UInt16.reduceToNat]
    omega

/-- The text of a unit that is a character of its own, and of the units behind it. -/
theorem decode?_cons_plain {u : UInt16} (us : List UInt16) (h : isHigh u = false ∧ isLow u = false) :
    decode? (u :: us) = (decode? us).map (Char.ofNat u.toNat :: ·) := by
  cases us with
  | nil => simp [decode?, h]
  | cons v rest => simp [decode?, h]

/-- The text of a pair of halves, and of the units behind it. -/
theorem decode?_cons_pair {u v : UInt16} (us : List UInt16) (hu : isHigh u = true) (hv : isLow v = true) :
    decode? (u :: v :: us) = (decode? us).map (joinPair u v :: ·) := by
  simp [decode?, hu, hv]

/-- The units of a character are read back as that character, whatever is behind them. -/
theorem decode?_encodeChar (c : Char) (us : List UInt16) :
    decode? (encodeChar c ++ us) = (decode? us).map (c :: ·) := by
  have hc : Char.ofNat c.toNat = c := Char.ofNat_toNat c
  have hv : c.toNat < 0xD800 ∨ 0xDFFF < c.toNat ∧ c.toNat < 0x110000 := c.valid
  unfold encodeChar
  generalize c.toNat = v at hc hv ⊢
  split
  · next h =>
    rw [List.singleton_append, decode?_cons_plain us (not_surrogate_ofNat h (by omega))]
    simp only [UInt16.toNat_ofNat', Nat.mod_eq_of_lt h, hc]
  · next h =>
    dsimp only
    have h1 : (UInt16.ofNat (0xD800 + (v - 0x10000) / 0x400)).toNat = 0xD800 + (v - 0x10000) / 0x400 := by
      rw [UInt16.toNat_ofNat', Nat.mod_eq_of_lt (by omega)]
    have h2 : (UInt16.ofNat (0xDC00 + (v - 0x10000) % 0x400)).toNat = 0xDC00 + (v - 0x10000) % 0x400 := by
      rw [UInt16.toNat_ofNat', Nat.mod_eq_of_lt (by omega)]
    have hjoin : joinPair (UInt16.ofNat (0xD800 + (v - 0x10000) / 0x400))
        (UInt16.ofNat (0xDC00 + (v - 0x10000) % 0x400)) = c := by
      have hval : 0x10000 + (0xD800 + (v - 0x10000) / 0x400 - 0xD800) * 0x400 +
          (0xDC00 + (v - 0x10000) % 0x400 - 0xDC00) = v := by omega
      rw [joinPair, h1, h2, hval, hc]
    have hhigh : isHigh (UInt16.ofNat (0xD800 + (v - 0x10000) / 0x400)) = true := by
      simp only [isHigh, Bool.and_eq_true, decide_eq_true_eq, UInt16.le_iff_toNat_le, UInt16.lt_iff_toNat_lt, h1,
        UInt16.reduceToNat]
      omega
    have hlow : isLow (UInt16.ofNat (0xDC00 + (v - 0x10000) % 0x400)) = true := by
      simp only [isLow, Bool.and_eq_true, decide_eq_true_eq, UInt16.le_iff_toNat_le, UInt16.lt_iff_toNat_lt, h2,
        UInt16.reduceToNat]
      omega
    simp only [Nat.toUInt16, List.cons_append, List.nil_append]
    rw [decode?_cons_pair us hhigh hlow, hjoin]

/-- A text is read back from its units. -/
theorem decode?_encode (cs : List Char) : decode? (encode cs) = some cs := by
  induction cs with
  | nil => rfl
  | cons c cs ih =>
    have hs : encode (c :: cs) = encodeChar c ++ encode cs := rfl
    rw [hs, decode?_encodeChar, ih]
    rfl

/-! ## What is read was written -/

/-- The number of the character that a unit outside the surrogate range stands for. -/
theorem toNat_ofNat_plain {u : UInt16} (h : isHigh u = false ∧ isLow u = false) : (Char.ofNat u.toNat).toNat = u.toNat := by
  have hlt := u.toNat_lt
  simp only [isHigh, isLow, Bool.and_eq_false_iff, decide_eq_false_iff_not, UInt16.le_iff_toNat_le, UInt16.lt_iff_toNat_lt,
    UInt16.reduceToNat] at h
  rw [Char.ofNat, dif_pos (show u.toNat < 0xD800 ∨ 0xDFFF < u.toNat ∧ u.toNat < 0x110000 by omega)]
  rfl

/-- A unit outside the surrogate range is the only one of its character. -/
theorem encodeChar_plain {u : UInt16} (h : isHigh u = false ∧ isLow u = false) : encodeChar (Char.ofNat u.toNat) = [u] := by
  rw [encodeChar, toNat_ofNat_plain h, if_pos u.toNat_lt, Nat.toUInt16, UInt16.ofNat_toNat]

/-- The units of the character that two halves of a pair make are the two halves. -/
theorem encodeChar_joinPair {u v : UInt16} (hu : isHigh u = true) (hv : isLow v = true) : encodeChar (joinPair u v) = [u, v] := by
  simp only [isHigh, isLow, Bool.and_eq_true, decide_eq_true_eq, UInt16.le_iff_toNat_le, UInt16.lt_iff_toNat_lt,
    UInt16.reduceToNat] at hu hv
  obtain ⟨n, hn⟩ : ∃ n, n = 0x10000 + (u.toNat - 0xD800) * 0x400 + (v.toNat - 0xDC00) := ⟨_, rfl⟩
  have hvalue : (joinPair u v).toNat = n := by
    rw [joinPair, ← hn, Char.ofNat, dif_pos (show n < 0xD800 ∨ 0xDFFF < n ∧ n < 0x110000 by omega)]
    rfl
  have hhigh : 0xD800 + (n - 0x10000) / 0x400 = u.toNat := by omega
  have hlow : 0xDC00 + (n - 0x10000) % 0x400 = v.toNat := by omega
  rw [encodeChar, hvalue, if_neg (by omega)]
  simp only [hhigh, hlow, Nat.toUInt16, UInt16.ofNat_toNat]

/-- Units that are read as a text are those of the text. -/
theorem encode_of_decode? {us : List UInt16} {cs : List Char} (h : decode? us = some cs) : encode cs = us := by
  fun_induction decode? us generalizing cs with
  | case1 =>
    cases h
    rfl
  | case2 u hu => cases h
  | case3 u hu =>
    cases h
    simp only [Bool.not_eq_true, Bool.or_eq_false_iff] at hu
    show encodeChar (Char.ofNat u.toNat) ++ [] = _
    rw [encodeChar_plain hu, List.append_nil]
  | case4 u v rest hu hv ih =>
    obtain ⟨tail, htail, rfl⟩ := Option.map_eq_some_iff.mp h
    show encodeChar (joinPair u v) ++ encode tail = _
    rw [encodeChar_joinPair hu hv, ih htail]
    rfl
  | case5 u v rest hu hv => cases h
  | case6 u v rest hu hl => cases h
  | case7 u v rest hu hl ih =>
    obtain ⟨tail, htail, rfl⟩ := Option.map_eq_some_iff.mp h
    simp only [Bool.not_eq_true] at hu hl
    show encodeChar (Char.ofNat u.toNat) ++ encode tail = _
    rw [encodeChar_plain ⟨hu, hl⟩, ih htail]
    rfl

/-- Units are read as a text exactly if they are those of the text. -/
theorem decode?_eq_some_iff {us : List UInt16} {cs : List Char} : decode? us = some cs ↔ encode cs = us := by
  constructor
  · exact encode_of_decode?
  · rintro rfl
    exact decode?_encode cs

/-! ## Halves that stand alone -/

/-- At this place stands half of a surrogate pair alone: a first half that no second half follows, or a second half behind no first
half. -/
def AloneAt (us : List UInt16) (i : Nat) : Prop :=
  ∃ u, us[i]? = some u ∧
    ((isHigh u = true ∧ ∀ v, us[i + 1]? = some v → isLow v = false) ∨
      (isLow u = true ∧ ∀ j v, i = j + 1 → us[j]? = some v → isHigh v = false))

/-- Half of a surrogate pair stands alone among the units. -/
def LoneHalf (us : List UInt16) : Prop :=
  ∃ i, AloneAt us i

/-- No unit is both halves of a pair. -/
theorem isLow_of_isHigh {u : UInt16} (h : isHigh u = true) : isLow u = false := by
  simp only [isHigh, isLow, Bool.and_eq_true, Bool.and_eq_false_iff, decide_eq_true_eq, decide_eq_false_iff_not,
    UInt16.le_iff_toNat_le, UInt16.lt_iff_toNat_lt, UInt16.reduceToNat] at h ⊢
  omega

section AloneAt

variable {u v : UInt16} {us : List UInt16} {i : Nat}

/-- In front of a unit that is no second half, a first half stands alone. -/
theorem aloneAt_zero_of_high (hu : isHigh u = true) (h : ∀ v ∈ us.head?, isLow v = false) : AloneAt (u :: us) 0 := by
  refine ⟨u, rfl, .inl ⟨hu, fun v hv => ?_⟩⟩
  rw [List.getElem?_cons_succ, ← List.head?_eq_getElem?] at hv
  exact h v hv

/-- A second half that is the first of the units stands alone. -/
theorem aloneAt_zero_of_low (hu : isLow u = true) : AloneAt (u :: us) 0 := by
  refine ⟨u, rfl, .inr ⟨hu, ?_⟩⟩
  rintro j v ⟨⟩

/-- The first unit does not stand alone if it is no second half and, as a first half, has a second half behind it. -/
theorem not_aloneAt_zero (hl : isLow u = false) (h : isHigh u = true → ∃ v, us[0]? = some v ∧ isLow v = true) :
    ¬ AloneAt (u :: us) 0 := by
  rintro ⟨w, hw, halone⟩
  obtain rfl : u = w := Option.some.inj hw
  rcases halone with ⟨hhigh, hnext⟩ | ⟨hlow, -⟩
  · obtain ⟨v, hv, hlow⟩ := h hhigh
    exact absurd hlow (by rw [hnext v hv]; decide)
  · exact absurd hlow (by rw [hl]; decide)

/-- A unit in front makes no difference to a place behind it, unless it is a first half right in front of that place. -/
theorem aloneAt_succ_iff (h : i = 0 → isHigh v = false) : AloneAt (v :: us) (i + 1) ↔ AloneAt us i := by
  constructor
  · rintro ⟨w, hw, halone⟩
    refine ⟨w, hw, halone.imp_right fun ⟨hlow, hbehind⟩ => ⟨hlow, ?_⟩⟩
    rintro j x rfl hx
    exact hbehind (j + 1) x rfl hx
  · rintro ⟨w, hw, halone⟩
    refine ⟨w, hw, halone.imp_right fun ⟨hlow, hbehind⟩ => ⟨hlow, ?_⟩⟩
    rintro j x hj hx
    obtain rfl : i = j := Nat.succ.inj hj
    cases i with
    | zero =>
      obtain rfl : v = x := Option.some.inj hx
      exact h rfl
    | succ i => exact hbehind i x rfl hx

/-- Behind a unit that is no half of a pair, a half stands alone exactly if it does so without that unit in front. -/
theorem loneHalf_plain_iff (hu : isHigh u = false) (hl : isLow u = false) : LoneHalf (u :: us) ↔ LoneHalf us := by
  constructor
  · rintro ⟨_ | i, halone⟩
    · exact absurd halone (not_aloneAt_zero hl (by simp [hu]))
    · exact ⟨i, (aloneAt_succ_iff fun _ => hu).mp halone⟩
  · rintro ⟨i, halone⟩
    exact ⟨i + 1, (aloneAt_succ_iff fun _ => hu).mpr halone⟩

/-- Behind a pair, a half stands alone exactly if it does so without the pair in front. -/
theorem loneHalf_pair_iff (hu : isHigh u = true) (hv : isLow v = true) : LoneHalf (u :: v :: us) ↔ LoneHalf us := by
  have hv' : isHigh v = false := by
    cases hhigh : isHigh v with
    | false => rfl
    | true => rw [isLow_of_isHigh hhigh] at hv; cases hv
  constructor
  · rintro ⟨_ | _ | i, halone⟩
    · exact absurd halone (not_aloneAt_zero (isLow_of_isHigh hu) fun _ => ⟨v, rfl, hv⟩)
    · -- The second half of the pair stands behind the first one.
      obtain ⟨w, hw, ⟨hhigh, -⟩ | ⟨-, hbehind⟩⟩ := halone
      · obtain rfl : v = w := Option.some.inj hw
        exact absurd hhigh (by rw [hv']; decide)
      · exact absurd hu (by rw [hbehind 0 u rfl rfl]; decide)
    · have hsecond : AloneAt (v :: us) (i + 1) := (aloneAt_succ_iff fun h => absurd h (Nat.succ_ne_zero i)).mp halone
      exact ⟨i, (aloneAt_succ_iff fun _ => hv').mp hsecond⟩
  · rintro ⟨i, halone⟩
    have hsecond : AloneAt (v :: us) (i + 1) := (aloneAt_succ_iff fun _ => hv').mpr halone
    exact ⟨i + 2, (aloneAt_succ_iff fun h => absurd h (Nat.succ_ne_zero i)).mpr hsecond⟩

end AloneAt

/-- Units are read as no text exactly if half of a pair stands alone among them. -/
theorem decode?_eq_none_iff {us : List UInt16} : decode? us = none ↔ LoneHalf us := by
  fun_induction decode? us with
  | case1 =>
    refine iff_of_false nofun ?_
    rintro ⟨_, _, ⟨⟩, _⟩
  | case2 u hu =>
    refine iff_of_true rfl ⟨0, ?_⟩
    rcases Bool.or_eq_true_iff.mp hu with hu | hu
    · exact aloneAt_zero_of_high hu nofun
    · exact aloneAt_zero_of_low hu
  | case3 u hu =>
    simp only [Bool.not_eq_true, Bool.or_eq_false_iff] at hu
    refine iff_of_false nofun fun hlone => ?_
    obtain ⟨_, _, ⟨⟩, _⟩ := (loneHalf_plain_iff hu.1 hu.2).mp hlone
  | case4 u v rest hu hv ih => rw [Option.map_eq_none_iff, ih, loneHalf_pair_iff hu hv]
  | case5 u v rest hu hv =>
    refine iff_of_true rfl ⟨0, aloneAt_zero_of_high hu ?_⟩
    rintro _ ⟨⟩
    exact eq_false_of_ne_true hv
  | case6 u v rest hu hl => exact iff_of_true rfl ⟨0, aloneAt_zero_of_low hl⟩
  | case7 u v rest hu hl ih =>
    rw [Option.map_eq_none_iff, ih, loneHalf_plain_iff (eq_false_of_ne_true hu) (eq_false_of_ne_true hl)]

/-! ## Texts without a zero -/

/-- Only the character that ends stored texts has a zero unit. -/
theorem zero_notMem_encode {cs : List Char} (h : '\x00' ∉ cs) : 0 ∉ encode cs := by
  have hne : ∀ n : Nat, n < 0x10000 → n ≠ 0 → (0 : UInt16) ≠ UInt16.ofNat n := by
    intro n hn h0 he
    have := congrArg UInt16.toNat he
    rw [UInt16.toNat_ofNat', Nat.mod_eq_of_lt hn] at this
    exact h0 this.symm
  intro hm
  obtain ⟨c, hc, hu⟩ := List.mem_flatMap.mp hm
  have hz : c.toNat ≠ 0 := by
    intro hz
    apply h
    have : c = '\x00' := by rw [← Char.ofNat_toNat c, hz]
    rwa [← this]
  have hv : c.toNat < 0xD800 ∨ 0xDFFF < c.toNat ∧ c.toNat < 0x110000 := c.valid
  unfold encodeChar at hu
  generalize c.toNat = v at hu hz hv
  split at hu
  · exact hne _ (by omega) hz (List.mem_singleton.mp hu)
  · simp only [List.mem_cons, List.not_mem_nil, or_false] at hu
    rcases hu with hu | hu
    · exact hne _ (by omega) (by omega) hu
    · exact hne _ (by omega) (by omega) hu

end ManagedSymbols.Utf16
