import ManagedSymbols.Proofs.Reader.Sound
import ManagedSymbols.Proofs.Reader.Texts

/-!
# The two readers of UTF-16 texts

One reader takes units until a zero unit, the other takes a whole field and looks at its units afterwards. Where one of the units of
the field is zero, both see the units in front of the first zero unit (`Buffer.units`, `Reader.unitsToZero_of_first`,
`Reader.takeWhile_units`) and give the answer that these spell (`Reader.spelling`). They differ in where they stop. The units that
are seen are those of the text that is read, so each reader inverts the stored form (`Reader.utf16_readers_agree`).
-/

namespace ManagedSymbols

namespace Buffer

variable {b : Buffer} {p : Nat}

/-- The units that are stored from a position on, so many of them. -/
def units (b : Buffer) (p n : Nat) : List UInt16 :=
  (List.range n).map fun i => b.word16 (p + 2 * i)

@[simp] theorem length_units (b : Buffer) (p n : Nat) : (b.units p n).length = n := by
  rw [units, List.length_map, List.length_range]

/-- A unit is seen exactly if it is stored at one of the places. -/
theorem mem_units_iff {n : Nat} {u : UInt16} : u ∈ b.units p n ↔ ∃ i < n, b.word16 (p + 2 * i) = u := by
  simp only [units, List.mem_map, List.mem_range]

theorem units_succ (b : Buffer) (p n : Nat) : b.units p (n + 1) = b.units p n ++ [b.word16 (p + 2 * n)] := by
  rw [units, List.range_succ, List.map_append, List.map_singleton, units]

theorem units_add (b : Buffer) (p m n : Nat) : b.units p (m + n) = b.units p m ++ b.units (p + 2 * m) n := by
  induction n with
  | zero => simp [units]
  | succ n ih => rw [← Nat.add_assoc, units_succ, ih, units_succ, List.append_assoc, Nat.mul_add, Nat.add_assoc]

/-- Where two bytes are left, the stored form of a unit is held. -/
theorem holds_word16 (h : p + 2 ≤ b.size) : b.Holds p (Layout.word16 (b.word16 p)) := by
  obtain ⟨_, rfl, hheld, _⟩ := Reader.Sound.u16 b p _ _ (Reader.run_u16_word h)
  exact hheld

/-- Where twice as many bytes are left, the stored form of the units is held. -/
theorem holds_units {n : Nat} (h : p + 2 * n ≤ b.size) : b.Holds p (Layout.units (b.units p n)) := by
  induction n with
  | zero => exact Holds.left (show b.Holds p ([] ++ b.slice p (p + 2 * 0)) from .slice h)
  | succ n ih =>
    rw [units_succ, Layout.units, List.flatMap_append, List.flatMap_singleton]
    refine (ih (by omega)).append ?_
    rw [Reader.length_units, length_units]
    exact holds_word16 (by omega)

end Buffer

namespace Reader

variable {b : Buffer} {p n k : Nat}

/-! ## What units spell -/

/-- The answer that units give which started at this position. -/
def spelling (start : Nat) (units : List UInt16) : Except Fault String :=
  match Utf16.decode? units with
  | some cs => .ok (String.ofList cs)
  | none => .error (.malformed (.utf16Text start))

/-- Units are spelled where the cursor stands. -/
theorem run_spell (start : Nat) (us : List UInt16) (b : Buffer) (p : Nat) : spell start us b p = (spelling start us, p) := by
  unfold spell spelling
  cases Utf16.decode? us <;> rfl

/-- Units spell a text exactly if they are its units. -/
theorem spelling_eq_ok_iff {start : Nat} {us : List UInt16} {s : String} :
    spelling start us = .ok s ↔ Utf16.encode s.toList = us := by
  rw [← Utf16.decode?_eq_some_iff, spelling]
  cases Utf16.decode? us with
  | none => exact iff_of_false nofun nofun
  | some cs =>
    simp only [Except.ok.injEq, Option.some.injEq]
    constructor
    · rintro rfl
      exact String.toList_ofList.symm
    · rintro rfl
      exact String.ofList_toList

/-- Units spell no text exactly if half of a surrogate pair stands alone among them, and the fault tells where they started. -/
theorem spelling_eq_error_iff {start : Nat} {us : List UInt16} {e : Fault} :
    spelling start us = .error e ↔ e = .malformed (.utf16Text start) ∧ Utf16.LoneHalf us := by
  rw [← Utf16.decode?_eq_none_iff, spelling]
  cases Utf16.decode? us with
  | none =>
    simp only [Except.error.injEq, and_true]
    exact eq_comm
  | some cs => exact iff_of_false nofun nofun

/-! ## What the readers see -/

/-- Up to the first zero unit, the units in front of it are taken, and that one with them. -/
theorem unitsToZero_of_first (hroom : p + 2 * (k + 1) ≤ b.size) (hzero : b.word16 (p + 2 * k) = 0) (hfirst : 0 ∉ b.units p k) :
    unitsToZero b p = (.ok (b.units p k), p + 2 * (k + 1)) := by
  have hheld := Buffer.holds_units hroom
  rw [Buffer.units_succ, hzero] at hheld
  have htaken := unitsToZero_reads p hfirst b hheld
  rwa [length_units, List.length_append, Buffer.length_units] at htaken

/-- Of the units of a field, those in front of the first zero unit are kept. -/
theorem takeWhile_units (hk : k < n) (hzero : b.word16 (p + 2 * k) = 0) (hfirst : 0 ∉ b.units p k) :
    (b.units p n).takeWhile (· ≠ 0) = b.units p k := by
  obtain ⟨m, rfl⟩ : ∃ m, n = k + 1 + m := ⟨n - (k + 1), by omega⟩
  rw [Buffer.units_add, Buffer.units_succ, hzero, List.append_assoc, List.takeWhile_append_of_pos]
  · rw [List.singleton_append, List.takeWhile_cons_of_neg (by decide), List.append_nil]
  · intro u hu
    simp only [decide_eq_true_eq]
    rintro rfl
    exact hfirst hu

/-- A field that the buffer holds gives the answer that its units in front of the first zero unit spell. -/
theorem run_fixedUtf16 (hroom : p + 2 * n ≤ b.size) :
    fixedUtf16 n b p = (spelling p ((b.units p n).takeWhile (· ≠ 0)), p + 2 * n) := by
  have hlength : (Layout.units (b.units p n)).length = 2 * n := by rw [length_units, Buffer.length_units]
  have hfield := Reads.bytes p hlength b (Buffer.holds_units hroom)
  rw [hlength] at hfield
  simp only [fixedUtf16, run_bind, position, hfield]
  rw [unitsOfBytes_units, run_spell]

/-- A text that ends at a zero unit gives the answer that the units in front of it spell. -/
theorem run_utf16_of_units {us : List UInt16} {q : Nat} (h : unitsToZero b p = (.ok us, q)) :
    utf16 b p = (spelling p us, q) := by
  rw [utf16, run_bind_ok (show position b p = (.ok p, p) from rfl), run_bind_ok h, run_spell]

/-- The bytes end in front of a zero unit if none of the whole units that are left is zero. -/
theorem unitsToZero_of_none (hnone : ∀ i, p + 2 * i + 2 ≤ b.size → b.word16 (p + 2 * i) ≠ 0) :
    ∃ q, unitsToZero b p = (.error .outOfBounds, q) := by
  induction hleft : b.size - p using Nat.strongRecOn generalizing p with
  | _ left ih =>
    by_cases hroom : p + 2 ≤ b.size
    · have hfirst : b.word16 p ≠ 0 := hnone 0 hroom
      have hbehind : ∀ i, p + 2 + 2 * i + 2 ≤ b.size → b.word16 (p + 2 + 2 * i) ≠ 0 := by
        intro i hi
        have hlater := hnone (i + 1)
        rw [Nat.mul_succ, Nat.add_comm (2 * i), ← Nat.add_assoc] at hlater
        exact hlater hi
      obtain ⟨q, hrest⟩ := ih _ (by omega) hbehind rfl
      exact ⟨q, by rw [unitsToZero_of_u16 (run_u16_word hroom), if_neg hfirst, hrest]⟩
    · have hend : u16 b p = (.error .outOfBounds, p) := by rw [run_u16, if_neg hroom]
      exact ⟨p, (congrFun (congrFun unitsToZero_eq b) p).trans (run_bind_error hend _)⟩

/-- Of whole units that are left, some of them zero, one is the first that is zero. -/
theorem exists_first_zero {i : Nat} (hzero : b.word16 (p + 2 * i) = 0) :
    ∃ k ≤ i, b.word16 (p + 2 * k) = 0 ∧ 0 ∉ b.units p k := by
  induction i using Nat.strongRecOn with
  | _ i ih =>
    by_cases hearlier : 0 ∈ b.units p i
    · obtain ⟨j, hj, hword⟩ := Buffer.mem_units_iff.mp hearlier
      obtain ⟨k, hk, hfirst⟩ := ih j hj hword
      exact ⟨k, Nat.le_trans hk (Nat.le_of_lt hj), hfirst⟩
    · exact ⟨i, Nat.le_refl i, hzero, hearlier⟩

/-- The bytes end in front of the end of a text exactly if none of the whole units that are left is zero. -/
theorem utf16_eq_outOfBounds_iff :
    (utf16 b p).1 = .error .outOfBounds ↔ ∀ i, p + 2 * i + 2 ≤ b.size → b.word16 (p + 2 * i) ≠ 0 := by
  constructor
  · intro hfails i hroom hzero
    obtain ⟨k, hk, hzero, hfirst⟩ := exists_first_zero hzero
    rw [run_utf16_of_units (unitsToZero_of_first (by omega) hzero hfirst)] at hfails
    cases (spelling_eq_error_iff.mp hfails).1
  · intro hnone
    obtain ⟨q, hunits⟩ := unitsToZero_of_none hnone
    rw [utf16, run_bind_ok (show position b p = (.ok p, p) from rfl), run_bind_error hunits]

/-! ## The two readers -/

/-- Both readers of UTF-16 texts invert the stored form: a text is read from its units up to the zero unit behind them, and from a
field of any width that has room for its units, all of which is consumed. On any bytes that hold a field with a zero unit they give
the same answer, with the cursor behind the first zero unit and behind the field: the text whose units stand in front of the first
zero unit, or the fault that half of a surrogate pair stands alone among them. The reader that looks for a zero unit reads past the
bytes exactly if none of the whole units that are left is zero. -/
theorem utf16_readers_agree (b : Buffer) (p : Nat) :
    (∀ s, Layout.NulFree s → b.Holds p (Layout.utf16 s) →
      utf16 b p = (.ok s, p + 2 * ((Utf16.encode s.toList).length + 1))) ∧
    (∀ s n, Layout.NulFree s → (Utf16.encode s.toList).length ≤ n → b.Holds p (Layout.utf16Field n s) →
      fixedUtf16 n b p = (.ok s, p + 2 * n)) ∧
    (∀ n, p + 2 * n ≤ b.size → 0 ∈ b.units p n → ∃ k answer, k < n ∧ b.word16 (p + 2 * k) = 0 ∧ 0 ∉ b.units p k ∧
      utf16 b p = (answer, p + 2 * (k + 1)) ∧ fixedUtf16 n b p = (answer, p + 2 * n) ∧
      (∀ s, answer = .ok s ↔ Utf16.encode s.toList = b.units p k) ∧
      (∀ e, answer = .error e ↔ e = .malformed (.utf16Text p) ∧ Utf16.LoneHalf (b.units p k))) ∧
    ((utf16 b p).1 = .error .outOfBounds ↔ ∀ i, p + 2 * i + 2 ≤ b.size → b.word16 (p + 2 * i) ≠ 0) := by
  refine ⟨?_, ?_, ?_, utf16_eq_outOfBounds_iff⟩
  · intro s hs hheld
    have hread := Reads.utf16 p hs b hheld
    rwa [Layout.utf16, length_units, List.length_append, List.length_singleton] at hread
  · intro s n hs hn hheld
    have hzeros : ∀ u ∈ (List.replicate (n - (Utf16.encode s.toList).length) (0 : UInt16)).head?, u = 0 := by
      intro u hu
      exact List.eq_of_mem_replicate (List.mem_of_head? hu)
    have hwidth : (Utf16.encode s.toList).length +
        (List.replicate (n - (Utf16.encode s.toList).length) (0 : UInt16)).length = n := by
      rw [List.length_replicate, Nat.add_sub_cancel' hn]
    have hread := Reads.fixedUtf16 p hs hzeros hwidth b hheld
    rwa [length_units, List.length_append, hwidth] at hread
  · intro n hroom hmem
    obtain ⟨i, hi, hzero⟩ := Buffer.mem_units_iff.mp hmem
    obtain ⟨k, hk, hzero, hfirst⟩ := exists_first_zero hzero
    have hk : k < n := Nat.lt_of_le_of_lt hk hi
    refine ⟨k, spelling p (b.units p k), hk, hzero, hfirst, ?_, ?_, fun s => spelling_eq_ok_iff, fun e => spelling_eq_error_iff⟩
    · exact run_utf16_of_units (unitsToZero_of_first (by omega) hzero hfirst)
    · rw [run_fixedUtf16 hroom, takeWhile_units hk hzero hfirst]

/-- A text whose second character takes two units, with its zero unit, and behind it a first half and half a unit. -/
def sampleHalves : Buffer where
  bytes := #[0x61, 0x00, 0x3D, 0xD8, 0x00, 0xDE, 0x00, 0x00, 0x00, 0xD8, 0xFF]
  size_lt := by decide

/-- Both readers read the text, with its zero unit and as a field of four units. From the middle of the pair on, both find half of
it alone, and the field does not end at the zero unit. Behind that, the bytes end in front of another one. -/
theorem utf16_readers_agree_sampleHalves :
    utf16 sampleHalves 0 = (.ok "a😀", 8) ∧ fixedUtf16 4 sampleHalves 0 = (.ok "a😀", 8) ∧
      utf16 sampleHalves 4 = (.error (.malformed (.utf16Text 4)), 8) ∧
      fixedUtf16 3 sampleHalves 4 = (.error (.malformed (.utf16Text 4)), 10) ∧
      (utf16 sampleHalves 8).1 = .error .outOfBounds := by
  obtain ⟨htext, hfield, -, -⟩ := utf16_readers_agree sampleHalves 0
  obtain ⟨-, -, hagree, -⟩ := utf16_readers_agree sampleHalves 4
  obtain ⟨-, -, -, hend⟩ := utf16_readers_agree sampleHalves 8
  have hwhole : sampleHalves.Holds 0 (Layout.utf16 "a😀") := ⟨[], [0x00, 0xD8, 0xFF], by decide, rfl⟩
  obtain ⟨k, answer, hk, hzero, hfirst, hread, hfixed, -, hfault⟩ := hagree 3 (by decide) (by decide)
  obtain rfl : k = 1 := by
    match k with
    | 0 => exact absurd hzero (by decide)
    | 1 => rfl
    | 2 => exact absurd (by decide) hfirst
  obtain rfl : answer = .error (.malformed (.utf16Text 4)) :=
    (hfault _).mpr ⟨rfl, Utf16.decode?_eq_none_iff.mp (by decide)⟩
  refine ⟨htext "a😀" (by decide) hwhole, hfield "a😀" 4 (by decide) (by decide) hwhole, hread, hfixed, hend.mpr ?_⟩
  intro i hroom
  obtain rfl : i = 0 := by
    have : sampleHalves.size = 11 := rfl
    omega
  decide

end Reader

end ManagedSymbols
