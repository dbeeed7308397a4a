import ManagedSymbols.Reader

/-!
# What a read that succeeds has done

Each step of a reader that succeeds is told apart from the whole: a sequence succeeds when its two parts do, one behind the other
(`exists_of_bind`), and each read of fixed size has taken the bytes at the cursor. Words at a position are named
(`Buffer.word8`, `Buffer.word16`, `Buffer.word32`), since two reads of the same word find the same.
-/

namespace ManagedSymbols

/-- The byte that is stored at a position. -/
def Buffer.word8 (b : Buffer) (p : Nat) : UInt8 :=
  UInt8.ofNat (LittleEndian.value (b.slice p (p + 1)))

/-- The 16-bit word that is stored at a position. -/
def Buffer.word16 (b : Buffer) (p : Nat) : UInt16 :=
  UInt16.ofNat (LittleEndian.value (b.slice p (p + 2)))

/-- The 32-bit word that is stored at a position. -/
def Buffer.word32 (b : Buffer) (p : Nat) : UInt32 :=
  UInt32.ofNat (LittleEndian.value (b.slice p (p + 4)))

namespace Reader

variable {α β : Type} {b : Buffer} {p q : Nat} {c : β} {a : α}

/-- A sequence that succeeds is two reads that succeed. -/
theorem exists_of_bind {r : Reader α} {next : α → Reader β} (h : (r >>= next) b p = (.ok c, q)) :
    ∃ a s, r b p = (.ok a, s) ∧ next a b s = (.ok c, q) := by
  rw [run_bind] at h
  split at h
  · next a s hr => exact ⟨a, s, hr, h⟩
  · cases h

theorem of_pure {found : α} (h : (pure a : Reader α) b p = (.ok found, q)) : a = found ∧ p = q := by
  rw [run_pure] at h
  cases h
  exact ⟨rfl, rfl⟩

/-- What is mapped has been read. -/
theorem exists_of_map {f : α → β} {r : Reader α} (h : (f <$> r) b p = (.ok c, q)) : ∃ a, r b p = (.ok a, q) ∧ f a = c := by
  rw [run_map] at h
  cases hr : r b p with
  | mk answer s =>
    rw [hr] at h
    cases answer with
    | error e => cases h
    | ok a =>
      cases h
      exact ⟨a, rfl, rfl⟩

/-- A check that passes has its answer, and the cursor stays. -/
theorem of_check {answer : Except Fault α} (h : check answer b p = (.ok a, q)) : answer = .ok a ∧ p = q := by
  cases h
  exact ⟨rfl, rfl⟩

/-- A sequence whose check passes goes on with the checked value. -/
theorem run_bind_check {answer : Except Fault α} (h : answer = .ok a) (next : α → Reader β) (b : Buffer) (p : Nat) :
    (check answer >>= next) b p = next a b p := by
  subst h
  rfl

/-- What is required holds, and the cursor stays. -/
theorem of_require {condition : Prop} [Decidable condition] {e : Fault} (h : require condition e b p = (.ok (), q)) :
    condition ∧ p = q := by
  rw [run_require] at h
  split at h
  · next hc =>
    cases h
    exact ⟨hc, rfl⟩
  · cases h

/-- A number that is handed on is a word, and the cursor stays. -/
theorem of_fits {n m : Nat} (h : fits n b p = (.ok m, q)) : n < 0x10000000000000000 ∧ m = n ∧ p = q := by
  rw [run_fits] at h
  split at h
  · next hn =>
    cases h
    exact ⟨hn, rfl, rfl⟩
  · cases h

/-- A cursor that is put somewhere is there, inside the buffer. -/
theorem of_seek {target : Nat} {u : Unit} (h : seek target b p = (.ok u, q)) : target ≤ b.size ∧ q = target := by
  rw [run_seek] at h
  split at h
  · next ht =>
    cases h
    exact ⟨ht, rfl⟩
  · cases h

/-- A step over bytes that succeeds stays in the buffer. -/
theorem of_advance {length : Nat} {u : Unit} (h : advance length b p = (.ok u, q)) : q = p + length ∧ q ≤ b.size := by
  rw [run_advance] at h
  split at h
  · next hp =>
    cases h
    exact ⟨rfl, hp⟩
  · cases h

/-- A byte is read where the buffer has it. -/
theorem run_u8_word (h : p + 1 ≤ b.size) : u8 b p = (.ok (b.word8 p), p + 1) := by
  simp only [u8, run_map, run_number, if_pos h]
  rfl

/-- A byte that is read is the one at the cursor. -/
theorem of_u8 {n : UInt8} (h : u8 b p = (.ok n, q)) : n = b.word8 p ∧ q = p + 1 ∧ q ≤ b.size := by
  simp only [u8, run_map, run_number] at h
  split at h
  · next hp =>
    cases h
    exact ⟨rfl, rfl, hp⟩
  · cases h

theorem run_u16_word (h : p + 2 ≤ b.size) : u16 b p = (.ok (b.word16 p), p + 2) := by
  rw [run_u16, if_pos h]
  rfl

theorem of_u16 {n : UInt16} (h : u16 b p = (.ok n, q)) : n = b.word16 p ∧ q = p + 2 ∧ q ≤ b.size := by
  rw [run_u16] at h
  split at h
  · next hp =>
    cases h
    exact ⟨rfl, rfl, hp⟩
  · cases h

theorem run_u32_word (h : p + 4 ≤ b.size) : u32 b p = (.ok (b.word32 p), p + 4) := by
  rw [run_u32, if_pos h]
  rfl

theorem of_u32 {n : UInt32} (h : u32 b p = (.ok n, q)) : n = b.word32 p ∧ q = p + 4 ∧ q ≤ b.size := by
  rw [run_u32] at h
  split at h
  · next hp =>
    cases h
    exact ⟨rfl, rfl, hp⟩
  · cases h

/-- The same read so many times succeeds exactly if there are positions, one behind the other, such that each value is what the read
gives from its position up to the next one. -/
theorem times_eq_ok_iff {r : Reader α} {n : Nat} {as : List α} :
    times n r b p = (.ok as, q) ↔ as.length = n ∧
      ∃ s : Nat → Nat, s 0 = p ∧ s n = q ∧ ∀ i (hi : i < as.length), r b (s i) = (.ok as[i], s (i + 1)) := by
  induction n generalizing p as with
  | zero =>
    constructor
    · intro h
      obtain ⟨rfl, rfl⟩ := of_pure h
      exact ⟨rfl, fun _ => p, rfl, rfl, fun i hi => absurd hi (Nat.not_lt_zero i)⟩
    · rintro ⟨hlength, s, rfl, rfl, _⟩
      obtain rfl := List.length_eq_zero_iff.mp hlength
      rfl
  | succ n ih =>
    constructor
    · intro h
      obtain ⟨a, c, hfirst, h⟩ := exists_of_bind h
      obtain ⟨rest, _, hrest, h⟩ := exists_of_bind h
      obtain ⟨rfl, rfl⟩ := of_pure h
      obtain ⟨hlength, s, rfl, hlast, heach⟩ := ih.mp hrest
      refine ⟨by rw [List.length_cons, hlength], fun i => i.casesOn p s, rfl, hlast, ?_⟩
      rintro (_ | i) hi
      · exact hfirst
      · exact heach i (Nat.lt_of_succ_lt_succ hi)
    · rintro ⟨hlength, s, rfl, rfl, heach⟩
      cases as with
      | nil => cases hlength
      | cons a rest =>
        have hrest : times n r b (s 1) = (.ok rest, s (n + 1)) :=
          ih.mpr ⟨Nat.succ.inj hlength, fun i => s (i + 1), rfl, rfl, fun i hi => heach (i + 1) (Nat.succ_lt_succ hi)⟩
        rw [times, run_bind_ok (heach 0 (Nat.zero_lt_succ _)), run_bind_ok hrest]
        rfl

/-- An answer that is known in part is there. -/
theorem exists_of_answer {outcome : Except Fault α × Nat} {f : α → β} (h : outcome.1.toOption.map f = some c) :
    ∃ a q, outcome = (.ok a, q) ∧ f a = c := by
  obtain ⟨answer, q⟩ := outcome
  cases answer with
  | error e => cases h
  | ok a => exact ⟨a, q, rfl, Option.some.inj h⟩

/-- An optional answer that is known in part is there. -/
theorem exists_of_some_answer {outcome : Except Fault (Option α) × Nat} {f : α → β}
    (h : outcome.1.toOption.map (Option.map f) = some (some c)) : ∃ a q, outcome = (.ok (some a), q) ∧ f a = c := by
  obtain ⟨found, q, houtcome, hfound⟩ := exists_of_answer h
  obtain ⟨a, rfl, ha⟩ := Option.map_eq_some_iff.mp hfound
  exact ⟨a, q, houtcome, ha⟩

end Reader

end ManagedSymbols
