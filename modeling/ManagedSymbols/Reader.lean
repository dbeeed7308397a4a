import ManagedSymbols.Buffer
import ManagedSymbols.Fault

/-!
# Readers: a cursor over a buffer

A reader is run on a buffer with a position, the cursor. It ends with a value or a fault, and in both cases with the cursor it
leaves, since a read that fails part-way keeps what it has consumed. The buffer never changes.

The steps of a machine come first: positions are 64-bit words, so a sum that is not compared against the buffer's size beforehand
goes through `Reader.fits`, a difference through `Reader.minus`, and a slice through `Reader.slice`; each traps where a machine
would have no result. The reads built from them say by a fault, never by a trap, that the buffer is too short.
-/

namespace ManagedSymbols

/-- A read: on a buffer and from a cursor it gives a value or a fault, and the cursor behind it. -/
def Reader (α : Type) : Type :=
  Buffer → Nat → Except Fault α × Nat

namespace Reader

/-- The reader that gives a value and leaves the cursor. -/
protected def pure {α : Type} (a : α) : Reader α :=
  fun _ p => (.ok a, p)

/-- One reader after another; a fault of the first one ends both. -/
protected def bind {α β : Type} (r : Reader α) (next : α → Reader β) : Reader β :=
  fun b p =>
    match r b p with
    | (.ok a, q) => next a b q
    | (.error e, q) => (.error e, q)

instance : Monad Reader where
  pure := Reader.pure
  bind := Reader.bind

variable {α β : Type}

/-! ## Running -/

@[simp] theorem run_pure (a : α) (b : Buffer) (p : Nat) : (pure a : Reader α) b p = (.ok a, p) :=
  rfl

/-- A sequence, run: the second reader starts where the first one stopped. -/
theorem run_bind (r : Reader α) (next : α → Reader β) (b : Buffer) (p : Nat) :
    (r >>= next) b p = match r b p with
      | (.ok a, q) => next a b q
      | (.error e, q) => (.error e, q) :=
  rfl

theorem run_bind_ok {r : Reader α} {b : Buffer} {p q : Nat} {a : α} (h : r b p = (.ok a, q)) (next : α → Reader β) :
    (r >>= next) b p = next a b q := by
  rw [run_bind, h]

theorem run_bind_error {r : Reader α} {b : Buffer} {p q : Nat} {e : Fault} (h : r b p = (.error e, q))
    (next : α → Reader β) : (r >>= next) b p = (.error e, q) := by
  rw [run_bind, h]

/-- A pure value behind a reader changes nothing. -/
theorem map_id (r : Reader α) : id <$> r = r := by
  funext b p
  show (r >>= fun a => pure (id a)) b p = r b p
  rw [run_bind]
  split <;> simp_all

/-- Three readers in a row, however grouped. -/
theorem bind_assoc {γ : Type} (r : Reader α) (f : α → Reader β) (g : β → Reader γ) :
    r >>= f >>= g = r >>= fun a => f a >>= g := by
  funext b p
  simp only [run_bind]
  cases h : r b p with
  | mk answer q => cases answer <;> rfl

instance : LawfulMonad Reader :=
  LawfulMonad.mk' Reader map_id (fun _ _ => rfl) bind_assoc

/-! ## Steps of the machine -/

/-- Stops with a fault where the cursor stands. -/
def fail (e : Fault) : Reader α :=
  fun _ p => (.error e, p)

/-- Stops because an operation has no result in machine words. -/
def trap (cause : Trap) : Reader α :=
  fail (.trap cause)

/-- Takes the answer of a check that reads nothing. -/
def check (answer : Except Fault α) : Reader α :=
  fun _ p => (answer, p)

/-- Goes on if a condition holds and stops with a fault otherwise. -/
def require (condition : Prop) [Decidable condition] (e : Fault) : Reader Unit :=
  check (if condition then .ok () else .error e)

/-- Where the cursor stands. -/
def position : Reader Nat :=
  fun _ p => (.ok p, p)

/-- How many bytes the buffer holds. -/
def size : Reader Nat :=
  fun b p => (.ok b.size, p)

/-- Puts the cursor at a position that is known to lie in the buffer. -/
def moveTo (target : Nat) : Reader Unit :=
  fun _ _ => (.ok (), target)

/-- A number that is a 64-bit word; a larger one traps. -/
def fits (n : Nat) : Reader Nat :=
  if n < 0x10000000000000000 then pure n else trap .overflow

/-- The difference of two words; one below zero traps. -/
def minus (m n : Nat) : Reader Nat :=
  if n ≤ m then pure (m - n) else trap .overflow

/-- The bytes from one position up to another; positions that are no slice of the buffer trap. -/
def slice (start stop : Nat) : Reader (List UInt8) :=
  fun b p => if start ≤ stop ∧ stop ≤ b.size then (.ok (b.slice start stop), p) else (.error (.trap .slice), p)

/-- Runs a reader and puts the cursor back where it was, whatever the outcome. -/
def restoring (r : Reader α) : Reader α :=
  fun b p => ((r b p).1, p)

theorem run_require (condition : Prop) [Decidable condition] (e : Fault) (b : Buffer) (p : Nat) :
    require condition e b p = if condition then (.ok (), p) else (.error e, p) := by
  unfold require check
  split <;> rfl

theorem run_fits (n : Nat) (b : Buffer) (p : Nat) :
    fits n b p = if n < 0x10000000000000000 then (.ok n, p) else (.error (.trap .overflow), p) := by
  unfold fits
  split <;> rfl

theorem run_minus (m n : Nat) (b : Buffer) (p : Nat) :
    minus m n b p = if n ≤ m then (.ok (m - n), p) else (.error (.trap .overflow), p) := by
  unfold minus
  split <;> rfl

/-! ## Moving -/

/-- Moves the cursor to a position; the end of the buffer is the last one. -/
def seek (target : Nat) : Reader Unit := do
  require (target ≤ (← size)) .outOfBounds
  moveTo target

/-- The position a number of bytes behind the cursor, if the buffer reaches that far. -/
def endOf (length : Nat) : Reader Nat := do
  let stop := (← position) + length
  require (stop ≤ (← size)) .outOfBounds
  return stop

/-- Moves the cursor over a number of bytes. -/
def advance (length : Nat) : Reader Unit := do
  moveTo (← endOf length)

/-- Moves the cursor to the least multiple of an alignment that is not in front of it, counted from the start of the buffer. -/
def align (alignment : Nat) : Reader Unit := do
  require (alignment ≠ 0) (.trap .divisionByZero)
  let p ← position
  let padding := (← minus alignment (p % alignment)) % alignment
  let target ← fits (p + padding)
  require (target ≤ (← size)) .outOfBounds
  moveTo target

/-- Seeking succeeds inside the buffer and at its end, and moves nowhere else. -/
theorem run_seek (target : Nat) (b : Buffer) (p : Nat) :
    seek target b p = if target ≤ b.size then (.ok (), target) else (.error .outOfBounds, p) := by
  simp only [seek, run_bind, size, run_require]
  by_cases h : target ≤ b.size
  · simp only [if_pos h, moveTo]
  · simp only [if_neg h]

/-- The position behind a number of bytes, where the buffer has them. -/
theorem run_endOf (length : Nat) (b : Buffer) (p : Nat) :
    endOf length b p = if p + length ≤ b.size then (.ok (p + length), p) else (.error .outOfBounds, p) := by
  simp only [endOf, run_bind, size, position, run_require, run_pure]
  by_cases h : p + length ≤ b.size
  · simp only [if_pos h]
  · simp only [if_neg h]

/-- Advancing moves the cursor over bytes that are there. -/
theorem run_advance (length : Nat) (b : Buffer) (p : Nat) :
    advance length b p = if p + length ≤ b.size then (.ok (), p + length) else (.error .outOfBounds, p) := by
  simp only [advance, run_bind, run_endOf]
  by_cases h : p + length ≤ b.size
  · simp only [if_pos h, moveTo]
  · simp only [if_neg h]

/-! ## Bytes and numbers -/

/-- The next bytes, so many of them. -/
def bytes (length : Nat) : Reader (List UInt8) := do
  let stop ← endOf length
  let found ← slice (← position) stop
  moveTo stop
  return found

/-- The next bytes are those of the buffer, where it has them; no slice is out of range. -/
theorem run_bytes (length : Nat) (b : Buffer) (p : Nat) :
    bytes length b p =
      if p + length ≤ b.size then (.ok (b.slice p (p + length)), p + length) else (.error .outOfBounds, p) := by
  simp only [bytes, run_bind, run_endOf]
  by_cases h : p + length ≤ b.size
  · simp only [if_pos h, position, slice, moveTo, run_pure]
    rw [if_pos ⟨by omega, h⟩]
  · simp only [if_neg h]

/-- The number that the next bytes store, lowest byte first. -/
def number (width : Nat) : Reader Nat :=
  LittleEndian.value <$> bytes width

/-- The next byte. -/
def u8 : Reader UInt8 :=
  UInt8.ofNat <$> number 1

/-- The next 16-bit word. -/
def u16 : Reader UInt16 :=
  UInt16.ofNat <$> number 2

/-- The next 32-bit word. -/
def u32 : Reader UInt32 :=
  UInt32.ofNat <$> number 4

/-- The next 64-bit word. -/
def u64 : Reader UInt64 :=
  UInt64.ofNat <$> number 8

/-- The next byte, in two's complement. -/
def i8 : Reader Int8 :=
  UInt8.toInt8 <$> u8

/-- The next 16-bit word, in two's complement. -/
def i16 : Reader Int16 :=
  UInt16.toInt16 <$> u16

/-- The next 32-bit word, in two's complement. -/
def i32 : Reader Int32 :=
  UInt32.toInt32 <$> u32

/-- The next 64-bit word, in two's complement. -/
def i64 : Reader Int64 :=
  UInt64.toInt64 <$> u64

/-- The next sixteen bytes. -/
def sixteen : Reader (Vector UInt8 16) := fun b p =>
  if h : p + 16 ≤ b.bytes.size then
    (.ok ⟨b.bytes.extract p (p + 16), by rw [Array.size_extract]; omega⟩, p + 16)
  else (.error .outOfBounds, p)

/-- The next sixteen bytes as an identifier. -/
def guid : Reader Guid :=
  Guid.mk <$> sixteen

theorem run_map (f : α → β) (r : Reader α) (b : Buffer) (p : Nat) : (f <$> r) b p = ((r b p).1.map f, (r b p).2) := by
  show (r >>= fun a => pure (f a)) b p = _
  rw [run_bind]
  cases h : r b p with
  | mk answer q => cases answer <;> rfl

/-- A number is read where the buffer has its bytes. -/
theorem run_number (width : Nat) (b : Buffer) (p : Nat) :
    number width b p =
      if p + width ≤ b.size then (.ok (LittleEndian.value (b.slice p (p + width))), p + width)
      else (.error .outOfBounds, p) := by
  simp only [number, run_map, run_bytes]
  by_cases h : p + width ≤ b.size
  · simp only [if_pos h, Except.map]
  · simp only [if_neg h, Except.map]

theorem run_u16 (b : Buffer) (p : Nat) :
    u16 b p =
      if p + 2 ≤ b.size then (.ok (UInt16.ofNat (LittleEndian.value (b.slice p (p + 2)))), p + 2)
      else (.error .outOfBounds, p) := by
  simp only [u16, run_map, run_number]
  split <;> rfl

theorem run_u32 (b : Buffer) (p : Nat) :
    u32 b p =
      if p + 4 ≤ b.size then (.ok (UInt32.ofNat (LittleEndian.value (b.slice p (p + 4)))), p + 4)
      else (.error .outOfBounds, p) := by
  simp only [u32, run_map, run_number]
  split <;> rfl

/-! ## Repetition -/

/-- The same read so many times, one behind the other. -/
def times : (count : Nat) → Reader α → Reader (List α)
  | 0, _ => pure []
  | count + 1, r => do
    let a ← r
    let rest ← times count r
    return a :: rest

end Reader

end ManagedSymbols
