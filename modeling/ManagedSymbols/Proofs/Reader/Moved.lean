import ManagedSymbols.Proofs.Reader.Alignment
import ManagedSymbols.Proofs.Reader.Success
import ManagedSymbols.Proofs.Reader.Texts

/-!
# Reads in a buffer that stands further on

A buffer stands further on in another one if that holds some bytes in front of it and nothing behind it (`Buffer.Moved`). A read
moves with its buffer if it does the same in both, so many bytes further on in the second one: it gives the same value, or the same
fault up to the positions that a malformation quotes, and it leaves the cursor at the same byte (`Reader.MovesAt`, and
`Reader.Moves` at every position of every buffer). Two readers are compared and not one, since a reader that asks where it stands
goes on with another position in the second buffer. Only aligning looks at the position as a number, and it moves over multiples of
its alignment.
-/

namespace ManagedSymbols

/-- The malformation with the positions that it quotes so many bytes further on. -/
def Malformation.moved (n : Nat) : Malformation → Malformation
  | .utf8Text start stop fault => .utf8Text (n + start) (n + stop) fault
  | .utf16Text start => .utf16Text (n + start)
  | .leafTag tag offset => .leafTag tag (n + offset)
  | .leafString offset fault => .leafString (n + offset) fault
  | .itemLength start length => .itemLength (n + start) length
  | .hoistedRange start stop => .hoistedRange start stop
  | .flagCount count => .flagCount count
  | .blockStart block procedure => .blockStart block procedure
  | .offsetTables yields resumes => .offsetTables yields resumes

/-- The fault with the positions that a malformation quotes so many bytes further on; any other fault is the same. -/
def Fault.moved (n : Nat) : Fault → Fault
  | .malformed cause => .malformed (cause.moved n)
  | other => other

namespace Buffer

/-- The second buffer holds so many bytes and behind them the first one. -/
def Moved (n : Nat) (b b' : Buffer) : Prop :=
  ∃ front : List UInt8, front.length = n ∧ b'.toList = front ++ b.toList

namespace Moved

variable {n : Nat} {b b' : Buffer}

/-- The bytes in front make the second buffer longer. -/
theorem size_eq (moved : Moved n b b') : b'.size = n + b.size := by
  obtain ⟨front, rfl, hbytes⟩ := moved
  rw [← length_toList, hbytes, List.length_append, length_toList]

/-- Each slice of the first buffer is one of the second. -/
theorem slice_eq (moved : Moved n b b') (start stop : Nat) : b'.slice (n + start) (n + stop) = b.slice start stop := by
  obtain ⟨front, rfl, hbytes⟩ := moved
  rw [Buffer.slice_eq, Buffer.slice_eq, hbytes, List.take_length_add_append, List.drop_length_add_append]

end Moved

end Buffer

namespace Reader

open Buffer (Moved)

variable {α β : Type} {n : Nat} {b b' : Buffer} {p : Nat}

/-- At this cursor the second reader does in the second buffer what the first one does in the first. -/
def MovesAt (n : Nat) (b b' : Buffer) (p : Nat) (r r' : Reader α) : Prop :=
  r' b' (n + p) = ((r b p).1.mapError (Fault.moved n), n + (r b p).2)

/-- Wherever a buffer stands so many bytes further on, the reader does the same. -/
def Moves (n : Nat) (r : Reader α) : Prop :=
  ∀ b b' p, Moved n b b' → MovesAt n b b' p r r

/-! ## Reads at a cursor -/

namespace MovesAt

variable {r r' : Reader α}

/-- Two reads of one value move if each succeeds where its buffer has room for what it takes, and otherwise leaves the cursor. -/
theorem of_room (moved : Moved n b b') {a : α} {stop : Nat}
    (h : r b p = if stop ≤ b.size then (.ok a, stop) else (.error .outOfBounds, p))
    (h' : r' b' (n + p) = if n + stop ≤ b'.size then (.ok a, n + stop) else (.error .outOfBounds, n + p)) :
    MovesAt n b b' p r r' := by
  have hsize := moved.size_eq
  rw [MovesAt, h, h']
  by_cases hroom : stop ≤ b.size
  · rw [if_pos hroom, if_pos (by omega)]
    rfl
  · rw [if_neg hroom, if_neg (by omega)]
    rfl

/-- A sequence moves if its first reader does, and its second one does from each cursor that the first one leaves. -/
theorem bind {next next' : α → Reader β} (h : MovesAt n b b' p r r')
    (hn : ∀ a q, r b p = (.ok a, q) → MovesAt n b b' q (next a) (next' a)) :
    MovesAt n b b' p (r >>= next) (r' >>= next') := by
  rw [MovesAt] at h
  cases hr : r b p with
  | mk answer q =>
    rw [hr] at h
    cases answer with
    | ok a =>
      rw [MovesAt, run_bind_ok hr, run_bind_ok h]
      exact hn a q hr
    | error e =>
      rw [MovesAt, run_bind_error hr, run_bind_error h]
      rfl

theorem pure (a : α) : MovesAt n b b' p (Pure.pure a) (Pure.pure a) :=
  rfl

/-- A reader that asks for its position goes on with the one that is further on. -/
theorem position {next next' : Nat → Reader α} (h : MovesAt n b b' p (next p) (next' (n + p))) :
    MovesAt n b b' p (Reader.position >>= next) (Reader.position >>= next') :=
  h

/-- A reader that asks for the size goes on with that of the longer buffer. -/
theorem size (moved : Moved n b b') {next next' : Nat → Reader α} (h : MovesAt n b b' p (next b.size) (next' (n + b.size))) :
    MovesAt n b b' p (Reader.size >>= next) (Reader.size >>= next') := by
  rw [← moved.size_eq] at h
  exact h

/-- Two conditions that amount to the same. -/
theorem require {condition condition' : Prop} [Decidable condition] [Decidable condition'] (same : condition' ↔ condition)
    (e : Fault) : MovesAt n b b' p (Reader.require condition e) (Reader.require condition' (e.moved n)) := by
  rw [MovesAt, run_require, run_require]
  by_cases hc : condition
  · rw [if_pos hc, if_pos (same.mpr hc)]
    rfl
  · rw [if_neg hc, if_neg (mt same.mp hc)]
    rfl

/-- The cursor is put at the same byte. -/
theorem seek (moved : Moved n b b') {target target' : Nat} (further : target' = n + target) :
    MovesAt n b b' p (Reader.seek target) (Reader.seek target') :=
  .of_room moved (run_seek target b p) (by rw [run_seek, further])

/-- The boundary is the same byte if the bytes in front are a multiple of the alignment. -/
theorem align (moved : Moved n b b') {alignment : Nat} (ha : alignment ≠ 0) (hword : alignment < 0x10000000000000000)
    (hn : alignment ∣ n) (hp : p ≤ b.size) : MovesAt n b b' p (Reader.align alignment) (Reader.align alignment) := by
  have hsize := moved.size_eq
  refine .of_room moved (run_align ha hword hp) ?_
  rw [run_align ha hword (by omega), Layout.gap_add hn, Nat.add_assoc]

/-- Units spell the same text, or none, from the position further on. -/
theorem spell (start : Nat) (units : List UInt16) :
    MovesAt n b b' p (Reader.spell start units) (Reader.spell (n + start) units) := by
  rw [Reader.spell, Reader.spell]
  split
  · exact pure _
  · rfl

end MovesAt

/-!
## Readers

A lemma that has the name of a reader says that this reader moves with its buffer.
-/

namespace Moves

variable {r : Reader α}

theorem pure (a : α) : Moves n (Pure.pure a : Reader α) :=
  fun _ _ _ _ => .pure a

theorem bind {next : α → Reader β} (h : Moves n r) (hn : ∀ a, Moves n (next a)) : Moves n (r >>= next) :=
  fun b b' p moved => (h b b' p moved).bind fun a q _ => hn a b b' q moved

theorem map (h : Moves n r) (f : α → β) : Moves n (f <$> r) :=
  h.bind fun a => pure (f a)

theorem ite {condition : Prop} [Decidable condition] {r' : Reader α} (h : Moves n r) (h' : Moves n r') :
    Moves n (if condition then r else r') := by
  split
  · exact h
  · exact h'

/-- A condition whose fault quotes no position. -/
theorem require (condition : Prop) [Decidable condition] {e : Fault} (he : e.moved n = e) :
    Moves n (Reader.require condition e) := by
  intro b b' p _
  have h : MovesAt n b b' p (Reader.require condition e) (Reader.require condition (e.moved n)) := .require Iff.rfl e
  rwa [he] at h

theorem advance (length : Nat) : Moves n (Reader.advance length) := by
  intro b b' p moved
  exact .of_room moved (run_advance length b p) (by rw [run_advance, Nat.add_assoc])

theorem bytes (length : Nat) : Moves n (Reader.bytes length) := by
  intro b b' p moved
  exact .of_room moved (run_bytes length b p) (by rw [run_bytes, Nat.add_assoc, moved.slice_eq])

theorem number (width : Nat) : Moves n (Reader.number width) :=
  (bytes width).map _

theorem u8 : Moves n Reader.u8 :=
  (number 1).map _

theorem u16 : Moves n Reader.u16 :=
  (number 2).map _

theorem u32 : Moves n Reader.u32 :=
  (number 4).map _

theorem times (h : Moves n r) (count : Nat) : Moves n (Reader.times count r) := by
  induction count with
  | zero => exact pure []
  | succ count ih => exact h.bind fun _ => ih.bind fun _ => pure _

theorem unitsToZero : Moves n Reader.unitsToZero := by
  intro b b' p moved
  -- By recursion on the bytes that are left: each unit takes two of them.
  rw [unitsToZero_eq]
  refine (u16 b b' p moved).bind fun u q hu => ?_
  have := bounds_of_u16 hu
  split
  · exact .pure []
  · exact (unitsToZero b b' q moved).bind fun rest _ _ => .pure (u :: rest)
termination_by b _ p _ => b.size - p
decreasing_by omega

theorem utf16 : Moves n Reader.utf16 := by
  intro b b' p moved
  refine .position ?_
  exact (unitsToZero b b' p moved).bind fun units _ _ => .spell p units

theorem fixedUtf16 (units : Nat) : Moves n (Reader.fixedUtf16 units) := by
  intro b b' p moved
  refine .position ?_
  exact (bytes (2 * units) b b' p moved).bind fun _ _ _ => .spell p _

end Moves

end Reader

end ManagedSymbols
