import ManagedSymbols.Proofs.Buffer.Agreement
import ManagedSymbols.Proofs.Reader.Safe

/-!
# Reads that look forward only

A read looks forward from a position if nothing in front of that position makes a difference: two buffers of one size that agree
from there on (`Buffer.AgreeFrom`) give the same value or fault and the same cursor, and a read that succeeds does not leave the
cursor in front of the position. `Reader.ForwardAt` says it of a read at one cursor, and `Reader.Forward` of a reader at every cursor
that is not in front of the position. Both compose as readers do; what has to be seen of a reader that moves the cursor to a place
of its own choice is that the place is not in front of the position.
-/

namespace ManagedSymbols

/-- Two buffers are equally long, reach to a position and hold the same bytes from there on. -/
structure Buffer.AgreeFrom (b b' : Buffer) (lo : Nat) : Prop where
  inside : lo ≤ b.size
  size_eq : b.size = b'.size
  agree : b.AgreeOn b' lo b.size

/-- A text does not end in front of a position that it does not start in front of, if the buffer reaches that far. -/
theorem Buffer.le_zeroFrom_of_le {b : Buffer} {lo p : Nat} (inside : lo ≤ b.size) (hp : lo ≤ p) : lo ≤ b.zeroFrom p := by
  by_cases h : p ≤ b.size
  · exact Nat.le_trans hp (le_zeroFrom h)
  · have hend : ¬ p < b.bytes.size := fun hlt => h (Nat.le_of_lt hlt)
    rw [zeroFrom, dif_neg hend]
    exact inside

namespace Reader

variable {α β : Type}

/-- At this cursor the outcome is the same in both buffers, and a read that succeeds leaves the cursor at or behind `lo`. -/
def ForwardAt (lo : Nat) (b b' : Buffer) (p : Nat) (r : Reader α) : Prop :=
  r b p = r b' p ∧ ∀ a q, r b p = (.ok a, q) → lo ≤ q

/-- From every position on the reader looks forward, wherever it starts at or behind the position. -/
def Forward (r : Reader α) : Prop :=
  ∀ lo b b' p, b.AgreeFrom b' lo → lo ≤ p → ForwardAt lo b b' p r

/-! ## Reads at a cursor -/

namespace ForwardAt

variable {lo p : Nat} {b b' : Buffer} {r : Reader α}

/-- A read whose outcome is the same and whose cursor, whatever the outcome, is not in front of the position. -/
theorem of_eq (heq : r b p = r b' p) (hq : lo ≤ (r b p).2) : ForwardAt lo b b' p r :=
  ⟨heq, fun a q hr => by rwa [hr] at hq⟩

/-- A read that stops with the same fault in both buffers. -/
theorem of_error {e : Fault} {q : Nat} (heq : r b p = r b' p) (hr : r b p = (.error e, q)) : ForwardAt lo b b' p r := by
  refine ⟨heq, fun a s ha => ?_⟩
  rw [hr] at ha
  cases ha

/-- A sequence looks forward if its first reader does, and its second one does from each cursor that the first one leaves. -/
theorem bind {next : α → Reader β} (h : ForwardAt lo b b' p r)
    (hn : ∀ a q, r b p = (.ok a, q) → lo ≤ q → ForwardAt lo b b' q (next a)) : ForwardAt lo b b' p (r >>= next) := by
  obtain ⟨heq, hbehind⟩ := h
  cases hr : r b p with
  | mk answer q =>
    rw [hr] at heq
    cases answer with
    | ok a =>
      rw [ForwardAt, run_bind_ok hr, run_bind_ok heq.symm]
      exact hn a q hr (hbehind a q hr)
    | error e =>
      exact .of_error (by rw [run_bind_error hr, run_bind_error heq.symm]) (run_bind_error hr next)

theorem pure (hp : lo ≤ p) (a : α) : ForwardAt lo b b' p (Pure.pure a) :=
  of_eq rfl hp

/-- The cursor is put somewhere that is not in front of the position. -/
theorem seek (agree : b.AgreeFrom b' lo) {target : Nat} (ht : lo ≤ target) : ForwardAt lo b b' p (Reader.seek target) := by
  rw [ForwardAt, run_seek, run_seek, agree.size_eq]
  refine ⟨rfl, fun u q hr => ?_⟩
  split at hr
  · cases hr
    exact ht
  · cases hr

theorem restoring (h : ForwardAt lo b b' p r) (hp : lo ≤ p) : ForwardAt lo b b' p (Reader.restoring r) :=
  of_eq (by rw [Reader.restoring, Reader.restoring, h.1]) hp

end ForwardAt

/-!
## Readers

A lemma that has the name of a reader says that this reader looks forward.
-/

namespace Forward

variable {r : Reader α}

theorem run (h : Forward r) {lo p : Nat} {b b' : Buffer} (agree : b.AgreeFrom b' lo) (hp : lo ≤ p) : ForwardAt lo b b' p r :=
  h lo b b' p agree hp

/-- A reader that gives the same in buffers that agree, and leaves the cursor where it was or behind. -/
theorem of_eq (heq : ∀ lo b b' p, b.AgreeFrom b' lo → lo ≤ p → r b p = r b' p) (hq : ∀ b p, p ≤ (r b p).2) : Forward r :=
  fun lo b b' p agree hp => .of_eq (heq lo b b' p agree hp) (Nat.le_trans hp (hq b p))

theorem pure (a : α) : Forward (Pure.pure a : Reader α) :=
  fun _ _ _ _ _ hp => .pure hp a

theorem bind {next : α → Reader β} (h : Forward r) (hn : ∀ a, Forward (next a)) : Forward (r >>= next) :=
  fun _ _ _ _ agree hp => (h.run agree hp).bind fun a _ _ hq => (hn a).run agree hq

theorem map (h : Forward r) (f : α → β) : Forward (f <$> r) :=
  h.bind fun a => pure (f a)

theorem ite {condition : Prop} [Decidable condition] {r' : Reader α} (h : Forward r) (h' : Forward r') :
    Forward (if condition then r else r') := by
  split
  · exact h
  · exact h'

theorem fail (e : Fault) : Forward (Reader.fail e : Reader α) :=
  of_eq (fun _ _ _ _ _ _ => rfl) fun _ _ => Nat.le_refl _

theorem check (answer : Except Fault α) : Forward (Reader.check answer) :=
  of_eq (fun _ _ _ _ _ _ => rfl) fun _ _ => Nat.le_refl _

theorem require (condition : Prop) [Decidable condition] (e : Fault) : Forward (Reader.require condition e) :=
  check _

theorem fits (n : Nat) : Forward (Reader.fits n) :=
  (pure n).ite (fail _)

theorem minus (m n : Nat) : Forward (Reader.minus m n) :=
  (pure _).ite (fail _)

theorem position : Forward Reader.position :=
  of_eq (fun _ _ _ _ _ _ => rfl) fun _ _ => Nat.le_refl _

theorem size : Forward Reader.size :=
  of_eq (fun _ _ _ _ agree _ => by rw [Reader.size, Reader.size, agree.size_eq]) fun _ _ => Nat.le_refl _

theorem advance (length : Nat) : Forward (Reader.advance length) := by
  refine of_eq (fun lo b b' p agree hp => by rw [run_advance, run_advance, agree.size_eq]) fun b p => ?_
  rw [run_advance]
  split
  · exact Nat.le_add_right p length
  · exact Nat.le_refl p

theorem bytes (length : Nat) : Forward (Reader.bytes length) := by
  refine of_eq (fun lo b b' p agree hp => ?_) fun b p => ?_
  · rw [run_bytes, run_bytes, ← agree.size_eq]
    split
    · next h => rw [agree.agree.slice_eq hp h]
    · rfl
  · rw [run_bytes]
    split
    · exact Nat.le_add_right p length
    · exact Nat.le_refl p

/-- The next boundary lies ahead. -/
theorem align (alignment : Nat) : Forward (Reader.align alignment) := by
  intro lo b b' p agree hp
  refine ((require _ _).run agree hp).bind fun _ q _ hq => ?_
  refine (position.run agree hq).bind fun start q hposition hstart => ?_
  cases hposition
  refine ((minus _ _).run agree hstart).bind fun padding q _ hq => ?_
  refine ((fits _).run agree hq).bind fun target q htarget hq => ?_
  obtain ⟨_, rfl, rfl⟩ := of_fits htarget
  refine (size.run agree hq).bind fun _ q _ hq => ?_
  refine ((require _ _).run agree hq).bind fun _ q _ hq => ?_
  exact .of_eq rfl (Nat.le_add_right_of_le hstart)

theorem number (width : Nat) : Forward (Reader.number width) :=
  (bytes width).map _

theorem u8 : Forward Reader.u8 :=
  (number 1).map _

theorem u16 : Forward Reader.u16 :=
  (number 2).map _

theorem u32 : Forward Reader.u32 :=
  (number 4).map _

theorem u64 : Forward Reader.u64 :=
  (number 8).map _

theorem sixteen : Forward Reader.sixteen := by
  refine of_eq (fun lo b b' p agree hp => ?_) fun b p => ?_
  · have hsize : b.bytes.size = b'.bytes.size := agree.size_eq
    rw [Reader.sixteen, Reader.sixteen]
    split
    · next h => simp only [dif_pos (hsize ▸ h), agree.agree.extract_eq hp h]
    · next h => rw [dif_neg (hsize ▸ h)]
  · rw [Reader.sixteen]
    split
    · exact Nat.le_add_right p 16
    · exact Nat.le_refl p

theorem guid : Forward Reader.guid :=
  sixteen.map _

theorem times (h : Forward r) (count : Nat) : Forward (Reader.times count r) := by
  induction count with
  | zero => exact pure []
  | succ count ih => exact h.bind fun _ => ih.bind fun _ => pure _

/-! ## Texts -/

/-- The cursor is left behind a text that does not end in front of the position. -/
theorem leaveText {lo p stop : Nat} {b b' : Buffer} (agree : b.AgreeFrom b' lo) (hp : lo ≤ p) (hstop : lo ≤ stop) :
    ForwardAt lo b b' p (Reader.leaveText stop) := by
  refine ((fits _).run agree hp).bind fun behind q hbehind hq => ?_
  obtain ⟨_, rfl, rfl⟩ := of_fits hbehind
  refine (size.run agree hq).bind fun found q hsize hq => ?_
  cases hsize
  exact .of_eq rfl (Nat.le_min.mpr ⟨Nat.le_succ_of_le hstop, agree.inside⟩)

/-- A text ends at the same position in both buffers. -/
theorem textEnd : Forward Reader.textEnd := by
  refine of_eq (fun lo b b' p agree hp => ?_) fun _ _ => Nat.le_refl _
  rw [Reader.textEnd, Reader.textEnd, agree.agree.zeroFrom_eq agree.size_eq hp]

/-- A slice that does not start in front of the position is the same in both buffers. -/
theorem slice {lo p start : Nat} {b b' : Buffer} (agree : b.AgreeFrom b' lo) (hp : lo ≤ p) (hstart : lo ≤ start) (stop : Nat) :
    ForwardAt lo b b' p (Reader.slice start stop) := by
  have heq : Reader.slice start stop b p = Reader.slice start stop b' p := by
    rw [Reader.slice, Reader.slice, ← agree.size_eq]
    split
    · next h => rw [agree.agree.slice_eq hstart h.2]
    · rfl
  refine .of_eq heq ?_
  rw [Reader.slice]
  split
  · exact hp
  · exact hp

/-- A text is read up to its zero byte or to the end of the buffer. -/
theorem utf8 : Forward Reader.utf8 := by
  intro lo b b' p agree hp
  refine (position.run agree hp).bind fun start q hposition hq => ?_
  cases hposition
  refine (textEnd.run agree hp).bind fun stop q hend hq => ?_
  cases hend
  have hstop := Buffer.le_zeroFrom_of_le agree.inside hp
  refine (slice agree hp hp _).bind fun found q _ hq => ?_
  refine (leaveText agree hq hstop).bind fun _ q _ hq => ?_
  split
  · exact .pure hq _
  · exact (fail _).run agree hq

theorem skipUtf8 : Forward Reader.skipUtf8 := by
  intro lo b b' p agree hp
  refine (textEnd.run agree hp).bind fun stop q hend hq => ?_
  cases hend
  exact leaveText agree hp (Buffer.le_zeroFrom_of_le agree.inside hp)

/-- Units are read as long as there are any. -/
theorem unitsToZero : Forward Reader.unitsToZero := by
  intro lo b b' p agree hp
  -- By recursion on the bytes that are left: each unit takes two of them.
  rw [unitsToZero_eq]
  refine (u16.run agree hp).bind fun u q hu hq => ?_
  have := bounds_of_u16 hu
  split
  · exact .pure hq _
  · exact (unitsToZero lo b b' q agree hq).bind fun _ _ _ hr => .pure hr _
termination_by _ b _ p _ _ => b.size - p
decreasing_by omega

theorem spell (start : Nat) (units : List UInt16) : Forward (Reader.spell start units) := by
  unfold Reader.spell
  split
  · exact pure _
  · exact fail _

theorem utf16 : Forward Reader.utf16 :=
  position.bind fun start => unitsToZero.bind fun units => spell start units

theorem fixedUtf16 (units : Nat) : Forward (Reader.fixedUtf16 units) :=
  position.bind fun start => (bytes (2 * units)).bind fun _ => spell start _

end Forward

end Reader

end ManagedSymbols
