import ManagedSymbols.Proofs.Reader.Alignment
import ManagedSymbols.Proofs.Reader.Success
import ManagedSymbols.Proofs.Reader.Texts
import ManagedSymbols.Real

/-!
# Safe reads

A read is safe if the cursor stays in the buffer whatever happens, and if the only faults are those of the data: no operation is
without a result in machine words, and no body ends elsewhere than at its terminator. `Reader.SafeAt` says it of a read at one
position, together with what holds of its value, and `Reader.Safe` of a reader at every position of every buffer. Both compose as
readers do.
-/

namespace ManagedSymbols

/-- A fault that the bytes give rise to. It is neither a trap nor a body that its scan has left elsewhere than at its terminator. -/
def Fault.OfData : Fault → Prop
  | trap _ | notAtEnd _ _ _ => False
  | _ => True

namespace Reader

variable {α β : Type}

/-- At this position the reader is safe, and its value and the cursor behind it are as asked for. -/
def SafeAt (b : Buffer) (p : Nat) (r : Reader α) (post : α → Nat → Prop) : Prop :=
  (r b p).2 ≤ b.size ∧
    match (r b p).1 with
    | .ok a => post a (r b p).2
    | .error e => e.OfData

/-- At every position of every buffer the reader is safe. -/
def Safe (r : Reader α) : Prop :=
  ∀ b p, p ≤ b.size → SafeAt b p r fun _ _ => True

/-- Sixteen bytes are read as so many bytes are, in a slice of the buffer. -/
theorem map_sixteen : Vector.toList <$> sixteen = bytes 16 := by
  funext b p
  rw [run_map, run_bytes, sixteen, Buffer.size]
  split <;> rfl

/-! ## Reads at a position -/

namespace SafeAt

variable {b : Buffer} {p q : Nat} {r : Reader α} {a : α} {e : Fault} {post : α → Nat → Prop}

theorem of_ok (h : r b p = (.ok a, q)) (hq : q ≤ b.size) (ha : post a q) : SafeAt b p r post := by
  rw [SafeAt, h]
  exact ⟨hq, ha⟩

theorem of_error (h : r b p = (.error e, q)) (hq : q ≤ b.size) (he : e.OfData) : SafeAt b p r post := by
  rw [SafeAt, h]
  exact ⟨hq, he⟩

theorem post_of_ok (h : SafeAt b p r post) (hr : r b p = (.ok a, q)) : q ≤ b.size ∧ post a q := by
  rw [SafeAt, hr] at h
  exact h

theorem ofData_of_error (h : SafeAt b p r post) (hr : r b p = (.error e, q)) : q ≤ b.size ∧ e.OfData := by
  rw [SafeAt, hr] at h
  exact h

theorem mono {post' : α → Nat → Prop} (h : SafeAt b p r post) (hpost : ∀ a q, q ≤ b.size → post a q → post' a q) :
    SafeAt b p r post' := by
  cases hr : r b p with
  | mk answer q =>
    cases answer with
    | ok a =>
      obtain ⟨hq, ha⟩ := h.post_of_ok hr
      exact of_ok hr hq (hpost a q hq ha)
    | error e =>
      obtain ⟨hq, he⟩ := h.ofData_of_error hr
      exact of_error hr hq he

/-- A sequence is safe if the second reader is safe behind the first one. -/
theorem bind {next : α → Reader β} {post' : β → Nat → Prop} (h : SafeAt b p r post)
    (hn : ∀ a q, q ≤ b.size → post a q → SafeAt b q (next a) post') : SafeAt b p (r >>= next) post' := by
  cases hr : r b p with
  | mk answer q =>
    cases answer with
    | ok a =>
      obtain ⟨hq, ha⟩ := h.post_of_ok hr
      rw [SafeAt, run_bind_ok hr]
      exact hn a q hq ha
    | error e =>
      obtain ⟨hq, he⟩ := h.ofData_of_error hr
      exact of_error (run_bind_error hr next) hq he

theorem pure (hp : p ≤ b.size) (ha : post a p) : SafeAt b p (Pure.pure a) post :=
  of_ok (run_pure a b p) hp ha

/-- A check that only data can fail. -/
theorem check {answer : Except Fault α} (hp : p ≤ b.size) (he : ∀ e, answer = .error e → e.OfData) :
    SafeAt b p (Reader.check answer) fun a q => answer = .ok a ∧ q = p := by
  cases answer with
  | ok a => exact of_ok rfl hp ⟨rfl, rfl⟩
  | error e => exact of_error rfl hp (he e rfl)

/-- A condition that only data can break. -/
theorem require (condition : Prop) [Decidable condition] (hp : p ≤ b.size) (he : e.OfData) :
    SafeAt b p (Reader.require condition e) fun _ q => condition ∧ q = p := by
  by_cases hc : condition
  · exact of_ok (by rw [run_require, if_pos hc]) hp ⟨hc, rfl⟩
  · exact of_error (by rw [run_require, if_neg hc]) hp he

/-- A condition that holds. -/
theorem require_of {condition : Prop} [Decidable condition] (hc : condition) (hp : p ≤ b.size) :
    SafeAt b p (Reader.require condition e) fun _ q => q = p :=
  of_ok (by rw [run_require, if_pos hc]) hp rfl

theorem fits {n : Nat} (hn : n < 0x10000000000000000) (hp : p ≤ b.size) :
    SafeAt b p (Reader.fits n) fun found q => found = n ∧ q = p :=
  of_ok (by rw [run_fits, if_pos hn]) hp ⟨rfl, rfl⟩

theorem seek (target : Nat) (hp : p ≤ b.size) : SafeAt b p (Reader.seek target) fun _ q => q = target := by
  by_cases ht : target ≤ b.size
  · exact of_ok (by rw [run_seek, if_pos ht]) ht rfl
  · exact of_error (e := .outOfBounds) (by rw [run_seek, if_neg ht]) hp trivial

theorem position (hp : p ≤ b.size) : SafeAt b p Reader.position fun found q => found = p ∧ q = p :=
  of_ok rfl hp ⟨rfl, rfl⟩

theorem size (hp : p ≤ b.size) : SafeAt b p Reader.size fun found q => found = b.size ∧ q = p :=
  of_ok rfl hp ⟨rfl, rfl⟩

theorem bytes (length : Nat) (hp : p ≤ b.size) : SafeAt b p (Reader.bytes length) fun found _ => found.length = length := by
  by_cases h : p + length ≤ b.size
  · have hlength : (b.slice p (p + length)).length = length := by
      rw [Buffer.length_slice h]
      omega
    exact of_ok (by rw [run_bytes, if_pos h]) h hlength
  · exact of_error (e := .outOfBounds) (by rw [run_bytes, if_neg h]) hp trivial

theorem restoring (h : SafeAt b p r post) (hp : p ≤ b.size) :
    SafeAt b p (Reader.restoring r) fun a q => q = p ∧ ∃ c, c ≤ b.size ∧ post a c := by
  cases hr : r b p with
  | mk answer q =>
    have hrestored : Reader.restoring r b p = (answer, p) := by rw [Reader.restoring, hr]
    cases answer with
    | ok a => exact of_ok hrestored hp ⟨rfl, q, h.post_of_ok hr⟩
    | error e => exact of_error hrestored hp (h.ofData_of_error hr).2

end SafeAt

/-!
## Readers

A lemma that has the name of a reader says that this reader is safe.
-/

namespace Safe

variable {r : Reader α}

theorem pure (a : α) : Safe (Pure.pure a : Reader α) :=
  fun _ _ hp => .pure hp trivial

theorem bind {next : α → Reader β} (h : Safe r) (hn : ∀ a, Safe (next a)) : Safe (r >>= next) :=
  fun b p hp => (h b p hp).bind fun a q hq _ => hn a b q hq

theorem map (h : Safe r) (f : α → β) : Safe (f <$> r) :=
  h.bind fun a => pure (f a)

theorem ite {condition : Prop} [Decidable condition] {r' : Reader α} (h : Safe r) (h' : Safe r') :
    Safe (if condition then r else r') := by
  split
  · exact h
  · exact h'

theorem fail {e : Fault} (he : e.OfData) : Safe (Reader.fail e : Reader α) :=
  fun _ _ hp => .of_error rfl hp he

/-- A check that only data can fail. -/
theorem check {answer : Except Fault α} (he : ∀ e, answer = .error e → e.OfData) : Safe (Reader.check answer) :=
  fun _ _ hp => (SafeAt.check hp he).mono fun _ _ _ _ => trivial

/-- A condition that only data can break. -/
theorem require (condition : Prop) [Decidable condition] {e : Fault} (he : e.OfData) : Safe (Reader.require condition e) :=
  fun _ _ hp => (SafeAt.require condition hp he).mono fun _ _ _ _ => trivial

theorem position : Safe Reader.position :=
  fun _ _ hp => (SafeAt.position hp).mono fun _ _ _ _ => trivial

theorem size : Safe Reader.size :=
  fun _ _ hp => (SafeAt.size hp).mono fun _ _ _ _ => trivial

theorem seek (target : Nat) : Safe (Reader.seek target) :=
  fun _ _ hp => (SafeAt.seek target hp).mono fun _ _ _ _ => trivial

theorem advance (length : Nat) : Safe (Reader.advance length) := by
  intro b p hp
  by_cases h : p + length ≤ b.size
  · exact .of_ok (by rw [run_advance, if_pos h]) h trivial
  · exact .of_error (e := .outOfBounds) (by rw [run_advance, if_neg h]) hp trivial

theorem bytes (length : Nat) : Safe (Reader.bytes length) :=
  fun _ _ hp => (SafeAt.bytes length hp).mono fun _ _ _ _ => trivial

/-- The next boundary is moved to if it lies in the buffer. -/
theorem align {alignment : Nat} (hzero : alignment ≠ 0) (hword : alignment < 0x10000000000000000) :
    Safe (Reader.align alignment) := by
  intro b p hp
  have hrun := run_align hzero hword hp
  split at hrun
  · next hroom => exact .of_ok hrun hroom trivial
  · exact .of_error hrun hp trivial

theorem number (width : Nat) : Safe (Reader.number width) :=
  (bytes width).map _

theorem u8 : Safe Reader.u8 :=
  (number 1).map _

theorem u16 : Safe Reader.u16 :=
  (number 2).map _

theorem u32 : Safe Reader.u32 :=
  (number 4).map _

theorem u64 : Safe Reader.u64 :=
  (number 8).map _

theorem i8 : Safe Reader.i8 :=
  u8.map _

theorem i16 : Safe Reader.i16 :=
  u16.map _

theorem i32 : Safe Reader.i32 :=
  u32.map _

theorem i64 : Safe Reader.i64 :=
  u64.map _

theorem real32 : Safe Reader.real32 :=
  u32.map _

theorem real64 : Safe Reader.real64 :=
  u64.map _

/-- What is safe to map is safe to read. -/
theorem of_map {f : α → β} (h : Safe (f <$> r)) : Safe r := by
  intro b p hp
  have hmapped := h b p hp
  rw [SafeAt, run_map] at hmapped
  cases hr : r b p with
  | mk answer q =>
    rw [hr] at hmapped
    cases answer with
    | ok a => exact .of_ok hr hmapped.1 trivial
    | error e => exact .of_error hr hmapped.1 hmapped.2

theorem sixteen : Safe Reader.sixteen :=
  of_map (map_sixteen ▸ bytes 16)

theorem guid : Safe Reader.guid :=
  sixteen.map _

theorem times (h : Safe r) (count : Nat) : Safe (Reader.times count r) := by
  induction count with
  | zero => exact pure []
  | succ count ih => exact h.bind fun _ => ih.bind fun _ => pure _

/-! ## Texts -/

/-- A text is read up to its zero byte or to the end of the buffer. -/
theorem utf8 : Safe Reader.utf8 := by
  intro b p hp
  have hbehind : min (b.zeroFrom p + 1) b.size ≤ b.size := Nat.min_le_right _ _
  have hread := run_utf8 hp
  cases hd : Utf8.decode (b.slice p (b.zeroFrom p)) with
  | ok cs =>
    rw [hd] at hread
    exact .of_ok hread hbehind trivial
  | error fault =>
    rw [hd] at hread
    exact .of_error hread hbehind trivial

theorem skipUtf8 : Safe Reader.skipUtf8 :=
  fun b p _ => .of_ok (run_skipUtf8 b p) (Nat.min_le_right _ _) trivial

theorem unitsToZero : Safe Reader.unitsToZero := by
  intro b p hp
  unfold SafeAt
  fun_induction Reader.unitsToZero b p with
  | case1 p q h => exact ⟨((u16 b p hp).post_of_ok h).1, trivial⟩
  | case2 p u q h hu hle rest r hrest ih =>
    rw [hrest] at ih
    exact ⟨(ih hle.2).1, trivial⟩
  | case3 p u q h hu hle e r hrest ih =>
    rw [hrest] at ih
    exact ih hle.2
  | case4 p e q h => exact (u16 b p hp).ofData_of_error h

theorem spell (start : Nat) (units : List UInt16) : Safe (Reader.spell start units) := by
  unfold Reader.spell
  split
  · exact pure _
  · exact fail trivial

theorem utf16 : Safe Reader.utf16 :=
  position.bind fun start => unitsToZero.bind fun units => spell start units

theorem fixedUtf16 (units : Nat) : Safe (Reader.fixedUtf16 units) :=
  position.bind fun start => (bytes (2 * units)).bind fun _ => spell start _

end Safe

end Reader

end ManagedSymbols
