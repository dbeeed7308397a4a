import ManagedSymbols.Proofs.Module.Forward
import ManagedSymbols.Session

/-!
# The cursor in a session

A session runs its operations one after the other on one buffer, each from where the one before it left the cursor, also if that one
failed. Three properties of the readers carry over to it. An operation that starts in the buffer leaves the cursor there and fails
only because of the data (`Operation.run_safe`). All operations but `seek` leave the cursor where it was or ahead
(`Operation.run_forward`). And all but those that read a text take what they read whole or not at all
(`Operation.run_allOrNothing`). What one operation keeps (`Operation.Keeps`) is kept at each place of a session
(`Session.keeps_of_run`).
-/

namespace ManagedSymbols

/-!
## Reads that take all or nothing

A lemma that has the name of a reader says that this reader never moves the cursor, or that it takes all or nothing.
-/

namespace Reader

variable {α β : Type}

/-- A reader never moves the cursor. -/
def Still (r : Reader α) : Prop :=
  ∀ b p, (r b p).2 = p

/-- A reader that fails leaves the cursor where it was. -/
def AllOrNothing (r : Reader α) : Prop :=
  ∀ b p e q, r b p = (.error e, q) → q = p

namespace Still

theorem require (condition : Prop) [Decidable condition] (e : Fault) : Still (Reader.require condition e) := by
  intro b p
  rw [run_require]
  split
  · rfl
  · rfl

theorem fits (n : Nat) : Still (Reader.fits n) := by
  intro b p
  rw [run_fits]
  split
  · rfl
  · rfl

theorem minus (m n : Nat) : Still (Reader.minus m n) := by
  intro b p
  rw [run_minus]
  split
  · rfl
  · rfl

/-- The position behind a number of bytes is told, and nothing is read. -/
theorem endOf (length : Nat) : Still (Reader.endOf length) := by
  intro b p
  rw [run_endOf]
  split
  · rfl
  · rfl

theorem position : Still Reader.position :=
  fun _ _ => rfl

theorem size : Still Reader.size :=
  fun _ _ => rfl

theorem restoring (r : Reader α) : Still (Reader.restoring r) :=
  fun _ _ => rfl

end Still

namespace AllOrNothing

variable {r : Reader α}

/-- A reader that never moves the cursor. -/
theorem of_still (h : Still r) : AllOrNothing r := by
  intro b p e q hr
  have hcursor := h b p
  rw [hr] at hcursor
  exact hcursor

/-- The cursor is put somewhere, which does not fail. -/
theorem moveTo (target : Nat) : AllOrNothing (Reader.moveTo target) := by
  intro b p e q hr
  cases hr

/-- A reader that takes all or nothing, behind one that never moves the cursor. -/
theorem bind {next : α → Reader β} (h : Still r) (hn : ∀ a, AllOrNothing (next a)) : AllOrNothing (r >>= next) := by
  intro b p e q hr
  cases hread : r b p with
  | mk answer c =>
    obtain rfl : c = p := by
      have hcursor := h b p
      rwa [hread] at hcursor
    cases answer with
    | ok a =>
      rw [run_bind_ok hread] at hr
      exact hn a b c e q hr
    | error fault =>
      rw [run_bind_error hread] at hr
      cases hr
      rfl

theorem map (h : AllOrNothing r) (f : α → β) : AllOrNothing (f <$> r) := by
  intro b p e q hr
  rw [run_map] at hr
  cases hread : r b p with
  | mk answer c =>
    rw [hread] at hr
    cases answer with
    | ok a => cases hr
    | error fault =>
      cases hr
      exact h b p _ _ hread

theorem seek (target : Nat) : AllOrNothing (Reader.seek target) :=
  bind .size fun _ => bind (.require _ _) fun _ => moveTo target

theorem advance (length : Nat) : AllOrNothing (Reader.advance length) :=
  bind (.endOf length) moveTo

/-- The next boundary is moved to if it lies in the buffer, whatever the alignment is. -/
theorem align (alignment : Nat) : AllOrNothing (Reader.align alignment) :=
  bind (.require _ _) fun _ => bind .position fun _ => bind (.minus _ _) fun _ => bind (.fits _) fun _ =>
    bind .size fun _ => bind (.require _ _) fun _ => moveTo _

theorem bytes (length : Nat) : AllOrNothing (Reader.bytes length) := by
  intro b p e q hr
  rw [run_bytes] at hr
  split at hr
  · cases hr
  · cases hr
    rfl

theorem number (width : Nat) : AllOrNothing (Reader.number width) :=
  (bytes width).map _

theorem u8 : AllOrNothing Reader.u8 :=
  (number 1).map _

theorem u16 : AllOrNothing Reader.u16 :=
  (number 2).map _

theorem u32 : AllOrNothing Reader.u32 :=
  (number 4).map _

theorem u64 : AllOrNothing Reader.u64 :=
  (number 8).map _

theorem guid : AllOrNothing Reader.guid := by
  refine map ?_ Guid.mk
  intro b p e q hr
  rw [Reader.sixteen] at hr
  split at hr
  · cases hr
  · cases hr
    rfl

theorem skipUtf8 : AllOrNothing Reader.skipUtf8 := by
  intro b p e q hr
  rw [run_skipUtf8] at hr
  cases hr

end AllOrNothing

/-- The position behind a number of bytes is told safely. -/
theorem Safe.endOf (length : Nat) : Safe (Reader.endOf length) :=
  Safe.position.bind fun _ => Safe.size.bind fun _ => (Safe.require (e := .outOfBounds) _ trivial).bind fun _ => Safe.pure _

/-- A reader that looks forward and succeeds leaves the cursor where it was or ahead. -/
theorem Forward.le_of_ok {r : Reader α} (h : Forward r) {b : Buffer} {p q : Nat} {a : α} (hp : p ≤ b.size)
    (hr : r b p = (.ok a, q)) : p ≤ q :=
  (h p b b p ⟨hp, rfl, fun _ _ _ => rfl⟩ (Nat.le_refl p)).2 a q hr

end Reader

open Reader

/-! ## One operation -/

/-- Operations that read a text: these may have consumed a part of it when they fail. -/
def Operation.ReadsText : Operation → Prop
  | utf8 | utf16 | fixedUtf16 _ => True
  | _ => False

/-- Operations that have a result in machine words: the alignment to a boundary is a word and not zero. -/
def Operation.Defined : Operation → Prop
  | align alignment => alignment ≠ 0 ∧ alignment < 0x10000000000000000
  | _ => True

namespace Operation

/-- The status of the cursor is told, and nothing is read. -/
theorem status_still : Still CursorStatus.read :=
  fun _ _ => rfl

/-- An operation that is defined leaves the cursor in the buffer and fails only because of the data. -/
theorem run_safe {op : Operation} (h : op.Defined) : Safe op.run := by
  cases op with
  | seek target => exact (Safe.seek target).map _
  | advance length => exact (Safe.advance length).map _
  | align alignment => exact (Safe.align h.1 h.2).map _
  | endOf length => exact (Safe.endOf length).map _
  | status => exact (Safe.size.bind fun _ => Safe.position.bind fun _ => Safe.pure _).map _
  | u8 => exact Safe.u8.map _
  | i8 => exact Safe.i8.map _
  | u16 => exact Safe.u16.map _
  | i16 => exact Safe.i16.map _
  | u32 => exact Safe.u32.map _
  | i32 => exact Safe.i32.map _
  | u64 => exact Safe.u64.map _
  | i64 => exact Safe.i64.map _
  | real32 => exact Safe.real32.map _
  | real64 => exact Safe.real64.map _
  | bytes length => exact (Safe.bytes length).map _
  | guid => exact Safe.guid.map _
  | utf8 => exact Safe.utf8.map _
  | skipUtf8 => exact Safe.skipUtf8.map _
  | utf16 => exact Safe.utf16.map _
  | fixedUtf16 units => exact (Safe.fixedUtf16 units).map _
  | measure limit =>
    have hmeasure : Safe (Tally.measure limit) := fun b p hp => (Tally.measure_safeAt limit hp).mono fun _ _ _ _ => trivial
    exact hmeasure.map _

/-- All operations but `seek` look forward. -/
theorem run_forward {op : Operation} (h : ∀ target, op ≠ .seek target) : Forward op.run := by
  cases op with
  | seek target => exact absurd rfl (h target)
  | advance length => exact (Forward.advance length).map _
  | align alignment => exact (Forward.align alignment).map _
  | endOf length =>
    exact (Forward.position.bind fun _ => Forward.size.bind fun _ => (Forward.require _ _).bind fun _ => Forward.pure _).map _
  | status => exact (Forward.size.bind fun _ => Forward.position.bind fun _ => Forward.pure _).map _
  | u8 => exact Forward.u8.map _
  | i8 => exact (Forward.u8.map _).map _
  | u16 => exact Forward.u16.map _
  | i16 => exact (Forward.u16.map _).map _
  | u32 => exact Forward.u32.map _
  | i32 => exact (Forward.u32.map _).map _
  | u64 => exact Forward.u64.map _
  | i64 => exact (Forward.u64.map _).map _
  | real32 => exact (Forward.u32.map _).map _
  | real64 => exact (Forward.u64.map _).map _
  | bytes length => exact (Forward.bytes length).map _
  | guid => exact Forward.guid.map _
  | utf8 => exact Forward.utf8.map _
  | skipUtf8 => exact Forward.skipUtf8.map _
  | utf16 => exact Forward.utf16.map _
  | fixedUtf16 units => exact (Forward.fixedUtf16 units).map _
  | measure limit => exact (Tally.measure_forward limit).map _

/-- An operation that reads no text takes all or nothing. -/
theorem run_allOrNothing {op : Operation} (h : ¬ op.ReadsText) : AllOrNothing op.run := by
  cases op with
  | seek target => exact (AllOrNothing.seek target).map _
  | advance length => exact (AllOrNothing.advance length).map _
  | align alignment => exact (AllOrNothing.align alignment).map _
  | endOf length => exact (AllOrNothing.of_still (.endOf length)).map _
  | status => exact (AllOrNothing.of_still status_still).map _
  | u8 => exact AllOrNothing.u8.map _
  | i8 => exact (AllOrNothing.u8.map _).map _
  | u16 => exact AllOrNothing.u16.map _
  | i16 => exact (AllOrNothing.u16.map _).map _
  | u32 => exact AllOrNothing.u32.map _
  | i32 => exact (AllOrNothing.u32.map _).map _
  | u64 => exact AllOrNothing.u64.map _
  | i64 => exact (AllOrNothing.u64.map _).map _
  | real32 => exact (AllOrNothing.u32.map _).map _
  | real64 => exact (AllOrNothing.u64.map _).map _
  | bytes length => exact (AllOrNothing.bytes length).map _
  | guid => exact AllOrNothing.guid.map _
  | skipUtf8 => exact AllOrNothing.skipUtf8.map _
  | measure limit => exact (AllOrNothing.of_still (.restoring _)).map _
  | utf8 | utf16 | fixedUtf16 units => exact absurd trivial h

/-- What an operation at a position of a buffer keeps. -/
structure Keeps (b : Buffer) (p : Nat) (op : Operation) : Prop where
  /-- The cursor stays in the buffer. -/
  inside : (op.run b p).2 ≤ b.size
  /-- Only the data can make it fail: no sum leaves 64 bits, no slice the buffer, and nothing is divided by zero. -/
  ofData : ∀ e, (op.run b p).1 = .error e → e.OfData
  /-- Unless it reads a text, the cursor stays where it was if it fails. -/
  untouched : ¬ op.ReadsText → ∀ e, (op.run b p).1 = .error e → (op.run b p).2 = p
  /-- Unless it seeks, the cursor is where it was or ahead if it succeeds. -/
  onward : (∀ target, op ≠ .seek target) → ∀ answer, (op.run b p).1 = .ok answer → p ≤ (op.run b p).2

/-- An operation that is defined keeps what it should from each position of a buffer. -/
theorem keeps {op : Operation} (h : op.Defined) {b : Buffer} {p : Nat} (hp : p ≤ b.size) : op.Keeps b p := by
  have hsafe := run_safe h b p hp
  refine ⟨hsafe.1, fun e he => ?_, fun htext e he => ?_, fun hseek answer ha => ?_⟩
  · exact (hsafe.ofData_of_error (Prod.ext he rfl)).2
  · exact run_allOrNothing htext b p e _ (Prod.ext he rfl)
  · exact (run_forward hseek).le_of_ok hp (Prod.ext ha rfl)

end Operation

/-! ## Sessions -/

namespace Session

/-- Where the cursor stands in a session: at the start, and behind each operation. -/
def cursors (b : Buffer) (start : Nat) (ops : List Operation) : List Nat :=
  start :: (run b start ops).map (·.2)

theorem length_run (b : Buffer) (start : Nat) (ops : List Operation) : (run b start ops).length = ops.length := by
  induction ops generalizing start with
  | nil => rfl
  | cons op rest ih => rw [run, List.length_cons, List.length_cons, ih]

/-- From a position of the buffer on, each operation of a session runs on that buffer from where the one before it left the cursor,
and keeps what it should. -/
theorem keeps_of_run {b : Buffer} {start : Nat} {ops : List Operation} (hdefined : ∀ op ∈ ops, op.Defined)
    (hstart : start ≤ b.size) : ∀ i op, ops[i]? = some op → ∃ p, (cursors b start ops)[i]? = some p ∧ p ≤ b.size ∧
      (run b start ops)[i]? = some (op.run b p) ∧ (cursors b start ops)[i + 1]? = some (op.run b p).2 ∧ op.Keeps b p := by
  -- The induction is on the operations; the cursor that the first one leaves is where the rest of the session starts.
  induction ops generalizing start with
  | nil =>
    intro i op hop
    simp at hop
  | cons first rest ih =>
    obtain ⟨hfirst, hrest⟩ := List.forall_mem_cons.mp hdefined
    have hkeeps := Operation.keeps hfirst hstart
    intro i op hop
    cases i with
    | zero =>
      obtain rfl := Option.some.inj hop
      exact ⟨start, rfl, hstart, rfl, rfl, hkeeps⟩
    | succ i => exact ih hrest hkeeps.inside i op hop

/-- On any buffer and for any operations, with any arguments: a session that starts at the front of the buffer gives as many
outcomes as it has operations. Each operation runs on that buffer, from where the one before it left the cursor, which is in the
buffer; it leaves the cursor in the buffer; it never traps; if it fails, the cursor stays where it was unless a text is read; and if
it succeeds, the cursor does not go back unless it seeks. Alignments have to be words and not zero. -/
theorem run_keeps (b : Buffer) (ops : List Operation)
    (haligned : ∀ alignment, Operation.align alignment ∈ ops → alignment ≠ 0 ∧ alignment < 0x10000000000000000) :
    (run b 0 ops).length = ops.length ∧
      ∀ i op, ops[i]? = some op → ∃ p, (cursors b 0 ops)[i]? = some p ∧ p ≤ b.size ∧
        (run b 0 ops)[i]? = some (op.run b p) ∧ (cursors b 0 ops)[i + 1]? = some (op.run b p).2 ∧ op.Keeps b p := by
  have hdefined : ∀ op ∈ ops, op.Defined := by
    intro op hop
    cases op with
    | align alignment => exact haligned alignment hop
    | _ => trivial
  exact ⟨length_run b 0 ops, keeps_of_run hdefined (Nat.zero_le b.size)⟩

/-- Five bytes: two units, neither of them zero, and half a unit. -/
def sampleUnits : Buffer :=
  ⟨#[0x41, 0x00, 0x42, 0x00, 0x43], by decide⟩

/-- A session with a step behind the buffer, a number that is not there, and a text that does not end. -/
def sampleOperations : List Operation :=
  [.seek 9, .u8, .align 2, .u32, .seek 0, .utf16, .measure 9]

/-- In the sample, the step behind the buffer, the number and the measure fail and leave the cursor. The text fails too, behind the
two units that it has taken, inside the buffer. -/
theorem run_keeps_sampleOperations :
    cursors sampleUnits 0 sampleOperations = [0, 0, 1, 2, 2, 0, 4, 4] ∧
      (run sampleUnits 0 sampleOperations).map (fun outcome => outcome.1.isOk) = [false, true, true, false, true, false, false] ∧
      (run sampleUnits 0 sampleOperations).length = 7 ∧
      ∃ p, (cursors sampleUnits 0 sampleOperations)[3]? = some p ∧ p ≤ sampleUnits.size ∧
        (run sampleUnits 0 sampleOperations)[3]? = some (Operation.u32.run sampleUnits p) ∧
        (cursors sampleUnits 0 sampleOperations)[4]? = some (Operation.u32.run sampleUnits p).2 ∧
        Operation.u32.Keeps sampleUnits p := by
  have haligned : ∀ alignment, Operation.align alignment ∈ sampleOperations →
      alignment ≠ 0 ∧ alignment < 0x10000000000000000 := by
    intro alignment hmem
    simp only [sampleOperations, List.mem_cons, Operation.align.injEq, reduceCtorEq, List.not_mem_nil, false_or, or_false] at hmem
    omega
  obtain ⟨hlength, hkeeps⟩ := run_keeps sampleUnits sampleOperations haligned
  exact ⟨by decide +kernel, by decide +kernel, hlength, hkeeps 3 .u32 rfl⟩

end Session

end ManagedSymbols
