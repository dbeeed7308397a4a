import ManagedSymbols.Record

/-!
# Scanning a range of records

A scan walks the records of a range that ends at a limit and hands each framing to a handler, which may read, gathers a state and
says where to go on: behind the record, or at a position at or behind the record's end. Wherever the handler leaves the cursor,
the scan puts it where it goes on, so the framings depend only on the bytes and on the handler's answers. Each record is at least
four bytes long and no answer leads back into it: that, and nothing about the handler, is why a scan ends.

`scanRun` tells everything about a scan, the framings handed out included; `scan` is the reader that gives the gathered state.
-/

namespace ManagedSymbols

/-- Where a scan goes on after a record. -/
inductive Resume where
  /-- Behind the record. -/
  | afterRecord
  /-- At a position at or behind the record's end. -/
  | jump (target : Nat)
  deriving DecidableEq, Repr

/-- The position where a scan goes on, if it lies between the record's end and the limit. -/
def Resume.target (h : RecordHeader) (limit : Nat) : Resume → Except Fault Nat
  | .afterRecord => .ok h.stop
  | .jump target =>
    if target < h.stop then .error (.invalidJump h.kind target h.offset)
    else if limit < target then .error (.endOutOfRange h.kind target limit h.offset)
    else .ok target

/-- A scan never goes back into the record it comes from. -/
theorem Resume.stop_le_target {h : RecordHeader} {limit t : Nat} {r : Resume} (ht : r.target h limit = .ok t) :
    h.stop ≤ t := by
  cases r with
  | afterRecord =>
    simp only [Resume.target, Except.ok.injEq] at ht
    omega
  | jump target =>
    simp only [Resume.target] at ht
    split at ht
    · cases ht
    · split at ht
      · cases ht
      · simp only [Except.ok.injEq] at ht
        omega

/-- What a scan does with a record: it may read, hands its state on and says where to go on. -/
abbrev RecordHandler (σ : Type) : Type :=
  RecordHeader → σ → Reader (Resume × σ)

/-- What is known of a scan when it has ended: the framings it handed out, in order, its state or the fault that stopped it, and
the cursor. -/
structure ScanRun (σ : Type) where
  visited : List RecordHeader
  answer : Except Fault σ
  cursor : Nat

/-- A run that handed out one more framing first. -/
def ScanRun.behind {σ : Type} (run : ScanRun σ) (h : RecordHeader) : ScanRun σ :=
  { run with visited := h :: run.visited }

/-- A run as what a read ends with. -/
def ScanRun.outcome {σ : Type} (run : ScanRun σ) : Except Fault σ × Nat :=
  (run.answer, run.cursor)

/-- The run that a scan makes from a position on. -/
def scanRun {σ : Type} (limit : Nat) (handler : RecordHandler σ) (state : σ) (b : Buffer) (p : Nat) : ScanRun σ :=
  if p < limit then
    match hf : RecordHeader.frame limit b p with
    | (.error e, q) => ⟨[], .error e, q⟩
    | (.ok h, q) =>
      match handler h state b q with
      | (.error e, r) => ⟨[h], .error e, r⟩
      | (.ok (resume, state), r) =>
        match ht : resume.target h limit with
        | .error e => ⟨[h], .error e, r⟩
        | .ok target =>
          have := RecordHeader.of_frame hf
          have := Resume.stop_le_target ht
          if target ≤ b.size then (scanRun limit handler state b target).behind h
          else ⟨[h], .error .outOfBounds, r⟩
  else ⟨[], .ok state, p⟩
termination_by limit - p
decreasing_by omega

/-- Walks the records from the cursor to the limit and gives what the handler gathered. -/
def scan {σ : Type} (limit : Nat) (handler : RecordHandler σ) (state : σ) : Reader σ :=
  fun b p => (scanRun limit handler state b p).outcome

/-- The body of a procedure or a block must have stopped at its terminator, which is read: its length is not looked at, its kind
must be that of a terminator. -/
def expectEnd (kind : RecordKind) (stop : Nat) : Reader Unit := do
  let p ← Reader.position
  Reader.require (p = stop) (.notAtEnd kind stop p)
  let _length ← Reader.u16
  let found := RecordKind.ofCode (← Reader.u16)
  Reader.require (found = .terminator) (.missingEnd found stop)

end ManagedSymbols
