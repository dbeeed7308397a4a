import ManagedSymbols.Reader
import ManagedSymbols.Text.Utf16

/-!
# Reading texts

Names are stored in three forms. A UTF-8 text ends at a zero byte or, without one, at the end of the buffer; the cursor moves
behind the zero byte also when the bytes are no text (`Reader.utf8`, and `Reader.skipUtf8` which does not look at them). A UTF-16
text ends at a zero unit and must have one (`Reader.utf16`). A UTF-16 field has a fixed number of units, all of which are
consumed, and its text ends at the first zero unit (`Reader.fixedUtf16`).
-/

namespace ManagedSymbols.Reader

/-- Where the UTF-8 text at the cursor ends. -/
def textEnd : Reader Nat :=
  fun b p => (.ok (b.zeroFrom p), p)

/-- Moves the cursor behind a text that ends at a position: over its zero byte, if it has one. -/
def leaveText (stop : Nat) : Reader Unit := do
  let behind ← fits (stop + 1)
  moveTo (min behind (← size))

/-- The UTF-8 text at the cursor. -/
def utf8 : Reader String := do
  let start ← position
  let stop ← textEnd
  let found ← slice start stop
  leaveText stop
  match Utf8.decode found with
  | .ok cs => return String.ofList cs
  | .error fault => fail (.malformed (.utf8Text start stop fault))

/-- Moves the cursor over the UTF-8 text at the cursor, whatever its bytes are. -/
def skipUtf8 : Reader Unit := do
  leaveText (← textEnd)

/-- A 16-bit word leaves the cursor two bytes on, inside the buffer. -/
theorem bounds_of_u16 {b : Buffer} {p q : Nat} {u : UInt16} (h : u16 b p = (.ok u, q)) : q = p + 2 ∧ q ≤ b.size := by
  rw [run_u16] at h
  split at h
  · next hp =>
    simp only [Prod.mk.injEq] at h
    omega
  · simp at h

/-- The units at the cursor up to a zero unit, which is consumed with them. -/
def unitsToZero (b : Buffer) (p : Nat) : Except Fault (List UInt16) × Nat :=
  match h : u16 b p with
  | (.ok u, q) =>
    if u = 0 then (.ok [], q)
    else
      have := bounds_of_u16 h
      match unitsToZero b q with
      | (.ok rest, r) => (.ok (u :: rest), r)
      | (.error e, r) => (.error e, r)
  | (.error e, q) => (.error e, q)
termination_by b.size - p
decreasing_by omega

/-- The text that units spell, which started at this position. -/
def spell (start : Nat) (units : List UInt16) : Reader String :=
  match Utf16.decode? units with
  | some cs => return String.ofList cs
  | none => fail (.malformed (.utf16Text start))

/-- The UTF-16 text at the cursor. -/
def utf16 : Reader String := do
  let start ← position
  spell start (← unitsToZero)

/-- The units that bytes store, two bytes each; an odd byte at the end is no unit. -/
def unitsOfBytes : List UInt8 → List UInt16
  | low :: high :: rest => UInt16.ofNat (LittleEndian.value [low, high]) :: unitsOfBytes rest
  | _ => []

/-- The UTF-16 text in a field of so many units. -/
def fixedUtf16 (units : Nat) : Reader String := do
  let start ← position
  let field ← bytes (2 * units)
  spell start ((unitsOfBytes field).takeWhile (· ≠ 0))

end ManagedSymbols.Reader
