import Mathlib.Algebra.GroupWithZero.Nat
import ManagedSymbols.Proofs.Record.Walks

/-!
# Records that tile a range

Each record takes a stretch of the buffer, its extent. Extents tile a range if each of them starts where the one before it stops
(`Extent.Tile`); then every byte of the range lies in exactly one of them (`Extent.Tile.countP_holds`). A record that something is
decoded from is charged the least size of a record of its kind, so the charges of extents that tile a range add up to no more than
its length (`Extent.Tile.total_le`). If each step of a scan tiles what it steps over, the whole scan tiles its range
(`Scanned.tile`).
-/

namespace ManagedSymbols

/-- The stretch of the buffer that one record takes, and what is charged for the record. -/
structure Extent where
  start : Nat
  stop : Nat
  charge : Nat

namespace Extent

/-- Whether a byte lies in an extent. -/
def holds (i : Nat) (e : Extent) : Bool :=
  e.start ≤ i && i < e.stop

/-- The extent of a record. A record that something is decoded from is charged the least length of its kind and the length word in
front; a record that is stepped over is charged nothing. -/
def ofRecord (decoded : Bool) (h : RecordHeader) : Extent where
  start := h.offset
  stop := h.stop
  charge := if decoded then 2 + h.kind.minimumLength else 0

/-- The extent of the terminator of a body, which takes a length and a kind. -/
def ofTerminator (stop : Nat) : Extent where
  start := stop
  stop := stop + terminatorSize
  charge := terminatorSize

/-- What is charged for all of some extents. -/
def total (es : List Extent) : Nat :=
  (es.map charge).sum

/-- Extents that lie one behind the other without a gap, from one position to another, each of them charged its own bytes at
most. -/
inductive Tile : Nat → List Extent → Nat → Prop where
  | nil {p : Nat} : Tile p [] p
  | cons {p q : Nat} {e : Extent} {rest : List Extent} (start : e.start = p) (covered : e.start + e.charge ≤ e.stop)
      (next : Tile e.stop rest q) : Tile p (e :: rest) q

@[simp] theorem total_nil : total [] = 0 :=
  rfl

@[simp] theorem total_cons (e : Extent) (es : List Extent) : total (e :: es) = e.charge + total es := by
  simp [total]

@[simp] theorem total_append (front back : List Extent) : total (front ++ back) = total front + total back := by
  simp [total]

namespace Tile

variable {p q r : Nat} {es fs : List Extent}

/-- Extents that tile a range and extents that tile the range behind it tile both together. -/
theorem append (front : Tile p es q) (back : Tile q fs r) : Tile p (es ++ fs) r := by
  induction front with
  | nil => exact back
  | cons start covered _ ih => exact .cons start covered (ih back)

/-- What is charged for extents that tile a range fits into the range. -/
theorem total_le (tile : Tile p es q) : p + total es ≤ q := by
  induction tile with
  | nil => exact Nat.le_refl _
  | cons start covered _ ih =>
    rw [total_cons]
    omega

/-- Each extent is charged its own bytes at most. -/
theorem charge_le (tile : Tile p es q) : ∀ e ∈ es, e.charge ≤ e.stop - e.start := by
  induction tile with
  | nil =>
    intro e he
    cases he
  | cons start covered _ ih =>
    intro e he
    rcases List.mem_cons.mp he with rfl | he
    · omega
    · exact ih e he

/-- Every byte of a range lies in exactly one of the extents that tile it, and no byte outside of the range in any. -/
theorem countP_holds (tile : Tile p es q) (i : Nat) : es.countP (holds i) = if p ≤ i ∧ i < q then 1 else 0 := by
  induction tile with
  | nil =>
    rw [List.countP_nil, if_neg]
    omega
  | @cons p q e rest start covered next ih =>
    have hrest := next.total_le
    rw [List.countP_cons, ih]
    simp only [holds, Bool.and_eq_true, decide_eq_true_eq]
    by_cases hi : e.start ≤ i ∧ i < e.stop
    · rw [if_pos hi, if_neg (by omega), if_pos (by omega)]
    · rw [if_neg hi]
      by_cases hin : e.stop ≤ i ∧ i < q
      · rw [if_pos hin, if_pos (by omega)]
      · rw [if_neg hin, if_neg (by omega)]

/-- A record with the body and the terminator behind it tiles the range from the one to the other. -/
theorem around {h : RecordHeader} {stop : Nat} {decoded : Bool} (start : h.offset = p)
    (covered : (ofRecord decoded h).start + (ofRecord decoded h).charge ≤ h.stop) (inner : Tile h.stop es stop) :
    Tile p (ofRecord decoded h :: (es ++ [ofTerminator stop])) (stop + terminatorSize) :=
  .cons start covered (inner.append (.cons rfl (Nat.le_refl _) .nil))

end Tile

end Extent

/-- If each step of a scan tiles what it steps over and adds its charge to what the state is worth, the whole scan tiles its range
and adds what all its records are charged. -/
theorem Scanned.tile {σ : Type} {limit : Nat} {handler : RecordHandler σ} {b : Buffer} {p r : Nat} {s u : σ}
    {hs : List RecordHeader} (run : Scanned limit handler b p s hs u r) (own : RecordHeader → List Extent) (worth : σ → Nat)
    (step : ∀ {p q : Nat} {s t : σ} {h : RecordHeader}, ScanStep limit handler b p s h q t →
      Extent.Tile p (own h) q ∧ worth t = worth s + Extent.total (own h)) :
    Extent.Tile p (hs.flatMap own) r ∧ worth u = worth s + Extent.total (hs.flatMap own) := by
  induction run with
  | done behind => exact ⟨.nil, rfl⟩
  | step first _ ih =>
    obtain ⟨htile, hworth⟩ := step first
    obtain ⟨hrest, htotal⟩ := ih
    rw [List.flatMap_cons, Extent.total_append, htotal, hworth]
    exact ⟨htile.append hrest, Nat.add_assoc _ _ _⟩

end ManagedSymbols
