import ManagedSymbols.Proofs.Body.Measure
import ManagedSymbols.Proofs.Record.Limit
import ManagedSymbols.Proofs.Record.Protocol

/-!
# Nothing behind the limit but the framing that it cuts

A handler that does not look at the buffer reads nothing behind the limit, and neither does the one that counts, since it reads a
block's fields only after the block's length has been checked (`Tally.count_congr`). So a scan and a measure of a range look behind the
limit in one case only: to frame a record of which the limit leaves less than four bytes (`scan_below_limit`). In that case the
outcome does depend on what stands there (`scan_reads_behind_limit`).
-/

namespace ManagedSymbols

open Reader

variable {limit : Nat} {b b' : Buffer}

namespace Tally

/-- Measures end alike up to cut framings. -/
theorem measure_cutAlike (inside : limit ≤ b.size) (inside' : limit ≤ b'.size) (same : b.AgreeOn b' 0 limit) (p : Nat) :
    CutAlike limit b b' (fun c => ∃ t, ScanTo limit (count limit) b p {} c t) (measure limit b p) (measure limit b' p) := by
  have alike : b.AlikeOn b' 0 limit := .of_inside same inside inside'
  have handled {c : Nat} {h : RecordHeader} (t : Tally) (hf : RecordHeader.frame limit b c = (.ok h, c + 4)) :
      count limit h t b (c + 4) = count limit h t b' (c + 4) :=
    count_congr hf (alike.mono (Nat.zero_le c) (RecordHeader.of_frame hf).2.2.2.1) t
  have hscan := scan_cutAlike inside inside' same handled p {}
  refine ⟨fun uncut => ?_, hscan.cut⟩
  rw [measure, restoring, restoring, hscan.same uncut]

end Tally

/-- Two buffers that reach to the limit and agree up to there give the same outcome of a scan whose handler does not look at the
buffer, and of a measure, unless a record that the scan comes to has a framing that the limit cuts. In that case each ends with the
fault that the words of the framing give rise to in its own buffer. -/
theorem scan_below_limit (inside : limit ≤ b.size) (inside' : limit ≤ b'.size) (same : b.AgreeOn b' 0 limit) :
    (∀ {σ : Type} (handler : RecordHandler σ), (∀ h s, Blind (handler h s)) → ∀ p s,
      CutAlike limit b b' (fun c => ∃ t, ScanTo limit handler b p s c t) (scan limit handler s b p) (scan limit handler s b' p)) ∧
    ∀ p, CutAlike limit b b' (fun c => ∃ t, ScanTo limit (Tally.count limit) b p {} c t) (Tally.measure limit b p)
      (Tally.measure limit b' p) :=
  ⟨fun _ blind => scan_cutAlike inside inside' same fun s _ => blind _ s b b' _, Tally.measure_cutAlike inside inside' same⟩

/-- Counts the records of a range. -/
def countRecords : RecordHandler Nat :=
  fun _ n => Reader.check (.ok (.afterRecord, n + 1))

/-- The first of two terminators and the first byte of the second one. -/
def sampleCut : Buffer :=
  ⟨#[2, 0, 6, 0, 2], by decide⟩

/-- A limit behind the first terminator gives the same count in both buffers. A limit one byte further on cuts the framing of the
second one: it is missing in one buffer, and in the other it is that of a record that leaves the range. -/
theorem scan_below_limit_sample : sampleCut.AgreeOn twoTerminators 0 5 ∧
    scan 4 countRecords 0 sampleCut 0 = scan 4 countRecords 0 twoTerminators 0 ∧
    (Tally.measure 5 sampleCut 0).1 = .error .outOfBounds ∧
    (Tally.measure 5 twoTerminators 0).1 = .error (.recordOverrun .terminator 8 5 4) := by
  have hsame : sampleCut.AgreeOn twoTerminators 0 5 := by decide
  have hfour : 4 ≤ sampleCut.size ∧ 4 ≤ twoTerminators.size := by decide
  have hfive : 5 ≤ sampleCut.size ∧ 5 ≤ twoTerminators.size := by decide
  refine ⟨hsame, ?_, ?_⟩
  · have halike := (scan_below_limit hfour.1 hfour.2 (hsame.mono (Nat.le_refl 0) (by decide))).1 countRecords
      (fun _ _ _ _ _ => rfl) 0 0
    refine halike.same ?_
    rintro c ⟨t, reached⟩ hc
    cases reached with
    | here => decide
    | onward _ next =>
      have := next.bounds
      omega
  · have hfirst : ScanStep 5 (Tally.count 5) sampleCut 0 {} ⟨.terminator, 2, 0, 4⟩ 4 {} :=
      ⟨by decide, rfl, ⟨.afterRecord, 4, rfl, rfl⟩, by decide⟩
    exact ((scan_below_limit hfive.1 hfive.2 hsame).2 0).cut 4 ⟨{}, .onward .here hfirst⟩ (by decide) (by decide)

/-- The first byte of a length word. -/
def lengthByte : Buffer :=
  ⟨#[5], by decide⟩

/-- A terminator that declares more bytes than there are. -/
def overlongTerminator : Buffer :=
  ⟨#[5, 0, 6, 0], by decide⟩

/-- What stands behind the limit of a scan makes a difference to its fault: where one byte is left in front of the limit, a buffer that
ends there is too short, and in one that goes on a record leaves the range. -/
theorem scan_reads_behind_limit : 1 ≤ lengthByte.size ∧ 1 ≤ overlongTerminator.size ∧
    lengthByte.AgreeOn overlongTerminator 0 1 ∧
    (scan 1 countRecords 0 lengthByte 0).1 = .error .outOfBounds ∧
    (scan 1 countRecords 0 overlongTerminator 0).1 = .error (.recordOverrun .terminator 7 1 0) ∧
    (Tally.measure 1 lengthByte 0).1 = .error .outOfBounds ∧
    (Tally.measure 1 overlongTerminator 0).1 = .error (.recordOverrun .terminator 7 1 0) := by
  have hcut {σ : Type} (handler : RecordHandler σ) (s : σ) (b : Buffer) :
      (scan 1 handler s b 0).1 = .error (b.cutFault 1 0) := ScanTo.here.answer_of_cut (by decide) (by decide)
  exact ⟨by decide, by decide, by decide, hcut _ _ _, hcut _ _ _, hcut _ _ _, hcut _ _ _⟩

end ManagedSymbols
