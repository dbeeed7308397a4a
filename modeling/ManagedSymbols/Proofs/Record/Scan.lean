import ManagedSymbols.Record.Scan

/-!
# Scans that succeed, step by step

A scan that succeeds is a chain of steps (`Scanned`): at each position a record is framed, the handler makes something of it, and
the scan goes on at a position inside the buffer (`ScanStep`). The chain is the scan (`Scanned.scanRun_eq`, `scanned_of_scan`), so
what a scan does is said of one step and follows for all of it by induction on the chain.
-/

namespace ManagedSymbols

variable {σ : Type}

/-- One record of a scan that goes well: framed at `p` and handled from the state `s`, after which the scan goes on at `q` in the
state `t`. -/
structure ScanStep (limit : Nat) (handler : RecordHandler σ) (b : Buffer) (p : Nat) (s : σ) (h : RecordHeader) (q : Nat)
    (t : σ) : Prop where
  inside : p < limit
  framed : RecordHeader.frame limit b p = (.ok h, p + 4)
  handled : ∃ resume r, handler h s b (p + 4) = (.ok (resume, t), r) ∧ resume.target h limit = .ok q
  landed : q ≤ b.size

/-- A scan that goes well from a position and a state on: the framings it hands out, and the state and the position at its end. -/
inductive Scanned (limit : Nat) (handler : RecordHandler σ) (b : Buffer) :
    Nat → σ → List RecordHeader → σ → Nat → Prop where
  | done {p : Nat} {s : σ} (behind : limit ≤ p) : Scanned limit handler b p s [] s p
  | step {p q r : Nat} {s t u : σ} {h : RecordHeader} {hs : List RecordHeader}
      (first : ScanStep limit handler b p s h q t) (rest : Scanned limit handler b q t hs u r) :
      Scanned limit handler b p s (h :: hs) u r

variable {limit : Nat} {handler : RecordHandler σ} {b : Buffer} {p q r : Nat} {s t u : σ} {h : RecordHeader}

/-- The position that an answer names. -/
def Resume.position (h : RecordHeader) : Resume → Nat
  | .afterRecord => h.stop
  | .jump target => target

/-- A scan that goes on does so at the position that the answer names, which lies behind the record and inside the range. -/
theorem Resume.of_target {resume : Resume} (ht : resume.target h limit = .ok q) :
    q = resume.position h ∧ h.stop ≤ q ∧ (h.stop ≤ limit → q ≤ limit) := by
  cases resume with
  | afterRecord =>
    cases ht
    exact ⟨rfl, Nat.le_refl _, id⟩
  | jump target =>
    simp only [Resume.target] at ht
    split at ht
    · cases ht
    · next hstop =>
      split at ht
      · cases ht
      · next hlimit =>
        cases ht
        exact ⟨rfl, Nat.le_of_not_lt hstop, fun _ => Nat.le_of_not_lt hlimit⟩

/-- A scan goes on at the position that an answer names, if it lies behind the record and inside the range. -/
theorem Resume.target_eq {resume : Resume} (hstop : h.stop ≤ resume.position h) (hlimit : resume.position h ≤ limit) :
    resume.target h limit = .ok (resume.position h) := by
  cases resume with
  | afterRecord => rfl
  | jump target =>
    simp only [Resume.position] at hstop hlimit
    rw [Resume.target, if_neg (Nat.not_lt.mpr hstop), if_neg (Nat.not_lt.mpr hlimit)]
    rfl

/-- A run whose first record is framed goes on as its handler says. -/
theorem scanRun_of_frame (hp : p < limit) (hf : RecordHeader.frame limit b p = (.ok h, q)) :
    scanRun limit handler s b p = match handler h s b q with
      | (.error e, c) => ⟨[h], .error e, c⟩
      | (.ok (resume, t), c) =>
        match resume.target h limit with
        | .error e => ⟨[h], .error e, c⟩
        | .ok target =>
          if target ≤ b.size then (scanRun limit handler t b target).behind h else ⟨[h], .error .outOfBounds, c⟩ := by
  rw [scanRun, if_pos hp]
  split
  · next e q' hf' => rw [hf] at hf'; cases hf'
  · next h' q' hf' =>
    rw [hf] at hf'
    cases hf'
    cases hh : handler h s b q with
    | mk answer c =>
      cases answer with
      | error e => rfl
      | ok found =>
        dsimp only
        split
        · next e ht => rw [ht]
        · next target ht => rw [ht]

/-- A run whose first record is not framed ends there. -/
theorem scanRun_of_frame_error {e : Fault} (hp : p < limit) (hf : RecordHeader.frame limit b p = (.error e, q)) :
    scanRun limit handler s b p = ⟨[], .error e, q⟩ := by
  rw [scanRun, if_pos hp]
  split
  · next hf' => rw [hf] at hf'; cases hf'; rfl
  · next hf' => rw [hf] at hf'; cases hf'

/-- A record that is handled well is the first one of the run. -/
theorem ScanStep.scanRun_eq (step : ScanStep limit handler b p s h q t) :
    scanRun limit handler s b p = (scanRun limit handler t b q).behind h := by
  obtain ⟨resume, c, hh, ht⟩ := step.handled
  rw [scanRun_of_frame step.inside step.framed, hh]
  simp only [ht, if_pos step.landed]

/-- A scan goes on behind a record that is handled well. -/
theorem ScanStep.scan_eq (step : ScanStep limit handler b p s h q t) :
    scan limit handler s b p = scan limit handler t b q := by
  rw [scan, step.scanRun_eq]
  rfl

/-- A scan that has come to its limit ends with its state. -/
theorem scanRun_of_le (hp : limit ≤ p) : scanRun limit handler s b p = ⟨[], .ok s, p⟩ := by
  rw [scanRun, if_neg (by omega)]

/-- A scan that has come to its limit gives its state. -/
theorem scan_of_eq (hp : p = limit) : scan limit handler s b p = (.ok s, limit) := by
  subst hp
  rw [scan, scanRun_of_le (Nat.le_refl p)]
  rfl

/-- The chain of steps is the run. -/
theorem Scanned.scanRun_eq {hs : List RecordHeader} (run : Scanned limit handler b p s hs u r) :
    scanRun limit handler s b p = ⟨hs, .ok u, r⟩ := by
  induction run with
  | done behind => exact scanRun_of_le behind
  | step first _ ih =>
    rw [first.scanRun_eq, ih]
    rfl

/-- A run that ends with a state is a chain of steps. -/
theorem scanned_of_answer (ha : (scanRun limit handler s b p).answer = .ok u) :
    Scanned limit handler b p s (scanRun limit handler s b p).visited u (scanRun limit handler s b p).cursor := by
  fun_induction scanRun limit handler s b p with
  | case1 s p hp e q hf => cases ha
  | case2 s p hp h q hf e c hh => cases ha
  | case3 s p hp h q hf resume t c hh e ht => cases ha
  | case4 s p hp h q hf resume t c hh target ht _ _ hland ih =>
    obtain ⟨_, _, _, _, rfl, _⟩ := RecordHeader.of_frame hf
    exact .step ⟨hp, hf, ⟨resume, c, hh, ht⟩, hland⟩ (ih ha)
  | case5 s p hp h q hf resume t c hh target ht _ _ hland => cases ha
  | case6 s p hp =>
    cases ha
    exact .done (by omega)

/-- A scan that succeeds is a chain of steps. -/
theorem scanned_of_scan (hscan : scan limit handler s b p = (.ok u, r)) :
    Scanned limit handler b p s (scanRun limit handler s b p).visited u r := by
  simp only [scan, ScanRun.outcome, Prod.mk.injEq] at hscan
  have run := scanned_of_answer hscan.1
  rwa [hscan.2] at run

namespace Scanned

variable {hs : List RecordHeader}

/-- The chain of steps is the scan. -/
theorem scan_eq (run : Scanned limit handler b p s hs u r) : scan limit handler s b p = (.ok u, r) := by
  rw [scan, run.scanRun_eq]
  rfl

/-- Each record that a scan hands out is handled in a step of it. -/
theorem exists_step_of_mem (run : Scanned limit handler b p s hs u r) (hh : h ∈ hs) :
    ∃ p s q t, ScanStep limit handler b p s h q t := by
  induction run with
  | done behind => cases hh
  | step first _ ih =>
    rcases List.mem_cons.mp hh with rfl | hh
    · exact ⟨_, _, _, _, first⟩
    · exact ih hh

/-- A scan that succeeds from inside its range ends at the limit. -/
theorem cursor_eq (run : Scanned limit handler b p s hs u r) (hp : p ≤ limit) : r = limit := by
  induction run with
  | done behind => omega
  | step first _ ih =>
    obtain ⟨resume, _, _, ht⟩ := first.handled
    obtain ⟨_, _, _, hinside, _⟩ := RecordHeader.of_frame first.framed
    exact ih ((Resume.of_target ht).2.2 hinside)

/-- A scan that succeeds ends at the limit, or where it started if that is behind the limit. -/
theorem cursor_eq_ite (run : Scanned limit handler b p s hs u r) : r = if p ≤ limit then limit else p := by
  split
  · next hp => exact run.cursor_eq hp
  · next hp =>
    cases run with
    | done behind => rfl
    | step first _ => exact absurd (Nat.le_of_lt first.inside) hp

end Scanned

end ManagedSymbols
