import ManagedSymbols.Proofs.Body.Steps

/-!
# Walks in larger ranges

A limit is looked at when a record is framed, when a terminator is declared and when a scan goes on, and whatever passes under one
limit passes under every larger one (`ScanStep.mono`). So a walk up to a position is the front of every longer walk from the same
start, and goes on with any walk that starts where it ends (`Scanned.append`).
-/

namespace ManagedSymbols

open Reader

variable {σ τ : Type} {m limit : Nat} {b : Buffer} {h : RecordHeader}

/-- A record that lies in a range lies in every larger one. -/
theorem RecordHeader.frame_mono (hle : m ≤ limit) {p q : Nat} (hf : frame m b p = (.ok h, q)) :
    frame limit b p = (.ok h, q) := by
  obtain ⟨found, c, hread, hf⟩ := exists_of_bind hf
  obtain ⟨_, _, hcheck, hf⟩ := exists_of_bind hf
  obtain ⟨hpass, rfl⟩ := of_check hcheck
  obtain ⟨rfl, rfl⟩ := of_pure hf
  have hinside := (of_checkFrame hpass).2
  have hpass' : found.checkFrame limit = .ok () := by
    rw [checkFrame, if_neg (by omega)] at hpass ⊢
    exact hpass
  rw [frame, run_bind_ok hread, hpass']
  rfl

theorem RecordHeader.checkedEnd_mono (hle : m ≤ limit) {stop : UInt32} {found : Nat}
    (hc : h.checkedEnd stop m = .ok found) : h.checkedEnd stop limit = .ok found := by
  obtain ⟨rfl, hbehind, hinside⟩ := of_checkedEnd hc
  rw [checkedEnd, if_neg (by omega), if_neg (by omega)]

theorem RecordHeader.declaredEnd_mono (hle : m ≤ limit) {p q stop : Nat} (hd : h.declaredEnd m b p = (.ok stop, q)) :
    h.declaredEnd limit b p = (.ok stop, q) := by
  obtain ⟨_, _, hfix, hd⟩ := exists_of_bind hd
  obtain ⟨_, _, hparent, hd⟩ := exists_of_bind hd
  obtain ⟨found, _, hstop, hd⟩ := exists_of_bind hd
  obtain ⟨hchecked, rfl⟩ := of_check hd
  rw [declaredEnd, run_bind_ok hfix, run_bind_ok hparent, run_bind_ok hstop, checkedEnd_mono hle hchecked]
  rfl

theorem Resume.target_mono (hle : m ≤ limit) (hinside : h.stop ≤ m) {resume : Resume} {q : Nat}
    (ht : resume.target h m = .ok q) : resume.target h limit = .ok q := by
  obtain ⟨rfl, hstop, hlimit⟩ := Resume.of_target ht
  exact Resume.target_eq hstop (Nat.le_trans (hlimit hinside) hle)

/-- A step in a range is a step in every larger one, if the handler there does with the record what the handler here does. -/
theorem ScanStep.mono (hle : m ≤ limit) {first : RecordHandler σ} {second : RecordHandler τ} {p q : Nat} {s t : σ} {v w : τ}
    (step : ScanStep m first b p s h q t)
    (handled : ∀ resume r, first h s b (p + 4) = (.ok (resume, t), r) → second h v b (p + 4) = (.ok (resume, w), r)) :
    ScanStep limit second b p v h q w where
  inside := Nat.lt_of_lt_of_le step.inside hle
  framed := RecordHeader.frame_mono hle step.framed
  handled := by
    obtain ⟨resume, r, hh, ht⟩ := step.handled
    exact ⟨resume, r, handled resume r hh, Resume.target_mono hle step.bounds.2.2.2.1 ht⟩
  landed := step.landed

/-- A scan that ends where another one starts is one scan with it. `R` relates the states of the scan at a position to those of
the larger one. -/
theorem Scanned.append {first : RecordHandler σ} {second : RecordHandler τ} (R : Nat → σ → τ → Prop)
    (carry : ∀ {p q s t h v}, ScanStep m first b p s h q t → R p s v → ∃ w, ScanStep limit second b p v h q w ∧ R q t w)
    {p r : Nat} {s u : σ} {v : τ} {hs : List RecordHeader} (run : Scanned m first b p s hs u r) (hv : R p s v) :
    ∃ w, R r u w ∧ ∀ {gs x c}, Scanned limit second b r w gs x c → Scanned limit second b p v (hs ++ gs) x c := by
  induction run generalizing v with
  | done behind => exact ⟨v, hv, fun rest => rest⟩
  | step step _ ih =>
    obtain ⟨w, hstep, hw⟩ := carry step hv
    obtain ⟨x, hx, hrest⟩ := ih hw
    exact ⟨x, hx, fun rest => .step hstep (hrest rest)⟩

end ManagedSymbols
