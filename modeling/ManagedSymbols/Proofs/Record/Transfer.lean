import ManagedSymbols.Proofs.Reader.Alike
import ManagedSymbols.Proofs.Record.Walks

/-!
# Scans of one range in two buffers

A scan is the same run in two buffers if, wherever it comes to in the first one, both frame the same record there and the handler
does the same with it (`scanRun_transfer`). What holds of the positions and states that the scan comes to is carried along by its
steps, so what is asked for has to be seen only where that holds. A framing takes four bytes, and so it is the same if these are
(`RecordHeader.frame_congr`).
-/

namespace ManagedSymbols

open Reader

namespace RecordHeader

variable {b b' : Buffer} {c : Nat}

/-- A framing is the same, or the same fault, in buffers that are alike on its four bytes. -/
theorem frame_congr (alike : b.AlikeOn b' c (c + 4)) (limit : Nat) : frame limit b c = frame limit b' c := by
  have hread : read b c = read b' c := by
    refine run_bind_congr rfl fun _ q hposition => ?_
    cases hposition
    refine run_bind_congr (run_u16_congr alike (Nat.le_refl c) (by omega)) fun _ q hlength => ?_
    obtain ⟨_, rfl, _⟩ := of_u16 hlength
    refine run_bind_congr rfl fun _ q hposition => ?_
    cases hposition
    refine run_bind_congr (Blind.fits _ b b' _) fun _ q hfits => ?_
    obtain ⟨_, _, rfl⟩ := of_fits hfits
    exact run_bind_congr (run_u16_congr alike (by omega) (by omega)) fun _ _ _ => rfl
  exact run_bind_congr hread fun _ _ _ => rfl

end RecordHeader

variable {σ : Type} {limit : Nat} {handler : RecordHandler σ} {b b' : Buffer}

/-- A run is the same in two buffers if each record that it comes to is framed alike and handled alike in both. -/
theorem scanRun_transfer (invariant : Nat → σ → Prop)
    (framed : ∀ {c s}, invariant c s → c < limit → RecordHeader.frame limit b c = RecordHeader.frame limit b' c)
    (handled : ∀ {c s h}, invariant c s → RecordHeader.frame limit b c = (.ok h, c + 4) →
      handler h s b (c + 4) = handler h s b' (c + 4))
    (onward : ∀ {c s h q t}, invariant c s → ScanStep limit handler b c s h q t → invariant q t)
    (landed : ∀ q ≤ limit, q ≤ b.size ↔ q ≤ b'.size) {p : Nat} {s : σ} (start : invariant p s) :
    scanRun limit handler s b p = scanRun limit handler s b' p := by
  -- By induction on the run in the first buffer; the one in the second buffer takes the same branch each time.
  fun_induction scanRun limit handler s b p with
  | case1 s p hp e q hf =>
    have hf' := (framed start hp).symm.trans hf
    rw [scanRun_of_frame_error hp hf']
  | case2 s p hp h q hf e c hh =>
    obtain ⟨_, _, _, _, rfl, _⟩ := RecordHeader.of_frame hf
    have hf' := (framed start hp).symm.trans hf
    have hh' := (handled start hf).symm.trans hh
    rw [scanRun_of_frame hp hf', hh']
  | case3 s p hp h q hf resume t c hh e ht =>
    obtain ⟨_, _, _, _, rfl, _⟩ := RecordHeader.of_frame hf
    have hf' := (framed start hp).symm.trans hf
    have hh' := (handled start hf).symm.trans hh
    rw [scanRun_of_frame hp hf', hh']
    simp only [ht]
  | case4 s p hp h q hf resume t c hh target ht _ _ hland ih =>
    obtain ⟨_, _, _, hinside, rfl, _⟩ := RecordHeader.of_frame hf
    have hf' := (framed start hp).symm.trans hf
    have hh' := (handled start hf).symm.trans hh
    have hland' := (landed target ((Resume.of_target ht).2.2 hinside)).mp hland
    rw [scanRun_of_frame hp hf', hh']
    simp only [ht, if_pos hland']
    rw [ih (onward start ⟨hp, hf, ⟨resume, c, hh, ht⟩, hland⟩)]
  | case5 s p hp h q hf resume t c hh target ht _ _ hland =>
    obtain ⟨_, _, _, hinside, rfl, _⟩ := RecordHeader.of_frame hf
    have hf' := (framed start hp).symm.trans hf
    have hh' := (handled start hf).symm.trans hh
    have hland' := mt (landed target ((Resume.of_target ht).2.2 hinside)).mpr hland
    rw [scanRun_of_frame hp hf', hh']
    simp only [ht, if_neg hland']
  | case6 s p hp => rw [scanRun_of_le (Nat.le_of_not_lt hp)]

end ManagedSymbols
