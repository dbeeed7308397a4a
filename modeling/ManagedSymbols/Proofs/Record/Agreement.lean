import ManagedSymbols.Proofs.Reader.Agreement
import ManagedSymbols.Proofs.Record.Scan

/-!
# Scans that agree

Two scans of one range whose handlers agree record by record agree as a whole (`scan_agree`). If the first one stops with an
excuse, it is that of a record it has handed out, and what is known of the second one's state from then on is what its steps keep
(`Scanned.keeps`).
-/

namespace ManagedSymbols

open Reader

variable {σ τ : Type} {limit : Nat} {b : Buffer} {p q r : Nat} {h : RecordHeader}

/-- What each step of a scan keeps, the scan keeps. -/
theorem Scanned.keeps {handler : RecordHandler σ} {D : σ → Prop}
    (kept : ∀ {p q s t h}, ScanStep limit handler b p s h q t → D s → D t) {s u : σ} {hs : List RecordHeader}
    (run : Scanned limit handler b p s hs u r) (hs : D s) : D u := by
  induction run with
  | done behind => exact hs
  | step first _ ih => exact ih (kept first hs)

section Agreement

variable {first : RecordHandler σ} {second : RecordHandler τ} {R : σ → τ → Prop} {excuse : RecordHeader → Fault → Prop}
  {D : τ → Prop}

/-- Scans agree if their handlers do: they give the same answers and related states, and if the first handler is excused, the state
of the second one has a property that its steps keep. -/
theorem scan_agree
    (step : ∀ {p h s t}, RecordHeader.frame limit b p = (.ok h, p + 4) → R s t →
      Agree (fun x y => x.1 = y.1 ∧ R x.2 y.2) (excuse h) (fun y => D y.2) (first h s b (p + 4)) (second h t b (p + 4)))
    (kept : ∀ {p q t u h}, ScanStep limit second b p t h q u → D t → D u) {s : σ} {t : τ} (hst : R s t) :
    Agree R (fun e => ∃ h ∈ (scanRun limit first s b p).visited, excuse h e) D (scan limit first s b p)
      (scan limit second t b p) := by
  rw [scan, scan]
  -- By induction on the first run: the second one frames the same records and takes the same branch, unless the first is excused.
  fun_induction scanRun limit first s b p generalizing t with
  | case1 s p hp e q hf =>
    rw [scanRun_of_frame_error hp hf]
    exact .error
  | case2 s p hp h q hf e c hh =>
    obtain ⟨_, _, _, _, rfl, _⟩ := RecordHeader.of_frame hf
    have hagree := step hf hst
    rw [hh] at hagree
    generalize hh' : second h t b (p + 4) = outcome at hagree
    cases hagree with
    | error =>
      rw [scanRun_of_frame hp hf, hh']
      exact .error
    | excused given missed =>
      -- The second scan may go on; its state has the property behind this record, and its further steps keep that.
      refine .excused ⟨h, List.mem_singleton_self h, given⟩ fun u r hu => ?_
      have run := scanned_of_scan hu
      generalize (scanRun limit second t b p).visited = hs at run
      cases run with
      | done behind => omega
      | @step _ _ _ _ t' _ h' hs first' rest =>
        have hframed := first'.framed
        rw [hf] at hframed
        cases hframed
        obtain ⟨resume, c', hhandled, _⟩ := first'.handled
        rw [hh'] at hhandled
        exact rest.keeps kept (missed (resume, t') c' hhandled)
  | case3 s p hp h q hf resume s' c hh e ht =>
    obtain ⟨_, _, _, _, rfl, _⟩ := RecordHeader.of_frame hf
    have hagree := step hf hst
    rw [hh] at hagree
    obtain ⟨⟨_, t'⟩, hh', rfl, _⟩ := hagree.exists_of_ok
    rw [scanRun_of_frame hp hf, hh']
    simp only [ht]
    exact .error
  | case4 s p hp h q hf resume s' c hh target ht _ _ hland ih =>
    obtain ⟨_, _, _, _, rfl, _⟩ := RecordHeader.of_frame hf
    have hagree := step hf hst
    rw [hh] at hagree
    obtain ⟨⟨_, t'⟩, hh', rfl, hst'⟩ := hagree.exists_of_ok
    rw [scanRun_of_frame hp hf, hh']
    simp only [ht, if_pos hland]
    refine (ih hst').mono (fun _ _ => id) ?_
    rintro e ⟨g, hg, given⟩
    exact ⟨g, List.mem_cons_of_mem h hg, given⟩
  | case5 s p hp h q hf resume s' c hh target ht _ _ hland =>
    obtain ⟨_, _, _, _, rfl, _⟩ := RecordHeader.of_frame hf
    have hagree := step hf hst
    rw [hh] at hagree
    obtain ⟨⟨_, t'⟩, hh', rfl, _⟩ := hagree.exists_of_ok
    rw [scanRun_of_frame hp hf, hh']
    simp only [ht, if_neg hland]
    exact .error
  | case6 s p hp =>
    rw [scanRun_of_le (Nat.le_of_not_lt hp)]
    exact .ok hst

end Agreement

end ManagedSymbols
