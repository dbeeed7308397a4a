import ManagedSymbols.Proofs.Module.Counts
import ManagedSymbols.Proofs.Record.Larger

/-!
# Modules in adjoining ranges

A walk up to a position is the front of every longer walk from the same start (`Scanned.append`), the counting walk as well as the
decoding one. A module that is read in two adjoining ranges is therefore read in both together, with the same methods
(`ModuleSymbols.read_of_adjoining`). Nothing is asked of the terminators here: the walks need not meet the same records, they only
have to stop where the next ones start.
-/

namespace ManagedSymbols

open Reader

namespace ModuleSymbols

variable {moduleName : String} {options : Options} {b : Buffer} {m limit p q r : Nat}

/-! ## Both walks of a module -/

/-- If the first walk counts nothing, the second one takes the same steps and finds nothing. -/
theorem gathered_of_uncounted {n u : Nat} {hs : List RecordHeader}
    (counted : Scanned limit (countProcedure limit) b p n hs u r) (hnone : u = n) (methods : List Method) :
    Scanned limit (gather moduleName limit options) b p methods hs methods r := by
  induction counted with
  | done behind => exact .done behind
  | @step p q r n n' u h hs first rest ih =>
    have hstep := count_of_step first
    have hrest := count_of_scanned rest
    split at hstep
    · omega
    · next hk =>
      obtain ⟨rfl, rfl⟩ := hstep
      have hgather : ScanStep limit (gather moduleName limit options) b p methods h h.stop methods := {
        inside := first.inside
        framed := first.framed
        handled := ⟨.afterRecord, p + 4, by rw [gather, if_neg hk]; rfl, rfl⟩
        landed := first.landed }
      exact .step hgather (ih hnone)

/-- A module that is read has been walked twice from the same position to the same one, once to count and once to decode, and
nothing is found exactly if nothing is counted. -/
theorem scanned_of_read {found : Option (List Method)} (hr : read moduleName limit options b p = (.ok found, q)) :
    ∃ n hs gs, Scanned limit (countProcedure limit) b p 0 hs n q ∧
      Scanned limit (gather moduleName limit options) b p [] gs (found.getD []) q ∧ (found = none ↔ n = 0) := by
  obtain ⟨n, r, hcount, hfound⟩ := exists_of_read hr
  have counted := scanned_of_scan hcount
  split at hfound
  · next hn =>
    obtain ⟨rfl, rfl⟩ := hfound
    exact ⟨n, _, _, counted, gathered_of_uncounted counted hn [], by simp [hn]⟩
  · next hn =>
    obtain ⟨methods, rfl, hscan⟩ := hfound
    have gathered := scanned_of_scan hscan
    obtain rfl : q = r := gathered.cursor_eq_ite.trans counted.cursor_eq_ite.symm
    exact ⟨n, _, _, counted, gathered, by simp [hn]⟩

/-- A walk that meets a record starts in the buffer. -/
theorem le_size_of_counted {n u : Nat} {hs : List RecordHeader} (counted : Scanned limit (countProcedure limit) b p n hs u r)
    (hsome : u ≠ n) : p ≤ b.size := by
  cases counted with
  | done behind => exact absurd rfl hsome
  | step first _ =>
    have := RecordHeader.of_frame first.framed
    omega

/-- A module that can be walked twice is read, and nothing is found if nothing is counted. -/
theorem read_of_scanned {n : Nat} {hs gs : List RecordHeader} {methods : List Method}
    (counted : Scanned limit (countProcedure limit) b p 0 hs n q)
    (gathered : Scanned limit (gather moduleName limit options) b p [] gs methods q) :
    read moduleName limit options b p = (.ok (if n = 0 then none else some methods), q) := by
  have hcount : countProcedures limit b p = (.ok n, q) := counted.scan_eq
  have hposition : position b p = (.ok p, p) := rfl
  rw [read, run_bind_ok hposition, run_bind_ok hcount]
  split
  · rfl
  · next hn =>
    have hseek : seek p b q = (.ok (), p) := by rw [run_seek, if_pos (le_size_of_counted counted hn)]
    rw [run_bind_ok hseek, run_bind_ok gathered.scan_eq, run_pure]

/-! ## Adjoining ranges -/

/-- The first walk takes the same steps in a larger range and when it has counted procedures before, as long as a count does not
exceed the position. -/
theorem count_carry (hle : m ≤ limit) (before : Nat) {n n' v : Nat} {h : RecordHeader}
    (step : ScanStep m (countProcedure m) b p n h q n') (hv : v = before + n ∧ v ≤ p) :
    ∃ w, ScanStep limit (countProcedure limit) b p v h q w ∧ w = before + n' ∧ w ≤ q := by
  obtain ⟨rfl, hp⟩ := hv
  have hbounds := step.bounds
  have hinside := (RecordHeader.of_frame step.framed).2.2.2.2.2
  have hword := b.size_lt
  rw [Buffer.size] at hinside
  have hcount := count_of_step step
  refine ⟨before + n', step.mono hle ?_, rfl, by split at hcount <;> omega⟩
  intro resume r hh
  by_cases hk : h.kind.isProcedure = true
  · rw [countProcedure, if_pos hk] at hh ⊢
    obtain ⟨stop, _, hdeclared, hh⟩ := exists_of_bind hh
    obtain ⟨_, _, hfits, hh⟩ := exists_of_bind hh
    obtain ⟨_, rfl, rfl⟩ := of_fits hfits
    obtain ⟨hpair, rfl⟩ := of_pure hh
    cases hpair
    rw [run_bind_ok (RecordHeader.declaredEnd_mono hle hdeclared), run_bind, run_fits, if_pos (by omega)]
    rfl
  · rw [countProcedure, if_neg hk] at hh ⊢
    obtain ⟨hpair, rfl⟩ := of_pure hh
    cases hpair
    rfl

/-- The second walk takes the same steps in a larger range and when it has found methods before. -/
theorem gather_carry (hle : m ≤ limit) (before : List Method) {methods methods' found : List Method} {h : RecordHeader}
    (step : ScanStep m (gather moduleName m options) b p methods h q methods') (hv : found = before ++ methods) :
    ∃ w, ScanStep limit (gather moduleName limit options) b p found h q w ∧ w = before ++ methods' := by
  subst hv
  refine ⟨before ++ methods', step.mono hle ?_, rfl⟩
  intro resume r hh
  by_cases hk : h.kind.isProcedure = true
  · rw [gather, if_pos hk] at hh ⊢
    obtain ⟨record, _, hfields, hh⟩ := exists_of_bind hh
    obtain ⟨_, _, hcheck, hh⟩ := exists_of_bind hh
    obtain ⟨_, _, hseek, hh⟩ := exists_of_bind hh
    obtain ⟨method, _, hmethod, hh⟩ := exists_of_bind hh
    obtain ⟨_, _, hposition, hh⟩ := exists_of_bind hh
    cases hposition
    obtain ⟨hpair, rfl⟩ := of_pure hh
    cases hpair
    obtain ⟨hended, rfl⟩ := of_check hcheck
    rw [run_bind_ok hfields, run_bind_check (RecordHeader.checkedEnd_mono hle hended), run_bind_ok hseek, run_bind_ok hmethod,
      List.append_assoc]
    rfl
  · rw [gather, if_neg hk] at hh ⊢
    obtain ⟨hpair, rfl⟩ := of_pure hh
    cases hpair
    rfl

/-- Modules in adjoining ranges are read as one module in both: what is found is what is found in the one and then in the other. -/
theorem read_of_adjoining {start middle stop c c' : Nat} {found found' : Option (List Method)} (hle : start ≤ middle)
    (hle' : middle ≤ stop) (hr : read moduleName middle options b start = (.ok found, c))
    (hr' : read moduleName stop options b middle = (.ok found', c')) :
    ∃ whole, read moduleName stop options b start = (.ok whole, stop) ∧
      whole.getD [] = found.getD [] ++ found'.getD [] ∧ (whole = none ↔ found = none ∧ found' = none) := by
  obtain ⟨n, hs, gs, counted, gathered, hnone⟩ := scanned_of_read hr
  obtain ⟨n', hs', gs', counted', gathered', hnone'⟩ := scanned_of_read hr'
  obtain rfl := counted.cursor_eq hle
  obtain rfl := counted'.cursor_eq hle'
  -- Both walks over the first range are walks in the larger one, which the walks over the second range go on with.
  obtain ⟨_, ⟨rfl, hn⟩, hcount⟩ := counted.append (fun p n v => v = 0 + n ∧ v ≤ p) (count_carry hle' 0)
    ⟨rfl, Nat.zero_le start⟩
  obtain ⟨_, ⟨rfl, _⟩, hcount'⟩ := counted'.append (fun p n' v => v = 0 + n + n' ∧ v ≤ p) (count_carry (Nat.le_refl _) _)
    ⟨rfl, hn⟩
  obtain ⟨_, rfl, hgather⟩ := gathered.append (fun _ methods v => v = [] ++ methods) (gather_carry hle' []) rfl
  obtain ⟨_, rfl, hgather'⟩ := gathered'.append (fun _ methods v => v = found.getD [] ++ methods)
    (gather_carry (Nat.le_refl _) _) (List.append_nil _).symm
  have hdone : ∀ {σ : Type} {handler : RecordHandler σ} {s : σ}, Scanned c' handler b c' s [] s c' := .done (Nat.le_refl _)
  have whole := read_of_scanned (hcount (hcount' hdone)) (hgather (hgather' hdone))
  refine ⟨_, whole, ?_⟩
  rw [hnone, hnone', Nat.zero_add]
  split
  · next hzero =>
    obtain ⟨rfl, rfl⟩ := Nat.add_eq_zero_iff.mp hzero
    obtain rfl := hnone.mpr rfl
    obtain rfl := hnone'.mpr rfl
    exact ⟨rfl, by simp⟩
  · next hsome =>
    rw [Nat.add_eq_zero_iff] at hsome
    exact ⟨rfl, by simp [hsome]⟩

/-- A procedure and the one behind it are read as a module each, and as one module of two. -/
theorem read_of_adjoining_sample : ∃ found found' c c' whole, read "M" 47 {} (sampleOfTwo 0) 0 = (.ok (some found), c) ∧
    read "M" 94 {} (sampleOfTwo 0) 47 = (.ok (some found'), c') ∧ found.length = 1 ∧ found'.length = 1 ∧
    read "M" 94 {} (sampleOfTwo 0) 0 = (.ok (some whole), 94) ∧ whole = found ++ found' := by
  have hlength : (read "M" 47 {} (sampleOfTwo 0) 0).1.toOption.map (Option.map List.length) = some (some 1) := by
    decide +kernel
  have hlength' : (read "M" 94 {} (sampleOfTwo 0) 47).1.toOption.map (Option.map List.length) = some (some 1) := by
    decide +kernel
  obtain ⟨found, c, hr, hfound⟩ := exists_of_some_answer hlength
  obtain ⟨found', c', hr', hfound'⟩ := exists_of_some_answer hlength'
  obtain ⟨whole, hwhole, happend, hnone⟩ := read_of_adjoining (by decide) (by decide) hr hr'
  cases whole with
  | none => simp at hnone
  | some methods => exact ⟨found, found', c, c', methods, hr, hr', hfound, hfound', hwhole, happend⟩

end ModuleSymbols

end ManagedSymbols
