import ManagedSymbols.Proofs.Reader.Success
import ManagedSymbols.Proofs.Record.Scan

/-!
# Two walks over the same records

Records that open a body are walked in two ways. One walk jumps to the terminator that an opener declares and takes it as a record
of its own, as long as it says (`JumpsToEnd`). The other one has the body read and goes on four bytes behind the start of the
terminator, whatever length the terminator declares (`ReadsToEnd`). The second walk meets no record that the first one has missed
exactly when each terminator declares to be four bytes long (`Scanned.subset_iff`), and then both meet the same records but for
the terminators (`Scanned.filter_eq`).
-/

namespace ManagedSymbols

open Reader

namespace RecordHeader

/-- Where the terminator stands that an opener declares. -/
def declaredStop (b : Buffer) (h : RecordHeader) : Nat :=
  (b.word32 (h.offset + 8)).toNat

/-- Whether the terminator that an opener declares says that it holds its kind and nothing else. -/
def EndsPlainly (b : Buffer) (h : RecordHeader) : Prop :=
  b.word16 (h.declaredStop b) = 2

instance (b : Buffer) (h : RecordHeader) : Decidable (h.EndsPlainly b) :=
  inferInstanceAs (Decidable (_ = _))

/-- The framing that the words at a position make. -/
def ofWords (b : Buffer) (c : Nat) : RecordHeader where
  kind := RecordKind.ofCode (b.word16 (c + 2))
  length := b.word16 c
  offset := c
  stop := c + 2 + (b.word16 c).toNat

/-- The end that a length word tells is a word of the machine. -/
theorem stop_lt {b : Buffer} {c : Nat} (h : c + 2 ≤ b.size) : c + 2 + (b.word16 c).toNat < 0x10000000000000000 := by
  have hsize := b.size_lt
  have hlength := (b.word16 c).toNat_lt
  rw [Buffer.size] at h
  omega

/-- A framing is read from its two words, where the buffer has them. -/
theorem run_read {b : Buffer} {c : Nat} (h : c + 4 ≤ b.size) : read b c = (.ok (ofWords b c), c + 4) := by
  have hlength : c + 2 ≤ b.size := by omega
  have hkind : c + 2 + 2 ≤ b.size := h
  simp only [read, run_bind, position, run_u16_word hlength, run_fits, if_pos (stop_lt hlength), run_u16_word hkind, run_pure]
  rfl

/-- A framed record has the length and the kind that stand at the cursor. -/
theorem words_of_frame {b : Buffer} {p q limit : Nat} {h : RecordHeader} (hf : frame limit b p = (.ok h, q)) :
    h.length = b.word16 p ∧ h.kind = RecordKind.ofCode (b.word16 (p + 2)) := by
  obtain ⟨_, _, _, _, rfl, hsize⟩ := of_frame hf
  rw [frame, run_bind_ok (run_read hsize)] at hf
  obtain ⟨_, _, _, hf⟩ := exists_of_bind hf
  obtain ⟨rfl, _⟩ := of_pure hf
  exact ⟨rfl, rfl⟩

end RecordHeader

variable {σ τ : Type} {limit : Nat} {b : Buffer}

/-- Where a step is and how far it goes. -/
theorem ScanStep.bounds {handler : RecordHandler σ} {p q : Nat} {s t : σ} {h : RecordHeader}
    (step : ScanStep limit handler b p s h q t) :
    h.offset = p ∧ h.stop = p + 2 + (b.word16 p).toNat ∧ 2 ≤ (b.word16 p).toNat ∧ h.stop ≤ limit ∧ h.stop ≤ q := by
  obtain ⟨hoffset, hstop, hlength, hlimit, _, _⟩ := RecordHeader.of_frame step.framed
  obtain ⟨_, _, _, htarget⟩ := step.handled
  rw [(RecordHeader.words_of_frame step.framed).1] at hstop hlength
  exact ⟨hoffset, hstop, hlength, hlimit, Resume.stop_le_target htarget⟩

/-- Two steps at one position frame the same record. -/
theorem ScanStep.header_eq {first : RecordHandler σ} {second : RecordHandler τ} {p q q' : Nat} {s t : σ} {v w : τ}
    {h h' : RecordHeader} (step : ScanStep limit first b p s h q t) (step' : ScanStep limit second b p v h' q' w) :
    h = h' := by
  have hframed := step.framed
  rw [step'.framed] at hframed
  cases hframed
  rfl

/-- Each record that a run hands out, also one that fails later on, is framed where it starts, which is not in front of the run. -/
theorem frame_of_mem_visited {handler : RecordHandler σ} {p : Nat} {s : σ} {h : RecordHeader}
    (hh : h ∈ (scanRun limit handler s b p).visited) :
    p ≤ h.offset ∧ RecordHeader.frame limit b h.offset = (.ok h, h.offset + 4) := by
  have hfirst {p q : Nat} {g : RecordHeader} (hf : RecordHeader.frame limit b p = (.ok g, q)) :
      p ≤ g.offset ∧ RecordHeader.frame limit b g.offset = (.ok g, g.offset + 4) := by
    obtain ⟨rfl, _, _, _, rfl, _⟩ := RecordHeader.of_frame hf
    exact ⟨Nat.le_refl _, hf⟩
  fun_induction scanRun limit handler s b p with
  | case1 s p hp e q hf => cases hh
  | case2 s p hp g q hf e c _ =>
    obtain rfl := List.mem_singleton.mp hh
    exact hfirst hf
  | case3 s p hp g q hf resume t c _ e ht =>
    obtain rfl := List.mem_singleton.mp hh
    exact hfirst hf
  | case4 s p hp g q hf resume t c _ target ht hframe hle hland ih =>
    rcases List.mem_cons.mp hh with rfl | hh
    · exact hfirst hf
    · obtain ⟨htarget, hframed⟩ := ih hh
      exact ⟨by omega, hframed⟩
  | case5 s p hp g q hf resume t c _ target ht _ _ hland =>
    obtain rfl := List.mem_singleton.mp hh
    exact hfirst hf
  | case6 s p hp => cases hh

/-- A run hands out the record that is framed where it starts, and others behind that one only. -/
theorem eq_or_stop_le_of_mem_visited {handler : RecordHandler σ} {p q : Nat} {s : σ} {g h : RecordHeader}
    (hf : RecordHeader.frame limit b p = (.ok h, q)) (hg : g ∈ (scanRun limit handler s b p).visited) :
    g = h ∨ h.stop ≤ g.offset := by
  obtain ⟨_, hstop, _, hlimit, _⟩ := RecordHeader.of_frame hf
  rw [scanRun_of_frame (by omega) hf] at hg
  split at hg
  · exact .inl (List.mem_singleton.mp hg)
  · split at hg
    · exact .inl (List.mem_singleton.mp hg)
    · next target ht =>
      split at hg
      · rcases List.mem_cons.mp hg with rfl | hg
        · exact .inl rfl
        · exact .inr (Nat.le_trans (Resume.stop_le_target ht) (frame_of_mem_visited hg).1)
      · exact .inl (List.mem_singleton.mp hg)

theorem Scanned.le_offset {handler : RecordHandler σ} {p r : Nat} {s u : σ} {hs : List RecordHeader}
    (run : Scanned limit handler b p s hs u r) : ∀ h ∈ hs, p ≤ h.offset := by
  intro h hh
  have hmet : h ∈ (scanRun limit handler s b p).visited := by
    rw [run.scanRun_eq]
    exact hh
  exact (frame_of_mem_visited hmet).1

/-- A walk that goes from each opener to the terminator it declares, which lies inside the range, and else behind the record. -/
def JumpsToEnd (isOpener : RecordKind → Bool) (limit : Nat) (handler : RecordHandler σ) : Prop :=
  ∀ {b : Buffer} {p q : Nat} {s t : σ} {h : RecordHeader}, ScanStep limit handler b p s h q t →
    if isOpener h.kind then q = h.declaredStop b ∧ q + terminatorSize ≤ limit else q = h.stop

/-- A walk that goes from each opener behind the terminator it declares, a length and a kind, and else behind the record. -/
def ReadsToEnd (isOpener : RecordKind → Bool) (limit : Nat) (handler : RecordHandler σ) : Prop :=
  ∀ {b : Buffer} {p q : Nat} {s t : σ} {h : RecordHeader}, ScanStep limit handler b p s h q t →
    if isOpener h.kind then
      q = h.declaredStop b + terminatorSize ∧ RecordKind.ofCode (b.word16 (h.declaredStop b + 2)) = .terminator
    else q = h.stop

namespace Scanned

variable {isOpener : RecordKind → Bool} {count : RecordHandler σ} {gather : RecordHandler τ}
variable {p r r' : Nat} {s u : σ} {v w : τ} {hs gs : List RecordHeader}

/-- A walk that jumps from an opener goes on with the terminator, which is as long as it says. -/
theorem terminator_of_opener (hcount : JumpsToEnd isOpener limit count) (hplain : isOpener .terminator = false) {q : Nat}
    {t : σ} {h : RecordHeader} (hopener : isOpener h.kind = true)
    (hend : RecordKind.ofCode (b.word16 (h.declaredStop b + 2)) = .terminator) (first : ScanStep limit count b p s h q t)
    (rest : Scanned limit count b q t hs u r) :
    ∃ e es t', hs = e :: es ∧ e.kind = .terminator ∧ e.offset = h.declaredStop b ∧
      e.stop = h.declaredStop b + 2 + (b.word16 (h.declaredStop b)).toNat ∧ 2 ≤ (b.word16 (h.declaredStop b)).toNat ∧
      e.stop ≤ limit ∧ Scanned limit count b e.stop t' es u r := by
  have hq := hcount first
  rw [if_pos hopener] at hq
  obtain ⟨rfl, hlimit⟩ := hq
  cases rest with
  | done behind =>
    simp only [terminatorSize] at hlimit
    omega
  | @step _ q' _ _ t' _ e es second rest =>
    obtain ⟨hoffset, hstop, hlength, hinside, _⟩ := second.bounds
    have hkind : e.kind = .terminator := by rw [(RecordHeader.words_of_frame second.framed).2, hend]
    have hq' := hcount second
    rw [hkind, hplain] at hq'
    simp only [Bool.false_eq_true, if_false] at hq'
    subst hq'
    exact ⟨e, es, t', rfl, hkind, hoffset, hstop, hlength, hinside, rest⟩

/-- The terminator of an opener that ends plainly is four bytes long. -/
theorem stop_of_plain {h e : RecordHeader} (hstop : e.stop = h.declaredStop b + 2 + (b.word16 (h.declaredStop b)).toNat)
    (hends : h.EndsPlainly b) : e.stop = h.declaredStop b + terminatorSize := by
  rw [hstop, hends]
  rfl

/-- Records in front of a position are not needed to meet records behind it. -/
theorem subset_append_iff (n : Nat) (front hs : List RecordHeader) (hfront : ∀ h ∈ front, h.offset < n)
    (hgs : ∀ h ∈ gs, n ≤ h.offset) : (∀ h ∈ gs, h ∈ front ++ hs) ↔ ∀ h ∈ gs, h ∈ hs := by
  constructor
  · intro hall h hh
    rcases List.mem_append.mp (hall h hh) with hin | hin
    · have := hfront h hin
      have := hgs h hh
      omega
    · exact hin
  · intro hall h hh
    exact List.mem_append_right front (hall h hh)

/-- Behind an opener that does not end plainly the one walk misses the record that the other one goes on with. -/
theorem missed_of_not_plain {h e : RecordHeader} {t : σ} {es : List RecordHeader} (hp : h.offset < e.offset)
    (hoffset : e.offset = h.declaredStop b) (hstop : e.stop = h.declaredStop b + 2 + (b.word16 (h.declaredStop b)).toNat)
    (hlength : 2 ≤ (b.word16 (h.declaredStop b)).toNat) (hinside : e.stop ≤ limit) (hnot : ¬ h.EndsPlainly b)
    (counted : Scanned limit count b e.stop t es u r)
    (gathered : Scanned limit gather b (h.declaredStop b + terminatorSize) v gs w r') :
    ¬ ∀ g ∈ gs, g ∈ [h, e] ++ es := by
  have hlonger : (b.word16 (h.declaredStop b)).toNat ≠ 2 := fun heq => hnot (UInt16.toNat_inj.mp heq)
  intro hall
  cases gathered with
  | done behind =>
    simp only [terminatorSize] at behind
    omega
  | step first rest =>
    have hbounds := first.bounds
    rcases List.mem_append.mp (hall _ List.mem_cons_self) with hin | hin
    · simp only [List.mem_cons, List.not_mem_nil, or_false] at hin
      simp only [terminatorSize] at hbounds
      rcases hin with rfl | rfl <;> omega
    · have := counted.le_offset _ hin
      simp only [terminatorSize] at hbounds
      omega

/-- The one walk meets all records that the other one meets exactly when each opener that is met ends plainly. -/
theorem subset_iff (hcount : JumpsToEnd isOpener limit count) (hgather : ReadsToEnd isOpener limit gather)
    (hplain : isOpener .terminator = false) (counted : Scanned limit count b p s hs u r)
    (gathered : Scanned limit gather b p v gs w r') :
    (∀ h ∈ gs, h ∈ hs) ↔ ∀ h ∈ gs, isOpener h.kind = true → h.EndsPlainly b := by
  induction gathered generalizing s hs with
  | done behind => simp
  | @step p q _ v t _ h gs first rest ih =>
    cases counted with
    | done behind =>
      have := first.inside
      omega
    | @step _ q' _ _ t' _ h' hs first' rest' =>
      obtain rfl := first.header_eq first'
      have hbounds := first.bounds
      have hq := hgather first
      cases hopener : isOpener h.kind with
      | false =>
        have hq' := hcount first'
        simp only [hopener, Bool.false_eq_true, if_false] at hq hq'
        subst hq hq'
        have hbehind := subset_append_iff h.stop [h] hs
          (by intro x hx; rw [List.mem_singleton.mp hx]; omega) rest.le_offset
        rw [List.forall_mem_cons, List.forall_mem_cons, ← ih rest', ← hbehind]
        simp [hopener]
      | true =>
        simp only [hopener, if_true] at hq
        obtain ⟨rfl, hend⟩ := hq
        obtain ⟨e, es, t'', rfl, hkind, hoffset, hstop, hlength, hinside, rest''⟩ :=
          terminator_of_opener hcount hplain hopener hend first' rest'
        have hbefore := first'.bounds
        have hjump := hcount first'
        simp only [hopener, if_true] at hjump
        by_cases hends : h.EndsPlainly b
        · rw [stop_of_plain hstop hends] at rest''
          have hbehind := subset_append_iff (h.declaredStop b + terminatorSize) [h, e] es
            (by
              intro x hx
              simp only [List.mem_cons, List.not_mem_nil, or_false] at hx
              simp only [terminatorSize]
              rcases hx with rfl | rfl <;> omega) rest.le_offset
          rw [List.forall_mem_cons, List.forall_mem_cons, ← ih rest'', ← hbehind]
          simp [hopener, hends]
        · have hmissed := missed_of_not_plain (by omega) hoffset hstop hlength hinside hends rest'' rest
          constructor
          · intro hall
            exact absurd (fun g hg => hall g (List.mem_cons_of_mem _ hg)) hmissed
          · intro hall
            exact absurd (hall h List.mem_cons_self hopener) hends

/-- If all openers end plainly, both walks meet the same records of every sort that a terminator is not. -/
theorem filter_eq (sort : RecordKind → Bool) (hcount : JumpsToEnd isOpener limit count)
    (hgather : ReadsToEnd isOpener limit gather) (hplain : isOpener .terminator = false) (hsort : sort .terminator = false)
    (counted : Scanned limit count b p s hs u r) (gathered : Scanned limit gather b p v gs w r')
    (hends : ∀ h ∈ gs, isOpener h.kind = true → h.EndsPlainly b) :
    hs.filter (fun h => sort h.kind) = gs.filter fun h => sort h.kind := by
  induction gathered generalizing s hs with
  | done behind =>
    cases counted with
    | done _ => rfl
    | step first _ =>
      have := first.inside
      omega
  | @step p q _ v t _ h gs first rest ih =>
    rw [List.forall_mem_cons] at hends
    cases counted with
    | done behind =>
      have := first.inside
      omega
    | @step _ q' _ _ t' _ h' hs first' rest' =>
      obtain rfl := first.header_eq first'
      have hq := hgather first
      cases hopener : isOpener h.kind with
      | false =>
        have hq' := hcount first'
        simp only [hopener, Bool.false_eq_true, if_false] at hq hq'
        subst hq hq'
        rw [List.filter_cons, List.filter_cons, ih rest' hends.2]
      | true =>
        simp only [hopener, if_true] at hq
        obtain ⟨rfl, hend⟩ := hq
        obtain ⟨e, es, t'', rfl, hkind, _, hstop, _, _, rest''⟩ :=
          terminator_of_opener hcount hplain hopener hend first' rest'
        rw [stop_of_plain hstop (hends.1 hopener)] at rest''
        rw [List.filter_cons, List.filter_cons, List.filter_cons, hkind, hsort, ih rest'' hends.2]
        rfl

end Scanned

end ManagedSymbols
