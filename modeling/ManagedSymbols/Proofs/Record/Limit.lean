import ManagedSymbols.Proofs.Record.Transfer

/-!
# What a scan reads at its limit

The framing of a record is four bytes, and it is read before the record is held against the limit of the range. If fewer than four
bytes are left in front of the limit, the limit cuts the framing, and what stands behind the limit tells which fault the scan ends
with (`Buffer.cutFault`). Nowhere else does a scan look behind its limit: two buffers that agree up to there give the same outcome
if no record that the scan comes to (`ScanTo`) has a framing that is cut (`scan_cutAlike`).
-/

namespace ManagedSymbols

open Reader

/-- The fault of a scan that comes to a record whose framing is cut by the limit: it depends on whether the buffer has the rest of the
framing, and if so, on what it says there. -/
def Buffer.cutFault (b : Buffer) (limit c : Nat) : Fault :=
  let kind := RecordKind.ofCode (b.word16 (c + 2))
  let stop := c + 2 + (b.word16 c).toNat
  if b.size < c + 4 then .outOfBounds
  else if limit < stop then .recordOverrun kind stop limit c
  else .recordTooShort kind (b.word16 c) c

namespace RecordHeader

variable {b b' : Buffer} {limit c : Nat}

/-- A framing that the buffer does not have as a whole is not read. -/
theorem answer_of_size_lt (h : b.size < c + 4) : (read b c).1 = .error .outOfBounds := by
  by_cases h2 : c + 2 ≤ b.size
  · have hkind : ¬ c + 2 + 2 ≤ b.size := by omega
    simp only [read, run_bind, position, run_u16_word h2, run_fits, if_pos (stop_lt h2), run_u16 b (c + 2), if_neg hkind]
  · simp only [read, run_bind, position, run_u16, if_neg h2]

/-- A framing that the limit cuts is refused. -/
theorem answer_of_cut (hc : c < limit) (hcut : limit < c + 4) :
    (frame limit b c).1 = .error (b.cutFault limit c) := by
  by_cases h4 : c + 4 ≤ b.size
  · have hanswer : (frame limit b c).1 = ((ofWords b c).checkFrame limit).map fun _ => ofWords b c := by
      rw [frame, run_bind_ok (run_read h4), run_bind, check]
      cases (ofWords b c).checkFrame limit <;> rfl
    rw [hanswer, Buffer.cutFault, if_neg (Nat.not_lt.mpr h4), checkFrame, ofWords]
    dsimp only
    split
    · rfl
    · -- The record ends in front of the limit, so its length is less than two and it has no room for its kind.
      have hlength : (b.word16 c).toNat < 2 := by omega
      have hmin := (RecordKind.ofCode (b.word16 (c + 2))).two_le_minimumLength
      rw [if_pos (UInt16.lt_iff_toNat_lt.mpr hlength), fixedLayout, if_pos (by dsimp only; omega)]
      rfl
  · have hread := answer_of_size_lt (Nat.lt_of_not_le h4)
    rw [Buffer.cutFault, if_pos (Nat.lt_of_not_le h4), frame, run_bind]
    cases hr : read b c with
    | mk answer q =>
      rw [hr] at hread
      subst hread
      rfl

end RecordHeader

variable {σ : Type} {limit : Nat} {handler : RecordHandler σ} {b b' : Buffer} {p c : Nat} {s t : σ}

/-- The positions and states that a scan comes to, step by step, from a position and a state on. -/
inductive ScanTo (limit : Nat) (handler : RecordHandler σ) (b : Buffer) (p : Nat) (s : σ) : Nat → σ → Prop where
  | here : ScanTo limit handler b p s p s
  | onward {c q : Nat} {t u : σ} {h : RecordHeader} (before : ScanTo limit handler b p s c t)
      (next : ScanStep limit handler b c t h q u) : ScanTo limit handler b p s q u

namespace ScanTo

/-- A scan ends as it does from anywhere that it comes to. -/
theorem answer_eq (reached : ScanTo limit handler b p s c t) :
    (scanRun limit handler s b p).answer = (scanRun limit handler t b c).answer := by
  induction reached with
  | here => rfl
  | onward before next ih =>
    rw [ih, next.scanRun_eq]
    rfl

/-- A scan comes to the same positions and states in a buffer where it steps alike. -/
theorem transfer (reached : ScanTo limit handler b p s c t)
    (steps : ∀ {c q h t u}, ScanStep limit handler b c t h q u → ScanStep limit handler b' c t h q u) :
    ScanTo limit handler b' p s c t := by
  induction reached with
  | here => exact .here
  | onward before next ih => exact .onward ih (steps next)

/-- A scan that comes to a framing that its limit cuts ends with the fault of that. -/
theorem answer_of_cut (reached : ScanTo limit handler b p s c t) (hc : c < limit) (hcut : limit < c + 4) :
    (scanRun limit handler s b p).answer = .error (b.cutFault limit c) := by
  have hanswer := RecordHeader.answer_of_cut (b := b) hc hcut
  rw [reached.answer_eq]
  cases hframe : RecordHeader.frame limit b c with
  | mk answer q =>
    rw [hframe] at hanswer
    subst hanswer
    rw [scanRun_of_frame_error hc hframe]

end ScanTo

/-- How two reads of one range have ended, in buffers that agree up to its limit: alike, if no framing that they come to is cut by the
limit, and otherwise each with the fault that its own buffer gives rise to there. -/
structure CutAlike {α : Type} (limit : Nat) (b b' : Buffer) (reached : Nat → Prop) (outcome outcome' : Except Fault α × Nat) :
    Prop where
  same : (∀ c, reached c → c < limit → c + 4 ≤ limit) → outcome = outcome'
  cut : ∀ c, reached c → c < limit → limit < c + 4 →
    outcome.1 = .error (b.cutFault limit c) ∧ outcome'.1 = .error (b'.cutFault limit c)

/-- Scans end alike up to cut framings if their handler does the same in both buffers with every record in front of the limit. -/
theorem scan_cutAlike (inside : limit ≤ b.size) (inside' : limit ≤ b'.size) (same : b.AgreeOn b' 0 limit)
    (handled : ∀ {c h} (s : σ), RecordHeader.frame limit b c = (.ok h, c + 4) → handler h s b (c + 4) = handler h s b' (c + 4))
    (p : Nat) (s : σ) :
    CutAlike limit b b' (fun c => ∃ t, ScanTo limit handler b p s c t) (scan limit handler s b p) (scan limit handler s b' p) where
  same uncut := by
    have alike : b.AlikeOn b' 0 limit := .of_inside same inside inside'
    have hrun : scanRun limit handler s b p = scanRun limit handler s b' p := by
      refine scanRun_transfer (ScanTo limit handler b p s) ?_ ?_ ?_ ?_ .here
      · exact fun {c t} reached hc => RecordHeader.frame_congr (alike.mono (Nat.zero_le c) (uncut c ⟨t, reached⟩ hc)) limit
      · exact fun _ hf => handled _ hf
      · exact fun reached step => .onward reached step
      · exact alike.reach
    rw [scan, scan, hrun]
  cut := by
    rintro c ⟨t, reached⟩ hc hcut
    have alike : b.AlikeOn b' 0 limit := .of_inside same inside inside'
    -- A record that is framed lies in front of the limit as a whole, so each step of the first scan is one of the second.
    have steps {c q : Nat} {h : RecordHeader} {t u : σ} (step : ScanStep limit handler b c t h q u) :
        ScanStep limit handler b' c t h q u := by
      obtain ⟨_, hstop, hlength, hlimit, _⟩ := RecordHeader.of_frame step.framed
      obtain ⟨resume, r, hh, ht⟩ := step.handled
      have hframe := RecordHeader.frame_congr (alike.mono (Nat.zero_le c) (by omega)) limit
      exact ⟨step.inside, hframe ▸ step.framed, ⟨resume, r, handled t step.framed ▸ hh, ht⟩,
        Nat.le_trans ((Resume.of_target ht).2.2 hlimit) inside'⟩
    exact ⟨reached.answer_of_cut hc hcut, (reached.transfer steps).answer_of_cut hc hcut⟩

end ManagedSymbols
