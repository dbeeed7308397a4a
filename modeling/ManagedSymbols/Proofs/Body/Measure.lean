import ManagedSymbols.Proofs.Record.Larger
import ManagedSymbols.Proofs.Record.Safe
import ManagedSymbols.Proofs.Record.Transfer

/-!
# Measuring a body

A measure walks over a body and puts the cursor back. Its counters never exceed the position, so that it never traps
(`Tally.measure_safeAt`). Of a block it reads the record and steps over what stands between the record and the terminator that it
declares (`Tally.SteppedOver`), so these bytes make no difference (`Tally.measure_congr`). And as its limit only refuses records, two
measures of adjoining ranges add up to one of both (`Tally.measure_append`).
-/

namespace ManagedSymbols

open Reader

/-! ## No counter is too large -/

/-- No counter of a tally exceeds a number. -/
structure Tally.UpTo (t : Tally) (n : Nat) : Prop where
  scopes : t.scopes ≤ n
  slots : t.slots ≤ n
  constants : t.constants ≤ n
  usedNamespaces : t.usedNamespaces ≤ n

namespace Tally

variable {b : Buffer} {limit c p : Nat} {h : RecordHeader} {t : Tally}

theorem UpTo.empty (n : Nat) : UpTo {} n :=
  ⟨Nat.zero_le n, Nat.zero_le n, Nat.zero_le n, Nat.zero_le n⟩

theorem UpTo.mono {m n : Nat} (ht : t.UpTo m) (hn : m ≤ n) : t.UpTo n :=
  ⟨Nat.le_trans ht.scopes hn, Nat.le_trans ht.slots hn, Nat.le_trans ht.constants hn, Nat.le_trans ht.usedNamespaces hn⟩

/-- A record adds one at most. -/
theorem UpTo.add {m n : Nat} (ht : t.UpTo m) (hn : m < n) (kind : RecordKind) : (t.add kind).UpTo n := by
  obtain ⟨hscopes, hslots, hconstants, hnamespaces⟩ := ht
  cases kind <;> constructor <;> simp only [Tally.add] <;> omega

/-- A record is counted safely if no counter exceeds its position, and then none exceeds the position where the scan goes on. -/
theorem count_safeAt (hf : RecordHeader.frame limit b c = (.ok h, c + 4)) (ht : t.UpTo c) :
    SafeAt b (c + 4) (count limit h t) fun found _ => ∀ q, found.1.target h limit = .ok q → found.2.UpTo q := by
  obtain ⟨_, hstop, _, _, _, hinside⟩ := RecordHeader.of_frame hf
  have hafter (kind : RecordKind) (resume : Resume) : ∀ q, resume.target h limit = .ok q → (t.add kind).UpTo q := by
    intro q hq
    have := Resume.stop_le_target hq
    exact ht.add (by omega) kind
  have hword {n : Nat} (hn : n ≤ c) : n + 1 < 0x10000000000000000 := by
    have hsize := b.size_lt
    rw [Buffer.size] at hinside
    omega
  cases hkind : h.kind with
  | block =>
    rw [count, hkind]
    refine (h.declaredEnd_safe limit b _ hinside).bind fun stop q hq _ => ?_
    refine (SafeAt.fits (hword ht.scopes) hq).bind ?_
    rintro _ _ hq ⟨rfl, rfl⟩
    exact .pure hq (hafter .block _)
  | slot =>
    rw [count, hkind]
    refine (SafeAt.fits (hword ht.slots) hinside).bind ?_
    rintro _ _ hq ⟨rfl, rfl⟩
    exact .pure hq (hafter .slot _)
  | constant =>
    rw [count, hkind]
    refine (SafeAt.fits (hword ht.constants) hinside).bind ?_
    rintro _ _ hq ⟨rfl, rfl⟩
    exact .pure hq (hafter .constant _)
  | usingNamespace =>
    rw [count, hkind]
    refine (SafeAt.fits (hword ht.usedNamespaces) hinside).bind ?_
    rintro _ _ hq ⟨rfl, rfl⟩
    exact .pure hq (hafter .usingNamespace _)
  | terminator | vendor | globalProcedure | localProcedure | unknown =>
    rw [count, hkind]
    exact .pure hinside (hafter .terminator _)

/-- A body is measured safely, and no counter exceeds the size of the buffer. -/
theorem measure_safeAt (limit : Nat) (hp : p ≤ b.size) :
    SafeAt b p (measure limit) fun t q => q = p ∧ t.UpTo b.size := by
  have hscan : SafeAt b p (scan limit (count limit) {}) fun t q => UpTo t q ∧ q = if p ≤ limit then limit else p :=
    scan_safeAt (fun hf ht => count_safeAt hf ht) hp (UpTo.empty p)
  refine (hscan.restoring hp).mono ?_
  rintro t _ - ⟨rfl, c, hc, ht, -⟩
  exact ⟨rfl, ht.mono hc⟩

/-! ## What is stepped over -/

variable {b' : Buffer} {q i : Nat} {u : Tally}

/-- A record is counted in the same way in buffers that are alike on it. -/
theorem count_congr (hf : RecordHeader.frame limit b c = (.ok h, c + 4)) (alike : b.AlikeOn b' c h.stop) (t : Tally) :
    count limit h t b (c + 4) = count limit h t b' (c + 4) := by
  obtain ⟨_, hstop, _⟩ := RecordHeader.of_frame hf
  cases hkind : h.kind with
  | block =>
    have hend : h.declaredEnd limit b (c + 4) = h.declaredEnd limit b' (c + 4) := by
      refine run_bind_congr rfl fun _ q hcheck => ?_
      -- The record is long enough for a block's fixed fields, so both words lie in it.
      obtain ⟨hfix, rfl⟩ := of_check hcheck
      have hlength := RecordHeader.le_length_of_fixedLayout hfix
      rw [hkind, RecordKind.minimumLength] at hlength
      refine run_bind_congr (run_u32_congr alike (by omega) (by omega)) fun _ q hparent => ?_
      obtain ⟨_, rfl, _⟩ := of_u32 hparent
      exact run_bind_congr (run_u32_congr alike (by omega) (by omega)) fun stop q _ => rfl
    rw [count, hkind]
    exact run_bind_congr hend fun stop q _ => (Blind.fits _).bind (fun scopes => .pure (_, { t with scopes })) b b' q
  | slot =>
    rw [count, hkind]
    exact (Blind.fits _).bind (fun slots => .pure (_, { t with slots })) b b' (c + 4)
  | constant =>
    rw [count, hkind]
    exact (Blind.fits _).bind (fun constants => .pure (_, { t with constants })) b b' (c + 4)
  | usingNamespace =>
    rw [count, hkind]
    exact (Blind.fits _).bind (fun usedNamespaces => .pure (_, { t with usedNamespaces })) b b' (c + 4)
  | terminator | vendor | globalProcedure | localProcedure | unknown =>
    rw [count, hkind]
    rfl

/-- A position in the body of a block that a measure meets: behind the record of the block and in front of the terminator that the
record declares, if the terminator is accepted. -/
def SteppedOver (limit : Nat) (t : Tally) (b : Buffer) (p i : Nat) : Prop :=
  ∃ h ∈ (scanRun limit (count limit) t b p).visited, h.kind = .block ∧
    (h.declaredEnd limit b (h.offset + 4)).1 = .ok (h.declaredStop b) ∧ h.stop ≤ i ∧ i < h.declaredStop b

namespace SteppedOver

/-- The framing at the cursor is not stepped over. -/
theorem le (stepped : SteppedOver limit t b c i) : c + 4 ≤ i := by
  obtain ⟨g, hg, _, _, hi, _⟩ := stepped
  obtain ⟨hle, hframed⟩ := frame_of_mem_visited hg
  obtain ⟨_, hstop, hlength, _⟩ := RecordHeader.of_frame hframed
  omega

/-- The record at the cursor is not stepped over. -/
theorem stop_le (stepped : SteppedOver limit t b c i) (hf : RecordHeader.frame limit b c = (.ok h, c + 4)) : h.stop ≤ i := by
  obtain ⟨g, hg, _, _, hi, _⟩ := stepped
  rcases eq_or_stop_le_of_mem_visited hf hg with rfl | hle
  · exact hi
  · obtain ⟨_, hstop, _⟩ := RecordHeader.of_frame (frame_of_mem_visited hg).2
    omega

/-- What is stepped over behind a step is stepped over from there on. -/
theorem onward (stepped : SteppedOver limit t b c i) (step : ScanStep limit (count limit) b c t h q u) (hq : q ≤ i) :
    SteppedOver limit u b q i := by
  obtain ⟨g, hg, hblock, hend, hi, hbefore⟩ := stepped
  rw [step.scanRun_eq] at hg
  rcases List.mem_cons.mp hg with rfl | hg
  · -- The step leads to the terminator of its own block, which is not in front of that.
    have hjump := (of_step step).2
    rw [hblock, if_pos (show RecordKind.isBlock .block = true from rfl)] at hjump
    omega
  · exact ⟨g, hg, hblock, hend, hi, hbefore⟩

end SteppedOver

/-- A measure is the same, or the same fault, in buffers of one size that differ in what it steps over and nowhere else. -/
theorem measure_congr (size : b.size = b'.size) (same : ∀ i, ¬ SteppedOver limit {} b p i → b.bytes[i]? = b'.bytes[i]?) :
    measure limit b p = measure limit b' p := by
  have hreach (n : Nat) : n ≤ b.size ↔ n ≤ b'.size := by rw [size]
  -- From each position on that the measure comes to, the buffers differ only in what is stepped over from there on.
  have hrun : scanRun limit (count limit) {} b p = scanRun limit (count limit) {} b' p := by
    refine scanRun_transfer (fun c t => ∀ i, c ≤ i → ¬ SteppedOver limit t b c i → b.bytes[i]? = b'.bytes[i]?) ?_ ?_ ?_
      (fun n _ => hreach n) fun i _ => same i
    · intro c t hsame _
      have agree : b.AgreeOn b' c (c + 4) := fun i hi hlo => hsame i hlo fun stepped => Nat.not_lt_of_le stepped.le hi
      exact RecordHeader.frame_congr ⟨agree, fun n _ => hreach n⟩ limit
    · intro c t h hsame hf
      have agree : b.AgreeOn b' c h.stop := fun i hi hlo => hsame i hlo fun stepped => Nat.not_lt_of_le (stepped.stop_le hf) hi
      exact count_congr hf ⟨agree, fun n _ => hreach n⟩ t
    · intro c t h q u hsame step i hi hnot
      obtain ⟨hoffset, _, _, _, hq⟩ := step.bounds
      exact hsame i (by omega) fun stepped => hnot (stepped.onward step hi)
  rw [measure, restoring, restoring, scan, scan, hrun]

/-! ## Adjoining ranges -/

/-- Two tallies together: each counter is the sum of both. -/
instance : Add Tally where
  add t u :=
    { scopes := t.scopes + u.scopes
      slots := t.slots + u.slots
      constants := t.constants + u.constants
      usedNamespaces := t.usedNamespaces + u.usedNamespaces }

/-- A record more adds to the sum what it adds to its second part. -/
theorem add_add (t u : Tally) (kind : RecordKind) : (t + u).add kind = t + u.add kind := by
  cases kind <;> rfl

theorem empty_add (t : Tally) : ({} : Tally) + t = t := by
  obtain ⟨scopes, slots, constants, usedNamespaces⟩ := t
  show Tally.mk _ _ _ _ = _
  simp only [Nat.zero_add]

/-- A record that is counted in a range is counted in every larger one and in any other tally, as long as no counter is too large. -/
theorem count_of_count {m n r : Nat} {t' v : Tally} {resume : Resume} (hle : m ≤ limit)
    (hh : count m h t b c = (.ok (resume, t'), r)) (hv : v.UpTo n) (hn : n + 1 < 0x10000000000000000) :
    count limit h v b c = (.ok (resume, v.add h.kind), r) := by
  obtain ⟨hscopes, hslots, hconstants, hnamespaces⟩ := hv
  have hword {k : Nat} (hk : k ≤ n) (q : Nat) : fits (k + 1) b q = (.ok (k + 1), q) := by rw [run_fits, if_pos (by omega)]
  cases hkind : h.kind with
  | block =>
    rw [count, hkind] at hh ⊢
    obtain ⟨stop, _, hdeclared, hh⟩ := exists_of_bind hh
    obtain ⟨_, _, hfits, hh⟩ := exists_of_bind hh
    obtain ⟨_, rfl, rfl⟩ := of_fits hfits
    obtain ⟨hpair, rfl⟩ := of_pure hh
    cases hpair
    exact (run_bind_ok (RecordHeader.declaredEnd_mono hle hdeclared) _).trans (run_bind_ok (hword hscopes _) _)
  | slot | constant | usingNamespace =>
    rw [count, hkind] at hh ⊢
    obtain ⟨_, _, hfits, hh⟩ := exists_of_bind hh
    obtain ⟨_, rfl, rfl⟩ := of_fits hfits
    obtain ⟨hpair, rfl⟩ := of_pure hh
    cases hpair
    exact run_bind_ok (hword (by assumption) _) _
  | terminator | vendor | globalProcedure | localProcedure | unknown =>
    rw [count, hkind] at hh ⊢
    obtain ⟨hpair, rfl⟩ := of_pure hh
    cases hpair
    rfl

/-- A measure takes the same steps in a larger range and when records have been counted before, as long as no counter exceeds the
position. -/
theorem count_carry {m : Nat} (hle : m ≤ limit) (before : Tally) {t' v : Tally} (step : ScanStep m (count m) b p t h q t')
    (hv : v = before + t ∧ v.UpTo p) : ∃ w, ScanStep limit (count limit) b p v h q w ∧ w = before + t' ∧ w.UpTo q := by
  obtain ⟨rfl, hup⟩ := hv
  obtain ⟨_, hstop, _, _, _, hinside⟩ := RecordHeader.of_frame step.framed
  have hsize := b.size_lt
  rw [Buffer.size] at hinside
  have hbounds := step.bounds
  obtain ⟨rfl, _⟩ := of_step step
  refine ⟨(before + t).add h.kind, step.mono hle fun resume r hh => ?_, add_add before t h.kind, hup.add (by omega) h.kind⟩
  exact count_of_count hle hh hup (by omega)

/-- A measure up to a position and one from there on are one measure, which counts what both count. -/
theorem measure_append {middle : Nat} {x y : Tally} (hp : p ≤ middle) (hle : middle ≤ limit)
    (hx : (measure middle b p).1 = .ok x) (hy : (measure limit b middle).1 = .ok y) :
    (measure limit b p).1 = .ok (x + y) := by
  have first : Scanned middle (count middle) b p {} _ x _ := scanned_of_answer hx
  have second : Scanned limit (count limit) b middle {} _ y _ := scanned_of_answer hy
  obtain ⟨_, ⟨rfl, hup⟩, hfirst⟩ := first.append (fun c t v => v = ({} : Tally) + t ∧ v.UpTo c) (count_carry hle {})
    ⟨rfl, UpTo.empty p⟩
  rw [empty_add] at hup hfirst
  rw [first.cursor_eq hp] at hup hfirst
  obtain ⟨_, ⟨rfl, _⟩, hsecond⟩ := second.append (fun c t v => v = x + t ∧ v.UpTo c) (count_carry (Nat.le_refl limit) x)
    ⟨rfl, hup⟩
  rw [second.cursor_eq hle] at hsecond
  have whole : scan limit (count limit) {} b p = (.ok (x + y), limit) := (hfirst (hsecond (.done (Nat.le_refl limit)))).scan_eq
  rw [measure, restoring, whole]

/-- A measure leaves the cursor in every outcome: it is the scan of the range, and then the cursor is put back where it was, which
never fails. It does not look at the bytes that it steps over in the bodies of blocks, whatever else they are and whether it succeeds
or not. And two measures of adjoining ranges count what one measure of both does. -/
theorem measure_local_additive (b : Buffer) (limit p : Nat) :
    ((measure limit b p).2 = p ∧
      (p ≤ b.size → measure limit b p =
        (seek p >>= fun _ => check (scan limit (count limit) {} b p).1) b (scan limit (count limit) {} b p).2)) ∧
    (∀ b' : Buffer, b'.size = b.size → (∀ i, ¬ SteppedOver limit {} b p i → b'.bytes[i]? = b.bytes[i]?) →
      measure limit b' p = measure limit b p) ∧
    ∀ middle x y, p ≤ middle → middle ≤ limit → (measure middle b p).1 = .ok x → (measure limit b middle).1 = .ok y →
      (measure limit b p).1 = .ok (x + y) := by
  refine ⟨⟨rfl, fun hp => ?_⟩, ?_, ?_⟩
  · have hseek : seek p b (scan limit (count limit) {} b p).2 = (.ok (), p) := by rw [run_seek, if_pos hp]
    rw [run_bind_ok hseek]
    rfl
  · intro b' hsize hsame
    exact (measure_congr hsize.symm fun i hi => (hsame i hi).symm).symm
  · intro middle x y hp hle hx hy
    exact measure_append hp hle hx hy

/-- A block whose body is four equal bytes, its terminator, and behind that a record that names a namespace. -/
def blockThenNamespace (x : UInt8) : Buffer where
  bytes := #[20, 0, 0x03, 0x11, 0, 0, 0, 0, 26, 0, 0, 0, 0, 0, 0, 0, 0, 0, 0, 0, 0, 0, x, x, x, x, 2, 0, 6, 0, 2, 0, 0x24, 0x11]
  size_lt := by
    show 34 < _
    decide

/-- The body of the block makes no difference to a measure that fails behind it, and the two records are counted apart and together. -/
theorem measure_local_additive_sample :
    (∀ i, ¬ SteppedOver 40 {} (blockThenNamespace 1) 0 i → (blockThenNamespace 2).bytes[i]? = (blockThenNamespace 1).bytes[i]?) ∧
    (measure 40 (blockThenNamespace 1) 0).1 = .error .outOfBounds ∧ (measure 40 (blockThenNamespace 2) 0).1 = .error .outOfBounds ∧
    (measure 30 (blockThenNamespace 1) 0).1 = .ok { scopes := 1 } ∧
    (measure 34 (blockThenNamespace 1) 30).1 = .ok { usedNamespaces := 1 } ∧
    (measure 34 (blockThenNamespace 1) 0).1 = .ok { scopes := 1, usedNamespaces := 1 } := by
  have hmet : ⟨.block, 20, 0, 22⟩ ∈ (scanRun 40 (count 40) {} (blockThenNamespace 1) 0).visited := by decide +kernel
  have hsame (i : Nat) (hnot : ¬ SteppedOver 40 {} (blockThenNamespace 1) 0 i) :
      (blockThenNamespace 2).bytes[i]? = (blockThenNamespace 1).bytes[i]? := by
    have hbefore : (blockThenNamespace 2).AgreeOn (blockThenNamespace 1) 0 22 := by decide
    have hbehind : (blockThenNamespace 2).AgreeOn (blockThenNamespace 1) 26 34 := by decide
    by_cases hi : i < 22
    · exact hbefore i hi (Nat.zero_le i)
    by_cases hi' : i < 26
    · exact absurd ⟨_, hmet, rfl, rfl, Nat.le_of_not_lt hi, hi'⟩ hnot
    by_cases hi'' : i < 34
    · exact hbehind i hi'' (by omega)
    · have hsize (x : UInt8) : (blockThenNamespace x).bytes.size ≤ i := Nat.le_of_not_lt hi''
      rw [Array.getElem?_eq_none (hsize 2), Array.getElem?_eq_none (hsize 1)]
  have hfails : (measure 40 (blockThenNamespace 1) 0).1 = .error .outOfBounds := by cbv
  have hfirst : (measure 30 (blockThenNamespace 1) 0).1 = .ok { scopes := 1 } := by cbv
  have hsecond : (measure 34 (blockThenNamespace 1) 30).1 = .ok { usedNamespaces := 1 } := by cbv
  have hlocal := (measure_local_additive (blockThenNamespace 1) 40 0).2.1 (blockThenNamespace 2) rfl hsame
  have hsum := (measure_local_additive (blockThenNamespace 1) 34 0).2.2 30 _ _ (by decide) (by decide) hfirst hsecond
  exact ⟨hsame, hfails, by rw [hlocal, hfails], hfirst, hsecond, hsum⟩

end Tally

end ManagedSymbols
