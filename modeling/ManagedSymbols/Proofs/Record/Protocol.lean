import ManagedSymbols.Proofs.Record.Scan

/-!
# What a scan holds to, whatever its handler does

A handler may move the cursor, read what it likes, fail, or answer with any target. The framings it is handed depend on the bytes
and on its answers alone (`visited_scanRun`, by `framings`, in which no handler occurs). Each of them starts where the answer before
it leads, and there are at most a fourth as many as the range has bytes. A scan that succeeds stops at its limit, and an answer that
leads back into its record or past the limit is a fault (`scanRun_orderly`).
-/

namespace ManagedSymbols

variable {σ τ : Type}

/-! ## Answers and framings -/

/-- The answers of a handler in a scan: one for each call that does not fail, in order. -/
def scanAnswers (limit : Nat) (handler : RecordHandler σ) (state : σ) (b : Buffer) (p : Nat) : List Resume :=
  if p < limit then
    match hf : RecordHeader.frame limit b p with
    | (.error _, _) => []
    | (.ok h, q) =>
      match handler h state b q with
      | (.error _, _) => []
      | (.ok (resume, state), _) =>
        resume ::
          match ht : resume.target h limit with
          | .error _ => []
          | .ok target =>
            have := RecordHeader.of_frame hf
            have := Resume.stop_le_target ht
            if target ≤ b.size then scanAnswers limit handler state b target else []
  else []
termination_by limit - p
decreasing_by omega

/-- The framing of the record at a position of a range, if there is one. -/
def RecordHeader.framed? (limit : Nat) (b : Buffer) (p : Nat) : Option RecordHeader :=
  if p < limit then (frame limit b p).1.toOption else none

/-- The framings from a position on: the record there and, as long as there are answers, the one that each of them leads to. -/
def framings (limit : Nat) (b : Buffer) : List Resume → Nat → List RecordHeader
  | [], p => (RecordHeader.framed? limit b p).toList
  | answer :: rest, p =>
    match RecordHeader.framed? limit b p with
    | none => []
    | some h =>
      h ::
        match answer.target h limit with
        | .error _ => []
        | .ok q => framings limit b rest q

variable {limit : Nat} {handler : RecordHandler σ} {b : Buffer} {p q : Nat} {s t : σ} {h g : RecordHeader}

/-! ## Framings that answers lead to -/

namespace RecordHeader

/-- A framing that is there has been read. -/
theorem of_framed? (hf : framed? limit b p = some h) : p < limit ∧ frame limit b p = (.ok h, p + 4) := by
  unfold framed? at hf
  split at hf
  · next hp =>
    cases hr : frame limit b p with
    | mk answer r =>
      rw [hr] at hf
      cases answer with
      | error e => cases hf
      | ok found =>
        cases hf
        obtain ⟨_, _, _, _, rfl, _⟩ := of_frame hr
        exact ⟨hp, rfl⟩
  · cases hf

/-- A framing that is read is there. -/
theorem framed?_of_frame (hp : p < limit) (hf : frame limit b p = (.ok h, q)) : framed? limit b p = some h := by
  rw [framed?, if_pos hp, hf]
  rfl

/-- Behind the buffer there is no framing. -/
theorem framed?_of_size_lt (hp : b.size < p) : framed? limit b p = none := by
  cases hf : framed? limit b p with
  | none => rfl
  | some h =>
    have := of_frame (of_framed? hf).2
    omega

end RecordHeader

/-- The first of the framings is the record at the position. -/
theorem head?_framings (limit : Nat) (b : Buffer) (answers : List Resume) (p : Nat) :
    (framings limit b answers p).head? = RecordHeader.framed? limit b p := by
  cases answers with
  | nil => cases hf : RecordHeader.framed? limit b p <;> simp [framings, hf]
  | cons answer rest => cases hf : RecordHeader.framed? limit b p <;> simp [framings, hf]

/-- Each framing starts where the answer to the one before it leads. -/
theorem offset_framings (answers : List Resume) (p i : Nat) (hh : (framings limit b answers p)[i]? = some h)
    (hg : (framings limit b answers p)[i + 1]? = some g) :
    ∃ answer, answers[i]? = some answer ∧ answer.target h limit = .ok g.offset := by
  induction answers generalizing p i with
  | nil =>
    rw [framings] at hg
    cases hf : RecordHeader.framed? limit b p <;> simp [hf] at hg
  | cons answer rest ih =>
    cases hf : RecordHeader.framed? limit b p with
    | none => simp [framings, hf] at hh
    | some first =>
      cases ht : answer.target first limit with
      | error e => simp [framings, hf, ht] at hg
      | ok q =>
        simp only [framings, hf, ht, List.getElem?_cons_succ] at hh hg
        cases i with
        | zero =>
          simp only [List.getElem?_cons_zero, Option.some.injEq] at hh
          subst hh
          rw [← List.head?_eq_getElem?, head?_framings] at hg
          obtain rfl := (RecordHeader.of_frame (RecordHeader.of_framed? hg).2).1
          exact ⟨answer, rfl, ht⟩
        | succ i => exact ih q i hh hg

/-- All framings are those of records in the range. -/
theorem exists_frame_of_mem_framings (answers : List Resume) (p : Nat) (hh : h ∈ framings limit b answers p) :
    ∃ c, RecordHeader.frame limit b c = (.ok h, c + 4) := by
  induction answers generalizing p with
  | nil =>
    simp only [framings, Option.mem_toList] at hh
    exact ⟨p, (RecordHeader.of_framed? hh).2⟩
  | cons answer rest ih =>
    cases hf : RecordHeader.framed? limit b p with
    | none => simp [framings, hf] at hh
    | some first =>
      simp only [framings, hf, List.mem_cons] at hh
      rcases hh with rfl | hh
      · exact ⟨p, (RecordHeader.of_framed? hf).2⟩
      · cases ht : answer.target first limit with
        | error e => simp [ht] at hh
        | ok q =>
          rw [ht] at hh
          exact ih q hh

/-- Each framing takes four bytes of the range at least, so they are a fourth as many as its bytes at most. -/
theorem length_framings_le (limit : Nat) (b : Buffer) (answers : List Resume) (p : Nat) :
    4 * (framings limit b answers p).length ≤ limit - p := by
  induction answers generalizing p with
  | nil =>
    cases hf : RecordHeader.framed? limit b p with
    | none => simp [framings, hf]
    | some first =>
      have := RecordHeader.of_frame (RecordHeader.of_framed? hf).2
      simp only [framings, hf, Option.toList_some, List.length_singleton]
      omega
  | cons answer rest ih =>
    cases hf : RecordHeader.framed? limit b p with
    | none => simp [framings, hf]
    | some first =>
      have := RecordHeader.of_frame (RecordHeader.of_framed? hf).2
      cases ht : answer.target first limit with
      | error e =>
        simp only [framings, hf, ht, List.length_singleton]
        omega
      | ok q =>
        have := Resume.stop_le_target ht
        have := ih q
        simp only [framings, hf, ht, List.length_cons]
        omega

/-- So many answers determine one framing more than they are. -/
theorem take_framings (answers : List Resume) (p n : Nat) :
    (framings limit b answers p).take (n + 1) = framings limit b (answers.take n) p := by
  induction answers generalizing p n with
  | nil =>
    rw [List.take_nil, framings]
    cases RecordHeader.framed? limit b p <;> simp
  | cons answer rest ih =>
    cases n with
    | zero => cases hf : RecordHeader.framed? limit b p <;> simp [framings, hf]
    | succ n =>
      cases hf : RecordHeader.framed? limit b p with
      | none => simp [framings, hf]
      | some first =>
        cases ht : answer.target first limit with
        | error e => simp [framings, hf, ht]
        | ok q => simp only [framings, hf, ht, List.take_succ_cons, ih]

/-! ## The answers of a scan -/

/-- The answers in a scan: that to the record at the position, and those of the rest of the scan if it leads there. -/
theorem scanAnswers_of_frame (hp : p < limit) (hf : RecordHeader.frame limit b p = (.ok h, q)) :
    scanAnswers limit handler s b p = match handler h s b q with
      | (.error _, _) => []
      | (.ok (resume, t), _) =>
        resume ::
          match resume.target h limit with
          | .error _ => []
          | .ok target => if target ≤ b.size then scanAnswers limit handler t b target else [] := by
  rw [scanAnswers, if_pos hp]
  split
  · next e q' hf' => rw [hf] at hf'; cases hf'
  · next h' q' hf' =>
    rw [hf] at hf'
    cases hf'
    cases hh : handler h s b q with
    | mk answer c =>
      cases answer with
      | error e => rfl
      | ok found =>
        dsimp only
        congr 1
        split
        · next e ht => rw [ht]
        · next target ht => rw [ht]

/-- A scan hands out the framings that its answers lead to. -/
theorem visited_scanRun (limit : Nat) (handler : RecordHandler σ) (s : σ) (b : Buffer) (p : Nat) :
    (scanRun limit handler s b p).visited = framings limit b (scanAnswers limit handler s b p) p := by
  fun_induction scanRun limit handler s b p with
  | case1 s p hp e q hf =>
    have hnone : RecordHeader.framed? limit b p = none := by
      rw [RecordHeader.framed?, if_pos hp, hf]
      rfl
    have hhead := head?_framings limit b (scanAnswers limit handler s b p) p
    rw [hnone] at hhead
    exact (List.head?_eq_none_iff.mp hhead).symm
  | case2 s p hp h q hf e c hh =>
    rw [scanAnswers_of_frame hp hf, hh]
    simp only [framings, RecordHeader.framed?_of_frame hp hf]
    rfl
  | case3 s p hp h q hf resume t c hh e ht =>
    rw [scanAnswers_of_frame hp hf, hh]
    simp only [framings, RecordHeader.framed?_of_frame hp hf, ht]
  | case4 s p hp h q hf resume t c hh target ht _ _ hland ih =>
    rw [scanAnswers_of_frame hp hf, hh]
    simp only [framings, RecordHeader.framed?_of_frame hp hf, ht, if_pos hland, ScanRun.behind, ih]
  | case5 s p hp h q hf resume t c hh target ht _ _ hland =>
    -- The scan ends because the target is behind the buffer, and no record is framed there either.
    rw [scanAnswers_of_frame hp hf, hh]
    simp only [framings, RecordHeader.framed?_of_frame hp hf, ht, if_neg hland,
      RecordHeader.framed?_of_size_lt (Nat.lt_of_not_le hland), Option.toList_none]
  | case6 s p hp =>
    rw [scanAnswers, if_neg hp, framings, RecordHeader.framed?, if_neg hp]
    rfl

/-- Each answer in a scan is that of a call for the record it answers, and if it leads nowhere, the scan ends with its fault. -/
theorem call_of_answer {i : Nat} {answer : Resume} (hh : (scanRun limit handler s b p).visited[i]? = some h)
    (ha : (scanAnswers limit handler s b p)[i]? = some answer) :
    (∃ c s t r, RecordHeader.frame limit b c = (.ok h, c + 4) ∧ handler h s b (c + 4) = (.ok (answer, t), r)) ∧
      ∀ e, answer.target h limit = .error e → (scanRun limit handler s b p).answer = .error e := by
  fun_induction scanRun limit handler s b p generalizing i with
  | case1 s p hp e q hf => simp at hh
  | case2 s p hp first q hf e c hhandler =>
    rw [scanAnswers_of_frame hp hf, hhandler] at ha
    simp at ha
  | case3 s p hp first q hf resume t c hhandler e ht =>
    obtain ⟨_, _, _, _, rfl, _⟩ := RecordHeader.of_frame hf
    rw [scanAnswers_of_frame hp hf, hhandler] at ha
    simp only [ht] at ha
    cases i with
    | zero =>
      cases hh
      cases ha
      refine ⟨⟨p, s, t, c, hf, hhandler⟩, fun e' he => ?_⟩
      rw [ht] at he
      cases he
      rfl
    | succ i => simp at ha
  | case4 s p hp first q hf resume t c hhandler target ht _ _ hland ih =>
    obtain ⟨_, _, _, _, rfl, _⟩ := RecordHeader.of_frame hf
    rw [scanAnswers_of_frame hp hf, hhandler] at ha
    simp only [ht, if_pos hland] at ha
    cases i with
    | zero =>
      cases hh
      cases ha
      refine ⟨⟨p, s, t, c, hf, hhandler⟩, fun e he => ?_⟩
      rw [ht] at he
      cases he
    | succ i => exact ih hh ha
  | case5 s p hp first q hf resume t c hhandler target ht _ _ hland =>
    obtain ⟨_, _, _, _, rfl, _⟩ := RecordHeader.of_frame hf
    rw [scanAnswers_of_frame hp hf, hhandler] at ha
    simp only [ht, if_neg hland] at ha
    cases i with
    | zero =>
      cases hh
      cases ha
      refine ⟨⟨p, s, t, c, hf, hhandler⟩, fun e he => ?_⟩
      rw [ht] at he
      cases he
    | succ i => simp at ha
  | case6 s p hp => simp at hh

/-! ## The protocol -/

/-- What a run holds to whose handler gives these answers, from a position up to a limit. -/
structure ScanRun.Orderly (limit : Nat) (p : Nat) (answers : List Resume) (run : ScanRun σ) : Prop where
  /-- The handler is called a fourth as often as the range has bytes, at most. -/
  calls : run.visited.length ≤ (limit - p) / 4
  first : ∀ h ∈ run.visited.head?, h.offset = p
  framed : ∀ h ∈ run.visited, 2 ≤ h.length.toNat ∧ h.stop = h.offset + 2 + h.length.toNat ∧ h.stop ≤ limit
  /-- Each framing behind another one starts where the answer to that one says. -/
  next : ∀ (i : Nat) (h g : RecordHeader), run.visited[i]? = some h → run.visited[i + 1]? = some g →
    answers[i]? = some .afterRecord ∧ g.offset = h.stop ∨
      answers[i]? = some (.jump g.offset) ∧ h.stop ≤ g.offset ∧ g.offset ≤ limit
  ended : ∀ t, run.answer = .ok t → run.cursor = if p ≤ limit then limit else p
  /-- Behind the limit nothing is handed out. -/
  empty : limit < p → run.visited = []
  /-- An answer that leads back into its record ends the run. -/
  jumpBack : ∀ (i : Nat) (h : RecordHeader) (target : Nat), run.visited[i]? = some h →
    answers[i]? = some (.jump target) → target < h.stop → run.answer = .error (.invalidJump h.kind target h.offset)
  /-- An answer that leads out of the range ends the run. -/
  jumpOut : ∀ (i : Nat) (h : RecordHeader) (target : Nat), run.visited[i]? = some h →
    answers[i]? = some (.jump target) → h.stop ≤ target → limit < target →
    run.answer = .error (.endOutOfRange h.kind target limit h.offset)

/-- Every scan is orderly, whatever its handler reads and answers and wherever it leaves the cursor; its answers are those of the
calls of the handler, in order. The framings it hands out are those of any other scan over the same bytes whose handler gives the
same answers: so many answers determine one framing more. -/
theorem scanRun_orderly (limit : Nat) (handler : RecordHandler σ) (s : σ) (b : Buffer) (p : Nat) :
    (scanRun limit handler s b p).Orderly limit p (scanAnswers limit handler s b p) ∧
      (∀ (i : Nat) (h : RecordHeader) (answer : Resume), (scanRun limit handler s b p).visited[i]? = some h →
        (scanAnswers limit handler s b p)[i]? = some answer →
        ∃ v t r, handler h v b (h.offset + 4) = (.ok (answer, t), r)) ∧
      ∀ {τ : Type} (other : RecordHandler τ) (v : τ) (n : Nat),
        (scanAnswers limit other v b p).take n = (scanAnswers limit handler s b p).take n →
        (scanRun limit other v b p).visited.take (n + 1) = (scanRun limit handler s b p).visited.take (n + 1) := by
  have hvisited := visited_scanRun limit handler s b p
  refine ⟨?_, ?_, ?_⟩
  · constructor
    case calls =>
      have := length_framings_le limit b (scanAnswers limit handler s b p) p
      rw [hvisited]
      omega
    case first =>
      intro h hh
      rw [hvisited, head?_framings] at hh
      exact (RecordHeader.of_frame (RecordHeader.of_framed? hh).2).1
    case framed =>
      intro h hh
      rw [hvisited] at hh
      obtain ⟨c, hf⟩ := exists_frame_of_mem_framings _ _ hh
      obtain ⟨rfl, hstop, hlength, hlimit, _⟩ := RecordHeader.of_frame hf
      exact ⟨hlength, hstop, hlimit⟩
    case next =>
      intro i h g hh hg
      rw [hvisited] at hh hg
      obtain ⟨answer, ha, ht⟩ := offset_framings _ _ _ hh hg
      obtain ⟨_, hf⟩ := exists_frame_of_mem_framings _ _ (List.mem_of_getElem? hh)
      obtain ⟨_, _, _, hinside, _⟩ := RecordHeader.of_frame hf
      obtain ⟨hq, hstop, hlimit⟩ := Resume.of_target ht
      rw [ha]
      cases answer with
      | afterRecord => exact .inl ⟨rfl, hq⟩
      | jump target =>
        obtain rfl : g.offset = target := hq
        exact .inr ⟨rfl, hstop, hlimit hinside⟩
    case ended => exact fun t ha => (scanned_of_answer ha).cursor_eq_ite
    case empty =>
      intro hp
      rw [scanRun_of_le (Nat.le_of_lt hp)]
    case jumpBack =>
      intro i h target hh ha hlt
      exact (call_of_answer hh ha).2 _ (by rw [Resume.target, if_pos hlt])
    case jumpOut =>
      intro i h target hh ha hle hlt
      exact (call_of_answer hh ha).2 _ (by rw [Resume.target, if_neg (Nat.not_lt.mpr hle), if_pos hlt])
  · intro i h answer hh ha
    obtain ⟨⟨c, v, t, r, hf, hcall⟩, _⟩ := call_of_answer hh ha
    obtain ⟨rfl, _⟩ := RecordHeader.of_frame hf
    exact ⟨v, t, r, hcall⟩
  · intro τ other v n hsame
    rw [visited_scanRun, hvisited, take_framings, take_framings, hsame]

/-- Two terminators, one behind the other. -/
def twoTerminators : Buffer where
  bytes := #[0x02, 0x00, 0x06, 0x00, 0x02, 0x00, 0x06, 0x00]
  size_lt := by decide

/-- A handler that puts the cursor at the front of the buffer, answers with its state, and asks for the second byte next. -/
def jumpBack : RecordHandler Nat := fun _ target => do
  Reader.moveTo 0
  return (.jump target, 1)

/-- A handler that goes on to the second record, and from there back into the first one, ends the scan. -/
theorem scanRun_orderly_sample :
    (scanRun 8 jumpBack 4 twoTerminators 0).answer = .error (.invalidJump .terminator 1 4) :=
  (scanRun_orderly 8 jumpBack 4 twoTerminators 0).1.jumpBack 1 ⟨.terminator, 2, 4, 8⟩ 1 (by decide +kernel) (by decide +kernel)
    (by decide)

end ManagedSymbols
