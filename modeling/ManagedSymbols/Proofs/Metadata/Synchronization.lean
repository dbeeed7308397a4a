import ManagedSymbols.Proofs.Layout.Metadata
import ManagedSymbols.Proofs.Reader.Sized

/-!
# The description of an async method: its record and its tables

The record of an async method needs twelve bytes and twelve more for each suspension point that it counts. It is read exactly where
the buffer has them (`Synchronization.sized_read`). The tables of yield and resume offsets are listed by pairs, and what is read from
the list is what is built from the tables (`Synchronization.read_offsetTables`).
-/

namespace ManagedSymbols

open Reader

/-- The suspension point that three words make. -/
def SuspensionPoint.ofWords (b : Buffer) (p : Nat) : SuspensionPoint where
  yieldOffset := b.word32 p
  resumeMethod := ⟨b.word32 (p + 4)⟩
  resumeOffset := b.word32 (p + 8)

/-- Any three words are a suspension point. -/
theorem SuspensionPoint.sized_read : Sized SuspensionPoint.read (fun _ _ => 12) SuspensionPoint.ofWords := by
  have hfields := Sized.u32.bind fun y => (Sized.u32.map Token.mk).bind fun m => Sized.u32.bind fun r =>
    Sized.pure (SuspensionPoint.mk y m r)
  exact hfields.of_eq (fun _ _ => rfl) fun _ _ => rfl

namespace Synchronization

/-- The description that the words at a position make, with as many points as the third word says. -/
def ofWords (b : Buffer) (p : Nat) : Synchronization where
  kickoffMethod := ⟨b.word32 p⟩
  catchHandlerOffset := b.word32 (p + 4)
  points := (List.range (b.word32 (p + 8)).toNat).map fun i => SuspensionPoint.ofWords b (p + 12 + 12 * i)

/-- Any words are a description, if as many follow as the third one says. -/
theorem sized_read : Sized read (fun b p => 12 + 12 * (b.word32 (p + 8)).toNat) ofWords := by
  have hfields := (Sized.u32.map Token.mk).bind fun kickoff => Sized.u32.bind fun handler => Sized.u32.bind fun count =>
    (SuspensionPoint.sized_read.times count.toNat).bind fun points => Sized.pure (Synchronization.mk kickoff handler points)
  refine hfields.of_eq (fun b p => ?_) fun _ _ => rfl
  show 4 + (4 + (4 + (12 * (b.word32 (p + 4 + 4)).toNat + 0))) = _
  rw [Nat.add_assoc p 4 4]
  omega

/-- A description is read where the buffer has all its words, and otherwise the bytes end. -/
theorem run_read (b : Buffer) (p : Nat) :
    if p + (12 + 12 * (b.word32 (p + 8)).toNat) ≤ b.size then
      read b p = (.ok (ofWords b p), p + (12 + 12 * (b.word32 (p + 8)).toNat))
    else ∃ q, read b p = (.error .outOfBounds, q) := by
  by_cases hp : p ≤ b.size
  · exact sized_read b p hp
  · -- Behind the end of the buffer not even the first word is there.
    have hfirst : (Token.mk <$> Reader.u32) b p = (.error .outOfBounds, p) := by
      rw [run_map, run_u32, if_neg (by omega)]
      rfl
    rw [if_neg (by omega)]
    exact ⟨p, run_bind_error hfirst _⟩

/-- As many points are made as the third word says. -/
theorem length_points_ofWords (b : Buffer) (p : Nat) : (ofWords b p).points.length = (b.word32 (p + 8)).toNat := by
  rw [ofWords, List.length_map, List.length_range]

/-- A description that is read is made of the words at the cursor, and the cursor is left behind its points. -/
theorem of_read {b : Buffer} {p q : Nat} {s : Synchronization} (h : read b p = (.ok s, q)) :
    s = ofWords b p ∧ p + (12 + 12 * (b.word32 (p + 8)).toNat) ≤ b.size ∧ q = p + (12 + 12 * s.points.length) := by
  have hrun := run_read b p
  split at hrun
  · next hroom =>
    rw [h] at hrun
    cases hrun
    exact ⟨rfl, hroom, by rw [length_points_ofWords]⟩
  · obtain ⟨_, hrun⟩ := hrun
    rw [h] at hrun
    cases hrun

/-! ## Tables -/

/-- The bytes that list the tables of a state machine: the two fields, the number of points, and for each pair of a yield and a resume
offset at the same index the yield offset, the method that moves the machine and the resume offset. -/
def offsetTables (moveNext kickoff : Token) (handler : UInt32) (yields resumes : List UInt32) : List UInt8 :=
  Layout.word32 kickoff.value ++ Layout.word32 handler ++ Layout.word32 (UInt32.ofNat yields.length) ++
    (yields.zip resumes).flatMap fun (y, r) => Layout.word32 y ++ Layout.word32 moveNext.value ++ Layout.word32 r

variable {moveNext kickoff : Token} {handler : UInt32} {yields resumes : List UInt32}

/-- Tables of one length make a description with a point for each index. It is stored by the list of the tables. -/
theorem exists_ofOffsets (h : yields.length = resumes.length) :
    ∃ s, ofOffsets moveNext kickoff handler yields resumes = .ok s ∧ s.points.length = yields.length ∧
      s.stored = offsetTables moveNext kickoff handler yields resumes := by
  refine ⟨_, if_pos h, ?_, ?_⟩
  · rw [List.length_map, List.length_zip, ← h, Nat.min_self]
  · simp only [stored, Layout.counted, List.length_map, List.length_zip, ← h, Nat.min_self, List.flatMap_map, offsetTables,
      List.append_assoc]
    rfl

/-- What is read from the list of two tables of one length is what is built from them. -/
theorem exists_reads_offsetTables (h : yields.length = resumes.length) (fits : yields.length < 2 ^ 32) :
    ∃ s, ofOffsets moveNext kickoff handler yields resumes = .ok s ∧
      ∀ b p, b.Holds p (offsetTables moveNext kickoff handler yields resumes) →
        read b p = (.ok s, p + (12 + 12 * yields.length)) := by
  obtain ⟨s, hs, hlength, hstored⟩ := exists_ofOffsets h
  refine ⟨s, hs, fun b p hb => ?_⟩
  have hread := reads p (hlength ▸ fits) b (hstored ▸ hb)
  rw [hread, (of_read hread).2.2, hlength]

/-- A description is read exactly where twelve bytes are left and twelve more for each point that the third word counts. It has then
so many points, in the order of the words, and the cursor is left behind them; elsewhere the bytes end. The list of two tables of one
length is read as what the tables build, and tables of different lengths build nothing. -/
theorem read_agrees_ofOffsets :
    (∀ b p, ((∃ s q, read b p = (.ok s, q)) ↔ p + (12 + 12 * (b.word32 (p + 8)).toNat) ≤ b.size) ∧
      (∀ s q, read b p = (.ok s, q) → s = ofWords b p ∧ s.points.length = (b.word32 (p + 8)).toNat ∧
        q = p + (12 + 12 * (b.word32 (p + 8)).toNat)) ∧
      (b.size < p + (12 + 12 * (b.word32 (p + 8)).toNat) → ∃ q, read b p = (.error .outOfBounds, q))) ∧
    ∀ (moveNext kickoff : Token) (handler : UInt32) (yields resumes : List UInt32),
      (yields.length = resumes.length → yields.length < 2 ^ 32 →
        ∃ s, ofOffsets moveNext kickoff handler yields resumes = .ok s ∧
          ∀ b p, b.Holds p (offsetTables moveNext kickoff handler yields resumes) →
            read b p = (.ok s, p + (12 + 12 * yields.length))) ∧
      (yields.length ≠ resumes.length → ofOffsets moveNext kickoff handler yields resumes =
        .error (.malformed (.offsetTables yields.length resumes.length))) := by
  refine ⟨fun b p => ?_, fun moveNext kickoff handler yields resumes => ⟨exists_reads_offsetTables, fun hne => if_neg hne⟩⟩
  have hrun := run_read b p
  refine ⟨⟨?_, ?_⟩, ?_, ?_⟩
  · rintro ⟨s, q, h⟩
    exact (of_read h).2.1
  · intro hroom
    rw [if_pos hroom] at hrun
    exact ⟨_, _, hrun⟩
  · intro s q h
    obtain ⟨rfl, _, hq⟩ := of_read h
    rw [length_points_ofWords] at hq
    exact ⟨rfl, length_points_ofWords b p, hq⟩
  · intro hshort
    rwa [if_neg (Nat.not_le.mpr hshort)] at hrun

/-- Two tables of two offsets, listed with a byte in front and one behind. -/
def sampleTables : Buffer where
  bytes := ([0xEE] ++ offsetTables ⟨7⟩ ⟨6⟩ 0x20 [1, 2] [3, 4] ++ [0xEE]).toArray
  size_lt := by decide

/-- The tables are read from their list. A byte further on the third word counts more points than the bytes can hold. -/
theorem read_agrees_ofOffsets_sampleTables :
    ofOffsets ⟨7⟩ ⟨6⟩ 0x20 [1, 2] [3, 4] = .ok ⟨⟨6⟩, 0x20, [⟨1, ⟨7⟩, 3⟩, ⟨2, ⟨7⟩, 4⟩]⟩ ∧
      read sampleTables 1 = (.ok ⟨⟨6⟩, 0x20, [⟨1, ⟨7⟩, 3⟩, ⟨2, ⟨7⟩, 4⟩]⟩, 37) ∧
      (∃ q, read sampleTables 2 = (.error .outOfBounds, q)) ∧
      ofOffsets ⟨7⟩ ⟨6⟩ 0x20 [1, 2] [3] = .error (.malformed (.offsetTables 2 1)) := by
  obtain ⟨hbytes, htables⟩ := read_agrees_ofOffsets
  obtain ⟨s, hs, hread⟩ := (htables ⟨7⟩ ⟨6⟩ 0x20 [1, 2] [3, 4]).1 rfl (by decide)
  cases hs
  refine ⟨rfl, hread sampleTables 1 ⟨[0xEE], [0xEE], rfl, rfl⟩, (hbytes sampleTables 2).2.2 (by decide), ?_⟩
  exact (htables ⟨7⟩ ⟨6⟩ 0x20 [1, 2] [3]).2 (by decide)

end Synchronization

end ManagedSymbols
