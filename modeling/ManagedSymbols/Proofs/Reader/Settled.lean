import ManagedSymbols.Proofs.Buffer.Agreement
import ManagedSymbols.Proofs.Reader.Extents

/-!
# Reads that are settled by what they take

A read that succeeds is settled by the bytes that it takes if it gives the same value and the same cursor in any other buffer that
reaches as far and has the same bytes there, whatever else that buffer holds. `Reader.SettledAt` says it of a read at one cursor of
a buffer, and `Reader.Settled` of a reader everywhere. Nothing is said of a read that fails, since it may have failed at the end of
the buffer. Both compose because cursors only move on: what the parts take lies in what the whole takes. A lemma that has the name
of a reader says that this reader is settled.
-/

namespace ManagedSymbols.Reader

variable {α β : Type}

/-- If the read succeeds, it moves on, and the bytes between its cursors settle its outcome. -/
def SettledAt (b : Buffer) (p : Nat) (r : Reader α) : Prop :=
  ∀ a q, r b p = (.ok a, q) → p ≤ q ∧ ∀ b' : Buffer, q ≤ b'.size → b.AgreeOn b' p q → r b' p = (.ok a, q)

/-- At every position of every buffer a read that succeeds is settled by the bytes that it takes. -/
def Settled (r : Reader α) : Prop :=
  ∀ b p, SettledAt b p r

namespace SettledAt

variable {b : Buffer} {p : Nat} {r : Reader α}

theorem pure (b : Buffer) (p : Nat) (a : α) : SettledAt b p (Pure.pure a) := by
  rintro _ _ ⟨⟩
  exact ⟨Nat.le_refl p, fun _ _ _ => rfl⟩

/-- A sequence is settled if its first reader is and its second one is where the first one leaves the cursor. -/
theorem bind {next : α → Reader β} (h : SettledAt b p r) (hn : ∀ a q, r b p = (.ok a, q) → SettledAt b q (next a)) :
    SettledAt b p (r >>= next) := by
  intro c q hr
  obtain ⟨a, s, hfirst, hsecond⟩ := exists_of_bind hr
  obtain ⟨hps, hfirst'⟩ := h a s hfirst
  obtain ⟨hsq, hsecond'⟩ := hn a s hfirst c q hsecond
  refine ⟨Nat.le_trans hps hsq, fun b' hq agree => ?_⟩
  rw [run_bind_ok (hfirst' b' (Nat.le_trans hsq hq) (agree.mono (Nat.le_refl p) hsq))]
  exact hsecond' b' hq (agree.mono hps (Nat.le_refl q))

end SettledAt

namespace Settled

variable {r : Reader α}

theorem pure (a : α) : Settled (Pure.pure a : Reader α) :=
  fun b p => .pure b p a

theorem bind {next : α → Reader β} (h : Settled r) (hn : ∀ a, Settled (next a)) : Settled (r >>= next) :=
  fun b p => (h b p).bind fun a q _ => hn a b q

theorem map (h : Settled r) (f : α → β) : Settled (f <$> r) :=
  h.bind fun a => pure (f a)

theorem position : Settled Reader.position := by
  rintro b p _ _ ⟨⟩
  exact ⟨Nat.le_refl p, fun _ _ _ => rfl⟩

theorem check (answer : Except Fault α) : Settled (Reader.check answer) := by
  intro b p a q hr
  obtain ⟨rfl, rfl⟩ := of_check hr
  exact ⟨Nat.le_refl p, fun _ _ _ => rfl⟩

theorem require (condition : Prop) [Decidable condition] (e : Fault) : Settled (Reader.require condition e) :=
  check _

theorem bytes (length : Nat) : Settled (Reader.bytes length) := by
  intro b p xs q hr
  obtain ⟨rfl, hp⟩ := Takes.bytes length b p xs q hr
  refine ⟨Nat.le_add_right p length, fun b' hq agree => ?_⟩
  rw [run_bytes, if_pos hp] at hr
  rw [run_bytes, if_pos hq, ← agree.slice_eq (Nat.le_refl p) (Nat.le_refl _), hr]

theorem number (width : Nat) : Settled (Reader.number width) :=
  (bytes width).map _

theorem u16 : Settled Reader.u16 :=
  (number 2).map _

theorem u32 : Settled Reader.u32 :=
  (number 4).map _

theorem sixteen : Settled Reader.sixteen := by
  intro b p v q hr
  obtain ⟨rfl, hp⟩ := Takes.sixteen b p v q hr
  refine ⟨Nat.le_add_right p 16, fun b' hq agree => ?_⟩
  rw [Buffer.size] at hp hq
  rw [Reader.sixteen, dif_pos hp] at hr
  rw [Reader.sixteen, dif_pos hq, ← hr]
  simp only [agree.extract_eq (Nat.le_refl p) (Nat.le_refl _)]

theorem guid : Settled Reader.guid :=
  sixteen.map _

/-- Units are taken up to a zero unit, and with it. -/
theorem unitsToZero (b : Buffer) (p : Nat) : SettledAt b p Reader.unitsToZero := by
  rw [unitsToZero_eq]
  refine (u16 b p).bind fun u q hu => ?_
  have := bounds_of_u16 hu
  split
  · exact .pure b q []
  · exact (unitsToZero b q).bind fun rest r _ => .pure b r (u :: rest)
termination_by b.size - p
decreasing_by omega

/-- What units spell is told from the units. -/
theorem spell (start : Nat) (units : List UInt16) : Settled (Reader.spell start units) := by
  unfold Reader.spell
  split
  · exact pure _
  · exact check (.error _)

/-- A text of units is taken with the zero unit behind it. -/
theorem utf16 : Settled Reader.utf16 :=
  position.bind fun start => Settled.bind unitsToZero fun units => spell start units

end Settled

end ManagedSymbols.Reader
