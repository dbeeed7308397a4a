import ManagedSymbols.Proofs.Reader.Success

/-!
# Reads that only need room

Some readers take so many bytes as the bytes themselves tell, and any bytes at all stand for a value. Such a reader succeeds exactly
where the buffer reaches that far, and its only fault is that the bytes end (`Reader.Sized`). Fixed fields, one behind the other, are
read in this way, and so is a counted row of them.
-/

namespace ManagedSymbols.Reader

variable {α β : Type}

/-- A reader that needs so many bytes as the bytes at the cursor tell. Where the buffer has them it gives the value that they stand
for and stops behind them, and elsewhere the bytes end. -/
def Sized (r : Reader α) (width : Buffer → Nat → Nat) (value : Buffer → Nat → α) : Prop :=
  ∀ b p, p ≤ b.size →
    if p + width b p ≤ b.size then r b p = (.ok (value b p), p + width b p) else ∃ q, r b p = (.error .outOfBounds, q)

namespace Sized

variable {r : Reader α} {width width' : Buffer → Nat → Nat} {value value' : Buffer → Nat → α}

/-- The same width and the same value, in other words. -/
theorem of_eq (h : Sized r width value) (hwidth : ∀ b p, width b p = width' b p) (hvalue : ∀ b p, value b p = value' b p) :
    Sized r width' value' := by
  have hw : width = width' := funext fun b => funext fun p => hwidth b p
  have hv : value = value' := funext fun b => funext fun p => hvalue b p
  rwa [hw, hv] at h

theorem pure (a : α) : Sized (pure a) (fun _ _ => 0) (fun _ _ => a) := by
  intro b p hp
  show if p ≤ b.size then _ else _
  rw [if_pos hp]
  rfl

theorem map (h : Sized r width value) (f : α → β) : Sized (f <$> r) width (fun b p => f (value b p)) := by
  intro b p hp
  have hr := h b p hp
  rw [run_map]
  split at hr
  · next hroom =>
    rw [if_pos hroom, hr]
    rfl
  · next hshort =>
    obtain ⟨q, hr⟩ := hr
    rw [if_neg hshort, hr]
    exact ⟨q, rfl⟩

/-- One reader behind the other needs the bytes of both. -/
theorem bind {next : α → Reader β} {nextWidth : α → Buffer → Nat → Nat} {nextValue : α → Buffer → Nat → β}
    (h : Sized r width value) (hn : ∀ a, Sized (next a) (nextWidth a) (nextValue a)) :
    Sized (r >>= next) (fun b p => width b p + nextWidth (value b p) b (p + width b p))
      (fun b p => nextValue (value b p) b (p + width b p)) := by
  intro b p hp
  have hfirst := h b p hp
  split at hfirst
  · next hroom =>
    have hsecond := hn (value b p) b (p + width b p) hroom
    rw [run_bind_ok hfirst, ← Nat.add_assoc]
    exact hsecond
  · next hshort =>
    obtain ⟨q, hfirst⟩ := hfirst
    dsimp only
    rw [if_neg (by omega)]
    exact ⟨q, run_bind_error hfirst next⟩

theorem u32 : Sized Reader.u32 (fun _ _ => 4) Buffer.word32 := by
  intro b p _
  rw [run_u32]
  split
  · rfl
  · exact ⟨p, rfl⟩

/-- So many things of one width need as many times that width. -/
theorem times {size : Nat} (h : Sized r (fun _ _ => size) value) (n : Nat) :
    Sized (Reader.times n r) (fun _ _ => size * n) (fun b p => (List.range n).map fun i => value b (p + size * i)) := by
  induction n with
  | zero => exact pure []
  | succ n ih =>
    have hstep := h.bind fun a => ih.bind fun rest => pure (a :: rest)
    refine hstep.of_eq (fun _ _ => ?_) fun b p => ?_
    · rw [Nat.add_zero, Nat.mul_succ, Nat.add_comm]
    · rw [List.range_succ_eq_map, List.map_cons, List.map_map, Nat.mul_zero, Nat.add_zero]
      congr 1
      refine List.map_congr_left fun i _ => ?_
      rw [Function.comp_apply, Nat.mul_succ, Nat.add_comm (size * i), Nat.add_assoc]

end Sized

end ManagedSymbols.Reader
