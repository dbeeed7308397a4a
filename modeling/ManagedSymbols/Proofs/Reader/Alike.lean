import ManagedSymbols.Proofs.Buffer.Agreement

/-!
# Reads in buffers that are alike on a range

Two buffers are alike on a range if they hold the same bytes there and neither of them ends there in front of the other
(`Buffer.AlikeOn`). A read of fixed size that lies in the range does the same in both, whether it succeeds or finds too few bytes, and
a reader that is blind (`Reader.Blind`) does the same in any two buffers. Sequences do the same if their parts do
(`Reader.run_bind_congr`).
-/

namespace ManagedSymbols

/-- On a range two buffers hold the same bytes, and neither of them ends in front of the other. -/
structure Buffer.AlikeOn (b b' : Buffer) (lo hi : Nat) : Prop where
  agree : b.AgreeOn b' lo hi
  reach : ∀ n ≤ hi, n ≤ b.size ↔ n ≤ b'.size

namespace Buffer.AlikeOn

variable {b b' : Buffer} {lo hi p q : Nat}

theorem mono (alike : b.AlikeOn b' lo hi) (hlo : lo ≤ p) (hhi : q ≤ hi) : b.AlikeOn b' p q :=
  ⟨alike.agree.mono hlo hhi, fun n hn => alike.reach n (Nat.le_trans hn hhi)⟩

/-- Buffers that reach to the end of a range on which they agree are alike there. -/
theorem of_inside (agree : b.AgreeOn b' lo hi) (inside : hi ≤ b.size) (inside' : hi ≤ b'.size) : b.AlikeOn b' lo hi :=
  ⟨agree, fun _ hn => iff_of_true (Nat.le_trans hn inside) (Nat.le_trans hn inside')⟩

end Buffer.AlikeOn

namespace Reader

variable {α β : Type} {r : Reader α} {b b' : Buffer} {lo hi p : Nat}

/-- Sequences are the same in two buffers if their parts are. -/
theorem run_bind_congr {next : α → Reader β} (first : r b p = r b' p)
    (second : ∀ a q, r b p = (.ok a, q) → next a b q = next a b' q) : (r >>= next) b p = (r >>= next) b' p := by
  cases hr : r b p with
  | mk answer q =>
    rw [hr] at first
    cases answer with
    | ok a => rw [run_bind_ok hr, run_bind_ok first.symm, second a q hr]
    | error e => rw [run_bind_error hr, run_bind_error first.symm]

theorem run_map_congr (f : α → β) (same : r b p = r b' p) : (f <$> r) b p = (f <$> r) b' p := by
  rw [run_map, run_map, same]

/-- A number in the range is the same, or there are too few bytes for it in both buffers. -/
theorem run_number_congr {width : Nat} (alike : b.AlikeOn b' lo hi) (hlo : lo ≤ p) (hhi : p + width ≤ hi) :
    number width b p = number width b' p := by
  have hreach := alike.reach _ hhi
  rw [run_number, run_number, alike.agree.slice_eq hlo hhi]
  by_cases hroom : p + width ≤ b.size
  · rw [if_pos hroom, if_pos (hreach.mp hroom)]
  · rw [if_neg hroom, if_neg (mt hreach.mpr hroom)]

theorem run_u16_congr (alike : b.AlikeOn b' lo hi) (hlo : lo ≤ p) (hhi : p + 2 ≤ hi) : u16 b p = u16 b' p :=
  run_map_congr _ (run_number_congr alike hlo hhi)

theorem run_u32_congr (alike : b.AlikeOn b' lo hi) (hlo : lo ≤ p) (hhi : p + 4 ≤ hi) : u32 b p = u32 b' p :=
  run_map_congr _ (run_number_congr alike hlo hhi)

/-! ## Readers that do not look -/

/-- A reader that does not look at the buffer. -/
def Blind {α : Type} (r : Reader α) : Prop :=
  ∀ b b' p, r b p = r b' p

theorem Blind.pure (a : α) : Blind (Pure.pure a : Reader α) :=
  fun _ _ _ => rfl

theorem Blind.fits (n : Nat) : Blind (Reader.fits n) :=
  fun b b' p => by rw [run_fits, run_fits]

theorem Blind.bind {next : α → Reader β} (h : Blind r) (hn : ∀ a, Blind (next a)) : Blind (r >>= next) :=
  fun b b' p => run_bind_congr (h b b' p) fun a q _ => hn a b b' q

end Reader

end ManagedSymbols
