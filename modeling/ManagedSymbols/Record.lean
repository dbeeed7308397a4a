import ManagedSymbols.Reader

/-!
# Records and their framing

A record is a 16-bit length, a 16-bit kind and a body; the length counts the kind and the body. A record lies in a range that
ends at a limit: `RecordHeader.frame` reads the framing at the cursor and refuses a record that leaves its range or is too short
to hold its kind. A procedure or a block also declares where the terminator of its own body stands; `RecordHeader.checkedEnd`
accepts only a terminator that lies behind the record and inside the range.
-/

namespace ManagedSymbols

/-- The framing of a record: its kind, its length, where it starts, and the position just behind it. -/
structure RecordHeader where
  kind : RecordKind
  length : UInt16
  offset : Nat
  stop : Nat
  deriving DecidableEq, Repr

/-- The size of a terminator: its length and its kind. -/
def terminatorSize : Nat := 4

namespace RecordHeader

/-- A record must be long enough for the fixed fields of its kind. -/
def fixedLayout (h : RecordHeader) : Except Fault Unit :=
  if h.length.toNat < h.kind.minimumLength then .error (.recordTooShort h.kind h.length h.offset) else .ok ()

/-- The terminator that a record declares must lie behind the record and end inside the range. -/
def checkedEnd (h : RecordHeader) (stop : UInt32) (limit : Nat) : Except Fault Nat :=
  if stop.toNat < h.stop then .error (.invalidJump h.kind stop.toNat h.offset)
  else if limit < stop.toNat + terminatorSize then .error (.endOutOfRange h.kind stop.toNat limit h.offset)
  else .ok stop.toNat

/-- The framing at the cursor, unchecked; the cursor stands behind the kind afterwards. -/
def read : Reader RecordHeader := do
  let offset ← Reader.position
  let length ← Reader.u16
  let stop ← Reader.fits ((← Reader.position) + length.toNat)
  let kind := RecordKind.ofCode (← Reader.u16)
  return { kind, length, offset, stop }

/-- A record must end inside its range and hold its kind. -/
def checkFrame (h : RecordHeader) (limit : Nat) : Except Fault Unit :=
  if limit < h.stop then .error (.recordOverrun h.kind h.stop limit h.offset)
  else if h.length < 2 then h.fixedLayout
  else .ok ()

/-- The framing of the record at the cursor in a range that ends at a limit. -/
def frame (limit : Nat) : Reader RecordHeader := do
  let h ← read
  Reader.check (h.checkFrame limit)
  return h

/-- The terminator that a procedure or a block declares, read from the front of its fields: it follows the link to the enclosing
record. -/
def declaredEnd (h : RecordHeader) (limit : Nat) : Reader Nat := do
  Reader.check h.fixedLayout
  let _parent ← Reader.u32
  let stop ← Reader.u32
  Reader.check (h.checkedEnd stop limit)

/-- A framing that is read starts at the cursor, and its length is counted from behind the length field. -/
theorem of_read {b : Buffer} {p q : Nat} {h : RecordHeader} (hr : read b p = (.ok h, q)) :
    h.offset = p ∧ h.stop = p + 2 + h.length.toNat ∧ q = p + 4 ∧ q ≤ b.size := by
  simp only [read, Reader.run_bind, Reader.position, Reader.run_u16, Reader.run_fits, Reader.run_pure] at hr
  by_cases h2 : p + 2 ≤ b.size
  · simp only [h2, if_true] at hr
    split at hr
    · next length q' hq =>
      split at hq
      · next hfit =>
        simp only [Prod.mk.injEq, Except.ok.injEq] at hq
        obtain ⟨rfl, rfl⟩ := hq
        by_cases h4 : p + 2 + 2 ≤ b.size
        · simp only [h4, if_true, Prod.mk.injEq, Except.ok.injEq] at hr
          obtain ⟨rfl, rfl⟩ := hr
          exact ⟨rfl, rfl, rfl, h4⟩
        · simp [h4] at hr
      · simp at hq
    · simp at hr
  · simp [h2] at hr

/-- A record that passes holds its kind and ends inside its range. -/
theorem of_checkFrame {h : RecordHeader} {limit : Nat} (hc : h.checkFrame limit = .ok ()) :
    2 ≤ h.length.toNat ∧ h.stop ≤ limit := by
  unfold checkFrame at hc
  split at hc
  · cases hc
  · split at hc
    · next hl =>
      unfold fixedLayout at hc
      have := h.kind.two_le_minimumLength
      have := UInt16.lt_iff_toNat_lt.mp hl
      rw [if_pos (by simp at this; omega)] at hc
      cases hc
    · next hl =>
      have : ¬ h.length.toNat < 2 := fun hlt => hl (UInt16.lt_iff_toNat_lt.mpr (by simpa using hlt))
      omega

/-- A framed record starts at the cursor, is at least four bytes long and ends inside its range. -/
theorem of_frame {b : Buffer} {p q limit : Nat} {h : RecordHeader} (hf : frame limit b p = (.ok h, q)) :
    h.offset = p ∧ h.stop = p + 2 + h.length.toNat ∧ 2 ≤ h.length.toNat ∧ h.stop ≤ limit ∧ q = p + 4 ∧ q ≤ b.size := by
  simp only [frame, Reader.run_bind, Reader.check] at hf
  split at hf
  · next x r hr =>
    split at hf
    · next hc =>
      simp only [Reader.run_pure, Prod.mk.injEq, Except.ok.injEq] at hf
      obtain ⟨rfl, rfl⟩ := hf
      have := of_read hr
      simp only [Prod.mk.injEq] at hc
      have := of_checkFrame hc.1
      omega
    · simp at hf
  · simp at hf

end RecordHeader

end ManagedSymbols
