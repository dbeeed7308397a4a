import ManagedSymbols.Proofs.Reader.Held
import ManagedSymbols.Proofs.Text.Utf16
import ManagedSymbols.Proofs.Text.Utf8
import ManagedSymbols.Reader.Text

/-!
# Reading texts where they are stored

What a text reader does on any bytes (`run_utf8`, `run_skipUtf8`), and the three stored forms of a text read back: behind a zero
byte, behind a zero unit, and in a field that zero units fill up.
-/

namespace ManagedSymbols.Reader

/-- The cursor is left behind the zero byte of a text, or at the end of the buffer. -/
theorem run_leaveText {b : Buffer} {stop : Nat} (h : stop ≤ b.size) (p : Nat) :
    leaveText stop b p = (.ok (), min (stop + 1) b.size) := by
  have hb := b.size_lt
  simp only [Buffer.size] at h
  simp only [leaveText, run_bind, run_fits]
  rw [if_pos (by omega)]
  rfl

/-- A text ends at the next zero byte or with the buffer, and the cursor is left behind it whatever its bytes spell. -/
theorem run_utf8 {b : Buffer} {p : Nat} (h : p ≤ b.size) :
    utf8 b p =
      ((Utf8.decode (b.slice p (b.zeroFrom p))).mapError (fun f => .malformed (.utf8Text p (b.zeroFrom p) f)) |>.map
        String.ofList, min (b.zeroFrom p + 1) b.size) := by
  have hle := b.zeroFrom_le p
  simp only [utf8, run_bind, position, textEnd, slice]
  rw [if_pos ⟨Buffer.le_zeroFrom h, hle⟩]
  simp only [run_leaveText hle]
  cases Utf8.decode (b.slice p (b.zeroFrom p)) <;> rfl

/-- A text that is stepped over leaves the cursor where the text that is read does. -/
theorem run_skipUtf8 (b : Buffer) (p : Nat) : skipUtf8 b p = (.ok (), min (b.zeroFrom p + 1) b.size) := by
  simp only [skipUtf8, run_bind, textEnd, run_leaveText (b.zeroFrom_le p)]

/-- Units up to a zero unit: the first one, and the others behind it unless it is the zero unit. -/
theorem unitsToZero_eq : unitsToZero = (show Reader (List UInt16) from do
    let u ← u16
    if u = 0 then return [] else (u :: ·) <$> (show Reader (List UInt16) from unitsToZero)) := by
  funext b p
  rw [unitsToZero]
  split
  · next u q h =>
    refine Eq.trans ?_ (run_bind_ok h _).symm
    split
    · rfl
    · refine Eq.trans ?_ (run_map (u :: ·) unitsToZero b q).symm
      cases hrest : unitsToZero b q with
      | mk answer r => cases answer <;> rfl
  · next e q h => exact (run_bind_error h _).symm

/-- Units up to a zero unit, whose first one has been read. -/
theorem unitsToZero_of_u16 {b : Buffer} {p q : Nat} {u : UInt16} (h : u16 b p = (.ok u, q)) :
    unitsToZero b p =
      if u = 0 then (.ok [], q)
      else
        match unitsToZero b q with
        | (.ok rest, r) => (.ok (u :: rest), r)
        | (.error e, r) => (.error e, r) := by
  rw [unitsToZero]
  split
  · next v r hv =>
    rw [h] at hv
    cases hv
    rfl
  · next e r hv => rw [h] at hv; cases hv

/-- Units up to a zero unit are read with it. -/
theorem unitsToZero_reads (p : Nat) {us : List UInt16} (hz : 0 ∉ us) :
    Reads p unitsToZero (Layout.units (us ++ [0])) us := by
  intro b hb
  induction us generalizing p with
  | nil =>
    have hu : u16 b p = (.ok 0, p + 2) := Reads.u16 p 0 b hb
    rw [unitsToZero_of_u16 hu, if_pos rfl]
    rfl
  | cons u us ih =>
    simp only [List.mem_cons, not_or] at hz
    rw [List.cons_append, Layout.units, List.flatMap_cons] at hb
    have hu : u16 b p = (.ok u, p + 2) := Reads.u16 p u b hb.left
    have htail := ih (p + 2) hz.2 hb.right
    rw [unitsToZero_of_u16 hu, if_neg (fun he => hz.1 he.symm), htail]
    simp only [Layout.units, List.cons_append, List.flatMap_cons, List.length_append, Layout.length_word16, Nat.add_assoc]

/-- The units of stored units are those units. -/
theorem unitsOfBytes_units (us : List UInt16) : unitsOfBytes (Layout.units us) = us := by
  induction us with
  | nil => rfl
  | cons u us ih =>
    have hv : LittleEndian.value (LittleEndian.bytes 2 u.toNat) = u.toNat := LittleEndian.value_bytes u.toNat_lt
    rw [Layout.units, List.flatMap_cons, Layout.word16]
    simp only [LittleEndian.bytes, List.cons_append, List.nil_append] at hv ⊢
    rw [unitsOfBytes, hv, UInt16.ofNat_toNat]
    exact congrArg (u :: ·) ih

theorem length_units (us : List UInt16) : (Layout.units us).length = 2 * us.length := by
  induction us with
  | nil => rfl
  | cons u us ih =>
    rw [Layout.units] at ih
    rw [Layout.units, List.flatMap_cons, List.length_append, Layout.length_word16, ih, List.length_cons]
    omega

/-- The units of a text spell it. -/
theorem spell_encode (start : Nat) (s : String) : spell start (Utf16.encode s.toList) = pure s := by
  rw [spell, Utf16.decode?_encode]
  simp only [String.ofList_toList]

namespace Reads

/-- A UTF-8 text is read where it is stored. -/
theorem utf8 (p : Nat) {s : String} (h : Layout.NulFree s) : Reads p Reader.utf8 (Layout.utf8 s) s := by
  intro b hb
  have hz : 0 ∉ Utf8.encode s.toList := by
    intro hm
    obtain ⟨c, hc, hx⟩ := List.mem_flatMap.mp hm
    exact Utf8.zero_notMem_encodeChar (fun he => h (he ▸ hc)) hx
  have hle := hb.le_size
  have hstop := hb.zeroFrom_eq hz
  have hs := hb.left.slice_eq
  simp only [Layout.utf8, List.length_append, List.length_singleton] at hle ⊢
  rw [run_utf8 (by omega), hstop, hs, Utf8.decode_encode]
  show (Except.ok (String.ofList s.toList), _) = _
  rw [String.ofList_toList, Prod.mk.injEq]
  exact ⟨rfl, by omega⟩

/-- A UTF-8 text is stepped over where it is stored. -/
theorem skipUtf8 (p : Nat) {s : String} (h : Layout.NulFree s) : Reads p Reader.skipUtf8 (Layout.utf8 s) () := by
  intro b hb
  have hle := hb.le_size
  have hu := utf8 p h b hb
  rw [run_utf8 (by omega), Prod.mk.injEq] at hu
  rw [run_skipUtf8, hu.2]

/-- A UTF-16 text is read where it is stored. -/
theorem utf16 (p : Nat) {s : String} (h : Layout.NulFree s) : Reads p Reader.utf16 (Layout.utf16 s) s := by
  refine (position p).bind_nil ?_
  intro b hb
  have hu := unitsToZero_reads p (Utf16.zero_notMem_encode h) b hb
  rw [run_bind_ok hu, spell_encode, run_pure]
  rfl

/-- A UTF-16 text is read in its field, which is consumed whole: the text ends in front of a zero unit or with the field. -/
theorem fixedUtf16 (p : Nat) {s : String} {behind : List UInt16} {width : Nat} (h : Layout.NulFree s)
    (ended : ∀ u ∈ behind.head?, u = 0) (hw : (Utf16.encode s.toList).length + behind.length = width) :
    Reads p (Reader.fixedUtf16 width) (Layout.units (Utf16.encode s.toList ++ behind)) s := by
  have hz := Utf16.zero_notMem_encode h
  have htake : (Utf16.encode s.toList ++ behind).takeWhile (· ≠ 0) = Utf16.encode s.toList := by
    rw [List.takeWhile_append_of_pos]
    · cases behind with
      | nil => rw [List.takeWhile_nil, List.append_nil]
      | cons u _ => simp [ended u rfl]
    · intro u hu
      simp only [decide_eq_true_eq]
      exact fun he => hz (he ▸ hu)
  have hlen : (Layout.units (Utf16.encode s.toList ++ behind)).length = 2 * width := by
    rw [length_units, List.length_append, hw]
  intro b hb
  have hf := bytes p hlen b hb
  simp only [Reader.fixedUtf16, run_bind, Reader.position, hf]
  rw [unitsOfBytes_units, htake, spell_encode, run_pure]

end Reads

end ManagedSymbols.Reader
