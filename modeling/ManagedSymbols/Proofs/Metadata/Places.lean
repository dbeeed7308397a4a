import Mathlib.Order.Bounds.Basic
import ManagedSymbols.Proofs.Buffer.Agreement
import ManagedSymbols.Proofs.Layout.Metadata
import ManagedSymbols.Proofs.Reader.Alignment

/-!
# Where the items of a blob stand

The sizes in the headers alone say where the items of a blob stand (`MetadataItem.ItemPlaces`): the first one at the next boundary
behind the blob's own header, and each further one where the size of the one in front of it puts its end. An item is what is read at
its place alone, whether the reader of its content stops in front of that end, at it, or behind it in the next item
(`MetadataItem.read_eq_ok_iff`). So a blob is read exactly if such places exist in the buffer (`MetadataItem.readBlob_places`).
-/

namespace ManagedSymbols.MetadataItem

open Reader

variable {b b' : Buffer} {start stop p q : Nat} {item : MetadataItem} {items : List MetadataItem} {s : Nat → Nat}

/-- How long the item at a position says it is, its header included. -/
def declaredSize (b : Buffer) (p : Nat) : Nat :=
  (b.word32 (p + 4)).toNat

/-- The content of the item at a position, as its header says it is to be read. -/
def contentAt (b : Buffer) (p : Nat) : Reader MetadataItem :=
  readVersioned (MetadataKind.ofCode (b.word8 (p + 1))) (b.word8 p) (b.word32 (p + 4))

/-- The size of the header is a number of bytes. -/
theorem itemHeaderSize_le : itemHeaderSize ≤ b.word32 (p + 4) ↔ 8 ≤ declaredSize b p :=
  UInt32.le_iff_toNat_le

/-- An item is read exactly if its size covers its header and lies in the buffer, and its content is read. Wherever the reader of
the content stops, the cursor is left where the size says. -/
theorem read_eq_ok_iff : read b p = (.ok item, q) ↔
    8 ≤ declaredSize b p ∧ q = p + declaredSize b p ∧ q ≤ b.size ∧ ∃ r, contentAt b p b (p + 8) = (.ok item, r) := by
  rw [← itemHeaderSize_le]
  constructor
  · intro h
    obtain ⟨_, _, hposition, h⟩ := exists_of_bind h
    cases hposition
    obtain ⟨_, _, hversion, h⟩ := exists_of_bind h
    obtain ⟨rfl, rfl, _⟩ := of_u8 hversion
    obtain ⟨_, _, hkind, h⟩ := exists_of_bind h
    obtain ⟨_, hcode, rfl⟩ := exists_of_map hkind
    obtain ⟨rfl, rfl, _⟩ := of_u8 hcode
    obtain ⟨_, _, hfree, h⟩ := exists_of_bind h
    obtain ⟨rfl, _⟩ := of_advance hfree
    obtain ⟨_, _, hlength, h⟩ := exists_of_bind h
    obtain ⟨rfl, rfl, _⟩ := of_u32 hlength
    obtain ⟨_, _, hheader, h⟩ := exists_of_bind h
    obtain ⟨hcovers, rfl⟩ := of_require hheader
    obtain ⟨_, _, hsize, h⟩ := exists_of_bind h
    cases hsize
    obtain ⟨_, _, hroom, h⟩ := exists_of_bind h
    obtain ⟨hinside, rfl⟩ := of_require hroom
    obtain ⟨found, r, hcontent, h⟩ := exists_of_bind h
    obtain ⟨_, _, hseek, h⟩ := exists_of_bind h
    obtain ⟨_, rfl⟩ := of_seek hseek
    obtain ⟨rfl, rfl⟩ := of_pure h
    exact ⟨hcovers, rfl, hinside, r, hcontent⟩
  · rintro ⟨hcovers, rfl, hinside, r, hcontent⟩
    have hheader := itemHeaderSize_le.mp hcovers
    have hversion : u8 b p = (.ok (b.word8 p), p + 1) := run_u8_word (by omega)
    have hcode : u8 b (p + 1) = (.ok (b.word8 (p + 1)), p + 2) := run_u8_word (by omega)
    have hfree : advance 2 b (p + 2) = (.ok (), p + 4) := by rw [run_advance, if_pos (by omega)]
    have hlength : u32 b (p + 4) = (.ok (b.word32 (p + 4)), p + 8) := run_u32_word (by omega)
    rw [declaredSize] at hinside
    rw [contentAt] at hcontent
    simp only [read, run_bind, position, run_map, hversion, hcode, Except.map, hfree, hlength, run_require, if_pos hcovers, size,
      if_pos hinside, hcontent, run_seek, run_pure]
    rfl

/-- An item of a version or of a kind that is not understood has a content that is not looked at. -/
theorem contentAt_of_foreign (foreign : b.word8 p ≠ metadataVersion ∨ 5 < b.word8 (p + 1)) :
    contentAt b p = pure (skipped (MetadataKind.ofCode (b.word8 (p + 1))) (b.word8 p) (b.word32 (p + 4))) := by
  rw [contentAt, readVersioned]
  split
  · next hversion => exact readContent_of_foreign (foreign.resolve_left fun hne => hne hversion) _ _
  · rfl

/-- An item of a version or of a kind that is not understood is skipped: only its header is kept, whatever stands behind it. -/
theorem read_of_foreign (foreign : b.word8 p ≠ metadataVersion ∨ 5 < b.word8 (p + 1)) (covers : 8 ≤ declaredSize b p)
    (room : p + declaredSize b p ≤ b'.size) (header : b.AgreeOn b' p (p + 8)) :
    read b' p =
      (.ok (skipped (MetadataKind.ofCode (b.word8 (p + 1))) (b.word8 p) (b.word32 (p + 4))), p + declaredSize b p) := by
  have hversion : b.word8 p = b'.word8 p := header.word8_eq (Nat.le_refl p) (by omega)
  have hcode : b.word8 (p + 1) = b'.word8 (p + 1) := header.word8_eq (by omega) (by omega)
  have hlength : b.word32 (p + 4) = b'.word32 (p + 4) := header.word32_eq (by omega) (by omega)
  rw [declaredSize, hlength] at covers room ⊢
  rw [hversion, hcode] at foreign ⊢
  refine read_eq_ok_iff.mpr ⟨covers, rfl, room, p + 8, ?_⟩
  rw [contentAt_of_foreign foreign, run_pure]

/-- Where the items of a blob stand: one at each of the first places, and the end of the blob at the last one. -/
structure ItemPlaces (b : Buffer) (start : Nat) (items : List MetadataItem) (stop : Nat) (s : Nat → Nat) : Prop where
  /-- The first place is the next boundary behind the version and the count of the blob. -/
  first : IsLeast {m | itemAlignment ∣ m ∧ start + 2 ≤ m} (s 0)
  /-- There are as many items as the blob counts. -/
  count : items.length = (b.word8 (start + 1)).toNat
  /-- Each further place is told from the size in the header at the one in front of it. -/
  sizes : ∀ i < items.length, 8 ≤ declaredSize b (s i) ∧ s (i + 1) = s i + declaredSize b (s i)
  last : s items.length = stop
  inside : stop ≤ b.size
  /-- Each item is what is read at its place, whatever was read in front of it. -/
  alone : ∀ i (hi : i < items.length), read b (s i) = (.ok items[i], s (i + 1))

/-- No place is in front of the first one. -/
theorem ItemPlaces.first_le (places : ItemPlaces b start items stop s) (i : Nat) (hi : i ≤ items.length) : s 0 ≤ s i := by
  induction i with
  | zero => exact Nat.le_refl _
  | succ i ih =>
    have hnext := (places.sizes i hi).2
    exact Nat.le_trans (ih (Nat.le_of_lt hi)) (by omega)

/-- The items of a blob that is understood are read one by one from the next boundary behind the version and the count on. -/
theorem readBlob_eq (understood : b.word8 start = metadataVersion) (header : start + 2 ≤ b.size) :
    readBlob b start = (align itemAlignment >>= fun _ => times (b.word8 (start + 1)).toNat read) b (start + 2) := by
  have hversion : u8 b start = (.ok (b.word8 start), start + 1) := run_u8_word (by omega)
  have hcount : u8 b (start + 1) = (.ok (b.word8 (start + 1)), start + 2) := run_u8_word header
  rw [readBlob, run_bind_ok hversion, if_pos understood, run_bind_ok hcount]

/-- A blob that is read has its version and its count in the buffer. -/
theorem header_of_readBlob (understood : b.word8 start = metadataVersion) (h : readBlob b start = (.ok items, stop)) :
    start + 2 ≤ b.size := by
  obtain ⟨_, _, hversion, h⟩ := exists_of_bind h
  obtain ⟨rfl, rfl, _⟩ := of_u8 hversion
  rw [if_pos understood] at h
  obtain ⟨_, _, hcount, _⟩ := exists_of_bind h
  obtain ⟨_, rfl, hle⟩ := of_u8 hcount
  exact hle

/-- The items of a blob that is read have their places. -/
theorem exists_places (understood : b.word8 start = metadataVersion) (h : readBlob b start = (.ok items, stop)) :
    ∃ s, ItemPlaces b start items stop s := by
  have hheader := header_of_readBlob understood h
  rw [readBlob_eq understood hheader] at h
  obtain ⟨_, _, halign, h⟩ := exists_of_bind h
  rw [run_align (by decide) (by decide) hheader] at halign
  split at halign
  · next hroom =>
    cases halign
    obtain ⟨hcount, s, hfirst, rfl, heach⟩ := times_eq_ok_iff.mp h
    have hitem (i : Nat) (hi : i < items.length) := read_eq_ok_iff.mp (heach i hi)
    refine ⟨s, hfirst ▸ Layout.isLeast_gap (by decide) _, hcount, fun i hi => ⟨(hitem i hi).1, (hitem i hi).2.1⟩,
      by rw [hcount], ?_, heach⟩
    -- The end of the blob is the end of its last item, or the boundary if there is none.
    cases hn : (b.word8 (start + 1)).toNat with
    | zero => exact hfirst ▸ hroom
    | succ n => exact (hitem n (by omega)).2.2.1
  · cases halign

/-- A blob whose items have their places is read. -/
theorem readBlob_of_places (understood : b.word8 start = metadataVersion) (places : ItemPlaces b start items stop s) :
    readBlob b start = (.ok items, stop) := by
  have hfirst : s 0 = start + 2 + Layout.gap itemAlignment (start + 2) :=
    places.first.unique (Layout.isLeast_gap (by decide) _)
  have hroom : s 0 ≤ b.size := by
    have hle := places.first_le items.length (Nat.le_refl _)
    rw [places.last] at hle
    exact Nat.le_trans hle places.inside
  have hheader : start + 2 ≤ b.size := by omega
  have hnonzero : itemAlignment ≠ 0 := by decide
  have halign := run_align hnonzero (by decide) hheader
  rw [← hfirst, if_pos hroom] at halign
  rw [readBlob_eq understood hheader, run_bind_ok halign]
  exact times_eq_ok_iff.mpr ⟨places.count, s, rfl, by rw [← places.count, places.last], places.alone⟩

/-- A blob that is understood is read exactly if its items have their places, and then they are those that are read at these places,
each by itself. An item of a version or of a kind that is not understood is told from its header, whatever stands behind that. -/
theorem readBlob_places (b : Buffer) :
    (∀ start items stop, b.word8 start = metadataVersion →
      (readBlob b start = (.ok items, stop) ↔ ∃ s, ItemPlaces b start items stop s)) ∧
    ∀ p, b.word8 p ≠ metadataVersion ∨ 5 < b.word8 (p + 1) → 8 ≤ declaredSize b p →
      ∀ b' : Buffer, p + declaredSize b p ≤ b'.size → b.AgreeOn b' p (p + 8) →
        read b' p =
          (.ok (skipped (MetadataKind.ofCode (b.word8 (p + 1))) (b.word8 p) (b.word32 (p + 4))), p + declaredSize b p) := by
  constructor
  · intro start items stop understood
    exact ⟨exists_places understood, fun ⟨_, places⟩ => readBlob_of_places understood places⟩
  · intro p foreign covers b'
    exact read_of_foreign foreign covers

/-- A blob behind three bytes, by its last byte. The text of the first item goes on into the header of the second one, and the
third item is of a later version. -/
def overrunning (last : UInt8) : Buffer where
  bytes := ([8, 8, 8] ++ [4, 3] ++ [0, 0, 0] ++ [4, 4, 0, 0, 10, 0, 0, 0] ++ [65, 0] ++ [4, 1, 0, 0, 12, 0, 0, 0] ++ [7, 0, 0, 0] ++
    [5, 0, 0, 0, 9, 0, 0, 0] ++ [last]).toArray
  size_lt := by
    show 39 < _
    decide

/-- The items of that blob, in order. -/
def overrunningItems : List MetadataItem :=
  [.forwardIterator "AĄ", .forwardInfo ⟨7⟩, .skipped .usingInfo 5 9]

/-- Where the items of that blob stand, and where it ends. -/
def overrunningPlaces (i : Nat) : Nat :=
  [8, 18, 30].getD i 39

/-- A text that runs into the next item moves no item, and the last byte is not looked at. -/
theorem readBlob_places_sample : (overrunning 1).word8 3 = metadataVersion ∧
    readBlob (overrunning 1) 3 = (.ok overrunningItems, 39) ∧
    read (overrunning 2) 30 = (.ok (.skipped .usingInfo 5 9), 39) := by
  have hversion : (overrunning 1).word8 3 = metadataVersion := by decide
  obtain ⟨hplaces, hskipped⟩ := readBlob_places (overrunning 1)
  have hskip : read (overrunning 2) 30 = (.ok (.skipped .usingInfo 5 9), 39) :=
    hskipped 30 (.inl (by decide)) (by decide) (overrunning 2) (by decide) (by decide)
  refine ⟨hversion, (hplaces _ _ _ hversion).mpr ⟨overrunningPlaces, ?_⟩, hskip⟩
  refine ⟨Layout.isLeast_gap (by decide) 5, rfl, by decide, rfl, by decide, ?_⟩
  rintro (_ | _ | _ | i) hi
  · have hheld : (overrunning 1).Holds 16 (Layout.utf16 "AĄ") :=
      ⟨(overrunning 1).toList.take 16, (overrunning 1).toList.drop 22, by decide, by decide⟩
    have htext := (Reads.utf16 16 (s := "AĄ") (by decide)).map forwardIterator _ hheld
    exact read_eq_ok_iff.mpr ⟨by decide, rfl, by decide, _, htext⟩
  · rfl
  · rfl
  · exact absurd hi (Nat.not_lt_of_le (Nat.le_add_left 3 i))

end ManagedSymbols.MetadataItem
