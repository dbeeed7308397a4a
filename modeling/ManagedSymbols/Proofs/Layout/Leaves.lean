import ManagedSymbols.Proofs.Layout.Locals
import ManagedSymbols.Proofs.Reader.Sound

/-!
# Values are read from their stored forms and from nothing else

What is read as a value is one of the stored forms of that value (`NumericLeaf.read_sound`), since the tag tells one reader and each
of these readers takes the content behind the tag as it is stored. With the other direction, a value is read from exactly its stored
forms, whatever stands around them, and so are the constants that hold it (`Constant.read_encoded`). A tag that tells no value is
refused.
-/

namespace ManagedSymbols

open Reader

theorem Reader.Sound.real32 : Sound Reader.real32 fun r xs => xs = Layout.word32 r.bits :=
  Sound.u32.map Real32.mk fun _ _ h => h

theorem Reader.Sound.real64 : Sound Reader.real64 fun r xs => xs = Layout.word64 r.bits :=
  Sound.u64.map Real64.mk fun _ _ h => h

namespace NumericLeaf

/-- A value of the form that a tag tells, and its bytes behind the tag. -/
def ContentForm (tag : UInt16) (v : NumericLeaf) (xs : List UInt8) : Prop :=
  v.tag = tag ∧ v.Storable ∧ xs = v.content

/-- The string of a leaf is taken from its length and its bytes. -/
theorem readString_sound (offset : Nat) : Sound (readString offset) (ContentForm 0x8010) := by
  intro b p v q h
  obtain ⟨length, s, hlength, h⟩ := exists_of_bind h
  obtain ⟨_, t, hfound, h⟩ := exists_of_bind h
  obtain ⟨_, rfl, hword, rfl⟩ := Sound.u16 b p length s hlength
  obtain ⟨found, ⟨rfl, hfew⟩, hbytes, rfl⟩ := Sound.bytes _ b _ _ t hfound
  cases hcs : Utf8.decode found with
  | error fault =>
    rw [hcs] at h
    cases h
  | ok cs =>
    rw [hcs] at h
    obtain ⟨rfl, rfl⟩ := of_pure h
    have hencode : Utf8.encode (String.ofList cs).toList = found := by rw [String.toList_ofList, Utf8.encode_of_decode hcs]
    have hsize : UInt16.ofNat found.length = length := by rw [hfew, UInt16.ofNat_toNat]
    have hcontent : (string (String.ofList cs)).content = Layout.word16 length ++ found := by
      simp only [content, hencode, hsize]
    have hstorable : (string (String.ofList cs)).Storable := by
      show (Utf8.encode (String.ofList cs).toList).length < 2 ^ 16
      rw [hencode, hfew]
      exact length.toNat_lt
    exact ⟨_, ⟨rfl, hstorable, hcontent.symm⟩, hword.append hbytes, by rw [List.length_append, Nat.add_assoc]⟩

/-- The content of a value is taken from its stored form, and the value is of the form that the tag tells. -/
theorem readTagged_sound (offset : Nat) (tag : UInt16) : Sound (readTagged offset tag) (ContentForm tag) := by
  unfold readTagged
  split
  · exact Sound.i8.map char fun _ _ h => ⟨rfl, trivial, h⟩
  · exact Sound.i16.map short fun _ _ h => ⟨rfl, trivial, h⟩
  · exact Sound.u16.map ushort fun _ _ h => ⟨rfl, trivial, h⟩
  · exact Sound.i32.map long fun _ _ h => ⟨rfl, trivial, h⟩
  · exact Sound.u32.map ulong fun _ _ h => ⟨rfl, trivial, h⟩
  · exact Sound.real32.map real32 fun _ _ h => ⟨rfl, trivial, h⟩
  · exact Sound.real64.map real64 fun _ _ h => ⟨rfl, trivial, h⟩
  · exact Sound.i64.map quadWord fun _ _ h => ⟨rfl, trivial, h⟩
  · exact Sound.u64.map uquadWord fun _ _ h => ⟨rfl, trivial, h⟩
  · exact readString_sound offset
  · exact Sound.sixteen.map decimal fun _ _ h => ⟨rfl, trivial, h⟩
  · exact Sound.fail _

/-- What is read as a value is one of its stored forms. -/
theorem read_sound : Sound read Stored := by
  intro b p v q h
  obtain ⟨offset, s, hoffset, h⟩ := exists_of_bind h
  cases hoffset
  obtain ⟨tag, s, htag, h⟩ := exists_of_bind h
  obtain ⟨_, rfl, hword, rfl⟩ := Sound.u16 b p tag s htag
  split at h
  · next hsmall =>
    obtain ⟨rfl, rfl⟩ := of_pure h
    exact ⟨_, .plain hsmall, hword, rfl⟩
  · obtain ⟨_, ⟨rfl, storable, rfl⟩, hcontent, rfl⟩ := readTagged_sound p tag b _ v q h
    exact ⟨_, .tagged storable, hword.append hcontent, by rw [tagged, List.length_append, Nat.add_assoc]⟩

/-- A value is read from exactly its stored forms, and the cursor is left behind the bytes of the form. -/
theorem read_eq_ok_iff {b : Buffer} {p q : Nat} {v : NumericLeaf} :
    read b p = (.ok v, q) ↔ ∃ xs, v.Stored xs ∧ b.Holds p xs ∧ q = p + xs.length := by
  constructor
  · exact read_sound b p v q
  · rintro ⟨xs, stored, held, rfl⟩
    exact reads_of_stored p stored b held

/-- The tags of the eleven forms. -/
def tags : List UInt16 :=
  [0x8000, 0x8001, 0x8002, 0x8003, 0x8004, 0x8005, 0x8006, 0x8009, 0x800A, 0x8010, 0x8019]

/-- Behind any other tag no content is looked for. -/
theorem readTagged_of_notMem {tag : UInt16} (h : tag ∉ tags) (offset : Nat) :
    readTagged offset tag = Reader.fail (.malformed (.leafTag tag offset)) := by
  unfold readTagged
  split
  iterate 11 exact absurd (by decide) h
  rfl

/-- A tag of none of the forms is refused where it stands. -/
theorem read_of_notMem {b : Buffer} {p : Nat} {tag : UInt16} (hlarge : 0x8000 ≤ tag) (h : tag ∉ tags)
    (hb : b.Holds p (Layout.word16 tag)) : read b p = (.error (.malformed (.leafTag tag p)), p + 2) := by
  have htag : Reader.u16 b p = (.ok tag, p + 2) := Reads.u16 p tag b hb
  rw [read, run_bind_ok (show Reader.position b p = (.ok p, p) from rfl), run_bind_ok htag, if_neg (UInt16.not_lt.mpr hlarge),
    readTagged_of_notMem h, Reader.fail]

end NumericLeaf

namespace Constant

/-- A constant whose value can be stored is read from its token, its value with the tag and its name up to the zero byte, and one that
holds a word below `0x8000` also from the word alone. A value that is read has been taken from one of its stored forms, and a tag of
none of the forms is refused. -/
theorem read_encoded (b : Buffer) (p : Nat) :
    (∀ c : Constant, c.value.Storable → Layout.NulFree c.name → b.Holds p (c.storedWith c.value.tagged) →
      read b p = (.ok c, p + (c.storedWith c.value.tagged).length)) ∧
    (∀ (c : Constant) (n : UInt16), c.value = .ushort n → n < 0x8000 → Layout.NulFree c.name →
      b.Holds p (c.storedWith (Layout.word16 n)) → read b p = (.ok c, p + (c.storedWith (Layout.word16 n)).length)) ∧
    (∀ (v : NumericLeaf) (q : Nat), NumericLeaf.read b p = (.ok v, q) ↔
      ∃ xs, v.Stored xs ∧ b.Holds p xs ∧ q = p + xs.length) ∧
    (∀ tag : UInt16, 0x8000 ≤ tag → tag ∉ NumericLeaf.tags → b.Holds p (Layout.word16 tag) →
      NumericLeaf.read b p = (.error (.malformed (.leafTag tag p)), p + 2)) := by
  refine ⟨?_, ?_, ?_, ?_⟩
  · intro c storable nulFree held
    exact reads p (.tagged storable) nulFree b held
  · intro c n hvalue small nulFree held
    have hstored : c.value.Stored (Layout.word16 n) := by
      rw [hvalue]
      exact .plain small
    exact reads p hstored nulFree b held
  · intro v q
    exact NumericLeaf.read_eq_ok_iff
  · intro tag hlarge unknown held
    exact NumericLeaf.read_of_notMem hlarge unknown held

/-- A constant with a string whose character takes two bytes. -/
def sampleText : Constant := ⟨⟨7⟩, .string "é", "t"⟩

/-- A constant with a word below `0x8000`. -/
def sampleWord : Constant := ⟨⟨9⟩, .ushort 5, "w"⟩

/-- The two constants behind a byte, the word without its tag, and behind them a tag of no form. -/
def sampleLeaves : Buffer where
  bytes := ([0xEE] ++ sampleText.storedWith sampleText.value.tagged ++ sampleWord.storedWith (Layout.word16 5) ++
    Layout.word16 0x8007).toArray
  size_lt := by decide +kernel

/-- Each of the constants is read with the cursor behind its name, the string from its tagged form, and the tag is refused. -/
theorem read_encoded_sampleLeaves :
    read sampleLeaves 1 = (.ok sampleText, 13) ∧ read sampleLeaves 13 = (.ok sampleWord, 21) ∧
      (∃ xs, sampleText.value.Stored xs ∧ sampleLeaves.Holds 5 xs ∧ 11 = 5 + xs.length) ∧
      NumericLeaf.read sampleLeaves 21 = (.error (.malformed (.leafTag 0x8007 21)), 23) := by
  have hstorable : sampleText.value.Storable := by
    show (Utf8.encode "é".toList).length < 2 ^ 16
    decide
  have htext : sampleLeaves.Holds 1 (sampleText.storedWith sampleText.value.tagged) :=
    ⟨[0xEE], sampleWord.storedWith (Layout.word16 5) ++ Layout.word16 0x8007, rfl, rfl⟩
  have hword : sampleLeaves.Holds 13 (sampleWord.storedWith (Layout.word16 5)) :=
    ⟨[0xEE] ++ sampleText.storedWith sampleText.value.tagged, Layout.word16 0x8007, rfl, rfl⟩
  have htag : sampleLeaves.Holds 21 (Layout.word16 0x8007) :=
    ⟨[0xEE] ++ sampleText.storedWith sampleText.value.tagged ++ sampleWord.storedWith (Layout.word16 5), [], rfl, rfl⟩
  have hleaf : NumericLeaf.read sampleLeaves 5 = (.ok sampleText.value, 11) :=
    NumericLeaf.reads_of_stored 5 (.tagged hstorable) sampleLeaves htext.left.right
  refine ⟨?_, ?_, ?_, ?_⟩
  · exact (read_encoded sampleLeaves 1).1 sampleText hstorable (by decide) htext
  · exact (read_encoded sampleLeaves 13).2.1 sampleWord 5 rfl (by decide) (by decide) hword
  · exact ((read_encoded sampleLeaves 5).2.2.1 sampleText.value 11).mp hleaf
  · exact (read_encoded sampleLeaves 21).2.2.2 0x8007 (by decide) (by decide) htag

end Constant

end ManagedSymbols
