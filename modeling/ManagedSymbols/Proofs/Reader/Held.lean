import ManagedSymbols.Layout.Text
import ManagedSymbols.Proofs.LittleEndian
import ManagedSymbols.Reader

/-!
# Reading what is stored

`Buffer.Holds` says which bytes stand at a position of a buffer, whatever stands around them, and `Reader.Reads` that a reader
takes exactly these bytes for a value. Reads compose as readers do: `Reads.bind` reads one thing behind the other. A lemma that has
the name of a reader says from which bytes that reader takes its value. The position is a parameter of `Reads`, since some readers
look at it.
-/

namespace ManagedSymbols

/-- The bytes of a buffer that is cut are the first ones of its list. -/
theorem Buffer.toList_take (b : Buffer) (stop : Nat) : (b.take stop).toList = b.toList.take stop := by
  simp [take, toList, List.extract_eq_take_drop]

/-- A buffer holds these bytes from a position on. -/
def Buffer.Holds (b : Buffer) (p : Nat) (xs : List UInt8) : Prop :=
  ∃ front back, b.toList = front ++ xs ++ back ∧ front.length = p

namespace Buffer.Holds

variable {b : Buffer} {p : Nat} {xs ys : List UInt8}

/-- What is held ends inside the buffer. -/
theorem le_size (h : b.Holds p xs) : p + xs.length ≤ b.size := by
  obtain ⟨front, back, hb, rfl⟩ := h
  rw [← length_toList, hb]
  simp only [List.length_append]
  omega

theorem left (h : b.Holds p (xs ++ ys)) : b.Holds p xs := by
  obtain ⟨front, back, hb, hp⟩ := h
  exact ⟨front, ys ++ back, by simp only [hb, List.append_assoc], hp⟩

theorem right (h : b.Holds p (xs ++ ys)) : b.Holds (p + xs.length) ys := by
  obtain ⟨front, back, hb, rfl⟩ := h
  exact ⟨front ++ xs, back, by simp only [hb, List.append_assoc], by simp⟩

theorem append (hx : b.Holds p xs) (hy : b.Holds (p + xs.length) ys) : b.Holds p (xs ++ ys) := by
  obtain ⟨front, back, hb, rfl⟩ := hx
  obtain ⟨front', back', hb', hfront⟩ := hy
  have hparts : front ++ xs ++ back = front' ++ (ys ++ back') := by rw [← hb, hb', List.append_assoc]
  obtain ⟨_, rfl⟩ := List.append_inj hparts (by rw [List.length_append, hfront])
  exact ⟨front, back', by simp only [hb, List.append_assoc], rfl⟩

/-- A slice inside the buffer is held where it starts. -/
theorem slice {n : Nat} (h : p + n ≤ b.size) : b.Holds p (b.slice p (p + n)) := by
  refine ⟨b.toList.take p, b.toList.drop (p + n), ?_, ?_⟩
  · have htake : b.toList.take p = (b.toList.take (p + n)).take p := by
      rw [List.take_take, Nat.min_eq_left (Nat.le_add_right p n)]
    rw [Buffer.slice_eq, htake, List.take_append_drop, List.take_append_drop]
  · rw [List.length_take, Buffer.length_toList, Nat.min_eq_left (by omega)]

theorem slice_eq (h : b.Holds p xs) : b.slice p (p + xs.length) = xs := by
  obtain ⟨front, back, hb, rfl⟩ := h
  rw [Buffer.slice_eq, hb, ← List.length_append, List.take_left, List.drop_left]

/-- What is held in front of a cut is held in the buffer that ends there. -/
theorem take {stop : Nat} (h : b.Holds p xs) (hs : p + xs.length ≤ stop) : (b.take stop).Holds p xs := by
  obtain ⟨front, back, hb, rfl⟩ := h
  refine ⟨front, back.take (stop - (front ++ xs).length), ?_, rfl⟩
  rw [toList_take, hb, List.take_append, List.take_of_length_le]
  simp only [List.length_append]
  omega

theorem getElem_eq {x : UInt8} (h : b.Holds p (x :: xs)) : ∃ hp : p < b.bytes.size, b.bytes[p] = x := by
  have hs := h.le_size
  obtain ⟨front, back, hb, rfl⟩ := h
  have hp : front.length < b.bytes.size := by
    simp only [size, List.length_cons] at hs
    omega
  refine ⟨hp, ?_⟩
  rw [← Array.getElem_toList hp]
  simp only [toList] at hb
  simp [hb]

/-- Behind bytes that are not zero stands the next zero byte. -/
theorem zeroFrom_eq (h : b.Holds p (xs ++ [0])) (hz : 0 ∉ xs) : b.zeroFrom p = p + xs.length := by
  induction xs generalizing p with
  | nil =>
    obtain ⟨hp, hx⟩ := h.getElem_eq
    rw [zeroFrom, dif_pos hp, if_pos hx]
    rfl
  | cons x xs ih =>
    simp only [List.mem_cons, not_or] at hz
    obtain ⟨hp, hx⟩ := h.getElem_eq
    have htail : b.Holds (p + 1) (xs ++ [0]) := (show b.Holds p ([x] ++ (xs ++ [0])) from h).right
    rw [zeroFrom, dif_pos hp, if_neg (by rw [hx]; exact fun he => hz.1 he.symm), ih htail hz.2, List.length_cons]
    omega

end Buffer.Holds

namespace Reader

variable {α β : Type}

/-- A reader takes these bytes at a position for a value and stops behind them. -/
def Reads (p : Nat) (r : Reader α) (xs : List UInt8) (a : α) : Prop :=
  ∀ b : Buffer, b.Holds p xs → r b p = (.ok a, p + xs.length)

namespace Reads

variable {p : Nat} {r : Reader α} {next : α → Reader β} {xs ys : List UInt8} {a : α} {c : β}

theorem pure (p : Nat) (a : α) : Reads p (pure a) [] a :=
  fun _ _ => rfl

theorem bind (h : Reads p r xs a) (hn : Reads (p + xs.length) (next a) ys c) : Reads p (r >>= next) (xs ++ ys) c := by
  intro b hb
  rw [run_bind_ok (h b hb.left), hn b hb.right, List.length_append, Nat.add_assoc]

/-- The last thing read, from which the value is made. -/
theorem bind_pure (h : Reads p r xs a) (f : α → β) : Reads p (r >>= fun x => Pure.pure (f x)) xs (f a) := by
  intro b hb
  rw [run_bind_ok (h b hb), run_pure]

/-- Something that takes no bytes, in front. -/
theorem bind_nil (h : Reads p r [] a) (hn : Reads p (next a) ys c) : Reads p (r >>= next) ys c :=
  h.bind hn

/-- Something that takes no bytes, at the end. -/
theorem bind_end (h : Reads p r xs a) (hn : Reads (p + xs.length) (next a) [] c) : Reads p (r >>= next) xs c := by
  have := h.bind hn
  rwa [List.append_nil] at this

theorem map (h : Reads p r xs a) (f : α → β) : Reads p (f <$> r) xs (f a) := by
  intro b hb
  rw [run_map, h b hb]
  rfl

theorem position (p : Nat) : Reads p Reader.position [] p :=
  fun _ _ => rfl

theorem check (p : Nat) (a : α) : Reads p (Reader.check (.ok a)) [] a :=
  fun _ _ => rfl

theorem require {condition : Prop} [Decidable condition] (p : Nat) (e : Fault) (h : condition) :
    Reads p (Reader.require condition e) [] () := by
  intro b _
  rw [run_require, if_pos h]
  rfl

theorem fits (p : Nat) {n : Nat} (h : n < 0x10000000000000000) : Reads p (Reader.fits n) [] n := by
  intro b _
  rw [run_fits, if_pos h]
  rfl

theorem bytes (p : Nat) {n : Nat} (h : xs.length = n) : Reads p (Reader.bytes n) xs xs := by
  intro b hb
  subst h
  rw [run_bytes, if_pos hb.le_size, hb.slice_eq]

theorem number (p width : Nat) {n : Nat} (h : n < 0x100 ^ width) :
    Reads p (Reader.number width) (LittleEndian.bytes width n) n := by
  have := (bytes p (LittleEndian.length_bytes width n)).map LittleEndian.value
  rwa [LittleEndian.value_bytes h] at this

theorem u8 (p : Nat) (n : UInt8) : Reads p Reader.u8 [n] n := by
  have h := (bytes p (show [n].length = 1 from rfl)).map (fun xs => UInt8.ofNat (LittleEndian.value xs))
  simpa [Reader.u8, Reader.number, LittleEndian.value] using h

theorem u16 (p : Nat) (n : UInt16) : Reads p Reader.u16 (Layout.word16 n) n := by
  have := (number p 2 n.toNat_lt).map UInt16.ofNat
  rwa [UInt16.ofNat_toNat] at this

theorem u32 (p : Nat) (n : UInt32) : Reads p Reader.u32 (Layout.word32 n) n := by
  have := (number p 4 n.toNat_lt).map UInt32.ofNat
  rwa [UInt32.ofNat_toNat] at this

theorem u64 (p : Nat) (n : UInt64) : Reads p Reader.u64 (Layout.word64 n) n := by
  have := (number p 8 n.toNat_lt).map UInt64.ofNat
  rwa [UInt64.ofNat_toNat] at this

theorem i8 (p : Nat) (n : Int8) : Reads p Reader.i8 [n.toUInt8] n := by
  have := (u8 p n.toUInt8).map UInt8.toInt8
  rwa [Int8.toInt8_toUInt8] at this

theorem i16 (p : Nat) (n : Int16) : Reads p Reader.i16 (Layout.word16 n.toUInt16) n := by
  have := (u16 p n.toUInt16).map UInt16.toInt16
  rwa [Int16.toInt16_toUInt16] at this

theorem i32 (p : Nat) (n : Int32) : Reads p Reader.i32 (Layout.word32 n.toUInt32) n := by
  have := (u32 p n.toUInt32).map UInt32.toInt32
  rwa [Int32.toInt32_toUInt32] at this

theorem i64 (p : Nat) (n : Int64) : Reads p Reader.i64 (Layout.word64 n.toUInt64) n := by
  have := (u64 p n.toUInt64).map UInt64.toInt64
  rwa [Int64.toInt64_toUInt64] at this

theorem sixteen (p : Nat) (v : Vector UInt8 16) : Reads p Reader.sixteen v.toList v := by
  intro b hb
  have hs := hb.le_size
  have hx := hb.slice_eq
  simp only [Vector.length_toList, Buffer.size, Buffer.slice] at hs hx
  rw [Reader.sixteen, dif_pos hs, Vector.length_toList]
  congr 2
  apply Vector.toArray_inj.mp
  apply Array.toList_inj.mp
  exact hx

theorem advance (p : Nat) {n : Nat} (h : xs.length = n) : Reads p (Reader.advance n) xs () := by
  intro b hb
  subst h
  rw [run_advance, if_pos hb.le_size]

/-- So many things of one sort are read where they stand in a row, if each is read from its form. -/
theorem times_row {as : List α} (row : Layout.Row (fun a xs => ∀ p, Reads p r xs a) as xs) (p : Nat) :
    Reads p (Reader.times as.length r) xs as := by
  induction row generalizing p with
  | nil => exact pure p []
  | @cons a as _ _ first _ ih =>
    rw [List.length_cons, Reader.times]
    exact (first p).bind ((ih _).bind_pure (a :: ·))

/-- So many things of one sort are read where they are stored in a row. -/
theorem times {stored : α → List UInt8} {as : List α} (h : ∀ a ∈ as, ∀ p, Reads p r (stored a) a) (p : Nat) :
    Reads p (Reader.times as.length r) (as.flatMap stored) as :=
  times_row (.of_stored h) p

end Reads

end Reader

end ManagedSymbols
