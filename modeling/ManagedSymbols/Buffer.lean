import ManagedSymbols.LittleEndian

/-!
# The bytes of a symbol stream

A buffer is a sequence of bytes no longer than a process can hold, `2 ^ 63 - 1`; positions are counted from its start. What is
read from it goes through two views: a slice between two positions (`Buffer.slice`) and the position of the next zero byte
(`Buffer.zeroFrom`). `Buffer.take` is a buffer that ends early and keeps all positions.
-/

namespace ManagedSymbols

/-- The bytes of a symbol stream. -/
structure Buffer where
  bytes : Array UInt8
  size_lt : bytes.size < 0x8000000000000000

namespace Buffer

/-- How many bytes a buffer holds. -/
def size (b : Buffer) : Nat :=
  b.bytes.size

/-- The buffer that holds the bytes of a list, if they are not too many. -/
def ofList? (bytes : List UInt8) : Option Buffer :=
  if h : bytes.length < 0x8000000000000000 then some ⟨bytes.toArray, h⟩ else none

/-- The bytes of a buffer, in order. -/
def toList (b : Buffer) : List UInt8 :=
  b.bytes.toList

/-- The bytes from one position up to another. -/
def slice (b : Buffer) (start stop : Nat) : List UInt8 :=
  (b.bytes.extract start stop).toList

/-- The position of the first zero byte at or behind a position, or the end of the buffer if there is none. -/
def zeroFrom (b : Buffer) (p : Nat) : Nat :=
  if h : p < b.bytes.size then
    if b.bytes[p] = 0 then p else b.zeroFrom (p + 1)
  else b.size
termination_by b.bytes.size - p
decreasing_by omega

/-- The first bytes of a buffer, up to a position. -/
def take (b : Buffer) (stop : Nat) : Buffer where
  bytes := b.bytes.extract 0 stop
  size_lt := by
    have := b.size_lt
    simp only [Array.size_extract]
    omega

@[simp] theorem length_toList (b : Buffer) : b.toList.length = b.size := by
  simp [toList, size]

/-- A slice, in terms of the list of bytes. -/
theorem slice_eq (b : Buffer) (start stop : Nat) : b.slice start stop = (b.toList.take stop).drop start := by
  simp [slice, toList, List.extract_eq_take_drop, List.drop_take]

/-- A slice inside the buffer is as long as the distance of its ends. -/
theorem length_slice {b : Buffer} {start stop : Nat} (h : stop ≤ b.size) : (b.slice start stop).length = stop - start := by
  simp only [size] at h
  simp only [slice, Array.length_toList, Array.size_extract]
  omega

/-- A buffer cut at a position inside it ends there. -/
theorem size_take {b : Buffer} {stop : Nat} (h : stop ≤ b.size) : (b.take stop).size = stop := by
  simp only [size] at h
  simp only [take, size, Array.size_extract]
  omega

/-- The next zero byte lies inside the buffer or is its end. -/
theorem zeroFrom_le (b : Buffer) (p : Nat) : b.zeroFrom p ≤ b.size := by
  fun_induction zeroFrom b p with
  | case1 p h hz => exact Nat.le_of_lt h
  | case2 p h hz ih => exact ih
  | case3 p h => exact Nat.le_refl _

/-- The next zero byte is not in front of the position, unless that is behind the buffer. -/
theorem le_zeroFrom {b : Buffer} {p : Nat} (h : p ≤ b.size) : p ≤ b.zeroFrom p := by
  fun_induction zeroFrom b p with
  | case1 p _ hz => exact Nat.le_refl p
  | case2 p hp hz ih => exact Nat.le_of_succ_le (ih hp)
  | case3 p _ => exact h

end Buffer

end ManagedSymbols
