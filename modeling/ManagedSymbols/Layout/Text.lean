import ManagedSymbols.LittleEndian
import ManagedSymbols.Text.Utf16
import ManagedSymbols.Text.Utf8

/-!
# The stored form of words and texts

Words are stored with their lowest byte first. A UTF-8 text is followed by a zero byte and a UTF-16 text by a zero unit, so a text
that is stored must be free of zeros (`Layout.NulFree`); a UTF-16 field is filled up with zero units to its width. Things of one
sort that may each be stored in several forms stand in a row (`Layout.Row`).
-/

namespace ManagedSymbols.Layout

/-- The stored form of a 16-bit word. -/
def word16 (n : UInt16) : List UInt8 :=
  LittleEndian.bytes 2 n.toNat

/-- The stored form of a 32-bit word. -/
def word32 (n : UInt32) : List UInt8 :=
  LittleEndian.bytes 4 n.toNat

/-- The stored form of a 64-bit word. -/
def word64 (n : UInt64) : List UInt8 :=
  LittleEndian.bytes 8 n.toNat

@[simp] theorem length_word16 (n : UInt16) : (word16 n).length = 2 :=
  LittleEndian.length_bytes 2 _

@[simp] theorem length_word32 (n : UInt32) : (word32 n).length = 4 :=
  LittleEndian.length_bytes 4 _

@[simp] theorem length_word64 (n : UInt64) : (word64 n).length = 8 :=
  LittleEndian.length_bytes 8 _

/-- The stored form of 16-bit units. -/
def units (us : List UInt16) : List UInt8 :=
  us.flatMap word16

/-- A text without the character that ends stored texts. -/
def NulFree (s : String) : Prop :=
  '\x00' ∉ s.toList

instance (s : String) : Decidable (NulFree s) :=
  inferInstanceAs (Decidable (¬ _))

/-- The stored form of a UTF-8 text. -/
def utf8 (s : String) : List UInt8 :=
  Utf8.encode s.toList ++ [0]

/-- The stored form of a UTF-16 text. -/
def utf16 (s : String) : List UInt8 :=
  units (Utf16.encode s.toList ++ [0])

/-- The stored form of a UTF-16 text in a field of so many units. -/
def utf16Field (width : Nat) (s : String) : List UInt8 :=
  let us := Utf16.encode s.toList
  units (us ++ List.replicate (width - us.length) 0)

/-- Things that stand one behind the other, each in one of its forms. -/
inductive Row {α : Type} (Form : α → List UInt8 → Prop) : List α → List UInt8 → Prop where
  | nil : Row Form [] []
  | cons {a : α} {as : List α} {xs ys : List UInt8} (first : Form a xs) (rest : Row Form as ys) : Row Form (a :: as) (xs ++ ys)

namespace Row

variable {α ι : Type} {Form Form' : α → List UInt8 → Prop} {as : List α} {xs : List UInt8}

/-- A row of forms is a row of forms of another sort if each form is one. -/
theorem mono (row : Row Form as xs) (weaker : ∀ {a xs}, Form a xs → Form' a xs) : Row Form' as xs := by
  induction row with
  | nil => exact .nil
  | cons first _ ih => exact .cons (weaker first) ih

/-- Stored one behind the other, things that are told by their descriptions stand in a row. -/
theorem map {value : ι → α} {stored : ι → List UInt8} {is : List ι} (each : ∀ i ∈ is, Form (value i) (stored i)) :
    Row Form (is.map value) (is.flatMap stored) := by
  induction is with
  | nil => exact .nil
  | cons i is ih =>
    rw [List.map_cons, List.flatMap_cons]
    exact .cons (each i (by simp)) (ih fun j hj => each j (by simp [hj]))

/-- Things that are stored one behind the other stand in a row. -/
theorem of_stored {stored : α → List UInt8} (each : ∀ a ∈ as, Form a (stored a)) : Row Form as (as.flatMap stored) := by
  have hmap : Row Form (as.map id) (as.flatMap stored) := map each
  rwa [List.map_id] at hmap

/-- There are no more things in a row than bytes if none of them has an empty form. -/
theorem length_le (row : Row Form as xs) (filled : ∀ {a xs}, Form a xs → 0 < xs.length) : as.length ≤ xs.length := by
  induction row with
  | nil => exact Nat.le_refl 0
  | cons first _ ih =>
    have := filled first
    rw [List.length_cons, List.length_append]
    omega

end Row

end ManagedSymbols.Layout
