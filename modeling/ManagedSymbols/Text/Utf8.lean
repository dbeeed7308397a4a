/-!
# UTF-8: well-formed byte sequences and where a sequence stops being one

The first byte of a character says how many bytes follow it and between which bounds the second one lies (`Lead.ofByte?`), which
rules out overlong forms, surrogates and values past `0x10FFFF`; all later bytes lie in `0x80`–`0xBF`. `Utf8.decode` reads
characters until the bytes end. Where they stop being well-formed it tells the index of the character that failed, and either
how many of its bytes were still legal or that the bytes ended inside it (`Utf8.Fault`).
-/

namespace ManagedSymbols.Utf8

/-- Why a byte sequence is not well-formed UTF-8. -/
inductive Fault where
  /-- The character at an index breaks off after that many legal bytes. -/
  | invalid (index count : Nat)
  /-- The sequence ends inside the character at an index, all of whose bytes are legal so far. -/
  | incomplete (index : Nat)
  deriving DecidableEq, Repr

/-- The wording of a fault. -/
def Fault.message : Fault → String
  | .invalid index count => "invalid utf-8 sequence of " ++ toString count ++ " bytes from index " ++ toString index
  | .incomplete index => "incomplete utf-8 byte sequence from index " ++ toString index

/-- What the first byte of a character announces: the bytes it owes, the bounds of the next one, and its own bits of the
scalar value. -/
structure Lead where
  owed : Nat
  low : UInt8
  high : UInt8
  bits : Nat
  deriving DecidableEq, Repr

/-- What a first byte announces; a byte that starts no character announces nothing. -/
def Lead.ofByte? (b : UInt8) : Option Lead :=
  if b < 0x80 then some ⟨0, 0x80, 0xBF, b.toNat⟩
  else if b < 0xC2 then none
  else if b < 0xE0 then some ⟨1, 0x80, 0xBF, b.toNat % 0x20⟩
  else if b < 0xF0 then
    some ⟨2, if b = 0xE0 then 0xA0 else 0x80, if b = 0xED then 0x9F else 0xBF, b.toNat % 0x10⟩
  else if b < 0xF5 then
    some ⟨3, if b = 0xF0 then 0x90 else 0x80, if b = 0xF4 then 0x8F else 0xBF, b.toNat % 0x08⟩
  else none

/-- What stands at the front of a byte sequence: a character with the number of its bytes and those behind it, so many legal bytes
of a broken character, or the legal start of one that the end cuts off. -/
inductive Front where
  | char (c : Char) (count : Nat) (rest : List UInt8)
  | broken (count : Nat)
  | cut
  deriving DecidableEq, Repr

/-- Reads the bytes a character still owes: the next one between the bounds, all later ones in `0x80`–`0xBF`. `seen` is the number
of legal bytes so far and `bits` the scalar value so far. -/
def frontTail (seen bits : Nat) (low high : UInt8) : (owed : Nat) → List UInt8 → Front
  | 0, rest => .char (Char.ofNat bits) seen rest
  | _ + 1, [] => .cut
  | owed + 1, b :: rest =>
    if low ≤ b ∧ b ≤ high then frontTail (seen + 1) (bits * 0x40 + b.toNat % 0x40) 0x80 0xBF owed rest else .broken seen

/-- What stands at the front of a sequence that starts with this byte. -/
def front (b : UInt8) (rest : List UInt8) : Front :=
  match Lead.ofByte? b with
  | none => .broken 1
  | some lead => frontTail 1 lead.bits lead.low lead.high lead.owed rest

/-- The bytes of a character and those behind it are the bytes there were. -/
theorem length_of_frontTail {seen bits : Nat} {low high : UInt8} {owed count : Nat} {bytes rest : List UInt8} {c : Char}
    (h : frontTail seen bits low high owed bytes = .char c count rest) : seen + bytes.length = count + rest.length := by
  induction owed generalizing seen bits low high bytes with
  | zero =>
    simp only [frontTail, Front.char.injEq] at h
    simp [h.2]
  | succ owed ih =>
    cases bytes with
    | nil => simp [frontTail] at h
    | cons b bytes =>
      simp only [frontTail] at h
      split at h
      · have := ih h
        simp only [List.length_cons]
        omega
      · cases h

/-- A character is at least one byte long. -/
theorem seen_le_of_frontTail {seen bits : Nat} {low high : UInt8} {owed count : Nat} {bytes rest : List UInt8} {c : Char}
    (h : frontTail seen bits low high owed bytes = .char c count rest) : seen ≤ count := by
  induction owed generalizing seen bits low high bytes with
  | zero =>
    simp only [frontTail, Front.char.injEq] at h
    omega
  | succ owed ih =>
    cases bytes with
    | nil => simp [frontTail] at h
    | cons b bytes =>
      simp only [frontTail] at h
      split at h
      · have := ih h
        omega
      · cases h

/-- Behind a character there are fewer bytes than before it. -/
theorem length_lt_of_front {b : UInt8} {count : Nat} {bytes rest : List UInt8} {c : Char}
    (h : front b bytes = .char c count rest) : rest.length < (b :: bytes).length := by
  unfold front at h
  split at h
  · cases h
  · have := length_of_frontTail h
    have := seen_le_of_frontTail h
    simp only [List.length_cons]
    omega

/-- The characters of a byte sequence whose first byte has this index, or the fault that ends them. -/
def decodeFrom (index : Nat) : List UInt8 → Except Fault (List Char)
  | [] => .ok []
  | b :: bytes =>
    match h : front b bytes with
    | .char c count rest =>
      have := length_lt_of_front h
      (decodeFrom (index + count) rest).map (c :: ·)
    | .broken count => .error (.invalid index count)
    | .cut => .error (.incomplete index)
termination_by bytes => bytes.length
decreasing_by exact this

/-- The characters of a byte sequence, if it is well-formed. -/
def decode (bytes : List UInt8) : Except Fault (List Char) :=
  decodeFrom 0 bytes

/-- The bytes of a text. -/
def encode (cs : List Char) : List UInt8 :=
  cs.flatMap String.utf8EncodeChar

end ManagedSymbols.Utf8
