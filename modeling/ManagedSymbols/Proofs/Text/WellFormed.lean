import Mathlib.Data.List.Forall2
import Mathlib.Order.Bounds.Basic
import ManagedSymbols.Proofs.Text.Utf8

/-!
# UTF-8: which byte sequences are well-formed, and where the others stop being so

Unicode lists the well-formed sequences of one character by the bounds of their bytes (`table`). A sequence of bytes is well-formed
if it is made of such sequences (`WellFormed`), and bytes are a legal start if a sequence of one character starts with them
(`LegalStart`). The bytes that a first byte announces are those behind it in the table (`sequence_cons_iff`), so what stands at the
front of a sequence is told by the table (`frontTail_follows`): a character, the legal start of one, or a byte that is not legal
behind the legal ones. The well-formed bytes are those of the texts (`wellFormed_iff`), each of which is read from its bytes
(`decode_eq_ok_iff`). The fault of all others tells the longest well-formed part in front and the maximal legal part of the
character behind it (`decode_eq_error_iff`).
-/

namespace ManagedSymbols.Utf8

/-! ## Well-formed sequences -/

/-- A byte lies between two bounds. -/
def Within (bounds : UInt8 × UInt8) (b : UInt8) : Prop :=
  bounds.1 ≤ b ∧ b ≤ bounds.2

instance (bounds : UInt8 × UInt8) (b : UInt8) : Decidable (Within bounds b) :=
  inferInstanceAs (Decidable (_ ∧ _))

/-- The bounds of the bytes of a character. The second byte is bounded more closely where an overlong form, a surrogate or a value
past the last scalar value would start. -/
def table : List (List (UInt8 × UInt8)) :=
  [[(0x00, 0x7F)],
   [(0xC2, 0xDF), (0x80, 0xBF)],
   [(0xE0, 0xE0), (0xA0, 0xBF), (0x80, 0xBF)],
   [(0xE1, 0xEC), (0x80, 0xBF), (0x80, 0xBF)],
   [(0xED, 0xED), (0x80, 0x9F), (0x80, 0xBF)],
   [(0xEE, 0xEF), (0x80, 0xBF), (0x80, 0xBF)],
   [(0xF0, 0xF0), (0x90, 0xBF), (0x80, 0xBF), (0x80, 0xBF)],
   [(0xF1, 0xF3), (0x80, 0xBF), (0x80, 0xBF), (0x80, 0xBF)],
   [(0xF4, 0xF4), (0x80, 0x8F), (0x80, 0xBF), (0x80, 0xBF)]]

/-- Bytes are a sequence of one character. -/
def Sequence (xs : List UInt8) : Prop :=
  ∃ row ∈ table, List.Forall₂ Within row xs

/-- Bytes are the start of a sequence of one character, or such a sequence. -/
def LegalStart (xs : List UInt8) : Prop :=
  ∃ ys, Sequence (xs ++ ys)

/-- Bytes are sequences of characters, one behind the other. -/
inductive WellFormed : List UInt8 → Prop where
  | nil : WellFormed []
  | cons {xs rest : List UInt8} (first : Sequence xs) (others : WellFormed rest) : WellFormed (xs ++ rest)

/-- The longest well-formed part in front of a sequence that is not well-formed has this length. -/
def StopsAt (bytes : List UInt8) (index : Nat) : Prop :=
  index < bytes.length ∧ IsGreatest {n | n ≤ bytes.length ∧ WellFormed (bytes.take n)} index

/-- The maximal part of a sequence that is legal in front has this length; a single byte counts even if it is not. -/
def MaximalPart (bytes : List UInt8) (count : Nat) : Prop :=
  IsGreatest {n | n ≤ bytes.length ∧ (n = 1 ∨ LegalStart (bytes.take n))} count

/-- A fault tells where a sequence stops being well-formed, and how many bytes of the character there are legal unless the sequence
ends inside of it. -/
def Fault.Of (bytes : List UInt8) : Fault → Prop
  | .invalid index count => StopsAt bytes index ∧ ¬ LegalStart (bytes.drop index) ∧ MaximalPart (bytes.drop index) count
  | .incomplete index => StopsAt bytes index ∧ LegalStart (bytes.drop index)

/-! ## The bytes behind a first byte -/

/-- The bounds of the bytes that a character still owes. -/
def boundsOfOwed (low high : UInt8) : (owed : Nat) → List (UInt8 × UInt8)
  | 0 => []
  | owed + 1 => (low, high) :: boundsOfOwed 0x80 0xBF owed

/-- The bounds of the bytes that a first byte announces. -/
def Lead.bounds (lead : Lead) : List (UInt8 × UInt8) :=
  boundsOfOwed lead.low lead.high lead.owed

/-- The rows of the table that start with a byte, behind it. -/
def rowsBehind (b : UInt8) : List (List (UInt8 × UInt8)) :=
  table.filterMap fun
    | [] => none
    | bounds :: row => if Within bounds b then some row else none

/-- What holds of the bytes of all numbers holds of every byte. -/
theorem forall_byte {P : UInt8 → Prop} (h : ∀ n < 0x100, P (UInt8.ofNat n)) (b : UInt8) : P b := by
  have hb := h b.toNat b.toNat_lt
  rwa [UInt8.ofNat_toNat] at hb

/-- There is one row behind a byte that starts a character, and none behind any other. -/
theorem rowsBehind_eq : ∀ b, rowsBehind b = (Lead.ofByte? b).toList.map Lead.bounds :=
  forall_byte (by decide +kernel)

/-- Some byte lies between the bounds of the second byte. -/
theorem Lead.low_le_high : ∀ b, ∀ lead ∈ Lead.ofByte? b, lead.low ≤ lead.high :=
  forall_byte (by decide +kernel)

/-- A sequence is told by the rows behind its first byte. -/
theorem sequence_cons_iff_rowsBehind {b : UInt8} {xs : List UInt8} :
    Sequence (b :: xs) ↔ ∃ row ∈ rowsBehind b, List.Forall₂ Within row xs := by
  constructor
  · rintro ⟨row, hrow, hfits⟩
    cases hfits with
    | cons hb hrest => exact ⟨_, List.mem_filterMap.mpr ⟨_, hrow, if_pos hb⟩, hrest⟩
  · rintro ⟨row, hrow, hrest⟩
    obtain ⟨whole, hwhole, hbehind⟩ := List.mem_filterMap.mp hrow
    cases whole with
    | nil => cases hbehind
    | cons bounds tail =>
      dsimp only at hbehind
      split at hbehind
      · next hb =>
        cases hbehind
        exact ⟨_, hwhole, .cons hb hrest⟩
      · cases hbehind

/-- Bytes are a sequence exactly if the first one announces the others. -/
theorem sequence_cons_iff {b : UInt8} {xs : List UInt8} :
    Sequence (b :: xs) ↔ ∃ lead, Lead.ofByte? b = some lead ∧ List.Forall₂ Within lead.bounds xs := by
  rw [sequence_cons_iff_rowsBehind, rowsBehind_eq]
  simp only [List.mem_map, Option.mem_toList, exists_exists_and_eq_and]

theorem Sequence.ne_nil {xs : List UInt8} (h : Sequence xs) : xs ≠ [] := by
  rintro rfl
  obtain ⟨row, hrow, hfits⟩ := h
  obtain rfl := List.forall₂_nil_right_iff.mp hfits
  revert hrow
  decide

/-- No sequence goes on where another one ends. -/
theorem Sequence.append_inj {xs ys rest behind : List UInt8} (hx : Sequence xs) (hy : Sequence ys)
    (h : xs ++ rest = ys ++ behind) : xs = ys ∧ rest = behind := by
  match xs, ys with
  | [], _ => exact absurd rfl hx.ne_nil
  | _, [] => exact absurd rfl hy.ne_nil
  | x :: xs, y :: ys =>
    -- Both start with the same byte, so both have as many bytes as it announces.
    obtain ⟨rfl, htails⟩ := List.cons.inj h
    obtain ⟨lead, hlead, hxs⟩ := sequence_cons_iff.mp hx
    obtain ⟨lead', hlead', hys⟩ := sequence_cons_iff.mp hy
    obtain rfl : lead = lead' := Option.some.inj (hlead.symm.trans hlead')
    obtain ⟨rfl, rfl⟩ := List.append_inj htails (hxs.length_eq.symm.trans hys.length_eq)
    exact ⟨rfl, rfl⟩

/-! ## Legal starts -/

/-- Bytes are the start of bytes between these bounds. -/
def Starts (bounds : List (UInt8 × UInt8)) (xs : List UInt8) : Prop :=
  ∃ ys, List.Forall₂ Within bounds (xs ++ ys)

/-- No byte is a start of what a character owes, as long as each byte can be in its bounds. -/
theorem starts_nil {low high : UInt8} (h : low ≤ high) (owed : Nat) : Starts (boundsOfOwed low high owed) [] := by
  induction owed generalizing low high with
  | zero => exact ⟨[], .nil⟩
  | succ owed ih =>
    obtain ⟨ys, hys⟩ := ih (show (0x80 : UInt8) ≤ 0xBF by decide)
    exact ⟨low :: ys, .cons ⟨UInt8.le_refl low, h⟩ hys⟩

/-- A start goes on with a byte between its bounds. -/
theorem starts_cons_iff {r : UInt8 × UInt8} {bounds : List (UInt8 × UInt8)} {b : UInt8} {xs : List UInt8} :
    Starts (r :: bounds) (b :: xs) ↔ Within r b ∧ Starts bounds xs := by
  simp only [Starts, List.cons_append, List.forall₂_cons, exists_and_left]

/-- Bytes are a legal start exactly if the first one announces the others and maybe more. -/
theorem legalStart_cons_iff {b : UInt8} {xs : List UInt8} :
    LegalStart (b :: xs) ↔ ∃ lead, Lead.ofByte? b = some lead ∧ Starts lead.bounds xs := by
  simp only [LegalStart, Starts, List.cons_append, sequence_cons_iff]
  constructor
  · rintro ⟨ys, lead, hlead, hfits⟩
    exact ⟨lead, hlead, ys, hfits⟩
  · rintro ⟨lead, hlead, ys, hfits⟩
    exact ⟨ys, lead, hlead, hfits⟩

/-- What is in front of a legal start is one. -/
theorem LegalStart.left {xs ys : List UInt8} (h : LegalStart (xs ++ ys)) : LegalStart xs := by
  obtain ⟨zs, hzs⟩ := h
  exact ⟨ys ++ zs, by rwa [← List.append_assoc]⟩

/-! ## What stands at the front -/

/-- What stands at the front of bytes whose first ones should lie between bounds: they do, or the bytes end before, or one of them
is not legal behind those in front of it. `seen` bytes have been counted already. -/
inductive Follows (bounds : List (UInt8 × UInt8)) (seen : Nat) (bytes : List UInt8) : Front → Prop where
  | char {c : Char} {count : Nat} {xs rest : List UInt8} (fits : List.Forall₂ Within bounds xs) (hbytes : bytes = xs ++ rest)
      (hcount : count = seen + xs.length) : Follows bounds seen bytes (.char c count rest)
  | cut (starts : Starts bounds bytes) : Follows bounds seen bytes .cut
  | broken {count : Nat} {xs rest : List UInt8} {b : UInt8} (starts : Starts bounds xs) (ends : ¬ Starts bounds (xs ++ [b]))
      (hbytes : bytes = xs ++ b :: rest) (hcount : count = seen + xs.length) : Follows bounds seen bytes (.broken count)

/-- Behind a byte between its bounds stands what stands there without it, with one more byte counted. -/
theorem Follows.behind {r : UInt8 × UInt8} {bounds : List (UInt8 × UInt8)} {seen : Nat} {b : UInt8} {bytes : List UInt8}
    {found : Front} (hb : Within r b) (h : Follows bounds (seen + 1) bytes found) :
    Follows (r :: bounds) seen (b :: bytes) found := by
  cases h with
  | @char c count xs rest fits hbytes hcount =>
    refine .char (.cons hb fits) (by rw [hbytes, List.cons_append]) ?_
    rw [hcount, List.length_cons]
    omega
  | cut starts => exact .cut (starts_cons_iff.mpr ⟨hb, starts⟩)
  | @broken count xs rest x starts ends hbytes hcount =>
    refine .broken (starts_cons_iff.mpr ⟨hb, starts⟩) ?_ (by rw [hbytes, List.cons_append]) ?_
    · intro hstarts
      exact ends (starts_cons_iff.mp hstarts).2
    · rw [hcount, List.length_cons]
      omega

/-- The bytes that a character owes are read as their bounds tell. -/
theorem frontTail_follows {seen bits : Nat} {low high : UInt8} (h : low ≤ high) (owed : Nat) (bytes : List UInt8) :
    Follows (boundsOfOwed low high owed) seen bytes (frontTail seen bits low high owed bytes) := by
  induction owed generalizing seen bits low high bytes with
  | zero => exact .char .nil rfl rfl
  | succ owed ih =>
    cases bytes with
    | nil => exact .cut (starts_nil h (owed + 1))
    | cons b bytes =>
      rw [frontTail]
      split
      · next hb => exact (ih (by decide) bytes).behind hb
      · next hb =>
        refine .broken (starts_nil h (owed + 1)) ?_ rfl rfl
        intro hstarts
        exact hb (starts_cons_iff.mp hstarts).1

/-- Bytes between the bounds of those that a character owes end it. -/
theorem frontTail_of_fits {seen bits : Nat} {low high : UInt8} {owed : Nat} {xs : List UInt8} (rest : List UInt8)
    (h : List.Forall₂ Within (boundsOfOwed low high owed) xs) :
    ∃ c, frontTail seen bits low high owed (xs ++ rest) = .char c (seen + xs.length) rest := by
  induction owed generalizing seen bits low high xs with
  | zero =>
    cases h
    exact ⟨_, rfl⟩
  | succ owed ih =>
    cases h with
    | @cons _ b _ xs hb hrest =>
      obtain ⟨c, hc⟩ := @ih (seen + 1) (bits * 0x40 + b.toNat % 0x40) _ _ _ hrest
      refine ⟨c, ?_⟩
      rw [List.cons_append, frontTail, if_pos (show low ≤ b ∧ b ≤ high from hb), hc, List.length_cons, Nat.add_assoc,
        Nat.add_comm 1]

section Front

variable {b : UInt8} {bytes rest : List UInt8} {count : Nat} {c : Char}

/-- A byte that starts no character breaks off alone, and behind any other one stands what its bounds tell. -/
theorem front_cases (b : UInt8) (bytes : List UInt8) :
    (Lead.ofByte? b = none ∧ front b bytes = .broken 1) ∨
      ∃ lead, Lead.ofByte? b = some lead ∧ Follows lead.bounds 1 bytes (front b bytes) := by
  unfold front
  cases hlead : Lead.ofByte? b with
  | none => exact .inl ⟨rfl, rfl⟩
  | some lead => exact .inr ⟨lead, rfl, frontTail_follows (Lead.low_le_high b lead hlead) lead.owed bytes⟩

/-- A sequence in front is a character. -/
theorem front_of_sequence {xs : List UInt8} (hx : Sequence xs) (h : b :: bytes = xs ++ rest) :
    ∃ c, front b bytes = .char c xs.length rest := by
  match xs with
  | [] => exact absurd rfl hx.ne_nil
  | x :: xs =>
    obtain ⟨rfl, rfl⟩ := List.cons.inj h
    obtain ⟨lead, hlead, hfits⟩ := sequence_cons_iff.mp hx
    obtain ⟨c, hc⟩ := @frontTail_of_fits 1 lead.bits _ _ _ _ rest hfits
    exact ⟨c, by rw [front, hlead, List.length_cons, Nat.add_comm]; exact hc⟩

/-- A character in front is a sequence. -/
theorem sequence_of_front (h : front b bytes = .char c count rest) :
    ∃ xs, Sequence xs ∧ b :: bytes = xs ++ rest ∧ count = xs.length := by
  rcases front_cases b bytes with ⟨-, hfront⟩ | ⟨lead, hlead, hfollows⟩
  · rw [h] at hfront
    cases hfront
  · rw [h] at hfollows
    cases hfollows with
    | @char _ _ xs _ fits hbytes hcount =>
      refine ⟨b :: xs, sequence_cons_iff.mpr ⟨lead, hlead, fits⟩, by rw [hbytes, List.cons_append], ?_⟩
      rw [hcount, List.length_cons, Nat.add_comm]

/-- Bytes that are cut off are a legal start. -/
theorem legalStart_of_front (h : front b bytes = .cut) : LegalStart (b :: bytes) := by
  rcases front_cases b bytes with ⟨-, hfront⟩ | ⟨lead, hlead, hfollows⟩
  · rw [h] at hfront
    cases hfront
  · rw [h] at hfollows
    cases hfollows with
    | cut starts => exact legalStart_cons_iff.mpr ⟨lead, hlead, starts⟩

/-- Of bytes that are legal up to a byte that is not, those in front of it are the maximal legal part. -/
theorem maximalPart_of_legalStart {xs : List UInt8} (hlegal : LegalStart xs) (hne : xs ≠ []) (h : ¬ LegalStart (xs ++ [b])) :
    MaximalPart (xs ++ b :: rest) xs.length := by
  refine ⟨⟨by simp, .inr (by rwa [List.take_left])⟩, ?_⟩
  rintro n ⟨-, hn⟩
  refine Nat.le_of_not_lt fun hlonger => ?_
  rcases hn with rfl | hn
  · exact hne (List.length_eq_zero_iff.mp (Nat.lt_one_iff.mp hlonger))
  · obtain ⟨k, rfl⟩ : ∃ k, n = xs.length + (k + 1) := ⟨n - (xs.length + 1), by omega⟩
    rw [List.take_length_add_append, List.take_succ_cons, List.append_cons] at hn
    exact h hn.left

/-- Bytes whose first one starts no character are no legal start, and that byte counts alone. -/
theorem maximalPart_of_none (h : Lead.ofByte? b = none) : ¬ LegalStart (b :: bytes) ∧ MaximalPart (b :: bytes) 1 := by
  have hillegal : ∀ xs, ¬ LegalStart (b :: xs) := by
    intro xs hlegal
    obtain ⟨lead, hlead, -⟩ := legalStart_cons_iff.mp hlegal
    rw [h] at hlead
    cases hlead
  refine ⟨hillegal bytes, ⟨by simp, .inl rfl⟩, ?_⟩
  rintro n ⟨-, hn⟩
  rcases hn with rfl | hn
  · exact Nat.le_refl 1
  · cases n with
    | zero => exact Nat.zero_le 1
    | succ n => exact absurd hn (hillegal _)

/-- Bytes that break off are no legal start, and as many as are told are the maximal legal part. -/
theorem maximalPart_of_front (h : front b bytes = .broken count) :
    ¬ LegalStart (b :: bytes) ∧ MaximalPart (b :: bytes) count := by
  rcases front_cases b bytes with ⟨hnone, hfront⟩ | ⟨lead, hlead, hfollows⟩
  · rw [h] at hfront
    cases hfront
    exact maximalPart_of_none hnone
  · rw [h] at hfollows
    cases hfollows with
    | @broken _ xs rest x starts ends hbytes hcount =>
      -- The bounds are those of the only row behind the first byte, so no other row makes the bytes legal.
      have hends : ¬ LegalStart (b :: xs ++ [x]) := by
        intro hlegal
        obtain ⟨lead', hlead', hstarts⟩ := legalStart_cons_iff.mp hlegal
        obtain rfl : lead = lead' := Option.some.inj (hlead.symm.trans hlead')
        exact ends hstarts
      have hwhole : b :: bytes = b :: xs ++ x :: rest := by rw [hbytes, List.cons_append]
      obtain rfl : count = (b :: xs).length := by rw [hcount, List.length_cons, Nat.add_comm]
      rw [hwhole]
      refine ⟨fun hlegal => ?_, ?_⟩
      · rw [List.append_cons] at hlegal
        exact hends hlegal.left
      · exact maximalPart_of_legalStart (legalStart_cons_iff.mpr ⟨lead, hlead, starts⟩) (List.cons_ne_nil b xs) hends

end Front

/-! ## Whole sequences -/

namespace WellFormed

variable {xs rest bytes : List UInt8}

/-- Behind a sequence, well-formed bytes are well-formed. -/
theorem behind (hx : Sequence xs) (h : WellFormed (xs ++ rest)) : WellFormed rest := by
  generalize hwhole : xs ++ rest = whole at h
  cases h with
  | nil => exact absurd (List.append_eq_nil_iff.mp hwhole).1 hx.ne_nil
  | cons first others =>
    obtain ⟨-, rfl⟩ := hx.append_inj first hwhole
    exact others

/-- Behind well-formed bytes, well-formed bytes are well-formed. -/
theorem right (hx : WellFormed xs) (h : WellFormed (xs ++ rest)) : WellFormed rest := by
  induction hx with
  | nil => exact h
  | cons first _ ih =>
    rw [List.append_assoc] at h
    exact ih (behind first h)

/-- Well-formed bytes start with a character. -/
theorem exists_front {b : UInt8} (h : WellFormed (b :: xs)) : ∃ c count behind, front b (xs ++ rest) = .char c count behind := by
  generalize hwhole : b :: xs = whole at h
  cases h with
  | nil => cases hwhole
  | @cons ys behind first others =>
    have hsplit : b :: (xs ++ rest) = ys ++ (behind ++ rest) := by
      rw [← List.cons_append, hwhole, List.append_assoc]
    obtain ⟨c, hc⟩ := front_of_sequence first hsplit
    exact ⟨c, _, _, hc⟩

end WellFormed

/-- Behind well-formed bytes, where no character stands, the longest well-formed part in front ends. -/
theorem stopsAt_of_front {done rest : List UInt8} {b : UInt8} (hdone : WellFormed done)
    (h : ∀ c count behind, front b rest ≠ .char c count behind) : StopsAt (done ++ b :: rest) done.length := by
  refine ⟨by simp, ⟨by simp, by rwa [List.take_left]⟩, ?_⟩
  rintro n ⟨-, hn⟩
  refine Nat.le_of_not_lt fun hlonger => ?_
  -- A longer well-formed part would go on with a character behind the part that is known.
  obtain ⟨k, rfl⟩ : ∃ k, n = done.length + (k + 1) := ⟨n - (done.length + 1), by omega⟩
  rw [List.take_length_add_append, List.take_succ_cons] at hn
  obtain ⟨c, count, behind, hfront⟩ := @WellFormed.exists_front _ (rest.drop k) b (hdone.right hn)
  rw [List.take_append_drop] at hfront
  exact h c count behind hfront

/-- Bytes that are read are well-formed, whatever the index of the first one. -/
theorem wellFormed_of_decodeFrom {index : Nat} {bytes : List UInt8} {cs : List Char} (h : decodeFrom index bytes = .ok cs) :
    WellFormed bytes := by
  fun_induction decodeFrom index bytes generalizing cs with
  | case1 index => exact .nil
  | case2 index b bytes c count rest hfront _ ih =>
    obtain ⟨xs, hxs, hsplit, -⟩ := sequence_of_front hfront
    cases hrest : decodeFrom (index + count) rest with
    | error fault =>
      rw [hrest] at h
      cases h
    | ok tail =>
      rw [hsplit]
      exact .cons hxs (ih hrest)
  | case3 => cases h
  | case4 => cases h

/-- Where bytes are not read on, those in front are well-formed and what stands there is no character. -/
theorem exists_of_decodeFrom_error {index : Nat} {bytes : List UInt8} {f : Fault} (h : decodeFrom index bytes = .error f) :
    ∃ done b rest, bytes = done ++ b :: rest ∧ WellFormed done ∧
      ((front b rest = .cut ∧ f = .incomplete (index + done.length)) ∨
        ∃ count, front b rest = .broken count ∧ f = .invalid (index + done.length) count) := by
  fun_induction decodeFrom index bytes with
  | case1 index => cases h
  | case2 index b bytes c count rest hfront _ ih =>
    obtain ⟨xs, hxs, hsplit, rfl⟩ := sequence_of_front hfront
    cases hrest : decodeFrom (index + xs.length) rest with
    | ok tail =>
      rw [hrest] at h
      cases h
    | error fault =>
      rw [hrest] at h
      cases h
      obtain ⟨done, b', rest', rfl, hdone, hfault⟩ := ih hrest
      refine ⟨xs ++ done, b', rest', by rw [hsplit, List.append_assoc], .cons hxs hdone, ?_⟩
      rwa [List.length_append, ← Nat.add_assoc]
  | case3 index b bytes count hfront =>
    cases h
    exact ⟨[], b, bytes, rfl, .nil, .inr ⟨count, hfront, rfl⟩⟩
  | case4 index b bytes hfront =>
    cases h
    exact ⟨[], b, bytes, rfl, .nil, .inl ⟨hfront, rfl⟩⟩

/-- What stops somewhere is not well-formed. -/
theorem StopsAt.not_wellFormed {bytes : List UInt8} {index : Nat} (h : StopsAt bytes index) : ¬ WellFormed bytes := by
  intro hwhole
  have hle := h.2.2 ⟨Nat.le_refl _, by rwa [List.take_length]⟩
  exact absurd h.1 (Nat.not_lt_of_le hle)

/-- A sequence that a fault tells of is not well-formed. -/
theorem Fault.Of.not_wellFormed {bytes : List UInt8} {f : Fault} (h : f.Of bytes) : ¬ WellFormed bytes := by
  cases f with
  | invalid index count => exact h.1.not_wellFormed
  | incomplete index => exact h.1.not_wellFormed

/-- One fault tells of a sequence. -/
theorem Fault.Of.unique {bytes : List UInt8} {f f' : Fault} (h : f.Of bytes) (h' : f'.Of bytes) : f = f' := by
  cases f with
  | invalid index count =>
    obtain ⟨hstop, hillegal, hcount⟩ := h
    cases f' with
    | invalid index' count' =>
      obtain ⟨hstop', -, hcount'⟩ := h'
      obtain rfl := hstop.2.unique hstop'.2
      rw [hcount.unique hcount']
    | incomplete index' =>
      obtain rfl := hstop.2.unique h'.1.2
      exact absurd h'.2 hillegal
  | incomplete index =>
    obtain ⟨hstop, hlegal⟩ := h
    cases f' with
    | invalid index' count' =>
      obtain rfl := hstop.2.unique h'.1.2
      exact absurd hlegal h'.2.1
    | incomplete index' => rw [hstop.2.unique h'.1.2]

/-- The fault of bytes that are no text tells of them. -/
theorem of_decode_error {bytes : List UInt8} {f : Fault} (h : decode bytes = .error f) : f.Of bytes := by
  obtain ⟨done, b, rest, rfl, hdone, hfault⟩ := exists_of_decodeFrom_error h
  rw [Nat.zero_add] at hfault
  have hdrop : (done ++ b :: rest).drop done.length = b :: rest := List.drop_left
  rcases hfault with ⟨hfront, rfl⟩ | ⟨count, hfront, rfl⟩
  · refine ⟨stopsAt_of_front hdone (by simp [hfront]), ?_⟩
    rw [hdrop]
    exact legalStart_of_front hfront
  · refine ⟨stopsAt_of_front hdone (by simp [hfront]), ?_⟩
    rw [hdrop]
    exact maximalPart_of_front hfront

/-- Bytes are read as a text exactly if they are those of the text. -/
theorem decode_eq_ok_iff {bytes : List UInt8} {cs : List Char} : decode bytes = .ok cs ↔ encode cs = bytes := by
  constructor
  · exact encode_of_decode
  · rintro rfl
    exact decode_encode cs

/-- Bytes are no text, by a fault, exactly if the fault tells of them. -/
theorem decode_eq_error_iff {bytes : List UInt8} {f : Fault} : decode bytes = .error f ↔ f.Of bytes := by
  constructor
  · exact of_decode_error
  · intro h
    cases hdecode : decode bytes with
    | ok cs => exact absurd (wellFormed_of_decodeFrom hdecode) h.not_wellFormed
    | error f' => rw [(of_decode_error hdecode).unique h]

/-- Bytes are well-formed exactly if they are those of a text. -/
theorem wellFormed_iff {bytes : List UInt8} : WellFormed bytes ↔ ∃ cs, encode cs = bytes := by
  constructor
  · intro h
    cases hdecode : decode bytes with
    | ok cs => exact ⟨cs, encode_of_decode hdecode⟩
    | error f => exact absurd h (of_decode_error hdecode).not_wellFormed
  · rintro ⟨cs, rfl⟩
    exact wellFormed_of_decodeFrom (decode_encode cs)

end ManagedSymbols.Utf8
