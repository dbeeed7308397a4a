import Mathlib.Data.List.Nodup
import ManagedSymbols.Proofs.Scope.Innermost

/-!
# Methods in order

What a stable sort gives is told without sorting: the same methods in ascending order, and those that are equal in the order as they
stood before (`Method.StablySorted`). For an order that is consistent there is one such list, and it is the one that is sorted to
(`Method.stablySorted_iff`). So two sorts in a row are told from what the first one leaves among the methods that the second one finds
equal: sorting by a second order and then by a first one is sorting by both (`Method.StablySorted.lex`). The orders by address, and by
address and token, are consistent, and the second one breaks the ties of the first (`Method.orders_sort_stably`).
-/

namespace ManagedSymbols

instance : Std.TransOrd Token :=
  inferInstanceAs (Std.TransCmp (compareOn Token.value))

instance : Std.LawfulEqOrd Token where
  compare_self := Std.ReflOrd.compare_self
  eq_of_compare {a b} h := by
    obtain ⟨v⟩ := a
    obtain ⟨w⟩ := b
    exact congrArg Token.mk (Std.LawfulEqOrd.eq_of_compare h)

namespace Method

/-! ## Stable sorting -/

section Sorting

variable {order : Method → Method → Ordering} {ms sorted : List Method}

/-- The answers of an order fit together: a method is equal to itself, of two methods one does not come behind the other, not
coming behind is handed on, and the answer is the opposite one the other way around. -/
structure TotalPreorder (order : Method → Method → Ordering) : Prop where
  refl : ∀ m, order m m = .eq
  total : ∀ a b, (order a b).isLE ∨ (order b a).isLE
  trans : ∀ a b c, (order a b).isLE → (order b c).isLE → (order a c).isLE
  swap : ∀ a b, order b a = (order a b).swap

/-- Whether a method is equal to another one in an order. -/
def tied (order : Method → Method → Ordering) (m a : Method) : Bool :=
  (order m a).isEq

/-- What a stable sort gives: the same methods in ascending order, and those that are equal in the order as they stood. -/
structure StablySorted (order : Method → Method → Ordering) (ms sorted : List Method) : Prop where
  perm : sorted.Perm ms
  ascending : sorted.Pairwise fun a b => (order a b).isLE
  ties : ∀ m, sorted.filter (tied order m) = ms.filter (tied order m)

/-- A list in ascending order is left as it is. -/
theorem sortBy_of_ascending (h : ms.Pairwise fun a b => (order a b).isLE) : sortBy order ms = ms :=
  List.mergeSort_of_pairwise h

/-- Methods are equal in one order followed by another if they are equal in each of the two. -/
theorem tied_lex (major minor : Method → Method → Ordering) (m a : Method) :
    tied (compareLex major minor) m a = (tied major m a && tied minor m a) :=
  Ordering.isEq_then

/-- What is kept of two lists agrees behind their first one if it agrees with it. -/
theorem filter_eq_of_cons {keep : Method → Bool} {x : Method} {xs ys : List Method}
    (h : (x :: xs).filter keep = (x :: ys).filter keep) : xs.filter keep = ys.filter keep := by
  rw [List.filter_cons, List.filter_cons] at h
  split at h
  · exact (List.cons.inj h).2
  · exact h

variable [Std.TransCmp order]

theorem isLE_total (a b : Method) : (order a b).isLE || (order b a).isLE := by
  have hswap : order b a = (order a b).swap := Std.OrientedCmp.eq_swap
  rw [hswap]
  cases order a b <;> rfl

/-- An order whose answers are handed on and turned around is a total preorder. -/
theorem TotalPreorder.of_transCmp : TotalPreorder order where
  refl _ := Std.ReflCmp.compare_self
  total a b := (Bool.or_eq_true _ _).mp (isLE_total a b)
  trans _ _ _ := Std.TransCmp.isLE_trans
  swap _ _ := Std.OrientedCmp.eq_swap

theorem tied_self (m : Method) : tied order m m = true :=
  Ordering.isEq_iff_eq_eq.mpr Std.ReflCmp.compare_self

/-- A sorted list is in ascending order. -/
theorem pairwise_sortBy (ms : List Method) : (sortBy order ms).Pairwise fun a b => (order a b).isLE :=
  List.pairwise_mergeSort (fun _ _ _ => Std.TransCmp.isLE_trans) isLE_total ms

/-- Methods that are equal to one method are in ascending order, however they stand. -/
theorem pairwise_filter_tied (m : Method) (ms : List Method) :
    (ms.filter (tied order m)).Pairwise fun a b => (order a b).isLE := by
  refine List.pairwise_of_forall_mem_list fun a ha b hb => ?_
  have hma : order m a = .eq := Ordering.isEq_iff_eq_eq.mp (List.mem_filter.mp ha).2
  have hmb : order m b = .eq := Ordering.isEq_iff_eq_eq.mp (List.mem_filter.mp hb).2
  rw [Std.TransCmp.eq_trans (Std.OrientedCmp.eq_symm hma) hmb, Ordering.isLE_eq]

/-- Sorting keeps methods that are equal in the order as they stood. -/
theorem filter_tied_sortBy (m : Method) (ms : List Method) :
    (sortBy order ms).filter (tied order m) = ms.filter (tied order m) := by
  have hsublist : (ms.filter (tied order m)).Sublist (sortBy order ms) :=
    List.sublist_mergeSort (fun _ _ _ => Std.TransCmp.isLE_trans) isLE_total (pairwise_filter_tied m ms) List.filter_sublist
  have hfiltered := hsublist.filter (tied order m)
  simp only [List.filter_filter, Bool.and_self] at hfiltered
  exact (hfiltered.eq_of_length ((List.mergeSort_perm ms _).filter _).length_eq.symm).symm

/-- Sorting gives what a stable sort gives. -/
theorem stablySorted_sortBy (ms : List Method) : StablySorted order ms (sortBy order ms) where
  perm := List.mergeSort_perm ms _
  ascending := pairwise_sortBy ms
  ties m := filter_tied_sortBy m ms

/-- Two lists with the same methods at each place of the order hold the same methods. -/
theorem mem_of_ties {xs ys : List Method} (h : ∀ m, xs.filter (tied order m) = ys.filter (tied order m)) {a : Method}
    (ha : a ∈ xs) : a ∈ ys := by
  have hkept : a ∈ xs.filter (tied order a) := List.mem_filter.mpr ⟨ha, tied_self a⟩
  rw [h a] at hkept
  exact (List.mem_filter.mp hkept).1

/-- The first one of a list in ascending order comes behind none of the list. -/
theorem isLE_of_mem {x y : Method} {xs : List Method} (h : (x :: xs).Pairwise fun a b => (order a b).isLE)
    (hy : y ∈ x :: xs) : (order x y).isLE := by
  rcases List.mem_cons.mp hy with rfl | hy
  · exact Std.ReflCmp.isLE_rfl
  · exact (List.pairwise_cons.mp h).1 y hy

/-- Two lists in ascending order that have the same methods at each place of the order are the same. -/
theorem eq_of_ties {xs ys : List Method} (hxs : xs.Pairwise fun a b => (order a b).isLE)
    (hys : ys.Pairwise fun a b => (order a b).isLE) (h : ∀ m, xs.filter (tied order m) = ys.filter (tied order m)) :
    xs = ys := by
  have hback : ∀ m, ys.filter (tied order m) = xs.filter (tied order m) := fun m => (h m).symm
  induction xs generalizing ys with
  | nil => exact (List.eq_nil_iff_forall_not_mem.mpr fun a ha => List.not_mem_nil (mem_of_ties hback ha)).symm
  | cons x xs ih =>
    cases ys with
    | nil => exact absurd (mem_of_ties h List.mem_cons_self) List.not_mem_nil
    | cons y ys =>
      -- Each of the two first methods stands in the other list, so neither comes behind the other one.
      have hxy : (order x y).isLE := isLE_of_mem hxs (mem_of_ties hback List.mem_cons_self)
      have hyx : (order y x).isLE := isLE_of_mem hys (mem_of_ties h List.mem_cons_self)
      have htied : tied order x y = true := Ordering.isEq_iff_eq_eq.mpr (Std.OrientedCmp.isLE_antisymm hxy hyx)
      have hfirst := h x
      rw [List.filter_cons_of_pos (tied_self x), List.filter_cons_of_pos htied] at hfirst
      obtain rfl := (List.cons.inj hfirst).1
      have hrest (m : Method) : xs.filter (tied order m) = ys.filter (tied order m) := filter_eq_of_cons (h m)
      rw [ih hxs.of_cons hys.of_cons hrest fun m => (hrest m).symm]

/-- There is one list that a stable sort gives, and sorting gives it. -/
theorem stablySorted_iff : StablySorted order ms sorted ↔ sorted = sortBy order ms := by
  refine ⟨fun h => ?_, ?_⟩
  · exact eq_of_ties h.ascending (pairwise_sortBy ms) fun m => by rw [h.ties, filter_tied_sortBy]
  · rintro rfl
    exact stablySorted_sortBy ms

/-- Of two methods that are equal in the order, the one that is in front behind the sort was in front before. -/
theorem StablySorted.pair_sublist (h : StablySorted order ms sorted) {a b : Method} (hab : order a b = .eq)
    (hsorted : [a, b].Sublist sorted) : [a, b].Sublist ms := by
  have htied : tied order a b = true := Ordering.isEq_iff_eq_eq.mpr hab
  have hkept : [a, b].filter (tied order a) = [a, b] := by
    rw [List.filter_cons_of_pos (tied_self a), List.filter_cons_of_pos htied, List.filter_nil]
  have hties := hsorted.filter (tied order a)
  rw [hkept, h.ties] at hties
  exact hties.trans List.filter_sublist

/-- A list that is sorted by a second order and then by a first one is sorted by the first order, and by the second one where the
first one finds methods equal. -/
theorem StablySorted.lex {minor : Method → Method → Ordering} {between : List Method}
    (hminor : StablySorted minor ms between) (h : StablySorted order between sorted) :
    StablySorted (compareLex order minor) ms sorted where
  perm := h.perm.trans hminor.perm
  ascending := by
    refine List.pairwise_iff_forall_sublist.mpr fun {a b} hab => Ordering.isLE_then_iff_or.mpr ?_
    have hle := List.pairwise_iff_forall_sublist.mp h.ascending hab
    cases hfirst : order a b with
    | lt => exact .inl rfl
    | eq => exact .inr ⟨rfl, List.pairwise_iff_forall_sublist.mp hminor.ascending (h.pair_sublist hfirst hab)⟩
    | gt => simp [hfirst] at hle
  ties m := by
    have hboth (xs : List Method) :
        xs.filter (tied (compareLex order minor) m) = (xs.filter (tied order m)).filter (tied minor m) := by
      rw [List.filter_filter]
      exact List.filter_congr fun a _ => by rw [tied_lex, Bool.and_comm]
    calc sorted.filter (tied (compareLex order minor) m)
      _ = (sorted.filter (tied order m)).filter (tied minor m) := hboth sorted
      _ = (between.filter (tied minor m)).filter (tied order m) := by rw [h.ties, List.filter_comm]
      _ = (ms.filter (tied order m)).filter (tied minor m) := by rw [hminor.ties, List.filter_comm]
      _ = ms.filter (tied (compareLex order minor) m) := (hboth ms).symm

/-- Lists with the same methods are sorted to the same list if none of the methods are equal in the order. -/
theorem sortBy_of_perm {ms' : List Method} (hdistinct : ∀ a ∈ ms, ∀ b ∈ ms, order a b = .eq → a = b) (h : ms'.Perm ms) :
    sortBy order ms' = sortBy order ms := by
  have hperm : (sortBy order ms').Perm (sortBy order ms) :=
    (List.mergeSort_perm ms' _).trans (h.trans (List.mergeSort_perm ms _).symm)
  refine hperm.eq_of_pairwise (fun a b ha hb hab hba => ?_) (pairwise_sortBy ms') (pairwise_sortBy ms)
  have ha' : a ∈ ms := h.subset (List.mem_mergeSort.mp ha)
  exact hdistinct a ha' b (List.mem_mergeSort.mp hb) (Std.OrientedCmp.isLE_antisymm hab hba)

end Sorting

/-! ## The orders of methods -/

/-- Methods by token. -/
def compareToken (a b : Method) : Ordering :=
  compare a.token b.token

/-- What places a method among others: its segment, its address and its token. -/
def place (m : Method) : UInt16 × UInt32 × Token :=
  (m.segment, m.address, m.token)

instance : Std.TransCmp compareAddress :=
  inferInstanceAs (Std.TransCmp (compareLex (compareOn segment) (compareOn address)))

instance : Std.TransCmp compareToken :=
  inferInstanceAs (Std.TransCmp (compareOn token))

instance : Std.TransCmp compareAddressToken :=
  inferInstanceAs (Std.TransCmp (compareLex compareAddress compareToken))

/-- Methods are equal by address if their segments and addresses agree. -/
theorem compareAddress_eq_iff (a b : Method) : compareAddress a b = .eq ↔ a.segment = b.segment ∧ a.address = b.address := by
  rw [compareAddress, Ordering.then_eq_eq, Std.LawfulEqOrd.compare_eq_iff_eq, Std.LawfulEqOrd.compare_eq_iff_eq]

/-- Methods are equal by address and token if their segments, addresses and tokens agree. -/
theorem compareAddressToken_eq_iff (a b : Method) :
    compareAddressToken a b = .eq ↔ a.segment = b.segment ∧ a.address = b.address ∧ a.token = b.token := by
  rw [compareAddressToken, Ordering.then_eq_eq, compareAddress_eq_iff, Std.LawfulEqOrd.compare_eq_iff_eq, and_assoc]

/-- The token decides where the addresses do not. -/
theorem compareAddressToken_of_ne {a b : Method} (h : compareAddress a b ≠ .eq) :
    compareAddressToken a b = compareAddress a b := by
  rw [compareAddressToken]
  cases hfirst : compareAddress a b with
  | lt => rfl
  | eq => exact absurd hfirst h
  | gt => rfl

/-- Sorting by token and then by address is sorting by address and token. -/
theorem sortBy_token_address (ms : List Method) :
    sortBy compareAddress (sortBy compareToken ms) = sortBy compareAddressToken ms := by
  have hminor : StablySorted compareToken ms (sortBy compareToken ms) := stablySorted_sortBy ms
  have hmajor : StablySorted compareAddress (sortBy compareToken ms) (sortBy compareAddress (sortBy compareToken ms)) :=
    stablySorted_sortBy _
  have hboth : StablySorted compareAddressToken ms (sortBy compareAddress (sortBy compareToken ms)) := hminor.lex hmajor
  exact stablySorted_iff.mp hboth

/-- Methods in distinct places are equal by address and token only if they are the same one. -/
theorem eq_of_compareAddressToken {ms : List Method} (hdistinct : (ms.map place).Nodup) {a b : Method} (ha : a ∈ ms)
    (hb : b ∈ ms) (h : compareAddressToken a b = .eq) : a = b := by
  obtain ⟨hsegment, haddress, htoken⟩ := (compareAddressToken_eq_iff a b).mp h
  exact List.inj_on_of_nodup_map hdistinct ha hb (by rw [place, place, hsegment, haddress, htoken])

/-- The order by address and the order by address and token are total preorders. The second one differs from the first only where
that one finds two methods equal, and finds them equal exactly if they have the same segment, address and token. By these two orders
and by the token, a list of methods is sorted to the one list that a stable sort gives. Sorting by address leaves a list that is in
order by address and token as it is; sorting by token and then by address is sorting by address and token; and if the methods of a
list differ in segment, address or token, all lists with the same methods are sorted by address and token to the same list. -/
theorem orders_sort_stably :
    (∀ order ∈ [compareAddress, compareAddressToken], TotalPreorder order) ∧
      (∀ a b, compareAddress a b = .eq ↔ a.segment = b.segment ∧ a.address = b.address) ∧
      (∀ a b, compareAddress a b ≠ .eq → compareAddressToken a b = compareAddress a b) ∧
      (∀ a b, compareAddressToken a b = .eq ↔ a.segment = b.segment ∧ a.address = b.address ∧ a.token = b.token) ∧
      (∀ order ∈ [compareAddress, compareAddressToken, compareToken], ∀ ms sorted,
        StablySorted order ms sorted ↔ sorted = sortBy order ms) ∧
      (∀ ms, ms.Pairwise (fun a b => (compareAddressToken a b).isLE) → sortBy compareAddress ms = ms) ∧
      (∀ ms, sortBy compareAddress (sortBy compareToken ms) = sortBy compareAddressToken ms) ∧
      ∀ ms, (ms.map place).Nodup →
        ∀ ms', ms'.Perm ms → sortBy compareAddressToken ms' = sortBy compareAddressToken ms := by
  refine ⟨?_, compareAddress_eq_iff, fun a b => compareAddressToken_of_ne, compareAddressToken_eq_iff, ?_, fun ms h => ?_,
    fun ms => ?_, fun ms hdistinct ms' hperm => ?_⟩
  · intro order horder
    simp only [List.mem_cons, List.not_mem_nil, or_false] at horder
    rcases horder with rfl | rfl
    · exact .of_transCmp
    · exact .of_transCmp
  · intro order horder ms sorted
    simp only [List.mem_cons, List.not_mem_nil, or_false] at horder
    rcases horder with rfl | rfl | rfl
    · exact stablySorted_iff
    · exact stablySorted_iff
    · exact stablySorted_iff
  · exact sortBy_of_ascending (h.imp Ordering.isLE_left_of_isLE_then)
  · exact sortBy_token_address ms
  · exact sortBy_of_perm (fun a ha b hb => eq_of_compareAddressToken hdistinct ha hb) hperm

/-- A method that differs from the sample in its name and its place. -/
def sampleAt (name : String) (segment : UInt16) (address token : UInt32) : Method :=
  { sampleBlocks with name := some name, segment, address, token := ⟨token⟩ }

/-- Three methods in order by address and token, two of them at one address. -/
def sampleListed : List Method :=
  [sampleAt "early" 1 0x200 1, sampleAt "late" 1 0x200 3, sampleAt "far" 2 0x100 2]

/-- With another method in the first place, the sample is in order still, and sorting by address leaves it so. Turned around, the
sample is sorted back, by address and token as well as by token and then by address. -/
theorem orders_sort_stably_sampleListed :
    (sampleAt "again" 1 0x200 1 :: sampleListed).Pairwise (fun a b => (compareAddressToken a b).isLE) ∧
      sortBy compareAddress (sampleAt "again" 1 0x200 1 :: sampleListed) = sampleAt "again" 1 0x200 1 :: sampleListed ∧
      (sampleListed.map place).Nodup ∧ sampleListed.reverse.Perm sampleListed ∧
      sortBy compareAddressToken sampleListed.reverse = sampleListed ∧
      sortBy compareAddress (sortBy compareToken sampleListed.reverse) = sampleListed := by
  obtain ⟨-, -, -, -, -, hkept, htwice, hpermuted⟩ := orders_sort_stably
  have hascending : (sampleAt "again" 1 0x200 1 :: sampleListed).Pairwise fun a b => (compareAddressToken a b).isLE := by decide
  have hdistinct : (sampleListed.map place).Nodup := by decide
  have hperm : sampleListed.reverse.Perm sampleListed := List.reverse_perm _
  have hsorted : sortBy compareAddressToken sampleListed.reverse = sampleListed := by
    rw [hpermuted _ hdistinct _ hperm]
    exact sortBy_of_ascending hascending.of_cons
  exact ⟨hascending, hkept _ hascending, hdistinct, hperm, hsorted, (htwice _).trans hsorted⟩

end Method

end ManagedSymbols
