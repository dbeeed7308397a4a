import Mathlib.Algebra.GroupWithZero.Nat
import ManagedSymbols.Scope

/-!
# How deep a forest of scopes is and what it weighs

Scopes are nested in chains: the first scope of a chain stands in the forest, and each other one directly in the one before it
(`Scope.Chain`). Every scope is charged for the records it is decoded from (`Scope.charge`), and a forest for all scopes in it, at
every depth (`Scope.chargeAll`). Since no scope is free, a chain is never longer than what its forest is charged allows
(`Scope.Chain.length_le`). Longer lengths change neither the chains nor the charge.
-/

namespace ManagedSymbols.Scope

/-! ## Chains -/

/-- A chain of nested scopes: the first one stands in the forest, and each other one directly in the one before it. -/
inductive Chain : List Scope → List Scope → Prop where
  | nil {forest : List Scope} : Chain forest []
  | cons {forest chain : List Scope} {s : Scope} (member : s ∈ forest) (below : Chain s.scopes chain) :
      Chain forest (s :: chain)

/-- No chain of nested scopes in a forest is longer than so many. -/
def NestedUpTo (n : Nat) (forest : List Scope) : Prop :=
  ∀ chain, Chain forest chain → chain.length ≤ n

/-- A forest is nested up to so many exactly when there is room for each scope in it and, one less, for those below. -/
theorem nestedUpTo_iff {n : Nat} {forest : List Scope} :
    NestedUpTo n forest ↔ ∀ s ∈ forest, 0 < n ∧ NestedUpTo (n - 1) s.scopes := by
  constructor
  · intro hup s hs
    refine ⟨hup [s] (.cons hs .nil), fun chain hchain => ?_⟩
    have hlength := hup (s :: chain) (.cons hs hchain)
    rw [List.length_cons] at hlength
    omega
  · intro hall chain hchain
    cases hchain with
    | nil => exact Nat.zero_le n
    | @cons _ rest s hs hbelow =>
      obtain ⟨hn, hup⟩ := hall s hs
      have hlength := hup rest hbelow
      rw [List.length_cons]
      omega

theorem nestedUpTo_append {n : Nat} {front back : List Scope} :
    NestedUpTo n (front ++ back) ↔ NestedUpTo n front ∧ NestedUpTo n back := by
  rw [nestedUpTo_iff, List.forall_mem_append, ← nestedUpTo_iff, ← nestedUpTo_iff]

theorem nestedUpTo_singleton {n : Nat} {s : Scope} : NestedUpTo (n + 1) [s] ↔ NestedUpTo n s.scopes := by
  rw [nestedUpTo_iff, List.forall_mem_singleton]
  simp

theorem not_nestedUpTo_zero (s : Scope) : ¬ NestedUpTo 0 [s] := by
  rw [nestedUpTo_iff]
  simp

theorem nestedUpTo_nil (n : Nat) : NestedUpTo n [] :=
  nestedUpTo_iff.mpr fun _ hs => nomatch hs

/-! ## Longer lengths -/

/-- A forest with longer lengths is that of its scopes with longer lengths. -/
theorem widenAll_eq_map (forest : List Scope) : widenAll forest = forest.map widen := by
  induction forest with
  | nil => rfl
  | cons s rest ih => rw [widenAll, List.map_cons, ih]

/-- The scopes in a scope with longer lengths are those with longer lengths. -/
theorem scopes_widen (s : Scope) : (widen s).scopes = widenAll s.scopes := by
  cases s
  rfl

/-- Scopes with longer lengths are nested as deep. -/
theorem nestedUpTo_widenAll (n : Nat) (forest : List Scope) : NestedUpTo n (widenAll forest) ↔ NestedUpTo n forest := by
  induction n generalizing forest with
  | zero => rw [nestedUpTo_iff, nestedUpTo_iff, widenAll_eq_map]; simp
  | succ n ih =>
    rw [nestedUpTo_iff, nestedUpTo_iff, widenAll_eq_map, List.forall_mem_map]
    simp only [scopes_widen, Nat.add_sub_cancel, ih]

/-! ## Charges -/

/-- What a scope is charged for the records it is decoded from, those of the scopes in it apart: the block and its terminator are 26
bytes long at least, a slot 20, a constant 10 and an imported namespace 4. -/
def charge (s : Scope) : Nat :=
  26 + 20 * s.slots.length + 10 * s.constants.length + 4 * s.usedNamespaces.length

/-- What a forest is charged: all scopes in it, at every depth. -/
def chargeAll (forest : List Scope) : Nat :=
  ((preorder forest).map charge).sum

@[simp] theorem chargeAll_nil : chargeAll [] = 0 := by
  simp [chargeAll, preorder]

theorem chargeAll_cons (s : Scope) (rest : List Scope) :
    chargeAll (s :: rest) = s.charge + chargeAll s.scopes + chargeAll rest := by
  simp [chargeAll, preorder_cons, Nat.add_assoc]

theorem chargeAll_append (front back : List Scope) : chargeAll (front ++ back) = chargeAll front + chargeAll back := by
  simp [chargeAll, preorder_append]

/-- A forest is charged for each scope in it and for the scopes below that. -/
theorem charge_le_chargeAll {forest : List Scope} {s : Scope} (hs : s ∈ forest) :
    s.charge + chargeAll s.scopes ≤ chargeAll forest := by
  obtain ⟨front, back, rfl⟩ := List.append_of_mem hs
  rw [chargeAll_append, chargeAll_cons]
  omega

/-- Each scope of a chain is charged 26 at least, so the charge of a forest bounds its chains. -/
theorem Chain.length_le {forest chain : List Scope} (hchain : Chain forest chain) : 26 * chain.length ≤ chargeAll forest := by
  induction hchain with
  | nil => exact Nat.zero_le _
  | @cons forest chain s hs _ ih =>
    have hcharge := charge_le_chargeAll hs
    have hblock : 26 ≤ s.charge := by
      rw [charge]
      omega
    rw [List.length_cons]
    omega

/-- Longer lengths are charged alike. -/
theorem chargeAll_widenAll : (forest : List Scope) → chargeAll (widenAll forest) = chargeAll forest
  | [] => rfl
  | s :: rest => by
    have hcharge : (widen s).charge = s.charge := by
      cases s
      rfl
    rw [widenAll, chargeAll_cons, chargeAll_cons, scopes_widen, hcharge, chargeAll_widenAll s.scopes, chargeAll_widenAll rest]
termination_by forest => sizeAll forest
decreasing_by
  · simp only [sizeAll, size_eq]
    omega
  · simp only [sizeAll, size_eq]
    omega

end ManagedSymbols.Scope
