import ManagedSymbols.Constant
import ManagedSymbols.Slot

/-!
# Scopes: the lexical blocks of a method

A scope is a range of code, counted from the start of its method, with the locals declared in it and the scopes nested in it. A
forest of scopes is walked parents first and siblings in order, with a stack of the scopes still to be visited (`Scope.walk`);
`Scope.preorder` is the same sequence by recursion on the forest (`Scope.walk_eq_preorder`). The innermost scope at an offset is
found level by level (`Scope.innermost?`): on each level the last scope that contains the offset is entered.
-/

namespace ManagedSymbols

/-- A lexical scope: its range of code, what is declared in it, and the scopes nested in it. -/
structure Scope where
  segment : UInt16
  /-- Where the scope starts, counted from the start of its method. -/
  address : UInt32
  length : UInt32
  /-- The scopes nested directly in this one, in the order of the stream. -/
  scopes : List Scope
  slots : List Slot
  constants : List Constant
  usedNamespaces : List String

namespace Scope

/-- Whether an offset lies in the range of a scope; the range may reach past 32 bits. -/
def contains (s : Scope) (offset : UInt32) : Bool :=
  s.address ≤ offset && offset.toNat < s.address.toNat + s.length.toNat

/-! ## Walking -/

mutual

/-- How many scopes a scope holds, itself included. -/
def size : Scope → Nat
  | ⟨_, _, _, scopes, _, _, _⟩ => 1 + sizeAll scopes

/-- How many scopes a forest holds. -/
def sizeAll : List Scope → Nat
  | [] => 0
  | s :: rest => size s + sizeAll rest

end

mutual

/-- A scope and all scopes below it: parents first, siblings in order. -/
def preorderOf : Scope → List Scope
  | s@⟨_, _, _, scopes, _, _, _⟩ => s :: preorder scopes

/-- The scopes of a forest: parents first, siblings in order. -/
def preorder : List Scope → List Scope
  | [] => []
  | s :: rest => preorderOf s ++ preorder rest

end

theorem preorder_cons (s : Scope) (rest : List Scope) : preorder (s :: rest) = s :: (preorder s.scopes ++ preorder rest) := by
  cases s
  rfl

theorem preorder_append (front back : List Scope) : preorder (front ++ back) = preorder front ++ preorder back := by
  induction front with
  | nil => rfl
  | cons s rest ih => rw [List.cons_append, preorder_cons, preorder_cons, ih, List.cons_append, List.append_assoc]

theorem size_eq (s : Scope) : s.size = 1 + sizeAll s.scopes := by
  cases s
  simp [size]

theorem sizeAll_append (front back : List Scope) : sizeAll (front ++ back) = sizeAll front + sizeAll back := by
  induction front with
  | nil => simp [sizeAll]
  | cons s rest ih => simp only [List.cons_append, sizeAll, ih]; omega

/-- The scopes that a walk visits from a stack of scopes on: the top of the stack, then the walk of the stack with the scopes below
it in its place. -/
def walk : List Scope → List Scope
  | [] => []
  | s :: stack => s :: walk (s.scopes ++ stack)
termination_by stack => sizeAll stack
decreasing_by
  simp only [sizeAll_append, sizeAll, size_eq]
  omega

/-- The scopes below a scope, in the order of a walk. -/
def descendants (s : Scope) : List Scope :=
  walk s.scopes

/-- The walk with a stack of the scopes still to be visited is the walk by recursion on the forest. -/
theorem walk_eq_preorder (forest : List Scope) : walk forest = preorder forest := by
  fun_induction walk forest with
  | case1 => rfl
  | case2 s stack ih => rw [ih, preorder_append, preorder_cons]

theorem walk_cons (s : Scope) (rest : List Scope) : walk (s :: rest) = s :: (s.descendants ++ walk rest) := by
  simp only [descendants, walk_eq_preorder, preorder_cons]

theorem length_walk (forest : List Scope) : (walk forest).length = sizeAll forest := by
  fun_induction walk forest with
  | case1 => rfl
  | case2 s stack ih =>
    rw [List.length_cons, ih, sizeAll_append, sizeAll, size_eq]
    omega

/-- What is below a scope of a walk is in the walk too. -/
theorem mem_walk_of_mem_descendants {forest : List Scope} {s d : Scope} (hs : s ∈ walk forest) (hd : d ∈ s.descendants) :
    d ∈ walk forest := by
  fun_induction walk forest with
  | case1 => cases hs
  | case2 top stack ih =>
    rcases List.mem_cons.mp hs with rfl | hbelow
    · rw [walk_eq_preorder, preorder_append, ← walk_eq_preorder]
      exact List.mem_cons_of_mem _ (List.mem_append_left _ hd)
    · exact List.mem_cons_of_mem _ (ih hbelow)

/-! ## Finding -/

mutual

/-- The place, in the walk of a scope, of the innermost scope at an offset, if the scope contains the offset. -/
def innermostIn? (offset : UInt32) : Scope → Option Nat
  | s@⟨_, _, _, scopes, _, _, _⟩ =>
    if contains s offset then
      match innermost? offset scopes with
      | some i => some (i + 1)
      | none => some 0
    else none

/-- The place, in the walk of a forest, of the innermost scope at an offset: of the scopes side by side the last one that contains
the offset is entered. -/
def innermost? (offset : UInt32) : List Scope → Option Nat
  | [] => none
  | s :: rest =>
    match innermost? offset rest with
    | some i => some (size s + i)
    | none => innermostIn? offset s

end

/-- The innermost scope of a forest at an offset. -/
def find? (forest : List Scope) (offset : UInt32) : Option Scope :=
  (innermost? offset forest).bind fun i => (walk forest)[i]?

/-! ## Lengths as Visual Basic means them -/

/-- A length that is one byte longer; the greatest length stays. -/
def widenLength (length : UInt32) : UInt32 :=
  if length = 0xFFFFFFFF then length else length + 1

mutual

/-- A scope with every length in it, its own included, one byte longer. -/
def widen : Scope → Scope
  | ⟨segment, address, length, scopes, slots, constants, usedNamespaces⟩ =>
    ⟨segment, address, widenLength length, widenAll scopes, slots, constants, usedNamespaces⟩

/-- A forest with every length in it one byte longer. -/
def widenAll : List Scope → List Scope
  | [] => []
  | s :: rest => widen s :: widenAll rest

end

/-! ## Sameness -/

/-- Whether two lists agree place by place. -/
def sameList {α : Type} (same : α → α → Bool) : List α → List α → Bool
  | [], [] => true
  | a :: as, b :: bs => same a b && sameList same as bs
  | _, _ => false

mutual

/-- Whether two scopes are the same: range, contents and nested scopes. -/
def same : Scope → Scope → Bool
  | ⟨segment₁, address₁, length₁, scopes₁, slots₁, constants₁, usedNamespaces₁⟩,
    ⟨segment₂, address₂, length₂, scopes₂, slots₂, constants₂, usedNamespaces₂⟩ =>
    segment₁ == segment₂ && address₁ == address₂ && length₁ == length₂ && sameAll scopes₁ scopes₂ &&
      slots₁ == slots₂ && sameList Constant.same constants₁ constants₂ && usedNamespaces₁ == usedNamespaces₂

/-- Whether two forests are the same, scope by scope. -/
def sameAll : List Scope → List Scope → Bool
  | [], [] => true
  | a :: as, b :: bs => same a b && sameAll as bs
  | _, _ => false

end

end Scope

end ManagedSymbols
