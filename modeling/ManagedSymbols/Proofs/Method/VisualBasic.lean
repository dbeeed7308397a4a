import ManagedSymbols.Proofs.Method.Gather
import ManagedSymbols.Proofs.Scope.Innermost

/-!
# Lengths as Visual Basic means them

What it means for the lengths of a forest to be one byte longer is told without computing them: the two forests have the same
shape, and scopes at the same place differ in their lengths alone (`Scope.Lengthened`, `Scope.LengthenedAll`). The lengthened forest
is walked place by place as the other one, and where a scope is found in the one, a scope is found in the other. A method with the
lengths of Visual Basic has lengthened blocks and is the same method in everything else (`Method.forVisualBasic_lengthens`).
-/

namespace ManagedSymbols

namespace Scope

mutual

/-- A scope that is one byte longer, unless its length is the greatest one, and holds the same scopes in the same order, each of
them longer too. Nothing else differs. -/
inductive Lengthened : Scope → Scope → Prop where
  | intro {segment : UInt16} {address length longer : UInt32} {scopes scopes' : List Scope} {slots : List Slot}
      {constants : List Constant} {usedNamespaces : List String}
      (byOne : longer.toNat = min (length.toNat + 1) (2 ^ 32 - 1)) (below : LengthenedAll scopes scopes') :
      Lengthened ⟨segment, address, length, scopes, slots, constants, usedNamespaces⟩
        ⟨segment, address, longer, scopes', slots, constants, usedNamespaces⟩

/-- Two lists of scopes that are equally long, the second one with a longer scope in the place of each scope of the first. -/
inductive LengthenedAll : List Scope → List Scope → Prop where
  | nil : LengthenedAll [] []
  | cons {s t : Scope} {rest rest' : List Scope} (first : Lengthened s t) (others : LengthenedAll rest rest') :
      LengthenedAll (s :: rest) (t :: rest')

end

/-- A length is made longer by one, and the greatest one stays. -/
theorem toNat_widenLength (length : UInt32) : (widenLength length).toNat = min (length.toNat + 1) (2 ^ 32 - 1) := by
  unfold widenLength
  have hlt := length.toNat_lt
  by_cases h : length = 0xFFFFFFFF
  · subst h
    rfl
  · have hne : length.toNat ≠ 0xFFFFFFFF := fun he => h (UInt32.toNat_inj.mp he)
    have hone : (1 : UInt32).toNat = 1 := rfl
    rw [if_neg h, UInt32.toNat_add, hone]
    omega

mutual

/-- A scope with longer lengths is lengthened. -/
theorem lengthened_widen : (s : Scope) → Lengthened s (widen s)
  | ⟨_, _, length, scopes, _, _, _⟩ => .intro (toNat_widenLength length) (lengthenedAll_widenAll scopes)

/-- A forest with longer lengths is lengthened. -/
theorem lengthenedAll_widenAll : (forest : List Scope) → LengthenedAll forest (widenAll forest)
  | [] => .nil
  | s :: rest => .cons (lengthened_widen s) (lengthenedAll_widenAll rest)

end

/-- A longer scope contains what the shorter one contains. -/
theorem Lengthened.contains {s t : Scope} {offset : UInt32} (h : Lengthened s t) (hs : s.contains offset = true) :
    t.contains offset = true := by
  cases h with
  | @intro _ _ length _ _ _ _ _ _ byOne _ =>
    have hlt := length.toNat_lt
    simp only [Scope.contains, Bool.and_eq_true, decide_eq_true_eq] at hs ⊢
    obtain ⟨hstart, hend⟩ := hs
    refine ⟨hstart, ?_⟩
    omega

namespace LengthenedAll

variable {forest forest' : List Scope}

/-- Lists side by side are lengthened where both are. -/
theorem append {back back' : List Scope} (front : LengthenedAll forest forest') (hback : LengthenedAll back back') :
    LengthenedAll (forest ++ back) (forest' ++ back') := by
  induction forest generalizing forest' with
  | nil =>
    cases front
    exact hback
  | cons s rest ih =>
    cases front with
    | cons first others => exact .cons first (ih others)

/-- In the place of each scope there is a longer one. -/
theorem exists_of_mem (h : LengthenedAll forest forest') {s : Scope} (hs : s ∈ forest) : ∃ t ∈ forest', Lengthened s t := by
  induction forest generalizing forest' with
  | nil => cases hs
  | cons top rest ih =>
    cases h with
    | @cons _ t _ _ first others =>
      rcases List.mem_cons.mp hs with rfl | hs
      · exact ⟨t, List.mem_cons_self, first⟩
      · obtain ⟨u, hu, hlonger⟩ := ih others hs
        exact ⟨u, List.mem_cons_of_mem _ hu, hlonger⟩

end LengthenedAll

mutual

/-- A longer scope is walked as the shorter one. -/
theorem Lengthened.preorderOf {s t : Scope} : Lengthened s t → LengthenedAll (preorderOf s) (preorderOf t)
  | .intro byOne below => .cons (.intro byOne below) below.preorder

/-- A lengthened forest is walked as the forest. -/
theorem LengthenedAll.preorder {forest forest' : List Scope} :
    LengthenedAll forest forest' → LengthenedAll (preorder forest) (preorder forest')
  | .nil => .nil
  | .cons first others => first.preorderOf.append others.preorder

end

end Scope

namespace Method

open Scope

/-- The root of a method, if it has one, holds no scopes: the blocks of the body stand beside it. -/
def RootAlone (m : Method) : Prop :=
  ∀ r, m.root = some r → r.scopes = []

/-- The root of a method that is read holds no scopes. -/
theorem rootAlone_of_read {moduleName : String} {options : Options} {h : RecordHeader} {record : ProcedureRecord} {b : Buffer}
    {p q : Nat} {m : Method} (hr : Method.read moduleName options h record b p = (.ok m, q)) : m.RootAlone := by
  obtain ⟨t, found, -, -, rfl, -⟩ := exists_body_of_read hr
  have hbody : (ofBody moduleName record t.hasLocals found).RootAlone := by
    intro r hr
    unfold ofBody at hr
    cases hroot : t.hasLocals with
    | false => simp [hroot] at hr
    | true =>
      simp only [hroot, if_true, Option.some.injEq] at hr
      rw [← hr]
  cases options.visualBasic with
  | false => exact hbody
  | true =>
    intro r hr
    obtain ⟨hkept, -⟩ := (ofBody moduleName record t.hasLocals found).forVisualBasic_parts
    exact hbody r (hkept ▸ hr)

/-- The scopes of a method are walked in two parts: first the root, and then the blocks. -/
theorem allScopes_eq (m : Method) : m.allScopes = walk m.root.toList ++ walk m.blocks := by
  simp only [allScopes, scopes, walk_eq_preorder, preorder_append]

/-- A root that holds no scopes is walked alone. -/
theorem RootAlone.walk_root {m : Method} (h : m.RootAlone) : walk m.root.toList = m.root.toList := by
  cases hroot : m.root with
  | none => rw [Option.toList_none, walk]
  | some r => rw [Option.toList_some, walk, h r hroot, List.append_nil, walk]

/-- A method that does not have the lengths of Visual Basic gets them: its blocks are lengthened, and it is the same method in
everything else. -/
theorem forVisualBasic_eq {m : Method} (h : m.visualBasic = false) :
    m.forVisualBasic = { m with blocks := m.forVisualBasic.blocks, visualBasic := true } ∧
      LengthenedAll m.blocks m.forVisualBasic.blocks := by
  have hnot : ¬ m.visualBasic = true := by simp [h]
  rw [forVisualBasic, if_neg hnot]
  exact ⟨rfl, lengthenedAll_widenAll m.blocks⟩

/-- A method that has the lengths of Visual Basic stays as it is. -/
theorem forVisualBasic_of_visualBasic {m : Method} (h : m.visualBasic = true) : m.forVisualBasic = m := by
  rw [forVisualBasic, if_pos h]

/-- A method with the lengths of Visual Basic is known to have them. -/
theorem visualBasic_forVisualBasic (m : Method) : m.forVisualBasic.visualBasic = true := by
  cases h : m.visualBasic with
  | false => rw [(forVisualBasic_eq h).1]
  | true => rw [forVisualBasic_of_visualBasic h, h]

/-- Where a scope is found in a method, a scope is found with the lengths of Visual Basic. -/
theorem isSome_findScope?_forVisualBasic {m : Method} {offset : UInt32} (h : (m.findScope? offset).isSome) :
    (m.forVisualBasic.findScope? offset).isSome := by
  cases hvb : m.visualBasic with
  | true => rwa [forVisualBasic_of_visualBasic hvb]
  | false =>
    obtain ⟨hkept, hlonger⟩ := forVisualBasic_eq hvb
    rw [findScope?, isSome_find?_iff_mem] at h ⊢
    obtain ⟨s, hs, hoffset⟩ := h
    rw [hkept]
    rcases List.mem_append.mp hs with hroot | hblock
    · exact ⟨s, List.mem_append_left _ hroot, hoffset⟩
    · obtain ⟨t, ht, hst⟩ := hlonger.exists_of_mem hblock
      exact ⟨t, List.mem_append_right _ ht, hst.contains hoffset⟩

/-- A method that has the lengths of Visual Basic stays as it is. Any other one becomes a method that has them, has the same root and
is the same in everything but its blocks, which have the same shape, and scopes that differ in their lengths alone: each is longer by
one at every depth, and the greatest length stays. In the walk of the method the root comes first and is left alone, and behind it
each scope has the longer one in its place; the root of a method that is read holds no scopes. The lengths are not made longer a second
time, and at an offset where a scope is found one is found with the longer lengths. -/
theorem forVisualBasic_lengthens (m : Method) :
    (m.visualBasic = true → m.forVisualBasic = m) ∧
      (m.visualBasic = false →
        m.forVisualBasic = { m with blocks := m.forVisualBasic.blocks, visualBasic := true } ∧
          LengthenedAll m.blocks m.forVisualBasic.blocks ∧ LengthenedAll (walk m.blocks) (walk m.forVisualBasic.blocks)) ∧
      (m.allScopes = walk m.root.toList ++ walk m.blocks ∧
        m.forVisualBasic.allScopes = walk m.root.toList ++ walk m.forVisualBasic.blocks) ∧
      (m.RootAlone → m.forVisualBasic.RootAlone ∧ walk m.root.toList = m.root.toList) ∧
      (∀ moduleName options h record b p q, Method.read moduleName options h record b p = (.ok m, q) → m.RootAlone) ∧
      m.forVisualBasic.forVisualBasic = m.forVisualBasic ∧
      ∀ offset, (m.findScope? offset).isSome → (m.forVisualBasic.findScope? offset).isSome := by
  have hroot : m.forVisualBasic.root = m.root := m.forVisualBasic_parts.1
  refine ⟨forVisualBasic_of_visualBasic, fun h => ?_, ⟨m.allScopes_eq, ?_⟩, fun halone => ⟨?_, halone.walk_root⟩, ?_, ?_, ?_⟩
  · obtain ⟨hkept, hlonger⟩ := forVisualBasic_eq h
    refine ⟨hkept, hlonger, ?_⟩
    rw [walk_eq_preorder, walk_eq_preorder]
    exact hlonger.preorder
  · rw [allScopes_eq, hroot]
  · unfold RootAlone
    rw [hroot]
    exact halone
  · intro _ _ _ _ _ _ _ hr
    exact rootAlone_of_read hr
  · exact forVisualBasic_of_visualBasic m.visualBasic_forVisualBasic
  · intro offset
    exact isSome_findScope?_forVisualBasic

/-- A method with a root and a block of the greatest length in which a block is nested. -/
def sampleGreatest : Method :=
  { sampleBlocks with blocks := [sampleScope 8 0xFFFFFFFF [sampleScope 10 4 []]] }

/-- In the sample the root and the block of the greatest length keep their lengths, and the nested block is longer by one. -/
theorem forVisualBasic_lengthens_sampleGreatest :
    sampleGreatest.visualBasic = false ∧ sampleGreatest.RootAlone ∧
      sampleGreatest.allScopes.map Scope.length = [64, 0xFFFFFFFF, 4] ∧
      sampleGreatest.forVisualBasic.allScopes.map Scope.length = [64, 0xFFFFFFFF, 5] ∧
      (sampleGreatest.findScope? 13).isSome ∧ (sampleGreatest.forVisualBasic.findScope? 13).isSome := by
  obtain ⟨-, hlonger, ⟨hwalk, hwalk'⟩, halone, -, -, hfound⟩ := forVisualBasic_lengthens sampleGreatest
  have hroot : sampleGreatest.RootAlone := by
    intro r hr
    cases hr
    rfl
  have hsome : (sampleGreatest.findScope? 13).isSome :=
    (isSome_find?_iff_mem _ _).mpr ⟨sampleScope 0 64 [], List.mem_cons_self, by decide⟩
  have hblocks := (hlonger rfl).1
  refine ⟨rfl, hroot, ?_, ?_, hsome, hfound 13 hsome⟩
  · rw [hwalk, (halone hroot).2, walk_eq_preorder]
    rfl
  · rw [hwalk', (halone hroot).2, walk_eq_preorder]
    rfl

end Method

end ManagedSymbols
