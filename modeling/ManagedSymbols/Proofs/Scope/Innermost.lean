import ManagedSymbols.Method
import ManagedSymbols.Proofs.Scope.Nesting

/-!
# Which scope is found at an offset

A scope is found by a descent: of the scopes side by side the last one that contains the offset is entered, and so on below it. The
walk of a forest knows nothing of levels. To compare the two, each scope is taken together with the scopes that it is nested in
(`Scope.Lineage`, `Scope.lineages`). The descent stops at the last scope of the walk that contains the offset together with all
scopes above it (`Scope.exists_lastAt`), whatever the ranges are. Where every scope lies in the one it is nested in
(`Scope.RangesNested`), this is the last scope of the walk that contains the offset.
-/

namespace ManagedSymbols

/-! ## The last place where something holds -/

/-- An element stands at a place of a list, has a property, and no element behind it has the property. -/
def LastAt {α : Type} (p : α → Bool) (as : List α) (i : Nat) (a : α) : Prop :=
  ∃ front back, as = front ++ a :: back ∧ front.length = i ∧ p a = true ∧ ∀ c ∈ back, p c = false

namespace LastAt

variable {α β : Type} {p : α → Bool} {as : List α} {i : Nat} {a : α}

/-- An element with the property is the last one if none of those behind it has the property. -/
theorem head (ha : p a = true) (has : ∀ c ∈ as, p c = false) : LastAt p (a :: as) 0 a :=
  ⟨[], as, rfl, rfl, ha, has⟩

/-- What stands in front moves the place. -/
theorem prepend (h : LastAt p as i a) (front : List α) : LastAt p (front ++ as) (front.length + i) a := by
  obtain ⟨inner, back, rfl, rfl, ha, hback⟩ := h
  exact ⟨front ++ inner, back, by rw [List.append_assoc], by rw [List.length_append], ha, hback⟩

/-- What stands behind and does not have the property changes nothing. -/
theorem append (h : LastAt p as i a) {rest : List α} (hrest : ∀ c ∈ rest, p c = false) : LastAt p (as ++ rest) i a := by
  obtain ⟨front, back, rfl, hi, ha, hback⟩ := h
  refine ⟨front, back ++ rest, by rw [List.append_assoc, List.cons_append], hi, ha, ?_⟩
  exact List.forall_mem_append.mpr ⟨hback, hrest⟩

/-- The element stands at the place. -/
theorem getElem? (h : LastAt p as i a) : as[i]? = some a := by
  obtain ⟨front, back, rfl, rfl, -, -⟩ := h
  simp

/-- The element is the last one of those that have the property. -/
theorem getLast?_filter (h : LastAt p as i a) : (as.filter p).getLast? = some a := by
  obtain ⟨front, back, rfl, -, ha, hback⟩ := h
  have hnone : back.filter p = [] := List.filter_eq_nil_iff.mpr fun c hc => by simp [hback c hc]
  rw [List.filter_append, List.filter_cons_of_pos ha, hnone, List.getLast?_concat]

/-- In the images of the elements, the image of the element is the last one with a property that says the same of the images. -/
theorem map {f : α → β} {q : β → Bool} (h : LastAt p as i a) (hpq : ∀ c ∈ as, p c = q (f c)) : LastAt q (as.map f) i (f a) := by
  obtain ⟨front, back, rfl, rfl, ha, hback⟩ := h
  obtain ⟨-, hpqa, hpqBack⟩ := List.forall_mem_append.mp hpq |>.imp_right List.forall_mem_cons.mp
  refine ⟨front.map f, back.map f, by rw [List.map_append, List.map_cons], List.length_map f, hpqa ▸ ha, ?_⟩
  exact List.forall_mem_map.mpr fun c hc => hpqBack c hc ▸ hback c hc

end LastAt

namespace Scope

/-! ## Scopes and what they are nested in -/

/-- A scope with the scopes that it is nested in, the innermost one first. -/
structure Lineage where
  scope : Scope
  above : List Scope

/-- The scopes of a forest, parents first and siblings in order, each with the scopes that it is nested in. What the forest itself
is nested in stands above all of them. -/
def lineages (above : List Scope) : List Scope → List Lineage
  | [] => []
  | s :: rest => ⟨s, above⟩ :: (lineages (s :: above) s.scopes ++ lineages above rest)
termination_by forest => sizeAll forest
decreasing_by
  · simp only [sizeAll, size_eq]
    omega
  · simp only [sizeAll, size_eq]
    omega

namespace Lineage

/-- A scope that is nested directly in the scope of a lineage. -/
def child (l : Lineage) (c : Scope) : Lineage :=
  ⟨c, l.scope :: l.above⟩

/-- Whether a scope and all scopes that it is nested in contain an offset. -/
def covers (offset : UInt32) (l : Lineage) : Bool :=
  (l.scope :: l.above).all fun s => s.contains offset

/-- A nested scope covers an offset if it contains it and the scope around it covers it. -/
theorem covers_child (offset : UInt32) (l : Lineage) (c : Scope) :
    (l.child c).covers offset = (c.contains offset && l.covers offset) :=
  rfl

end Lineage

/-- The scopes of the lineages are those of the walk, in its order. -/
theorem map_scope_lineages (above forest : List Scope) : (lineages above forest).map Lineage.scope = walk forest := by
  rw [walk_eq_preorder]
  fun_induction lineages above forest with
  | case1 => rfl
  | case2 above s rest ihBelow ihRest => rw [List.map_cons, List.map_append, ihBelow, ihRest, preorder_cons]

theorem length_lineages (above forest : List Scope) : (lineages above forest).length = sizeAll forest := by
  rw [← length_walk, ← map_scope_lineages above, List.length_map]

/-- What holds of the outermost scopes, and of a nested scope if it holds of the scope around it, holds of all lineages. -/
theorem forall_lineages {P : Lineage → Prop} {above forest : List Scope} (houter : ∀ s ∈ forest, P ⟨s, above⟩)
    (hchild : ∀ l : Lineage, l.scope ∈ walk forest → P l → ∀ c ∈ l.scope.scopes, P (l.child c)) :
    ∀ l ∈ lineages above forest, P l := by
  fun_induction lineages above forest with
  | case1 => intro l hl; cases hl
  | case2 above s rest ihBelow ihRest =>
    have hs : P ⟨s, above⟩ := houter s List.mem_cons_self
    rw [walk_cons] at hchild
    refine List.forall_mem_cons.mpr ⟨hs, List.forall_mem_append.mpr ⟨ihBelow ?_ ?_, ihRest ?_ ?_⟩⟩
    · exact hchild ⟨s, above⟩ List.mem_cons_self hs
    · exact fun l hl => hchild l (List.mem_cons_of_mem _ (List.mem_append_left _ hl))
    · exact fun t ht => houter t (List.mem_cons_of_mem _ ht)
    · exact fun l hl => hchild l (List.mem_cons_of_mem _ (List.mem_append_right _ hl))

/-- A chain of nested scopes goes on with a scope that is nested in its last one. -/
theorem Chain.concat {front : List Scope} {s c : Scope} (hc : c ∈ s.scopes) :
    {forest : List Scope} → Chain forest (front ++ [s]) → Chain forest (front ++ [s] ++ [c]) := by
  induction front with
  | nil =>
    intro forest hchain
    cases hchain with
    | cons hs _ => exact .cons hs (.cons hc .nil)
  | cons top front ih =>
    intro forest hchain
    cases hchain with
    | cons htop hbelow => exact .cons htop (ih hbelow)

/-- From the outermost one inwards, the scopes of a lineage form a chain of nested scopes. -/
theorem chain_of_mem_lineages {forest : List Scope} :
    ∀ l ∈ lineages [] forest, Chain forest (l.above.reverse ++ [l.scope]) := by
  refine forall_lineages (fun s hs => .cons hs .nil) fun l _ hl c hc => ?_
  have hlonger := hl.concat hc
  rwa [← List.reverse_cons] at hlonger

/-! ## The descent -/

/-- In a scope that contains the offset, the descent goes on below it or stops at the scope. -/
theorem innermostIn?_eq (offset : UInt32) (s : Scope) :
    innermostIn? offset s =
      if s.contains offset then some ((innermost? offset s.scopes).elim 0 (· + 1)) else none := by
  cases s
  rw [innermostIn?]
  cases innermost? offset _ <;> rfl

/-- The descent finds nothing exactly where none of the outermost scopes contains the offset. -/
theorem innermost?_eq_none_iff {offset : UInt32} {forest : List Scope} :
    innermost? offset forest = none ↔ ∀ s ∈ forest, s.contains offset = false := by
  induction forest with
  | nil => simp [innermost?]
  | cons s rest ih =>
    rw [List.forall_mem_cons, ← ih, innermost?, innermostIn?_eq]
    cases innermost? offset rest <;> simp

/-- If none of the outermost scopes contains the offset, no scope of the forest covers it. -/
theorem not_covers_of_innermost?_eq_none {offset : UInt32} {forest : List Scope} (hnone : innermost? offset forest = none)
    (above : List Scope) : ∀ l ∈ lineages above forest, l.covers offset = false := by
  have houter := innermost?_eq_none_iff.mp hnone
  refine forall_lineages (fun s hs => ?_) fun l _ hl c _ => ?_
  · simp [Lineage.covers, houter s hs]
  · rw [Lineage.covers_child, hl, Bool.and_false]

/-- The descent stops at the last scope of the walk that covers the offset, and no scope directly in it contains the offset. -/
theorem exists_lastAt {offset : UInt32} {above forest : List Scope} {i : Nat} (habove : ∀ a ∈ above, a.contains offset = true)
    (hi : innermost? offset forest = some i) :
    ∃ l, LastAt (Lineage.covers offset) (lineages above forest) i l ∧ ∀ c ∈ l.scope.scopes, c.contains offset = false := by
  fun_induction lineages above forest generalizing i with
  | case1 => cases hi
  | case2 above s rest ihBelow ihRest =>
    rw [innermost?, innermostIn?_eq] at hi
    cases hrest : innermost? offset rest with
    | some j =>
      -- A later sibling is entered: `s` and what is below it stand in front of it.
      obtain ⟨l, hlast, hchildren⟩ := ihRest habove hrest
      have hfront := hlast.prepend (⟨s, above⟩ :: lineages (s :: above) s.scopes)
      have hlength : (⟨s, above⟩ :: lineages (s :: above) s.scopes).length = s.size := by
        rw [List.length_cons, length_lineages, size_eq, Nat.add_comm]
      rw [hlength] at hfront
      simp only [hrest, Option.some.injEq] at hi
      subst hi
      exact ⟨l, hfront, hchildren⟩
    | none =>
      have hbehind := not_covers_of_innermost?_eq_none hrest above
      simp only [hrest, Option.ite_none_right_eq_some, Option.some.injEq] at hi
      obtain ⟨hs, rfl⟩ := hi
      have hinside : ∀ a ∈ s :: above, a.contains offset = true := List.forall_mem_cons.mpr ⟨hs, habove⟩
      cases hbelow : innermost? offset s.scopes with
      | some j =>
        obtain ⟨l, hlast, hchildren⟩ := ihBelow hinside hbelow
        have hfront := (hlast.append hbehind).prepend [⟨s, above⟩]
        rw [List.length_singleton, Nat.add_comm] at hfront
        exact ⟨l, hfront, hchildren⟩
      | none =>
        have hnested := not_covers_of_innermost?_eq_none hbelow (s :: above)
        refine ⟨⟨s, above⟩, .head ?_ (List.forall_mem_append.mpr ⟨hnested, hbehind⟩), innermost?_eq_none_iff.mp hbelow⟩
        exact List.all_eq_true.mpr hinside

/-- What is found stands at the place where the descent stops. -/
theorem find?_of_lastAt {offset : UInt32} {forest : List Scope} {i : Nat} {l : Lineage}
    (hi : innermost? offset forest = some i) (hlast : LastAt (Lineage.covers offset) (lineages [] forest) i l) :
    find? forest offset = some l.scope := by
  rw [find?, hi, Option.bind_some, ← map_scope_lineages [], List.getElem?_map, hlast.getElem?, Option.map_some]

/-- What is found is the last scope of the walk that covers the offset. -/
theorem find?_eq_getLast? (forest : List Scope) (offset : UInt32) :
    find? forest offset = ((lineages [] forest).filter (Lineage.covers offset)).getLast?.map Lineage.scope := by
  cases hi : innermost? offset forest with
  | none =>
    have hnone : (lineages [] forest).filter (Lineage.covers offset) = [] :=
      List.filter_eq_nil_iff.mpr fun l hl => by simp [not_covers_of_innermost?_eq_none hi [] l hl]
    rw [find?, hi, hnone]
    rfl
  | some i =>
    obtain ⟨l, hlast, -⟩ := exists_lastAt (List.forall_mem_nil _) hi
    rw [find?_of_lastAt hi hlast, hlast.getLast?_filter, Option.map_some]

/-- A scope is found exactly where one of the outermost scopes contains the offset. -/
theorem isSome_find?_iff_mem (forest : List Scope) (offset : UInt32) :
    (find? forest offset).isSome ↔ ∃ s ∈ forest, s.contains offset = true := by
  have hdescent : (find? forest offset).isSome = (innermost? offset forest).isSome := by
    cases hi : innermost? offset forest with
    | none =>
      rw [find?, hi, Option.bind_none]
      rfl
    | some i =>
      obtain ⟨l, hlast, -⟩ := exists_lastAt (List.forall_mem_nil _) hi
      rw [find?_of_lastAt hi hlast, Option.isSome_some, Option.isSome_some]
  rw [hdescent, Option.isSome_iff_ne_none, Ne, innermost?_eq_none_iff]
  simp

-- A scope that reaches past the one around it is not found behind the end of that.
example : find? [⟨1, 0, 4, [⟨1, 0, 8, [], [], [], []⟩], [], [], []⟩] 6 = none :=
  rfl

/-- No scope directly in the one that is found contains the offset. -/
theorem innermost?_scopes_of_find? {forest : List Scope} {offset : UInt32} {s : Scope} (hs : find? forest offset = some s) :
    innermost? offset s.scopes = none := by
  cases hi : innermost? offset forest with
  | none => simp [find?, hi] at hs
  | some i =>
    obtain ⟨l, hlast, hchildren⟩ := exists_lastAt (List.forall_mem_nil _) hi
    rw [find?_of_lastAt hi hlast, Option.some.injEq] at hs
    exact innermost?_eq_none_iff.mpr (hs ▸ hchildren)

/-! ## Nested ranges -/

/-- A range lies in another one: every offset in it is in the other one. -/
def LiesIn (inner outer : Scope) : Prop :=
  ∀ offset, inner.contains offset = true → outer.contains offset = true

/-- A range lies in another one if it starts no earlier and ends no later. -/
theorem liesIn_of_le {inner outer : Scope} (hstart : outer.address.toNat ≤ inner.address.toNat)
    (hend : inner.address.toNat + inner.length.toNat ≤ outer.address.toNat + outer.length.toNat) : LiesIn inner outer := by
  intro offset hoffset
  simp only [contains, Bool.and_eq_true, decide_eq_true_eq, UInt32.le_iff_toNat_le] at hoffset ⊢
  omega

/-- The range of every scope of a forest lies in the range of the scope that it is nested in. -/
def RangesNested (forest : List Scope) : Prop :=
  ∀ s ∈ walk forest, ∀ c ∈ s.scopes, LiesIn c s

namespace RangesNested

variable {forest : List Scope} {offset : UInt32} {s : Scope}

/-- Ranges are nested below each scope of a forest whose ranges are nested. -/
theorem below (hnested : RangesNested forest) (hs : s ∈ walk forest) : RangesNested s.scopes :=
  fun d hd => hnested d (mem_walk_of_mem_descendants hs hd)

/-- With nested ranges, a scope lies in all scopes around it, so it covers what it contains. -/
theorem covers_eq (hnested : RangesNested forest) (offset : UInt32) :
    ∀ l ∈ lineages [] forest, l.covers offset = l.scope.contains offset := by
  refine forall_lineages (fun s _ => by simp [Lineage.covers]) fun l hmem hl c hc => ?_
  rw [Lineage.covers_child, hl]
  -- The scope of `l.child c` is `c` itself.
  change (c.contains offset && l.scope.contains offset) = c.contains offset
  cases hoffset : c.contains offset with
  | false => rfl
  | true => rw [hnested l.scope hmem c hc offset hoffset, Bool.and_true]

/-- With nested ranges, the descent stops at the last scope of the walk that contains the offset. -/
theorem exists_lastAt (hnested : RangesNested forest) {i : Nat} (hi : innermost? offset forest = some i) :
    ∃ s, LastAt (fun t => t.contains offset) (walk forest) i s ∧ find? forest offset = some s := by
  obtain ⟨l, hlast, -⟩ := Scope.exists_lastAt (List.forall_mem_nil _) hi
  refine ⟨l.scope, ?_, find?_of_lastAt hi hlast⟩
  rw [← map_scope_lineages []]
  exact hlast.map (hnested.covers_eq offset)

/-- With nested ranges, no scope below the outermost ones contains an offset that none of those contains. -/
theorem not_contains_of_innermost?_eq_none (hnested : RangesNested forest) (hnone : innermost? offset forest = none) :
    ∀ s ∈ walk forest, s.contains offset = false := by
  rw [← map_scope_lineages []]
  refine List.forall_mem_map.mpr fun l hl => ?_
  rw [← hnested.covers_eq offset l hl, not_covers_of_innermost?_eq_none hnone [] l hl]

/-- With nested ranges, what is found is the last scope of the walk that contains the offset. -/
theorem find?_eq_getLast? (hnested : RangesNested forest) (offset : UInt32) :
    find? forest offset = ((walk forest).filter fun t => t.contains offset).getLast? := by
  rw [Scope.find?_eq_getLast?, List.filter_congr (hnested.covers_eq offset), ← map_scope_lineages [], List.filter_map,
    List.getLast?_map]
  rfl

/-- With nested ranges, a scope is found exactly where some scope contains the offset. -/
theorem isSome_find?_iff (hnested : RangesNested forest) (offset : UInt32) :
    (find? forest offset).isSome ↔ ∃ s ∈ walk forest, s.contains offset = true := by
  rw [hnested.find?_eq_getLast?, List.getLast?_isSome]
  simp [List.filter_eq_nil_iff]

/-- With nested ranges, no scope below the one that is found contains the offset. -/
theorem not_contains_of_find? (hnested : RangesNested forest) (hs : find? forest offset = some s) :
    ∀ d ∈ s.descendants, d.contains offset = false := by
  have hmem : s ∈ walk forest := by
    obtain ⟨i, -, hi⟩ := Option.bind_eq_some_iff.mp hs
    exact List.mem_of_getElem? hi
  exact (hnested.below hmem).not_contains_of_innermost?_eq_none (innermost?_scopes_of_find? hs)

end RangesNested

end Scope

namespace Method

open Scope

/-- What is found at an offset is the last scope, in the walk of the method, that contains the offset together with all scopes it is
nested in, and nothing if there is none; no scope directly in the one that is found contains the offset. Where every scope lies in
the one it is nested in, it is the last scope of the walk that contains the offset: one is found exactly where some scope contains
the offset, and no scope below it, at any depth, contains the offset. -/
theorem findScope?_last (m : Method) (offset : UInt32) :
    (lineages [] m.scopes).map Lineage.scope = m.allScopes ∧
      (∀ l ∈ lineages [] m.scopes, Chain m.scopes (l.above.reverse ++ [l.scope])) ∧
      m.findScope? offset = ((lineages [] m.scopes).filter (Lineage.covers offset)).getLast?.map Lineage.scope ∧
      (∀ i, innermost? offset m.scopes = some i →
        ∃ l, LastAt (Lineage.covers offset) (lineages [] m.scopes) i l ∧ m.findScope? offset = some l.scope) ∧
      (∀ s, m.findScope? offset = some s → ∀ c ∈ s.scopes, c.contains offset = false) ∧
      (RangesNested m.scopes →
        m.findScope? offset = (m.allScopes.filter fun s => s.contains offset).getLast? ∧
          (∀ i, innermost? offset m.scopes = some i →
            ∃ s, LastAt (fun t => t.contains offset) m.allScopes i s ∧ m.findScope? offset = some s) ∧
          ((m.findScope? offset).isSome ↔ ∃ s ∈ m.allScopes, s.contains offset = true) ∧
          ∀ s, m.findScope? offset = some s → ∀ d ∈ s.descendants, d.contains offset = false) := by
  refine ⟨map_scope_lineages .., chain_of_mem_lineages, find?_eq_getLast? .., fun i hi => ?_, fun s hs => ?_, fun hnested => ?_⟩
  · obtain ⟨l, hlast, -⟩ := exists_lastAt (List.forall_mem_nil _) hi
    exact ⟨l, hlast, find?_of_lastAt hi hlast⟩
  · exact innermost?_eq_none_iff.mp (innermost?_scopes_of_find? hs)
  · exact ⟨hnested.find?_eq_getLast? offset, fun i hi => hnested.exists_lastAt hi, hnested.isSome_find?_iff offset,
      fun s hs => hnested.not_contains_of_find? hs⟩

/-- A scope that declares nothing. -/
def sampleScope (address length : UInt32) (scopes : List Scope) : Scope :=
  ⟨1, address, length, scopes, [], [], []⟩

/-- A method of 64 bytes with a root scope and two blocks that overlap each other and the root; a block is nested in the first one,
and one without length in the second one. -/
def sampleBlocks : Method where
  token := ⟨0x06000001⟩
  slotToken := none
  name := none
  moduleName := "app"
  flags := ⟨0⟩
  segment := 1
  address := 0x1000
  length := 64
  root := some (sampleScope 0 64 [])
  blocks := [sampleScope 8 24 [sampleScope 10 4 []], sampleScope 20 30 [sampleScope 25 0 []]]
  slots := []
  constants := []
  usedNamespaces := []
  metadata := {}
  visualBasic := false

/-- The ranges of the sample are nested: at 10 the block in the first block is found, at 25 the second block, and at 100 none. -/
theorem findScope?_last_sampleBlocks :
    RangesNested sampleBlocks.scopes ∧ sampleBlocks.findScope? 10 = some (sampleScope 10 4 []) ∧
      (sampleBlocks.findScope? 25).map Scope.address = some 20 ∧ sampleBlocks.findScope? 100 = none := by
  have hall : sampleBlocks.allScopes = preorder sampleBlocks.scopes := walk_eq_preorder _
  have hends : ∀ s ∈ preorder sampleBlocks.scopes, ∀ c ∈ s.scopes, s.address.toNat ≤ c.address.toNat ∧
      c.address.toNat + c.length.toNat ≤ s.address.toNat + s.length.toNat := by decide
  have hnested : RangesNested sampleBlocks.scopes := fun s hs c hc =>
    have hle := hends s (hall ▸ hs) c hc
    liesIn_of_le hle.1 hle.2
  have hfound (offset : UInt32) := ((findScope?_last sampleBlocks offset).2.2.2.2.2 hnested).1
  rw [hfound, hfound, hfound, hall]
  exact ⟨hnested, rfl, rfl, rfl⟩

end Method

end ManagedSymbols
