import ManagedSymbols.Scope

/-!
# The walk of a forest, scope by scope

A walk hands out one scope at a time and keeps a stack of the scopes still to be visited (`Scope.Walker`): the scopes of the forest
are put on it in reverse, and so are, with each scope that is taken off, the scopes directly in that one. What is still handed out
is the walk of the stack read from its end (`Scope.Walker.next_after`), so the walk ends although the stack may grow with each call.

Two scopes of a forest may have the same fields. To tell that each one is visited, and once, scopes are told apart by their places:
which scope of the forest, which one of the scopes in that, and so on (`Scope.at?`). In lexicographic order a place stands in front
of the places below it, and these in front of the places of later siblings. The walk visits the places of the forest in this order
(`Scope.places`), and what is below a place is a run of places right behind it (`Scope.exists_places_eq`).
-/

namespace ManagedSymbols.Scope

/-! ## One scope at a time -/

/-- A walk that is under way: the scopes still to be visited, the next one last. -/
structure Walker where
  stack : List Scope

namespace Walker

/-- The walk of a forest before its first call. -/
def start (forest : List Scope) : Walker :=
  ⟨forest.reverse⟩

/-- One call of a walk: the scope on top of the stack, if there is one, makes room for the scopes directly in it. -/
def next (w : Walker) : Option Scope × Walker :=
  match w.stack.getLast? with
  | none => (none, w)
  | some s => (some s, ⟨w.stack.dropLast ++ s.scopes.reverse⟩)

/-- The walk behind so many calls. -/
def after (w : Walker) : (calls : Nat) → Walker
  | 0 => w
  | calls + 1 => w.next.2.after calls

/-- Behind so many calls, the next one hands out the scope at that place in the walk of the stack, read from its end, and nothing
once that walk is over. -/
theorem next_after (w : Walker) (n : Nat) : (w.after n).next.1 = (walk w.stack.reverse)[n]? := by
  obtain ⟨stack⟩ := w
  -- The induction is on the calls: each one takes the first scope off the walk of the stack.
  induction n generalizing stack with
  | zero =>
    rcases List.eq_nil_or_concat stack with rfl | ⟨below, s, rfl⟩
    · simp [after, next, walk]
    · simp [after, next, walk]
  | succ n ih =>
    rcases List.eq_nil_or_concat stack with rfl | ⟨below, s, rfl⟩
    · rw [after]
      simpa [next, walk] using ih []
    · rw [after]
      simpa [next, walk] using ih (below ++ s.scopes.reverse)

end Walker

/-! ## Places -/

/-- The scope at a place below a scope: which one of the scopes in it, which one of the scopes in that, and so on. -/
def below? (s : Scope) : (place : List Nat) → Option Scope
  | [] => some s
  | i :: place => s.scopes[i]?.bind fun c => c.below? place

/-- The scope at a place of a forest. -/
def at? (forest : List Scope) : (place : List Nat) → Option Scope
  | [] => none
  | i :: place => forest[i]?.bind fun s => s.below? place

/-- The places of scopes side by side, the first of which has this number: each place in front of those below it. -/
def placesFrom (first : Nat) : List Scope → List (List Nat)
  | [] => []
  | s :: rest => [first] :: (placesFrom 0 s.scopes).map (first :: ·) ++ placesFrom (first + 1) rest
termination_by forest => sizeAll forest
decreasing_by
  · simp only [sizeAll, size_eq]
    omega
  · simp only [sizeAll, size_eq]
    omega

/-- The places of a forest: each place in front of those below it, and these in front of those of the scopes that follow. -/
def places (forest : List Scope) : List (List Nat) :=
  placesFrom 0 forest

/-- A place below a scope is a place of the forest in it. -/
theorem below?_eq_at? {s : Scope} {place : List Nat} (h : place ≠ []) : s.below? place = at? s.scopes place := by
  cases place with
  | nil => exact absurd rfl h
  | cons i place => rfl

/-- A place is reached by going on from a place above it. -/
theorem below?_append (s : Scope) (front back : List Nat) :
    s.below? (front ++ back) = (s.below? front).bind fun c => c.below? back := by
  induction front generalizing s with
  | nil => rfl
  | cons i front ih =>
    simp only [List.cons_append, below?]
    cases s.scopes[i]? with
    | none => rfl
    | some c => exact ih c

/-- Below the place of a scope stand the places of the forest in it. -/
theorem at?_append {forest : List Scope} {place : List Nat} {s : Scope} (hs : at? forest place = some s) (below : List Nat) :
    at? forest (place ++ below) = s.below? below := by
  cases place with
  | nil => cases hs
  | cons i place =>
    obtain ⟨t, ht, hs⟩ := Option.bind_eq_some_iff.mp hs
    simp only [List.cons_append, at?, ht, Option.bind_some, below?_append, hs]

/-- The places of scopes side by side are those where a scope stands, with the scopes counted from the first number. -/
theorem mem_placesFrom_iff {first : Nat} {forest : List Scope} {place : List Nat} :
    place ∈ placesFrom first forest ↔ ∃ i below, place = (first + i) :: below ∧ (at? forest (i :: below)).isSome := by
  fun_induction placesFrom first forest generalizing place with
  | case1 first => simp [at?]
  | case2 first s rest ihBelow ihRest =>
    simp only [List.cons_append, List.mem_cons, List.mem_append, List.mem_map]
    constructor
    · rintro (rfl | ⟨below, hbelow, rfl⟩ | hrest)
      · exact ⟨0, [], rfl, rfl⟩
      · obtain ⟨i, below, rfl, hplace⟩ := ihBelow.mp hbelow
        rw [Nat.zero_add]
        exact ⟨0, i :: below, rfl, hplace⟩
      · obtain ⟨i, below, rfl, hplace⟩ := ihRest.mp hrest
        exact ⟨i + 1, below, by rw [Nat.add_right_comm, Nat.add_assoc], hplace⟩
    · rintro ⟨i, below, rfl, hplace⟩
      cases i with
      | zero =>
        cases below with
        | nil => exact .inl rfl
        | cons j below => exact .inr (.inl ⟨j :: below, ihBelow.mpr ⟨j, below, by rw [Nat.zero_add], hplace⟩, rfl⟩)
      | succ i => exact .inr (.inr (ihRest.mpr ⟨i, below, by rw [Nat.add_right_comm, Nat.add_assoc], hplace⟩))

/-- The places of a forest are those where a scope stands. -/
theorem mem_places_iff {forest : List Scope} {place : List Nat} : place ∈ places forest ↔ (at? forest place).isSome := by
  rw [places, mem_placesFrom_iff]
  constructor
  · rintro ⟨i, below, rfl, hplace⟩
    rwa [Nat.zero_add]
  · intro hplace
    cases place with
    | nil => simp [at?] at hplace
    | cons i below => exact ⟨i, below, by rw [Nat.zero_add], hplace⟩

theorem ne_nil_of_mem_places {forest : List Scope} {place : List Nat} (h : place ∈ places forest) : place ≠ [] := by
  rintro rfl
  simp [mem_places_iff, at?] at h

/-- Places are listed in lexicographic order, each one once. -/
theorem pairwise_placesFrom (first : Nat) (forest : List Scope) : (placesFrom first forest).Pairwise (· < ·) := by
  fun_induction placesFrom first forest with
  | case1 first => exact .nil
  | case2 first s rest ihBelow ihRest =>
    -- All places in the first block start with the number of its scope, and those behind it with a greater one.
    have hlater : ∀ place ∈ placesFrom (first + 1) rest, ∀ below, first :: below < place := by
      intro place hplace below
      obtain ⟨i, behind, rfl, -⟩ := mem_placesFrom_iff.mp hplace
      exact List.cons_lt_cons_iff.mpr (.inl (by omega))
    have hbelow : ∀ place ∈ (placesFrom 0 s.scopes).map (first :: ·), [first] < place := by
      intro place hplace
      obtain ⟨below, hbelow, rfl⟩ := List.mem_map.mp hplace
      obtain ⟨i, behind, rfl, -⟩ := mem_placesFrom_iff.mp hbelow
      exact List.cons_lt_cons_iff.mpr (.inr ⟨rfl, List.nil_lt_cons _ _⟩)
    refine List.pairwise_append.mpr ⟨List.pairwise_cons.mpr ⟨hbelow, ?_⟩, ihRest, ?_⟩
    · exact List.pairwise_map.mpr (ihBelow.imp fun h => List.cons_lt_cons_iff.mpr (.inr ⟨rfl, h⟩))
    · intro place hplace later hlate
      rcases List.mem_cons.mp hplace with rfl | hplace
      · exact hlater later hlate []
      · obtain ⟨below, -, rfl⟩ := List.mem_map.mp hplace
        exact hlater later hlate below

/-- No place is listed twice. -/
theorem eq_of_getElem?_places {forest : List Scope} {place : List Nat} {i j : Nat} (hi : (places forest)[i]? = some place)
    (hj : (places forest)[j]? = some place) : i = j := by
  have hnodup : (places forest).Nodup := by
    refine (pairwise_placesFrom 0 forest).imp ?_
    rintro front back hlt rfl
    exact List.lt_irrefl front hlt
  exact (List.getElem?_inj (List.getElem?_eq_some_iff.mp hi).1 hnodup).mp (hi.trans hj.symm)

/-- At the places of a forest stand the scopes of its walk, in the same order. -/
theorem map_at?_places (forest : List Scope) : (places forest).map (at? forest) = (walk forest).map some := by
  rw [walk_eq_preorder]
  -- The induction is on scopes that stand behind others, which the numbers in the places count.
  suffices h : ∀ front : List Scope,
      (placesFrom front.length forest).map (at? (front ++ forest)) = (preorder forest).map some from h []
  intro front
  generalize hfirst : front.length = first
  fun_induction placesFrom first forest generalizing front with
  | case1 first => rfl
  | case2 first s rest ihBelow ihRest =>
    subst hfirst
    have hs : at? (front ++ s :: rest) [front.length] = some s := by simp [at?, below?]
    have hbelow : (placesFrom 0 s.scopes).map (at? (front ++ s :: rest) ∘ (front.length :: ·)) =
        (preorder s.scopes).map some := by
      rw [← ihBelow [] rfl]
      refine List.map_congr_left fun place hplace => ?_
      obtain ⟨i, below, rfl, -⟩ := mem_placesFrom_iff.mp hplace
      exact at?_append hs _
    have hrest := ihRest (front ++ [s]) (by rw [List.length_append, List.length_singleton])
    rw [List.append_assoc, List.singleton_append] at hrest
    rw [List.map_append, List.map_cons, List.map_map, hs, hbelow, hrest, preorder_cons, List.map_cons, List.map_append,
      List.cons_append]

theorem length_places (forest : List Scope) : (places forest).length = (walk forest).length := by
  have h := congrArg List.length (map_at?_places forest)
  rwa [List.length_map, List.length_map] at h

/-- Right behind a place stand the places below it. -/
theorem exists_placesFrom_eq {first i : Nat} {forest : List Scope} {below : List Nat} {s : Scope}
    (hs : at? forest (i :: below) = some s) : ∃ front back, placesFrom first forest =
      front ++ ((first + i) :: below) :: ((places s.scopes).map ((first + i) :: below ++ ·) ++ back) := by
  fun_induction placesFrom first forest generalizing i below with
  | case1 first => simp [at?] at hs
  | case2 first top rest ihBelow ihRest =>
    cases i with
    | zero =>
      cases below with
      | nil =>
        obtain rfl := Option.some.inj hs
        exact ⟨[], placesFrom (first + 1) rest, rfl⟩
      | cons j below =>
        have hnested : at? top.scopes (j :: below) = some s := hs
        obtain ⟨front, back, hsplit⟩ := ihBelow hnested
        refine ⟨[first] :: front.map (first :: ·), back.map (first :: ·) ++ placesFrom (first + 1) rest, ?_⟩
        simp [hsplit]
    | succ i =>
      have hlater : at? rest (i :: below) = some s := hs
      obtain ⟨front, back, hsplit⟩ := ihRest hlater
      refine ⟨[first] :: (placesFrom 0 top.scopes).map (first :: ·) ++ front, back, ?_⟩
      rw [hsplit, Nat.add_assoc, Nat.add_comm 1 i, List.append_assoc]

/-- Right behind a place of a forest stand the places below it. -/
theorem exists_places_eq {forest : List Scope} {place : List Nat} {s : Scope} (hs : at? forest place = some s) :
    ∃ front back, places forest = front ++ place :: ((places s.scopes).map (place ++ ·) ++ back) := by
  cases place with
  | nil => cases hs
  | cons i below =>
    obtain ⟨front, back, hsplit⟩ := @exists_placesFrom_eq 0 i forest below s hs
    rw [Nat.zero_add] at hsplit
    exact ⟨front, back, hsplit⟩

section Behind

variable {forest : List Scope} {place : List Nat} {s : Scope} {i : Nat}

/-- The places of a forest, told apart at the number of one of them: so many in front, the place, those below it, and the others. -/
theorem exists_places_eq_at (hi : (places forest)[i]? = some place) (hs : at? forest place = some s) :
    ∃ front back, places forest = front ++ place :: ((places s.scopes).map (place ++ ·) ++ back) ∧ front.length = i := by
  obtain ⟨front, back, hsplit⟩ := exists_places_eq hs
  refine ⟨front, back, hsplit, ?_⟩
  have hat : (places forest)[front.length]? = some place := by simp [hsplit]
  exact eq_of_getElem?_places hat hi

/-- Right behind a scope, the walk goes through the scopes below it. -/
theorem descendants_behind (hi : (places forest)[i]? = some place) (hs : at? forest place = some s) :
    s.descendants <+: (walk forest).drop (i + 1) := by
  obtain ⟨front, back, hsplit, rfl⟩ := exists_places_eq_at hi hs
  have hbelow : (places s.scopes).map (at? forest ∘ (place ++ ·)) = s.descendants.map some := by
    rw [descendants, ← map_at?_places]
    refine List.map_congr_left fun below hbelow => ?_
    rw [Function.comp_apply, at?_append hs, below?_eq_at? (ne_nil_of_mem_places hbelow)]
  have hbehind : ((walk forest).drop (front.length + 1)).map some = s.descendants.map some ++ back.map (at? forest) := by
    rw [List.map_drop, ← map_at?_places, hsplit, ← hbelow]
    simp [List.drop_append]
  have hprefix : s.descendants.map some <+: ((walk forest).drop (front.length + 1)).map some := ⟨_, hbehind.symm⟩
  simpa only [List.filterMap_map, Function.id_comp, List.filterMap_some] using hprefix.filterMap id

/-- The places below a place are as many behind it as there are scopes below the one that stands there. -/
theorem below_iff (hi : (places forest)[i]? = some place) (hs : at? forest place = some s) {j : Nat} {other : List Nat}
    (hj : (places forest)[j]? = some other) : place <+: other ∧ place ≠ other ↔ i < j ∧ j ≤ i + s.descendants.length := by
  obtain ⟨front, back, hsplit, rfl⟩ := exists_places_eq_at hi hs
  have hlength : ((places s.scopes).map (place ++ ·)).length = s.descendants.length := by
    rw [List.length_map, length_places, descendants]
  constructor
  · rintro ⟨⟨below, rfl⟩, hne⟩
    have hbelow : below ∈ places s.scopes := by
      have hother := mem_places_iff.mp (List.mem_of_getElem? hj)
      rw [at?_append hs, below?_eq_at? (by rintro rfl; simp at hne)] at hother
      exact mem_places_iff.mpr hother
    obtain ⟨k, hk, hat⟩ := List.mem_iff_getElem.mp (List.mem_map_of_mem (f := (place ++ ·)) hbelow)
    -- No place is listed twice, so the one behind `place` that is found here is the one at `j`.
    have hplace : (places forest)[front.length + 1 + k]? = some (place ++ below) := by
      rw [hsplit, List.getElem?_append_right (by omega), Nat.add_assoc, Nat.add_sub_cancel_left, Nat.add_comm 1 k,
        List.getElem?_cons_succ, List.getElem?_append_left hk, List.getElem?_eq_getElem hk, hat]
    have := eq_of_getElem?_places hplace hj
    omega
  · rintro ⟨hlt, hle⟩
    obtain ⟨k, rfl⟩ := Nat.exists_eq_add_of_lt hlt
    have hk : k < ((places s.scopes).map (place ++ ·)).length := by omega
    rw [hsplit, List.getElem?_append_right (by omega), Nat.add_assoc, Nat.add_sub_cancel_left, List.getElem?_cons_succ,
      List.getElem?_append_left hk, List.getElem?_map] at hj
    obtain ⟨below, hbelow, rfl⟩ := Option.map_eq_some_iff.mp hj
    have hne := ne_nil_of_mem_places (List.mem_of_getElem? hbelow)
    exact ⟨List.prefix_append _ _, fun heq => hne (List.self_eq_append_right.mp heq)⟩

end Behind

/-! ## The walk of a forest -/

/-- Call by call, the walk with a stack hands out the scopes of the walk by recursion: each scope of the forest in front of the walk
of the scopes directly in it, from left to right. When all are handed out, every further call gives nothing.

The places of the forest, each listed once and in lexicographic order, are the places of the scopes in the order of the walk. So
each scope is visited once, parents in front of what is nested in them and siblings in their order. The scopes below a scope are
visited right behind it, all of them and no other one in between. -/
theorem walk_inPreorder (forest : List Scope) :
    (∀ n, ((Walker.start forest).after n).next.1 = (walk forest)[n]?) ∧
      walk forest = preorder forest ∧
      ((places forest).Pairwise (· < ·) ∧ (∀ place, place ∈ places forest ↔ (at? forest place).isSome) ∧
        (places forest).map (at? forest) = (walk forest).map some) ∧
      ∀ i place s, (places forest)[i]? = some place → at? forest place = some s →
        s.descendants <+: (walk forest).drop (i + 1) ∧
          ∀ j other, (places forest)[j]? = some other →
            (place <+: other ∧ place ≠ other ↔ i < j ∧ j ≤ i + s.descendants.length) := by
  refine ⟨fun n => ?_, walk_eq_preorder forest, ⟨pairwise_placesFrom 0 forest, fun place => mem_places_iff, ?_⟩, ?_⟩
  · rw [Walker.next_after, Walker.start, List.reverse_reverse]
  · exact map_at?_places forest
  · intro i place s hi hs
    exact ⟨descendants_behind hi hs, fun j other hj => below_iff hi hs hj⟩

/-- A scope that holds no others. -/
def sampleTwin : Scope :=
  ⟨1, 4, 8, [], [], [], []⟩

/-- A scope that holds two scopes with the same fields. -/
def sampleHolder : Scope :=
  ⟨1, 0, 16, [sampleTwin, sampleTwin], [], [], []⟩

/-- Three scopes with the same fields stand at three places. Right behind the first scope the walk goes through the two that are
nested in it. The place at the end of the list is not below that of the first scope, and the fifth call hands out nothing. -/
theorem walk_inPreorder_sampleHolder :
    places [sampleHolder, sampleTwin] = [[0], [0, 0], [0, 1], [1]] ∧ at? [sampleHolder, sampleTwin] [0] = some sampleHolder ∧
      sampleHolder.descendants <+: (walk [sampleHolder, sampleTwin]).drop 1 ∧
      ([0] <+: [1] ∧ [0] ≠ [1] ↔ 0 < 3 ∧ 3 ≤ 0 + sampleHolder.descendants.length) ∧
      ((Walker.start [sampleHolder, sampleTwin]).after 4).next.1 = none := by
  have hplaces : places [sampleHolder, sampleTwin] = [[0], [0, 0], [0, 1], [1]] := by cbv
  have hholder : at? [sampleHolder, sampleTwin] [0] = some sampleHolder := rfl
  obtain ⟨hcalls, hwalk, -, hbehind⟩ := walk_inPreorder [sampleHolder, sampleTwin]
  obtain ⟨hbelow, hrun⟩ := hbehind 0 [0] sampleHolder (by rw [hplaces]; rfl) hholder
  refine ⟨hplaces, hholder, hbelow, hrun 3 [1] (by rw [hplaces]; rfl), ?_⟩
  rw [hcalls, hwalk]
  rfl

end ManagedSymbols.Scope
