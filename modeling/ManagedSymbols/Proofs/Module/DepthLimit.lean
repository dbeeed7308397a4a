import ManagedSymbols.Proofs.Module.Reached
import ManagedSymbols.Proofs.Record.Agreement
import ManagedSymbols.Proofs.Scope.Nesting

/-!
# The depth limit decides nothing but how deep blocks may be nested

A module is read twice, under a depth limit and under a larger one. Both readings take the same steps until a block is nested
deeper than the smaller limit; that one stops the first reading with its own fault, and if the second one goes on to find methods,
the block is among them (`AgreesUpTo`). Each layer of the decoding hands this on: blocks (`Block.read_agreesUpTo`), methods and the
module. So the smaller limit gives what the larger one gives exactly when no chain of blocks is longer
(`ModuleSymbols.read_depth_exact`).
-/

namespace ManagedSymbols

open Reader

/-- How a read under a depth limit `d` agrees with one under a larger limit: both end alike, and the forest of what is found is
nested up to `n`, or the limit stops the first one, and the forest of what the second one may find is nested deeper. -/
def AgreesUpTo {α : Type} (d n : Nat) (forest : α → List Scope) (outcome outcome' : Except Fault α × Nat) : Prop :=
  Agree (fun a c => a = c ∧ Scope.NestedUpTo n (forest a)) (· = .recursionLimit d) (fun c => ¬ Scope.NestedUpTo n (forest c))
    outcome outcome'

/-- Scans under both limits agree if their handlers do and only add to the forest. -/
theorem scan_agreesUpTo {σ : Type} {d n limit p : Nat} {b : Buffer} {forest : σ → List Scope} {first second : RecordHandler σ}
    (step : ∀ h s, Scope.NestedUpTo n (forest s) →
      AgreesUpTo d n (fun x => forest x.2) (first h s b (h.offset + 4)) (second h s b (h.offset + 4)))
    (adds : ∀ {p q s t h}, ScanStep limit second b p s h q t → ∃ found, forest t = forest s ++ found) {s : σ}
    (hs : forest s = []) : AgreesUpTo d n forest (scan limit first s b p) (scan limit second s b p) := by
  have hempty : Scope.NestedUpTo n (forest s) := by
    rw [hs]
    exact Scope.nestedUpTo_nil n
  have hstep {p : Nat} {h : RecordHeader} {s t : σ} (hf : RecordHeader.frame limit b p = (.ok h, p + 4))
      (hst : s = t ∧ Scope.NestedUpTo n (forest s)) :
      Agree (fun x y => x.1 = y.1 ∧ x.2 = y.2 ∧ Scope.NestedUpTo n (forest x.2)) (· = .recursionLimit d)
        (fun y => ¬ Scope.NestedUpTo n (forest y.2)) (first h s b (p + 4)) (second h t b (p + 4)) := by
    obtain ⟨rfl, _⟩ := RecordHeader.of_frame hf
    obtain ⟨rfl, hs⟩ := hst
    exact (step h s hs).mono (fun x y ⟨heq, hup⟩ => ⟨congrArg Prod.fst heq, congrArg Prod.snd heq, hup⟩) fun _ => id
  refine (scan_agree (R := fun s t => s = t ∧ Scope.NestedUpTo n (forest s)) (D := fun t => ¬ Scope.NestedUpTo n (forest t))
    hstep ?_ ⟨rfl, hempty⟩).mono (fun _ _ => id) fun e ⟨_, _, he⟩ => he
  intro p q t u h added hdeep hup
  obtain ⟨found, hfound⟩ := adds added
  rw [hfound] at hup
  exact hdeep (Scope.nestedUpTo_append.mp hup).1

/-! ## Bodies -/

/-- What a record adds to the blocks of a body. -/
theorem Body.Taken.exists_scopes {readBlock : BlockRecord → Reader Block} {limit q : Nat} {b : Buffer} {before after : Body}
    {h : RecordHeader} (taken : Body.Taken readBlock limit b h before q after) :
    ∃ found, after.scopes = before.scopes ++ found ∧ (h.kind ≠ .block → found = []) := by
  cases taken with
  | block kind => exact ⟨_, rfl, fun hk => absurd kind hk⟩
  | slot => exact ⟨[], (List.append_nil _).symm, fun _ => rfl⟩
  | constant => exact ⟨[], (List.append_nil _).symm, fun _ => rfl⟩
  | usingNamespace => exact ⟨[], (List.append_nil _).symm, fun _ => rfl⟩
  | other => exact ⟨[], (List.append_nil _).symm, fun _ => rfl⟩

/-- A record that is no block is gathered without reading a block. -/
theorem Body.gather_of_ne_block {h : RecordHeader} (hk : h.kind ≠ .block) (readBlock readBlock' : BlockRecord → Reader Block)
    (limit : Nat) (body : Body) : Body.gather readBlock limit h body = Body.gather readBlock' limit h body := by
  unfold Body.gather
  split <;> first | rfl | contradiction

section Layers

variable {d d' n limit p : Nat} {b : Buffer} {readBlock readBlock' : BlockRecord → Reader Block}

/-- A record of a body is gathered alike if blocks are read alike. -/
theorem Body.gather_agreesUpTo
    (inner : ∀ record p, AgreesUpTo d n (fun block => [block.scope]) (readBlock record b p) (readBlock' record b p))
    (h : RecordHeader) (body : Body) (hup : Scope.NestedUpTo n body.scopes) :
    AgreesUpTo d n (fun x => x.2.scopes) (Body.gather readBlock limit h body b (h.offset + 4))
      (Body.gather readBlock' limit h body b (h.offset + 4)) := by
  by_cases hk : h.kind = .block
  · rw [Body.gather, Body.gather, hk]
    refine .bind_same fun record _ _ => .bind_same fun _ _ _ => .bind_same fun _ _ _ => .bind (inner record _) ?_ ?_
    · rintro block _ q ⟨rfl, hblock⟩
      exact .ok ⟨rfl, Scope.nestedUpTo_append.mpr ⟨hup, hblock⟩⟩
    · intro block q found q' hdeep hfound hboth
      obtain ⟨_, _, _, hfound⟩ := exists_of_bind hfound
      obtain ⟨rfl, _⟩ := of_pure hfound
      exact hdeep (Scope.nestedUpTo_append.mp hboth).2
  · rw [Body.gather_of_ne_block hk readBlock readBlock']
    refine .of_same ?_
    rintro ⟨resume, body'⟩ q hfound
    refine ⟨rfl, ?_⟩
    obtain ⟨added, hscopes, hnone⟩ := (Body.taken_of_gather hfound).exists_scopes
    show Scope.NestedUpTo n body'.scopes
    rw [hscopes, hnone hk, List.append_nil]
    exact hup

/-- A step over a record of a body only adds to its blocks. -/
theorem Body.exists_scopes_of_step {q : Nat} {before after : Body} {h : RecordHeader}
    (step : ScanStep limit (Body.gather readBlock limit) b p before h q after) :
    ∃ found, after.scopes = before.scopes ++ found := by
  obtain ⟨found, hscopes, _⟩ := (Body.taken_of_step step).exists_scopes
  exact ⟨found, hscopes⟩

/-- A body is gathered alike if blocks are read alike. -/
theorem Body.scan_agreesUpTo
    (inner : ∀ record p, AgreesUpTo d n (fun block => [block.scope]) (readBlock record b p) (readBlock' record b p)) (p : Nat) :
    AgreesUpTo d n Body.scopes (scan limit (Body.gather readBlock limit) {} b p)
      (scan limit (Body.gather readBlock' limit) {} b p) :=
  ManagedSymbols.scan_agreesUpTo (Body.gather_agreesUpTo inner) Body.exists_scopes_of_step rfl

/-- A block is read alike under both limits, with as much room below it as its depth leaves. -/
theorem Block.read_agreesUpTo (hle : d ≤ d') (address : UInt32) (depth : Nat) (record : BlockRecord) (p : Nat) :
    AgreesUpTo d (d + 1 - depth) (fun block => [block.scope]) (Block.read address d depth record b p)
      (Block.read address d' depth record b p) := by
  -- The recursion is on the room below the block, which each level of nesting takes one of.
  by_cases hdepth : depth ≤ d
  · have hroom : d + 1 - depth = d - depth + 1 := by omega
    rw [Block.read_of_le hdepth, Block.read_of_le (Nat.le_trans hdepth hle), hroom]
    have inner (nested : BlockRecord) (p : Nat) : AgreesUpTo d (d - depth) (fun block => [block.scope])
        (Block.readNested address d depth nested b p) (Block.readNested address d' depth nested b p) := by
      refine .bind_same fun _ q _ => ?_
      have hnested := Block.read_agreesUpTo hle address (depth + 1) nested q
      rwa [Nat.add_sub_add_right] at hnested
    refine .bind_same fun _ _ _ => .bind_same fun _ _ _ => .bind (Body.scan_agreesUpTo inner _) ?_ ?_
    · rintro body _ q ⟨rfl, hup⟩
      exact .bind_same fun _ _ _ => .ok ⟨rfl, Scope.nestedUpTo_singleton.mpr hup⟩
    · intro body q block q' hdeep hblock hup
      obtain ⟨_, _, _, hblock⟩ := exists_of_bind hblock
      obtain ⟨rfl, _⟩ := of_pure hblock
      exact hdeep (Scope.nestedUpTo_singleton.mp hup)
  · have hroom : d + 1 - depth = 0 := by omega
    rw [Block.read_of_lt (Nat.lt_of_not_le hdepth), hroom]
    exact .excused rfl fun block _ _ => Scope.not_nestedUpTo_zero block.scope
termination_by d + 1 - depth

/-! ## Methods -/

/-- A payload that is taken in leaves the body. -/
theorem MethodBody.body_applyPayload (m : MethodBody) (payload : VendorPayload) : (m.applyPayload payload).body = m.body := by
  cases payload <;> rfl

theorem MethodBody.gather_agreesUpTo
    (inner : ∀ record p, AgreesUpTo d n (fun block => [block.scope]) (readBlock record b p) (readBlock' record b p))
    (h : RecordHeader) (m : MethodBody) (hup : Scope.NestedUpTo n m.body.scopes) :
    AgreesUpTo d n (fun x => x.2.body.scopes) (MethodBody.gather readBlock limit h m b (h.offset + 4))
      (MethodBody.gather readBlock' limit h m b (h.offset + 4)) := by
  by_cases hv : h.kind = .vendor
  · rw [gather_vendor hv, gather_vendor hv]
    refine .bind_same fun payload _ _ => .ok ⟨rfl, ?_⟩
    show Scope.NestedUpTo n (m.applyPayload payload).body.scopes
    rw [body_applyPayload]
    exact hup
  · rw [gather_of_ne_vendor hv, gather_of_ne_vendor hv]
    refine .bind (Body.gather_agreesUpTo inner h m.body hup) ?_ ?_
    · rintro found _ q ⟨rfl, hfound⟩
      exact .ok ⟨rfl, hfound⟩
    · intro found q found' q' hdeep hfound
      obtain ⟨rfl, _⟩ := of_pure hfound
      exact hdeep

theorem MethodBody.scan_agreesUpTo
    (inner : ∀ record p, AgreesUpTo d n (fun block => [block.scope]) (readBlock record b p) (readBlock' record b p)) (p : Nat) :
    AgreesUpTo d n (fun m => m.body.scopes) (scan limit (MethodBody.gather readBlock limit) {} b p)
      (scan limit (MethodBody.gather readBlock' limit) {} b p) :=
  ManagedSymbols.scan_agreesUpTo (MethodBody.gather_agreesUpTo inner)
    (fun step => Body.exists_scopes_of_step (MethodBody.body_step step)) rfl

/-- A method is nested as deep as its body, also with lengths as Visual Basic means them. -/
theorem Method.nestedUpTo_blocks (n : Nat) (moduleName : String) (record : ProcedureRecord) (hasRoot visualBasic : Bool)
    (m : MethodBody) :
    Scope.NestedUpTo n (if visualBasic then (ofBody moduleName record hasRoot m).forVisualBasic
      else ofBody moduleName record hasRoot m).blocks ↔ Scope.NestedUpTo n m.body.scopes := by
  cases visualBasic with
  | false => exact Iff.rfl
  | true => exact Scope.nestedUpTo_widenAll n m.body.scopes

theorem Method.read_agreesUpTo (hle : d ≤ d') (moduleName : String) (options : Options) (h : RecordHeader)
    (record : ProcedureRecord) (p : Nat) :
    AgreesUpTo d d Method.blocks (Method.read moduleName { options with maxScopeDepth := d } h record b p)
      (Method.read moduleName { options with maxScopeDepth := d' } h record b p) := by
  have inner (nested : BlockRecord) (p : Nat) : AgreesUpTo d d (fun block => [block.scope])
      (Block.read record.offset d 1 nested b p) (Block.read record.offset d' 1 nested b p) :=
    Block.read_agreesUpTo hle record.offset 1 nested p
  rw [Method.read, Method.read]
  refine .bind_same fun _ _ _ => .bind_same fun _ _ _ => .bind_same fun limit _ _ => .bind_same fun tally _ _ =>
    .bind (MethodBody.scan_agreesUpTo inner _) ?_ ?_
  · rintro m _ q ⟨rfl, hup⟩
    exact .bind_same fun _ _ _ => .ok ⟨rfl, (Method.nestedUpTo_blocks d moduleName record tally.hasLocals _ m).mpr hup⟩
  · intro m q found q' hdeep hfound hup
    obtain ⟨_, _, _, hfound⟩ := exists_of_bind hfound
    obtain ⟨rfl, _⟩ := of_pure hfound
    exact hdeep ((Method.nestedUpTo_blocks d moduleName record tally.hasLocals _ m).mp hup)

end Layers

/-! ## Modules -/

namespace ModuleSymbols

variable {d d' limit : Nat} {moduleName : String} {options : Options} {b : Buffer}

/-- The blocks of all methods. -/
def allBlocks (methods : List Method) : List Scope :=
  methods.flatMap Method.blocks

/-- Methods in two lists have the blocks of both. -/
theorem allBlocks_append (front back : List Method) : allBlocks (front ++ back) = allBlocks front ++ allBlocks back :=
  List.flatMap_append

/-- The blocks of all methods are nested as deep as those of each. -/
theorem nestedUpTo_allBlocks {n : Nat} {methods : List Method} :
    Scope.NestedUpTo n (allBlocks methods) ↔ ∀ m ∈ methods, Scope.NestedUpTo n m.blocks := by
  induction methods with
  | nil => simp [allBlocks, Scope.nestedUpTo_nil]
  | cons m rest ih =>
    rw [List.forall_mem_cons, ← ih, ← Scope.nestedUpTo_append]
    rfl

/-- A record of a module is decoded alike under both limits. -/
theorem gather_agreesUpTo (hle : d ≤ d') (h : RecordHeader) (methods : List Method) (hup : Scope.NestedUpTo d (allBlocks methods)) :
    AgreesUpTo d d (fun x => allBlocks x.2)
      (gather moduleName limit { options with maxScopeDepth := d } h methods b (h.offset + 4))
      (gather moduleName limit { options with maxScopeDepth := d' } h methods b (h.offset + 4)) := by
  by_cases hk : h.kind.isProcedure = true
  · rw [gather, gather, if_pos hk, if_pos hk]
    refine .bind_same fun record _ _ => .bind_same fun _ _ _ => .bind_same fun _ _ _ =>
      .bind (Method.read_agreesUpTo hle moduleName options h record _) ?_ ?_
    · rintro m _ q ⟨rfl, hmethod⟩
      refine .ok ⟨rfl, ?_⟩
      show Scope.NestedUpTo d (allBlocks (methods ++ [m]))
      rw [allBlocks_append]
      exact Scope.nestedUpTo_append.mpr ⟨hup, nestedUpTo_allBlocks.mpr (by simpa using hmethod)⟩
    · intro m q found q' hdeep hfound hboth
      obtain ⟨_, _, _, hfound⟩ := exists_of_bind hfound
      obtain ⟨rfl, _⟩ := of_pure hfound
      exact hdeep (nestedUpTo_allBlocks.mp hboth m (List.mem_append_right _ List.mem_cons_self))
  · rw [gather, gather, if_neg hk, if_neg hk]
    exact .ok ⟨rfl, hup⟩

/-- A step of the decoding of a module only adds to the blocks. -/
theorem exists_blocks_of_step {p q : Nat} {methods methods' : List Method} {h : RecordHeader}
    (step : ScanStep limit (gather moduleName limit options) b p methods h q methods') :
    ∃ found, allBlocks methods' = allBlocks methods ++ found := by
  cases hk : h.kind.isProcedure with
  | true =>
    obtain ⟨_, _, m, _, _, _, rfl⟩ := exists_of_step step hk
    exact ⟨_, allBlocks_append methods [m]⟩
  | false =>
    obtain ⟨_, rfl⟩ := eq_of_step step hk
    exact ⟨[], (List.append_nil _).symm⟩

/-- A module is read alike under both limits. -/
theorem read_agreesUpTo (hle : d ≤ d') (moduleName : String) (limit : Nat) (options : Options) (b : Buffer) (p : Nat) :
    AgreesUpTo d d (fun found => allBlocks (found.getD []))
      (read moduleName limit { options with maxScopeDepth := d } b p)
      (read moduleName limit { options with maxScopeDepth := d' } b p) := by
  rw [read, read]
  refine .bind_same fun start _ _ => .bind_same fun count _ _ => ?_
  split
  · exact .ok ⟨rfl, Scope.nestedUpTo_nil d⟩
  · refine .bind_same fun _ _ _ => .bind (scan_agreesUpTo (gather_agreesUpTo hle) exists_blocks_of_step rfl) ?_ ?_
    · rintro methods _ q ⟨rfl, hup⟩
      exact .ok ⟨rfl, hup⟩
    · intro methods q found q' hdeep hfound
      obtain ⟨rfl, _⟩ := of_pure hfound
      exact hdeep

/-- A depth limit gives what every larger one gives or stops with its own fault. Where the larger limit finds methods, the smaller
one finds the same exactly when no chain of blocks in them is longer than it, and otherwise it stops with its own fault. -/
theorem read_depth_exact (moduleName : String) (limit : Nat) (options : Options) (b : Buffer) (p : Nat) {d d' : Nat}
    (hle : d ≤ d') :
    (read moduleName limit { options with maxScopeDepth := d } b p =
        read moduleName limit { options with maxScopeDepth := d' } b p ∨
      (read moduleName limit { options with maxScopeDepth := d } b p).1 = .error (.recursionLimit d)) ∧
    ∀ methods q, read moduleName limit { options with maxScopeDepth := d' } b p = (.ok (some methods), q) →
      (read moduleName limit { options with maxScopeDepth := d } b p = (.ok (some methods), q) ↔
        ∀ m ∈ methods, ∀ chain, Scope.Chain m.blocks chain → chain.length ≤ d) ∧
      (¬ (∀ m ∈ methods, ∀ chain, Scope.Chain m.blocks chain → chain.length ≤ d) →
        (read moduleName limit { options with maxScopeDepth := d } b p).1 = .error (.recursionLimit d)) := by
  have hagree := read_agreesUpTo hle moduleName limit options b p
  generalize read moduleName limit { options with maxScopeDepth := d } b p = outcome at hagree ⊢
  generalize read moduleName limit { options with maxScopeDepth := d' } b p = outcome' at hagree ⊢
  cases hagree with
  | ok related =>
    obtain ⟨rfl, hup⟩ := related
    refine ⟨.inl rfl, ?_⟩
    rintro methods q ⟨⟩
    have hall := nestedUpTo_allBlocks.mp hup
    exact ⟨⟨fun _ => hall, fun _ => rfl⟩, fun hnot => absurd hall hnot⟩
  | error =>
    refine ⟨.inl rfl, ?_⟩
    rintro methods q ⟨⟩
  | excused given missed =>
    obtain rfl := given
    refine ⟨.inr rfl, ?_⟩
    rintro methods q rfl
    have hdeep := mt nestedUpTo_allBlocks.mpr (missed _ q rfl)
    refine ⟨⟨fun h => ?_, fun hall => absurd hall hdeep⟩, fun _ => rfl⟩
    cases h

/-- A method with a block is read if so many levels are allowed, and stops the reading if none is. -/
theorem read_depth_exact_sample : 0 ≤ 128 ∧ ∃ methods q, read "M" 126 {} sampleWithVendors 0 = (.ok (some methods), q) ∧
    (read "M" 126 { maxScopeDepth := 0 } sampleWithVendors 0).1 = .error (.recursionLimit 0) := by
  obtain ⟨m, q, hr, _, s, hs⟩ := read_sampleWithVendors
  have hchain : Scope.Chain m.blocks [s] := .cons (by rw [hs]; exact List.mem_cons_self) .nil
  obtain ⟨_, hexact⟩ := read_depth_exact "M" 126 {} sampleWithVendors 0 (show 0 ≤ 128 by decide)
  refine ⟨by decide, [m], q, hr, (hexact [m] q hr).2 fun hall => ?_⟩
  have hshort := hall m List.mem_cons_self [s] hchain
  simp at hshort

end ModuleSymbols

end ManagedSymbols
