import ManagedSymbols.Proofs.Module.Landing
import ManagedSymbols.Proofs.Record.Tiling
import ManagedSymbols.Proofs.Scope.Nesting

/-!
# What a module decodes to is charged to its bytes

The walk that decodes a module tiles its range: every record it meets, at module level or in a body at any depth, takes bytes that
no other record takes, and the body of a block lies between its record and its terminator, inside the body around it
(`BodySite.extents`, `ModuleSymbols.extents`). Each procedure, block, slot, constant and imported namespace that is found is
charged to one of these records, which is at least as long. So what is found is bounded by the length of the range, and so is the
depth of blocks, whatever depth is allowed (`ModuleSymbols.charges_fit`).
-/

namespace ManagedSymbols

open Reader

/-! ## Charges -/

/-- What a body is charged for the records it is gathered from: a slot is 20 bytes long at least, a constant 10 and an imported
namespace 4, and the scopes of blocks are charged as a forest. -/
def Body.charge (body : Body) : Nat :=
  20 * body.slots.length + 10 * body.constants.length + 4 * body.usedNamespaces.length + Scope.chargeAll body.scopes

/-- What a method is charged for the records it is decoded from: its procedure and the terminator are 45 bytes long at least. Its
root is made from what the method itself declares and not charged again. -/
def Method.charge (m : Method) : Nat :=
  45 + 20 * m.slots.length + 10 * m.constants.length + 4 * m.usedNamespaces.length + Scope.chargeAll m.blocks

/-- A block in a body is charged as a forest of its own. -/
theorem Body.charge_addBlock (body : Body) (block : Block) :
    (body.addBlock block).charge = body.charge + Scope.chargeAll [block.scope] := by
  simp only [charge, addBlock, Scope.chargeAll_append]
  omega

/-- A record that is no block adds what it is charged to what its body is. -/
theorem Body.Taken.charge_eq {readBlock : BlockRecord → Reader Block} {limit q : Nat} {b : Buffer} {before after : Body}
    {h : RecordHeader} (taken : Body.Taken readBlock limit b h before q after) (hk : h.kind ≠ .block) :
    after.charge = before.charge + (Extent.ofRecord h.kind.isCounted h).charge := by
  cases taken with
  | block kind => exact absurd kind hk
  | slot kind | constant kind | usingNamespace kind =>
    simp only [charge, addSlot, addConstant, addNamespace, List.length_append, List.length_singleton, Extent.ofRecord, kind,
      RecordKind.isCounted, if_true, RecordKind.minimumLength]
    omega
  | other block slot constant usingNamespace =>
    have hfree : h.kind.isCounted = false := by
      cases hkind : h.kind <;> first | rfl | contradiction
    rw [hfree]
    rfl

/-- A record that something is taken from is as long as its kind asks. -/
theorem Body.Taken.minimumLength_le {readBlock : BlockRecord → Reader Block} {limit q : Nat} {b : Buffer} {before after : Body}
    {h : RecordHeader} (taken : Body.Taken readBlock limit b h before q after) (hlength : 2 ≤ h.length.toNat)
    (hk : h.kind.isCounted = true) : h.kind.minimumLength ≤ h.length.toNat := by
  cases taken with
  | block _ fields => exact RecordHeader.le_length_of_bind fields
  | slot _ fixed => exact RecordHeader.le_length_of_fixedLayout fixed
  | constant _ fixed => exact RecordHeader.le_length_of_fixedLayout fixed
  | usingNamespace kind =>
    rw [kind]
    exact hlength
  | other block slot constant usingNamespace =>
    cases hkind : h.kind <;> first | contradiction | (rw [hkind] at hk; cases hk)

/-- A block is charged its record and its terminator beside its body. -/
theorem Block.chargeAll_ofBody (address : UInt32) (record : BlockRecord) (body : Body) :
    Scope.chargeAll [(ofBody address record body).scope] = 26 + body.charge := by
  rw [Scope.chargeAll_cons, Scope.chargeAll_nil, Scope.charge, Body.charge]
  simp only [ofBody]
  omega

/-- A method is charged its record and its terminator beside its body, also with lengths as Visual Basic means them. -/
theorem Method.charge_of_read {moduleName : String} {options : Options} {h : RecordHeader} {record : ProcedureRecord} {b : Buffer}
    {p q : Nat} {m : Method} (hr : Method.read moduleName options h record b p = (.ok m, q)) :
    ∃ t body, Tally.measure record.stop.toNat b p = (.ok t, p) ∧
      scan record.stop.toNat (Body.gather (Block.readNested record.offset options.maxScopeDepth 0) record.stop.toNat) {} b p =
        (.ok body, record.stop.toNat) ∧
      m.charge = 45 + body.charge := by
  obtain ⟨t, found, hmeasure, hscan, rfl, _⟩ := exists_body_of_read hr
  refine ⟨t, found.body, hmeasure, (MethodBody.scanned_body (scanned_of_scan hscan)).scan_eq, ?_⟩
  have hplain : (ofBody moduleName record t.hasLocals found).charge = 45 + found.body.charge := by
    rw [charge, Body.charge]
    simp only [ofBody]
    omega
  split
  · rw [← hplain]
    exact congrArg (_ + ·) (Scope.chargeAll_widenAll _)
  · exact hplain

/-! ## Bodies -/

namespace BodySite

/-- The body of a block, as its record declares it. -/
def behind (s : BodySite) (b : Buffer) (h : RecordHeader) : BodySite where
  address := s.address
  depth := s.depth + 1
  start := h.stop
  stop := h.declaredStop b

/-- The extents of the records that the gathering of a body meets: each record, behind a block the records of its body and its
terminator. -/
def extents (maxDepth : Nat) (b : Buffer) (s : BodySite) : List Extent :=
  (s.gathering maxDepth b).visited.flatMap fun h =>
    .ofRecord h.kind.isCounted h ::
      if _h : h.kind = .block ∧ s.depth < maxDepth then
        (s.behind b h).extents maxDepth b ++ [.ofTerminator (h.declaredStop b)]
      else []
termination_by maxDepth - s.depth
decreasing_by
  simp only [behind]
  omega

/-- The extents of one record of a body, and of what is behind it if it is a block. -/
def owned (maxDepth : Nat) (b : Buffer) (s : BodySite) (h : RecordHeader) : List Extent :=
  .ofRecord h.kind.isCounted h ::
    if h.kind = .block ∧ s.depth < maxDepth then
      (s.behind b h).extents maxDepth b ++ [.ofTerminator (h.declaredStop b)]
    else []

/-- The extents of a body are those of its records, one after the other. -/
theorem extents_eq (maxDepth : Nat) (b : Buffer) (s : BodySite) :
    s.extents maxDepth b = (s.gathering maxDepth b).visited.flatMap (s.owned maxDepth b) := by
  rw [extents]
  rfl

variable {s : BodySite} {maxDepth : Nat} {b : Buffer} {t : Tally} {body : Body}

/-- A block's body is where its record declares it. -/
theorem ofBlock_eq_behind {h : RecordHeader} {record : BlockRecord} {r : Nat}
    (hf : BlockRecord.read h b (h.offset + 4) = (.ok record, r)) : s.ofBlock h record = s.behind b h := by
  rw [ofBlock, behind, BlockRecord.stop_of_read hf]

/-- A record that is no block takes its own bytes only. -/
theorem owned_of_not_block {h : RecordHeader} (hk : h.kind ≠ .block) :
    s.owned maxDepth b h = [.ofRecord h.kind.isCounted h] := by
  rw [owned, if_neg fun hblock => hk hblock.1]

/-- A block takes its own bytes, those of its body and those of its terminator. -/
theorem owned_of_block {h : RecordHeader} (hk : h.kind = .block) (hdepth : s.depth < maxDepth) :
    s.owned maxDepth b h =
      .ofRecord true h :: ((s.behind b h).extents maxDepth b ++ [.ofTerminator (h.declaredStop b)]) := by
  rw [owned, if_pos ⟨hk, hdepth⟩, hk]
  rfl

/-- A step of the gathering of a body tiles what it steps over, and the body grows by what is charged, if the bodies of blocks in
it do so. -/
theorem tile_of_step
    (inner : s.depth < maxDepth → ∀ h t body, (s.behind b h).Read maxDepth b t body →
      Extent.Tile h.stop ((s.behind b h).extents maxDepth b) (h.declaredStop b) ∧
        body.charge = Extent.total ((s.behind b h).extents maxDepth b))
    {p q : Nat} {before after : Body} {h : RecordHeader}
    (step : ScanStep s.stop (Body.gather (Block.readNested s.address maxDepth s.depth) s.stop) b p before h q after) :
    Extent.Tile p (s.owned maxDepth b h) q ∧ after.charge = before.charge + Extent.total (s.owned maxDepth b h) := by
  obtain ⟨hoffset, hstop, hlength, _⟩ := RecordHeader.of_frame step.framed
  have taken := Body.taken_of_step step
  have hcovered : h.offset + (Extent.ofRecord h.kind.isCounted h).charge ≤ h.stop := by
    simp only [Extent.ofRecord]
    split
    · next hcounted =>
      have := taken.minimumLength_le hlength hcounted
      omega
    · omega
  by_cases hk : h.kind = .block
  · obtain ⟨record, found, _, fields, ended, nested, rfl⟩ := taken.exists_of_block hk
    have hread := Block.read_of_readNested nested
    obtain ⟨t, body, hmeasured, hgathered, rfl, _, rfl⟩ := Block.parts_of_read hread
    have hdepth : s.depth < maxDepth := Block.depth_le_of_read hread
    have hsite : (s.ofBlock h record).Read maxDepth b t body := ⟨hmeasured, hgathered⟩
    rw [ofBlock_eq_behind fields] at hsite
    obtain ⟨htile, htotal⟩ := inner hdepth h t body hsite
    rw [hk] at hcovered
    rw [owned_of_block hk hdepth, BlockRecord.stop_of_read fields]
    refine ⟨htile.around hoffset hcovered, ?_⟩
    rw [Body.charge_addBlock, Block.chargeAll_ofBody, htotal]
    simp only [Extent.total_cons, Extent.total_append, Extent.total_nil, Extent.ofRecord, Extent.ofTerminator, hk, if_true,
      RecordKind.minimumLength, terminatorSize]
    omega
  · rw [owned_of_not_block hk, taken.eq_of_not_block hk, taken.charge_eq hk]
    exact ⟨.cons hoffset hcovered .nil, by simp⟩

/-- The records that a body is gathered from tile it, those in blocks included, and the body is charged what they are. -/
theorem Read.tile {s : BodySite} {t : Tally} {body : Body} (hr : s.Read maxDepth b t body) :
    Extent.Tile s.start (s.extents maxDepth b) s.stop ∧ body.charge = Extent.total (s.extents maxDepth b) := by
  obtain ⟨htile, hcharge⟩ := hr.gathering_scanned.tile (s.owned maxDepth b) Body.charge
    (tile_of_step fun hdepth h t body hread => Read.tile (s := s.behind b h) hread)
  rw [extents_eq]
  refine ⟨htile, ?_⟩
  rw [hcharge]
  exact Nat.zero_add _
termination_by maxDepth - s.depth
decreasing_by
  simp only [behind]
  omega

/-- The records of a body inside a body are among the records of that. -/
theorem Read.mem_extents_of_inside (hr : s.Read maxDepth b t body) {site : BodySite} (hs : s.Inside maxDepth b site) :
    ∀ e ∈ site.extents maxDepth b, e ∈ s.extents maxDepth b := by
  induction hs with
  | self => exact fun e he => he
  | @block site h record r inside met kind fields ih =>
    intro e he
    obtain ⟨_, _, hread, _⟩ := hr.exists_of_inside inside
    obtain ⟨_, _, _, _, hnested, _⟩ := hread.exists_ofBlock met kind fields
    have hdepth : site.depth < maxDepth := Block.depth_le_of_read (Block.read_of_readNested hnested)
    refine ih e ?_
    rw [extents_eq]
    refine List.mem_flatMap.mpr ⟨h, met, ?_⟩
    rw [ofBlock_eq_behind fields] at he
    rw [owned_of_block kind hdepth]
    exact List.mem_cons_of_mem _ (List.mem_append_left _ he)

end BodySite

/-! ## Modules -/

namespace ModuleSymbols

/-- The extents of one record of a module, and of what is behind it if it is a procedure. -/
def owned (options : Options) (b : Buffer) (h : RecordHeader) : List Extent :=
  .ofRecord h.kind.isProcedure h ::
    match h.kind.isProcedure, (ProcedureRecord.read h options.readNames b (h.offset + 4)).1 with
    | true, .ok record =>
      (BodySite.ofProcedure h record).extents options.maxScopeDepth b ++ [.ofTerminator record.stop.toNat]
    | _, _ => []

/-- The extents of the records that the decoding of a module meets, those in the bodies of procedures included. -/
def extents (moduleName : String) (limit : Nat) (options : Options) (b : Buffer) (start : Nat) : List Extent :=
  (gathering moduleName limit options b start).visited.flatMap (owned options b)

variable {moduleName : String} {limit : Nat} {options : Options} {b : Buffer} {p q r : Nat} {methods methods' : List Method}

/-- A procedure takes its own bytes, those of its body and those of its terminator. -/
theorem owned_of_procedure {h : RecordHeader} {record : ProcedureRecord} (hk : h.kind.isProcedure = true)
    (hf : ProcedureRecord.read h options.readNames b (h.offset + 4) = (.ok record, r)) :
    owned options b h = .ofRecord true h ::
      ((BodySite.ofProcedure h record).extents options.maxScopeDepth b ++ [.ofTerminator record.stop.toNat]) := by
  rw [owned, hk, hf]

/-- The least length of a procedure. -/
theorem minimumLength_of_isProcedure {kind : RecordKind} (hk : kind.isProcedure = true) : kind.minimumLength = 39 := by
  cases kind <;> first | rfl | cases hk

/-- A step of the decoding of a module tiles what it steps over, and what is charged for the methods grows by that much. -/
theorem tile_of_step {h : RecordHeader} (step : ScanStep limit (gather moduleName limit options) b p methods h q methods') :
    Extent.Tile p (owned options b h) q ∧
      (methods'.map Method.charge).sum = (methods.map Method.charge).sum + Extent.total (owned options b h) := by
  obtain ⟨hoffset, hstop, _, _⟩ := RecordHeader.of_frame step.framed
  cases hk : h.kind.isProcedure with
  | false =>
    obtain ⟨rfl, rfl⟩ := eq_of_step step hk
    rw [owned, hk]
    refine ⟨.cons hoffset ?_ .nil, rfl⟩
    simp only [Extent.ofRecord, Bool.false_eq_true, if_false]
    omega
  | true =>
    obtain ⟨record, _, m, hfields, _, hmethod, rfl⟩ := exists_of_step step hk
    obtain ⟨t, body, hmeasured, hgathered, hcharge⟩ := Method.charge_of_read hmethod
    obtain ⟨_, _, _, _, _, _, rfl, _⟩ := Method.parts_of_read hmethod
    have hread : (BodySite.ofProcedure h record).Read options.maxScopeDepth b t body := ⟨hmeasured, hgathered⟩
    obtain ⟨htile, htotal⟩ := hread.tile
    have hfixed := RecordHeader.le_length_of_bind hfields
    rw [minimumLength_of_isProcedure hk] at hfixed
    rw [owned_of_procedure hk hfields]
    constructor
    · refine Extent.Tile.around hoffset ?_ htile
      simp only [Extent.ofRecord, if_true, minimumLength_of_isProcedure hk]
      omega
    · simp only [List.map_append, List.map_cons, List.map_nil, List.sum_append, List.sum_cons, List.sum_nil, hcharge, htotal,
        Extent.total_cons, Extent.total_append, Extent.total_nil, Extent.ofRecord, Extent.ofTerminator, if_true,
        minimumLength_of_isProcedure hk, terminatorSize]
      omega

/-- The records that a module is decoded from tile its range, and its methods are charged what they are. -/
theorem tile_of_read (hr : read moduleName limit options b p = (.ok (some methods), q)) :
    Extent.Tile p (extents moduleName limit options b p) (if p ≤ limit then limit else p) ∧
      (methods.map Method.charge).sum = Extent.total (extents moduleName limit options b p) := by
  obtain ⟨_, _, _, hscan⟩ := parts_of_read hr
  have gathered := scanned_of_scan hscan
  obtain ⟨htile, hcharge⟩ := gathered.tile (owned options b) (fun methods => (methods.map Method.charge).sum) tile_of_step
  rw [gathered.cursor_eq_ite] at htile
  refine ⟨htile, ?_⟩
  rw [hcharge]
  exact Nat.zero_add _

/-- Each record that is met in a module or in a body of it takes bytes of its own. -/
theorem mem_extents (hr : read moduleName limit options b p = (.ok (some methods), q)) {site : BodySite}
    (hs : Reaches moduleName limit options b p site) {h : RecordHeader}
    (hh : h ∈ (site.gathering options.maxScopeDepth b).visited) :
    .ofRecord h.kind.isCounted h ∈ extents moduleName limit options b p := by
  obtain ⟨_, _, _, hscan⟩ := parts_of_read hr
  obtain ⟨met, kind, fields, inside⟩ := hs
  obtain ⟨_, _, hmethod, _⟩ := exists_of_met (scanned_of_scan hscan) met kind fields
  obtain ⟨_, _, hprocedure, _⟩ := BodySite.read_of_method hmethod
  refine List.mem_flatMap.mpr ⟨_, met, ?_⟩
  rw [owned_of_procedure kind fields]
  refine List.mem_cons_of_mem _ (List.mem_append_left _ (hprocedure.mem_extents_of_inside inside _ ?_))
  rw [BodySite.extents_eq]
  exact List.mem_flatMap.mpr ⟨h, hh, List.mem_cons_self⟩

/-! ## How deep bodies are entered -/

/-- A body that is entered, also if the reading fails later on, has in front of it a procedure and as many blocks as it is deep, and
behind it as many terminators. -/
theorem Enters.bounds {site : BodySite} (hs : Enters moduleName limit options b p site) :
    p + 41 + 22 * site.depth ≤ site.start ∧ site.start ≤ site.stop ∧ site.stop + 4 * (site.depth + 1) ≤ limit := by
  induction hs with
  | @procedure h record r found met kind fields ended =>
    obtain ⟨hp, hf⟩ := frame_of_mem_visited met
    obtain ⟨_, hstop, _⟩ := RecordHeader.of_frame hf
    have hfixed := RecordHeader.le_length_of_bind fields
    obtain ⟨_, hbehind, hinside⟩ := RecordHeader.of_checkedEnd ended
    rw [minimumLength_of_isProcedure kind] at hfixed
    simp only [BodySite.ofProcedure, terminatorSize] at *
    omega
  | @block site h record r found _ met kind fields ended ih =>
    obtain ⟨hp, hf⟩ := frame_of_mem_visited met
    obtain ⟨_, hstop, _⟩ := RecordHeader.of_frame hf
    have hfixed := RecordHeader.le_length_of_bind fields
    obtain ⟨_, hbehind, hinside⟩ := RecordHeader.of_checkedEnd ended
    rw [kind] at hfixed
    simp only [BodySite.ofBlock, terminatorSize, RecordKind.minimumLength] at *
    omega

/-- The methods that a module decodes to are charged no more than the bytes of its range, for all that they hold at every depth, so
no chain of blocks in them is longer than a 26th of these. What is charged for them is charged for the records that are met, each of
which is as long at least, and each byte of the range belongs to one record only. Also if the decoding fails, no body is entered
deeper than that, whatever depth is allowed. -/
theorem charges_fit (moduleName : String) (limit : Nat) (options : Options) (b : Buffer) (p : Nat) :
    (∀ methods q, read moduleName limit options b p = (.ok (some methods), q) →
      (methods.map Method.charge).sum ≤ limit - p ∧
      (∀ m ∈ methods, ∀ chain, Scope.Chain m.blocks chain → chain.length ≤ (limit - p) / 26) ∧
      (methods.map Method.charge).sum = Extent.total (extents moduleName limit options b p) ∧
      (∀ e ∈ extents moduleName limit options b p, e.charge ≤ e.stop - e.start) ∧
      (∀ i, (extents moduleName limit options b p).countP (Extent.holds i) = if p ≤ i ∧ i < limit then 1 else 0) ∧
      (∀ h ∈ (gathering moduleName limit options b p).visited,
        .ofRecord h.kind.isProcedure h ∈ extents moduleName limit options b p) ∧
      ∀ site, Reaches moduleName limit options b p site → ∀ h ∈ (site.gathering options.maxScopeDepth b).visited,
        .ofRecord h.kind.isCounted h ∈ extents moduleName limit options b p) ∧
      ∀ site, Enters moduleName limit options b p site → site.depth ≤ (limit - p) / 26 := by
  constructor
  · intro methods q hr
    obtain ⟨htile, htotal⟩ := tile_of_read hr
    have hsum : (methods.map Method.charge).sum ≤ limit - p := by
      have hle := htile.total_le
      rw [← htotal] at hle
      split at hle <;> omega
    refine ⟨hsum, ?_, htotal, htile.charge_le, ?_, ?_, fun site hs h hh => mem_extents hr hs hh⟩
    · intro m hm chain hchain
      have hlength := hchain.length_le
      obtain ⟨front, back, rfl⟩ := List.append_of_mem hm
      simp only [List.map_append, List.map_cons, List.sum_append, List.sum_cons, Method.charge] at hsum
      omega
    · intro i
      have hrange : (p ≤ i ∧ i < if p ≤ limit then limit else p) ↔ (p ≤ i ∧ i < limit) := by
        split <;> omega
      rw [htile.countP_holds]
      simp only [hrange]
    · intro h hh
      exact List.mem_flatMap.mpr ⟨h, hh, List.mem_cons_self⟩
  · intro site hs
    have hbounds := hs.bounds
    omega

/-- A method with a block is charged 71 bytes at least and 126 at most if it is decoded from 126. -/
theorem charges_fit_sample : ∃ m q, read "M" 126 {} sampleWithVendors 0 = (.ok (some [m]), q) ∧ 71 ≤ m.charge ∧ m.charge ≤ 126 := by
  obtain ⟨m, q, hr, _, s, hs⟩ := read_sampleWithVendors
  have hfits := ((charges_fit "M" 126 {} sampleWithVendors 0).1 [m] q hr).1
  rw [List.map_singleton, List.sum_singleton] at hfits
  have hblock : 26 ≤ Scope.chargeAll m.blocks := by
    have hchain : Scope.Chain m.blocks [s] := .cons (by rw [hs]; exact List.mem_cons_self) .nil
    simpa using hchain.length_le
  refine ⟨m, q, hr, ?_, hfits⟩
  rw [Method.charge]
  omega

end ModuleSymbols

end ManagedSymbols
