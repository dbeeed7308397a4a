import ManagedSymbols.Proofs.Layout.Locals
import ManagedSymbols.Proofs.Layout.Record

/-!
# Bodies are read where they are stored

Each entry of a body adds to what is gathered (`Body.after`), and entries together add what their description says
(`Body.foldl_after`). Where entries are stored, the measuring scan counts what they add (`Entry.measure_storedAll`), and the
gathering scan adds it, nested blocks being read to any depth that is allowed (`Entry.gather_storedAll`). A position never lies in
front of the depth it is reached at, and no more is gathered than bytes are passed: that keeps all counts within words.
-/

namespace ManagedSymbols

open Reader

namespace Body

/-- A body with what one more entry says, in a method that starts at an address. -/
def after (address : UInt32) (body : Body) : Entry → Body
  | .slot s => body.addSlot s
  | .constant c _ => body.addConstant c
  | .usingNamespace name => body.addNamespace name
  | .foreign _ _ => body
  | .block _ length offset segment _ entries => body.addBlock {
      scope := {
        segment
        address := offset - address
        length
        scopes := Entry.scopes address entries
        slots := entries.filterMap Entry.slot?
        constants := entries.filterMap Entry.constant?
        usedNamespaces := entries.filterMap Entry.usedNamespace? }
      lastSlotType := (Entry.lastSlotTypeAll? entries).join }

/-- What entries add to a body is what their description says of them. -/
theorem foldl_after (address : UInt32) (entries : List Entry) (body : Body) :
    entries.foldl (after address) body = {
      scopes := body.scopes ++ Entry.scopes address entries
      slots := body.slots ++ entries.filterMap Entry.slot?
      constants := body.constants ++ entries.filterMap Entry.constant?
      usedNamespaces := body.usedNamespaces ++ entries.filterMap Entry.usedNamespace?
      lastSlotType := (Entry.lastSlotTypeAll? entries).getD body.lastSlotType } := by
  induction entries generalizing body with
  | nil => simp [Entry.scopes, Entry.lastSlotTypeAll?]
  | cons e rest ih =>
    rw [List.foldl_cons, ih]
    cases e <;>
      simp [after, addSlot, addConstant, addNamespace, addBlock, Entry.scopes, Entry.scope?, Entry.slot?, Entry.constant?,
        Entry.usedNamespace?, Entry.lastSlotTypeAll?, Entry.lastSlotType?, List.filterMap_cons]

/-- What entries say of an empty body. -/
theorem foldl_after_empty (address : UInt32) (entries : List Entry) :
    entries.foldl (after address) {} = {
      scopes := Entry.scopes address entries
      slots := entries.filterMap Entry.slot?
      constants := entries.filterMap Entry.constant?
      usedNamespaces := entries.filterMap Entry.usedNamespace?
      lastSlotType := (Entry.lastSlotTypeAll? entries).join } := by
  rw [foldl_after]
  cases Entry.lastSlotTypeAll? entries <;> simp

/-- No kind of thing is in a body more often than a number says. -/
structure Within (body : Body) (n : Nat) : Prop where
  scopes : body.scopes.length ≤ n
  slots : body.slots.length ≤ n
  constants : body.constants.length ≤ n
  usedNamespaces : body.usedNamespaces.length ≤ n

theorem Within.empty (n : Nat) : Within {} n :=
  ⟨Nat.zero_le n, Nat.zero_le n, Nat.zero_le n, Nat.zero_le n⟩

theorem Within.mono {body : Body} {m n : Nat} (h : body.Within m) (hn : m ≤ n) : body.Within n :=
  ⟨Nat.le_trans h.scopes hn, Nat.le_trans h.slots hn, Nat.le_trans h.constants hn, Nat.le_trans h.usedNamespaces hn⟩

/-- An entry adds at most one thing. -/
theorem Within.after {body : Body} {m n : Nat} (h : body.Within m) (hn : m < n) (address : UInt32) (e : Entry) :
    (body.after address e).Within n := by
  obtain ⟨h₁, h₂, h₃, h₄⟩ := h
  cases e <;> constructor <;>
    simp only [Body.after, addSlot, addConstant, addNamespace, addBlock, List.length_append, List.length_singleton] <;> omega

/-- A record that means nothing in a body is stepped over. -/
theorem gather_foreign (readBlock : BlockRecord → Reader Block) (limit : Nat) {h : RecordHeader}
    (hf : Entry.isForeign h.kind = true) (body : Body) : gather readBlock limit h body = pure (.afterRecord, body) := by
  unfold gather
  split <;> simp_all [Entry.isForeign]

end Body

/-- A record that means nothing in a body is not counted. -/
theorem Tally.count_foreign (limit : Nat) {h : RecordHeader} (hf : Entry.isForeign h.kind = true) (t : Tally) :
    count limit h t = pure (.afterRecord, t) := by
  unfold count
  split <;> simp_all [Entry.isForeign]

/-- A measure is what its scan counts. -/
theorem Tally.measure_of_scan {limit p q : Nat} {b : Buffer} {t : Tally} (h : scan limit (count limit) {} b p = (.ok t, q)) :
    measure limit b p = (.ok t, p) := by
  rw [measure, restoring, h]

/-- A block that is not nested too deeply is read from its measure, its body and its terminator. -/
theorem Block.read_eq (address : UInt32) {maxDepth depth : Nat} (record : BlockRecord) (hd : depth ≤ maxDepth)
    (hw : depth + 1 < 0x10000000000000000) :
    Block.read address maxDepth depth record = do
      Reader.require (address ≤ record.offset) (.malformed (.blockStart record.offset address))
      let _ ← Tally.measure record.stop.toNat
      let body ← scan record.stop.toNat (Body.gather (Block.read address maxDepth (depth + 1)) record.stop.toNat) {}
      expectEnd .block record.stop.toNat
      return ofBody address record body := by
  rw [Block.read, dif_pos hd]
  simp only [Reader.fits, if_pos hw, pure_bind]

theorem BlockRecord.reads (p : Nat) {h : RecordHeader} {parent stop length offset : UInt32} {segment : UInt16} {name : String}
    (hfix : h.fixedLayout = .ok ()) (hn : Layout.NulFree name) :
    Reads p (BlockRecord.read h) (Entry.blockFields parent stop length offset segment name)
      ⟨parent, stop, length, offset, segment⟩ := by
  simp only [Entry.blockFields, List.append_assoc]
  rw [BlockRecord.read, hfix]
  refine (Reads.check p ()).bind_nil ?_
  refine (Reads.u32 _ parent).bind ?_
  refine (Reads.u32 _ stop).bind ?_
  refine (Reads.u32 _ length).bind ?_
  refine (Reads.u32 _ offset).bind ?_
  refine (Reads.u16 _ segment).bind ?_
  exact (Reads.skipUtf8 _ hn).bind_pure _

namespace Entry

@[simp] theorem length_blockFields (parent stop length offset : UInt32) (segment : UInt16) (name : String) :
    (blockFields parent stop length offset segment name).length = 18 + (Layout.utf8 name).length := by
  simp only [blockFields, List.length_append, Layout.length_word32, Layout.length_word16]

/-- An entry is at least four bytes long. -/
theorem four_le_length_stored (base : Nat) (e : Entry) : 4 ≤ (e.stored base).length := by
  cases e <;> simp only [stored, List.length_append, Layout.length_record] <;> omega

/-- Where the body of a block of a name starts, if the block starts at a position. -/
def blockStart (base : Nat) (name : String) : Nat :=
  base + 4 + (18 + (Layout.utf8 name).length)

/-- Where the terminator of a block stands, if the block starts at a position. -/
def blockStop (base : Nat) (name : String) (entries : List Entry) : Nat :=
  blockStart base name + (storedAll (blockStart base name) entries).length

/-- The fields of the record of a block that starts at a position. -/
def storedFields (base : Nat) (parent length offset : UInt32) (segment : UInt16) (name : String) (entries : List Entry) :
    List UInt8 :=
  blockFields parent (UInt32.ofNat (blockStop base name entries)) length offset segment name

/-- The framing of the record of a block that starts at a position. -/
def storedHeader (base : Nat) (parent length offset : UInt32) (segment : UInt16) (name : String) (entries : List Entry) :
    RecordHeader :=
  Layout.header base .block (storedFields base parent length offset segment name entries)

variable {address : UInt32} {maxDepth depth base limit : Nat} {b : Buffer} {body : Body}
variable {parent length offset : UInt32} {segment : UInt16} {name : String} {entries : List Entry}

@[simp] theorem length_storedFields :
    (storedFields base parent length offset segment name entries).length = 18 + (Layout.utf8 name).length :=
  length_blockFields ..

/-- The record of a stored block ends where its body starts. -/
theorem storedHeader_stop : (storedHeader base parent length offset segment name entries).stop = blockStart base name := by
  rw [storedHeader, Layout.header, length_storedFields]
  rfl

/-- A block is stored as its record, which names the place of its terminator, its body and the terminator. -/
theorem stored_block : (block parent length offset segment name entries).stored base =
    Layout.record .block (storedFields base parent length offset segment name entries) ++
      storedAll (blockStart base name) entries ++ Layout.terminator := by
  simp only [stored, Layout.openerSize, length_blockFields, ← Nat.add_assoc, storedFields, blockStop, blockStart]

/-- A stored block ends behind its terminator. -/
theorem length_stored_block :
    base + ((block parent length offset segment name entries).stored base).length = blockStop base name entries + 4 := by
  rw [stored_block]
  simp only [List.length_append, Layout.length_record, Layout.terminator, length_storedFields, List.length_nil, blockStop,
    blockStart]
  omega

/-- The record, the body and the terminator of a stored block, each where it is held. -/
theorem holds_block (hb : b.Holds base ((block parent length offset segment name entries).stored base)) :
    b.Holds base (Layout.record .block (storedFields base parent length offset segment name entries)) ∧
      b.Holds (blockStart base name) (storedAll (blockStart base name) entries) ∧
      b.Holds (blockStop base name entries) Layout.terminator := by
  rw [stored_block] at hb
  have h := hb.opener
  rwa [length_storedFields] at h

/-- The record of a stored block is long enough, and the terminator it declares is accepted. -/
theorem checks_block (he : (block parent length offset segment name entries).Storable address)
    (hlimit : blockStop base name entries + 4 ≤ limit) (hw : limit ≤ 2 ^ 32) :
    (storedHeader base parent length offset segment name entries).fixedLayout = .ok () ∧
      (storedHeader base parent length offset segment name entries).checkedEnd (UInt32.ofNat (blockStop base name entries))
        limit = .ok (blockStop base name entries) := by
  have hlen := he.2.1
  rw [length_blockFields] at hlen
  constructor
  · refine RecordHeader.fixedLayout_header ?_ ?_
    · rwa [length_storedFields]
    · simp only [length_storedFields, RecordKind.minimumLength]
      omega
  · refine RecordHeader.checkedEnd_of_le (by omega) ?_ hlimit
    rw [storedHeader_stop]
    exact Nat.le_add_right _ _

/-- Where an entry is stored, it is counted as what it adds to a body; the terminator of a block is stepped over. -/
theorem measure_stored {e : Entry} (he : e.Storable address) (hb : b.Holds base (e.stored base))
    (hlimit : base + (e.stored base).length ≤ limit) (hw : limit ≤ 2 ^ 32) (hbody : body.Within base) :
    scan limit (Tally.count limit) body.tally b base =
      scan limit (Tally.count limit) (body.after address e).tally b (base + (e.stored base).length) := by
  have hsize := e.four_le_length_stored base
  have hinside : base < limit := by omega
  have hscopes := hbody.scopes
  have hslots := hbody.slots
  have hconstants := hbody.constants
  have hnamespaces := hbody.usedNamespaces
  cases e with
  | slot s =>
    refine (ScanStep.behind (r := base + 4) rfl he.2 hb hlimit ?_).scan_eq
    show (Reader.fits (body.slots.length + 1) >>= _) b (base + 4) = _
    rw [run_bind, run_fits, if_pos (by omega)]
    simp [Body.after, Body.addSlot, Body.tally]
  | constant c value =>
    refine (ScanStep.behind (r := base + 4) rfl he.2.2 hb hlimit ?_).scan_eq
    show (Reader.fits (body.constants.length + 1) >>= _) b (base + 4) = _
    rw [run_bind, run_fits, if_pos (by omega)]
    simp [Body.after, Body.addConstant, Body.tally]
  | usingNamespace name =>
    refine (ScanStep.behind (r := base + 4) rfl he.2 hb hlimit ?_).scan_eq
    show (Reader.fits (body.usedNamespaces.length + 1) >>= _) b (base + 4) = _
    rw [run_bind, run_fits, if_pos (by omega)]
    simp [Body.after, Body.addNamespace, Body.tally]
  | foreign code found =>
    refine (ScanStep.behind (r := base + 4) (RecordKind.ofCode_code_ofCode code) he.2 hb hlimit ?_).scan_eq
    rw [Tally.count_foreign limit he.1]
    rfl
  | block parent length offset segment name entries =>
    rw [length_stored_block] at hlimit ⊢
    obtain ⟨hfix, hstop⟩ := checks_block he hlimit hw
    have hfields := (holds_block hb).1.body
    simp only [storedFields, blockFields, List.append_assoc] at hfields
    have hdeclared := RecordHeader.declaredEnd_of_holds hfix hstop hfields
    rw [stored_block] at hb
    refine scan_over_opener (r := base + 12) rfl ?_ hb ?_ hlimit ?_ ?_
    · rw [length_storedFields]
      simpa only [length_blockFields] using he.2.1
    · rw [length_storedFields]
      rfl
    · show ((storedHeader base parent length offset segment name entries).declaredEnd limit >>= _) b (base + 4) = _
      rw [run_bind_ok hdeclared, run_bind, run_fits, if_pos (by simp only [Body.tally]; omega)]
      simp [Body.after, Body.addBlock, Body.tally]
    · intro h hh
      exact Tally.count_foreign limit (by rw [hh]; rfl) _

/-- Where entries are stored up to the limit, they are counted as what they add to a body. -/
theorem measure_storedAll {entries : List Entry} (he : StorableAll address entries) (hb : b.Holds base (storedAll base entries))
    (hlimit : base + (storedAll base entries).length = limit) (hw : limit ≤ 2 ^ 32) (hbody : body.Within base) :
    scan limit (Tally.count limit) body.tally b base = (.ok (entries.foldl (Body.after address) body).tally, limit) := by
  induction entries generalizing base body with
  | nil => exact scan_of_eq hlimit
  | cons e rest ih =>
    simp only [storedAll, List.length_append] at hb hlimit
    have hsize := e.four_le_length_stored base
    rw [measure_stored he.1 hb.left (by omega) hw hbody, List.foldl_cons]
    exact ih he.2 hb.right (by omega) (hbody.after (by omega) address e)

/-- Where a block is stored, its body is read and the cursor is left behind its terminator, if its entries are gathered. -/
theorem read_block
    (he : (block parent length offset segment name entries).Storable address)
    (hb : b.Holds base ((block parent length offset segment name entries).stored base))
    (hw : blockStop base name entries < 2 ^ 32) (hdepth : depth ≤ maxDepth) (hbase : depth < 2 ^ 32)
    (hgather : scan (blockStop base name entries) (Body.gather (Block.read address maxDepth (depth + 1))
      (blockStop base name entries)) {} b (blockStart base name) =
        (.ok (entries.foldl (Body.after address) {}), blockStop base name entries)) :
    Block.read address maxDepth depth
      ⟨parent, UInt32.ofNat (blockStop base name entries), length, offset, segment⟩ b (blockStart base name) =
        (.ok {
          scope := {
            segment
            address := offset - address
            length
            scopes := scopes address entries
            slots := entries.filterMap slot?
            constants := entries.filterMap constant?
            usedNamespaces := entries.filterMap usedNamespace? }
          lastSlotType := (lastSlotTypeAll? entries).join }, blockStop base name entries + 4) := by
  have hstop : (UInt32.ofNat (blockStop base name entries)).toNat = blockStop base name entries := by
    rw [UInt32.toNat_ofNat', Nat.mod_eq_of_lt hw]
  obtain ⟨_, hinner, hend⟩ := holds_block hb
  have hlength : blockStart base name + (storedAll (blockStart base name) entries).length = blockStop base name entries := rfl
  have hcount := measure_storedAll he.2.2.2 hinner hlength (Nat.le_of_lt hw)
    (Body.Within.empty _)
  have hmeasure := Tally.measure_of_scan hcount
  have hterminator := expectEnd_reads .block (blockStop base name entries) b hend
  rw [Block.read_eq address _ hdepth (by omega)]
  simp only [hstop]
  rw [run_bind, run_require, if_pos he.2.2.1]
  dsimp only
  rw [run_bind_ok hmeasure, run_bind_ok hgather, run_bind_ok hterminator, run_pure, Body.foldl_after_empty]
  rfl

/-- A record that is gathered well is a step behind it. -/
theorem step_behind {readBlock : BlockRecord → Reader Block} {kind : RecordKind} {fields : List UInt8} {r : Nat} {t : Body}
    (hk : RecordKind.ofCode kind.code = kind) (hlen : fields.length + 2 < 2 ^ 16)
    (hb : b.Holds base (Layout.record kind fields)) (hlimit : base + (Layout.record kind fields).length ≤ limit)
    (hv : kind ≠ .vendor)
    (hh : Body.gather readBlock limit (Layout.header base kind fields) body b (base + 4) = (.ok (.afterRecord, t), r)) :
    ∃ h, h.kind ≠ .vendor ∧
      ScanStep limit (Body.gather readBlock limit) b base body h (base + (Layout.record kind fields).length) t :=
  ⟨_, hv, ScanStep.behind hk hlen hb hlimit hh⟩

/-- Where a block is stored, it is a step behind its terminator, if its entries are gathered. -/
theorem step_over_block (he : (block parent length offset segment name entries).Storable address)
    (hb : b.Holds base ((block parent length offset segment name entries).stored base))
    (hlimit : blockStop base name entries + 4 ≤ limit) (hw : limit ≤ 2 ^ 32) (hdepth : depth + 1 ≤ maxDepth)
    (hbase : depth ≤ base)
    (hgather : scan (blockStop base name entries) (Body.gather (Block.read address maxDepth (depth + 1 + 1))
      (blockStop base name entries)) {} b (blockStart base name) =
        (.ok (entries.foldl (Body.after address) {}), blockStop base name entries)) :
    ∃ h, h.kind ≠ .vendor ∧
      ScanStep limit (Body.gather (Block.read address maxDepth (depth + 1)) limit) b base body h
        (blockStop base name entries + 4) (body.after address (block parent length offset segment name entries)) := by
  obtain ⟨hrecord, _, hend⟩ := holds_block hb
  obtain ⟨hfix, hstop⟩ := checks_block he hlimit hw
  have hstart : blockStart base name ≤ blockStop base name entries := Nat.le_add_right _ _
  have hbehind : base + 4 ≤ blockStart base name := Nat.le_add_right _ _
  have hsize : blockStop base name entries + 4 ≤ b.size := hend.le_size
  have hfields := BlockRecord.reads (base + 4) hfix he.1 b hrecord.body
  have hblock := read_block he hb (by omega) hdepth (by omega) hgather
  have hseek : ∀ p, Reader.seek (storedHeader base parent length offset segment name entries).stop b p =
      (.ok (), blockStart base name) := by
    intro p
    rw [storedHeader_stop, run_seek, if_pos (by omega)]
  have hcheck : ∀ p, Reader.check ((storedHeader base parent length offset segment name entries).checkedEnd
      (UInt32.ofNat (blockStop base name entries)) limit) b p = (.ok (blockStop base name entries), p) := by
    intro p
    rw [hstop]
    rfl
  have hgathered : Body.gather (Block.read address maxDepth (depth + 1)) limit
      (storedHeader base parent length offset segment name entries) body b (base + 4) =
        (.ok (.jump (blockStop base name entries + 4), body.after address (block parent length offset segment name entries)),
          blockStop base name entries + 4) := by
    show (BlockRecord.read _ >>= _) b (base + 4) = _
    rw [run_bind_ok hfields, run_bind_ok (hcheck _), run_bind_ok (hseek _), run_bind_ok hblock]
    rfl
  refine ⟨_, ?_, ScanStep.jumping rfl ?_ hrecord ?_ hlimit hsize hgathered⟩
  · simp only [Layout.header, ne_eq, reduceCtorEq, not_false_eq_true]
  · rw [length_storedFields]
    simpa only [length_blockFields] using he.2.1
  · rw [length_storedFields]
    exact Nat.le_trans hstart (Nat.le_add_right _ 4)

mutual

/-- Where an entry is stored, the gathering scan makes one step over all of it and adds what the entry says. -/
theorem gather_stored : (e : Entry) → ∀ {base limit depth : Nat} {body : Body}, e.Storable address →
    b.Holds base (e.stored base) → base + (e.stored base).length ≤ limit → limit ≤ 2 ^ 32 →
    depth + e.depth ≤ maxDepth → depth ≤ base →
    ∃ h, h.kind ≠ .vendor ∧ ScanStep limit (Body.gather (Block.read address maxDepth (depth + 1)) limit) b base body h
      (base + (e.stored base).length) (body.after address e)
  | slot s, base, limit, depth, body => by
    intro he hb hlimit _ _ _
    have hreads : Reads (base + 4) (Body.gather (Block.read address maxDepth (depth + 1)) limit
        (Layout.header base .slot s.stored) body) s.stored (.afterRecord, body.addSlot s) := by
      show Reads _ (Reader.check _ >>= _) _ _
      rw [RecordHeader.fixedLayout_header he.2 (by simp [Slot.stored, RecordKind.minimumLength]; omega)]
      exact (Reads.check _ ()).bind_nil ((Slot.reads _ he.1).bind_pure _)
    exact step_behind rfl he.2 hb hlimit (by decide) (hreads b hb.body)
  | constant c value, base, limit, depth, body => by
    intro he hb hlimit _ _ _
    have hvalue := he.1.two_le_length
    have hreads : Reads (base + 4) (Body.gather (Block.read address maxDepth (depth + 1)) limit
        (Layout.header base .constant (c.storedWith value)) body) (c.storedWith value) (.afterRecord, body.addConstant c) := by
      show Reads _ (Reader.check _ >>= _) _ _
      rw [RecordHeader.fixedLayout_header he.2.2 (by simp [Constant.storedWith, RecordKind.minimumLength]; omega)]
      exact (Reads.check _ ()).bind_nil ((Constant.reads _ he.1 he.2.1).bind_pure _)
    exact step_behind rfl he.2.2 hb hlimit (by decide) (hreads b hb.body)
  | usingNamespace name, base, limit, depth, body => by
    intro he hb hlimit _ _ _
    have hname := (Reads.utf8 (base + 4) he.1).bind_pure fun name => (Resume.afterRecord, body.addNamespace name)
    exact step_behind rfl he.2 hb hlimit (by decide) (hname b hb.body)
  | foreign code found, base, limit, depth, body => by
    intro he hb hlimit _ _ _
    refine step_behind (r := base + 4) (RecordKind.ofCode_code_ofCode code) he.2 hb hlimit ?_ ?_
    · intro hv
      have := he.1
      rw [hv] at this
      cases this
    · rw [Body.gather_foreign _ _ he.1]
      rfl
  | block parent length offset segment name entries, base, limit, depth, body => by
    intro he hb hlimit hw hdepth hbase
    have hstart : base + 4 ≤ blockStart base name := Nat.le_add_right _ _
    rw [length_stored_block] at hlimit ⊢
    rw [Entry.depth] at hdepth
    refine step_over_block he hb hlimit hw (by omega) hbase ?_
    exact gather_storedAll entries he.2.2.2 (holds_block hb).2.1 rfl (by omega) (by omega) (by omega)

/-- Where entries are stored up to the limit, the gathering scan adds what they say. -/
theorem gather_storedAll : (entries : List Entry) → ∀ {base limit depth : Nat} {body : Body}, StorableAll address entries →
    b.Holds base (storedAll base entries) → base + (storedAll base entries).length = limit → limit ≤ 2 ^ 32 →
    depth + depthAll entries ≤ maxDepth → depth ≤ base →
    scan limit (Body.gather (Block.read address maxDepth (depth + 1)) limit) body b base =
      (.ok (entries.foldl (Body.after address) body), limit)
  | [], base, limit, depth, body => by
    intro _ _ hlimit _ _ _
    exact scan_of_eq hlimit
  | e :: rest, base, limit, depth, body => by
    intro he hb hlimit hw hdepth hbase
    simp only [storedAll, List.length_append] at hb hlimit
    simp only [depthAll] at hdepth
    have hsize := e.four_le_length_stored base
    obtain ⟨_, _, step⟩ := gather_stored e he.1 hb.left (by omega) hw (by omega) hbase
    rw [step.scan_eq, List.foldl_cons]
    exact gather_storedAll rest he.2 hb.right (by omega) hw (by omega) (by omega)

end

end Entry

end ManagedSymbols
