import ManagedSymbols.Body
import ManagedSymbols.Proofs.Record.Walks

/-!
# The steps of the two walks over a body

What one step of the gathering scan does is told by the kind of the record (`Body.Taken`), and what one step of the measuring scan
counts is told by the kind alone (`Tally.of_step`). A block that is read stops behind the start of its terminator
(`Block.parts_of_read`), so the measuring scan is a walk that jumps to the end of blocks, and the gathering scan one that reads to
their end. Both add up the kinds of the records they meet.
-/

namespace ManagedSymbols

open Reader

/-- Whether a record of a kind opens a block. -/
def RecordKind.isBlock : RecordKind → Bool
  | block => true
  | _ => false

/-- A body that has stopped at its terminator: the cursor stood there and stands four bytes behind now. -/
theorem of_expectEnd {kind : RecordKind} {stop p q : Nat} {b : Buffer} (h : expectEnd kind stop b p = (.ok (), q)) :
    p = stop ∧ RecordKind.ofCode (b.word16 (stop + 2)) = .terminator ∧ q = stop + terminatorSize ∧ q ≤ b.size := by
  obtain ⟨_, _, hposition, h⟩ := exists_of_bind h
  cases hposition
  obtain ⟨_, _, hstop, h⟩ := exists_of_bind h
  obtain ⟨rfl, rfl⟩ := of_require hstop
  obtain ⟨_, _, hlength, h⟩ := exists_of_bind h
  obtain ⟨rfl, rfl, _⟩ := of_u16 hlength
  obtain ⟨_, _, hcode, h⟩ := exists_of_bind h
  obtain ⟨rfl, rfl, hsize⟩ := of_u16 hcode
  obtain ⟨hkind, rfl⟩ := of_require h
  exact ⟨rfl, hkind, rfl, hsize⟩

/-- A terminator that is declared stands where the third word of the record says and ends inside the range. -/
theorem RecordHeader.of_checkedEnd {h : RecordHeader} {stop : UInt32} {limit found : Nat}
    (hc : h.checkedEnd stop limit = .ok found) :
    found = stop.toNat ∧ h.stop ≤ stop.toNat ∧ stop.toNat + terminatorSize ≤ limit := by
  unfold checkedEnd at hc
  split at hc
  · cases hc
  · split at hc
    · cases hc
    · cases hc
      omega

/-- A record that has passed is long enough for the fixed fields of its kind. -/
theorem RecordHeader.le_length_of_fixedLayout {h : RecordHeader} (hfix : h.fixedLayout = .ok ()) :
    h.kind.minimumLength ≤ h.length.toNat := by
  unfold fixedLayout at hfix
  split at hfix
  · cases hfix
  · next hlength => exact Nat.le_of_not_lt hlength

/-- Whatever reads an opener's record reads two words first, and the second one says where the terminator stands. -/
theorem RecordHeader.exists_of_opener {α : Type} {h : RecordHeader} {next : UInt32 → UInt32 → Reader α} {a : α} {q : Nat}
    {b : Buffer}
    (hr : (do
      Reader.check h.fixedLayout
      let parent ← Reader.u32
      let stop ← Reader.u32
      next parent stop) b (h.offset + 4) = (.ok a, q)) :
    ∃ parent stop, stop.toNat = h.declaredStop b ∧ next parent stop b (h.offset + 12) = (.ok a, q) := by
  obtain ⟨_, _, hfix, hr⟩ := exists_of_bind hr
  obtain ⟨_, rfl⟩ := of_check hfix
  obtain ⟨_, _, hparent, hr⟩ := exists_of_bind hr
  obtain ⟨rfl, rfl, _⟩ := of_u32 hparent
  obtain ⟨_, _, hstop, hr⟩ := exists_of_bind hr
  obtain ⟨rfl, rfl, _⟩ := of_u32 hstop
  exact ⟨_, _, rfl, hr⟩

/-- Whatever reads a record with fixed fields has checked that the record is long enough for them. -/
theorem RecordHeader.le_length_of_bind {α : Type} {h : RecordHeader} {next : Unit → Reader α} {a : α} {p q : Nat} {b : Buffer}
    (hr : (Reader.check h.fixedLayout >>= next) b p = (.ok a, q)) : h.kind.minimumLength ≤ h.length.toNat := by
  obtain ⟨_, _, hfix, _⟩ := exists_of_bind hr
  obtain ⟨hlayout, _⟩ := of_check hfix
  exact le_length_of_fixedLayout hlayout

/-- The terminator that is read from the front of an opener's fields is the declared one. -/
theorem RecordHeader.of_declaredEnd {h : RecordHeader} {limit stop q : Nat} {b : Buffer}
    (hd : h.declaredEnd limit b (h.offset + 4) = (.ok stop, q)) :
    stop = h.declaredStop b ∧ h.stop ≤ stop ∧ stop + terminatorSize ≤ limit := by
  obtain ⟨_, _, hstop, hd⟩ := exists_of_opener hd
  obtain ⟨hchecked, _⟩ := of_check hd
  obtain ⟨rfl, hbehind, hinside⟩ := of_checkedEnd hchecked
  exact ⟨hstop, hbehind, hinside⟩

/-- The terminator in a block record is the declared one. -/
theorem BlockRecord.stop_of_read {h : RecordHeader} {record : BlockRecord} {q : Nat} {b : Buffer}
    (hr : BlockRecord.read h b (h.offset + 4) = (.ok record, q)) : record.stop.toNat = h.declaredStop b := by
  obtain ⟨_, _, hstop, hr⟩ := RecordHeader.exists_of_opener hr
  iterate 4 obtain ⟨_, _, _, hr⟩ := exists_of_bind hr
  obtain ⟨rfl, _⟩ := of_pure hr
  exact hstop

/-- What a step of the gathering scan does with a record that ends at `h.stop`: where the scan goes on, and the body then. -/
inductive Body.Taken (readBlock : BlockRecord → Reader Block) (limit : Nat) (b : Buffer) (h : RecordHeader) (body : Body) :
    Nat → Body → Prop where
  | block {record : BlockRecord} {found : Block} {r q : Nat} (kind : h.kind = .block)
      (fields : BlockRecord.read h b (h.offset + 4) = (.ok record, r))
      (ended : h.checkedEnd record.stop limit = .ok record.stop.toNat) (inner : readBlock record b h.stop = (.ok found, q)) :
      Taken readBlock limit b h body q (body.addBlock found)
  | slot {found : Slot} {r : Nat} (kind : h.kind = .slot) (fixed : h.fixedLayout = .ok ())
      (fields : Slot.read b (h.offset + 4) = (.ok found, r)) : Taken readBlock limit b h body h.stop (body.addSlot found)
  | constant {found : Constant} {r : Nat} (kind : h.kind = .constant) (fixed : h.fixedLayout = .ok ())
      (fields : Constant.read b (h.offset + 4) = (.ok found, r)) :
      Taken readBlock limit b h body h.stop (body.addConstant found)
  | usingNamespace {name : String} {r : Nat} (kind : h.kind = .usingNamespace)
      (fields : Reader.utf8 b (h.offset + 4) = (.ok name, r)) : Taken readBlock limit b h body h.stop (body.addNamespace name)
  | other (block : h.kind ≠ .block) (slot : h.kind ≠ .slot) (constant : h.kind ≠ .constant)
      (usingNamespace : h.kind ≠ .usingNamespace) : Taken readBlock limit b h body h.stop body

section Gathering

variable {readBlock : BlockRecord → Reader Block} {limit p q : Nat} {b : Buffer} {body body' : Body} {h : RecordHeader}

/-- A record of a kind that a body does not hold is stepped over. -/
theorem Body.gather_other (block : h.kind ≠ .block) (slot : h.kind ≠ .slot) (constant : h.kind ≠ .constant)
    (usingNamespace : h.kind ≠ .usingNamespace) (body : Body) :
    Body.gather readBlock limit h body = pure (.afterRecord, body) := by
  unfold Body.gather
  split <;> first | rfl | contradiction

/-- Each record that is gathered is taken, and the answer names the position where the scan is to go on. -/
theorem Body.taken_of_gather {resume : Resume} {r : Nat}
    (hh : Body.gather readBlock limit h body b (h.offset + 4) = (.ok (resume, body'), r)) :
    Body.Taken readBlock limit b h body (resume.position h) body' := by
  by_cases hblock : h.kind = .block
  · rw [Body.gather, hblock] at hh
    obtain ⟨record, _, hfields, hh⟩ := exists_of_bind hh
    obtain ⟨stop, _, hcheck, hh⟩ := exists_of_bind hh
    obtain ⟨hended, rfl⟩ := of_check hcheck
    obtain ⟨_, _, hseek, hh⟩ := exists_of_bind hh
    obtain ⟨_, rfl⟩ := of_seek hseek
    obtain ⟨found, _, hinner, hh⟩ := exists_of_bind hh
    obtain ⟨_, _, hposition, hh⟩ := exists_of_bind hh
    cases hposition
    obtain ⟨hpair, _⟩ := of_pure hh
    cases hpair
    obtain ⟨rfl, _, _⟩ := RecordHeader.of_checkedEnd hended
    exact .block hblock hfields hended hinner
  by_cases hslot : h.kind = .slot
  · rw [Body.gather, hslot] at hh
    obtain ⟨_, _, hcheck, hh⟩ := exists_of_bind hh
    obtain ⟨hfix, rfl⟩ := of_check hcheck
    obtain ⟨found, _, hfields, hh⟩ := exists_of_bind hh
    obtain ⟨hpair, _⟩ := of_pure hh
    cases hpair
    exact .slot hslot hfix hfields
  by_cases hconstant : h.kind = .constant
  · rw [Body.gather, hconstant] at hh
    obtain ⟨_, _, hcheck, hh⟩ := exists_of_bind hh
    obtain ⟨hfix, rfl⟩ := of_check hcheck
    obtain ⟨found, _, hfields, hh⟩ := exists_of_bind hh
    obtain ⟨hpair, _⟩ := of_pure hh
    cases hpair
    exact .constant hconstant hfix hfields
  by_cases hnamespace : h.kind = .usingNamespace
  · rw [Body.gather, hnamespace] at hh
    obtain ⟨name, _, hfields, hh⟩ := exists_of_bind hh
    obtain ⟨hpair, _⟩ := of_pure hh
    cases hpair
    exact .usingNamespace hnamespace hfields
  · rw [Body.gather_other hblock hslot hconstant hnamespace] at hh
    obtain ⟨hpair, _⟩ := of_pure hh
    cases hpair
    exact .other hblock hslot hconstant hnamespace

/-- Each step of the gathering scan takes its record. -/
theorem Body.taken_of_step (step : ScanStep limit (Body.gather readBlock limit) b p body h q body') :
    Body.Taken readBlock limit b h body q body' := by
  obtain ⟨resume, r, hh, ht⟩ := step.handled
  obtain rfl := step.bounds.1
  obtain ⟨rfl, _⟩ := Resume.of_target ht
  exact taken_of_gather hh

end Gathering

/-! ## What is counted -/

/-- A tally with one more record of a kind. -/
def Tally.add (t : Tally) : RecordKind → Tally
  | .block => { t with scopes := t.scopes + 1 }
  | .slot => { t with slots := t.slots + 1 }
  | .constant => { t with constants := t.constants + 1 }
  | .usingNamespace => { t with usedNamespaces := t.usedNamespaces + 1 }
  | _ => t

/-- The tally of records that are met one after the other. -/
def Tally.ofHeaders (hs : List RecordHeader) : Tally :=
  hs.foldl (fun t h => t.add h.kind) {}

/-- Whether records of a kind are counted. -/
def RecordKind.isCounted : RecordKind → Bool
  | block | slot | constant | usingNamespace => true
  | _ => false

/-- Records of a kind that is not counted leave the tally. -/
theorem Tally.add_of_not {kind : RecordKind} (hk : kind.isCounted = false) (t : Tally) : t.add kind = t := by
  cases kind <;> first | rfl | cases hk

/-- The tally is that of the records that are counted. -/
theorem Tally.foldl_filter (hs : List RecordHeader) (t : Tally) :
    (hs.filter fun h => h.kind.isCounted).foldl (fun t h => t.add h.kind) t = hs.foldl (fun t h => t.add h.kind) t := by
  induction hs generalizing t with
  | nil => rfl
  | cons h rest ih =>
    rw [List.filter_cons, List.foldl_cons]
    split
    · rw [List.foldl_cons, ih]
    · next hnot => rw [ih, Tally.add_of_not (Bool.eq_false_iff.mpr hnot)]

/-- A block that is taken is read, and the body has it behind its other blocks. -/
theorem Body.Taken.exists_of_block {readBlock : BlockRecord → Reader Block} {limit q : Nat} {b : Buffer} {body body' : Body}
    {h : RecordHeader} (taken : Body.Taken readBlock limit b h body q body') (hk : h.kind = .block) :
    ∃ record found r, BlockRecord.read h b (h.offset + 4) = (.ok record, r) ∧
      h.checkedEnd record.stop limit = .ok record.stop.toNat ∧ readBlock record b h.stop = (.ok found, q) ∧
      body' = body.addBlock found := by
  cases taken with
  | block _ fields ended inner => exact ⟨_, _, _, fields, ended, inner, rfl⟩
  | slot kind => rw [hk] at kind; cases kind
  | constant kind => rw [hk] at kind; cases kind
  | usingNamespace kind => rw [hk] at kind; cases kind
  | other block => exact absurd hk block

/-- Behind a record that opens no block the scan is to go on at its end. -/
theorem Body.Taken.eq_of_not_block {readBlock : BlockRecord → Reader Block} {limit q : Nat} {b : Buffer} {body body' : Body}
    {h : RecordHeader} (taken : Body.Taken readBlock limit b h body q body') (hk : h.kind ≠ .block) : q = h.stop := by
  cases taken with
  | block kind => exact absurd kind hk
  | slot => rfl
  | constant => rfl
  | usingNamespace => rfl
  | other => rfl

/-- A record that is not counted adds nothing to a body, and the scan is to go on at its end. -/
theorem Body.Taken.eq_of_not_counted {readBlock : BlockRecord → Reader Block} {limit q : Nat} {b : Buffer} {body body' : Body}
    {h : RecordHeader} (taken : Body.Taken readBlock limit b h body q body') (hk : h.kind.isCounted = false) :
    q = h.stop ∧ body' = body := by
  cases taken with
  | block kind => rw [kind] at hk; cases hk
  | slot kind => rw [kind] at hk; cases hk
  | constant kind => rw [kind] at hk; cases hk
  | usingNamespace kind => rw [kind] at hk; cases hk
  | other => exact ⟨rfl, rfl⟩

/-- What a record adds to a body is counted by its kind. -/
theorem Body.Taken.tally_eq {readBlock : BlockRecord → Reader Block} {limit q : Nat} {b : Buffer} {body body' : Body}
    {h : RecordHeader} (taken : Body.Taken readBlock limit b h body q body') : body'.tally = body.tally.add h.kind := by
  cases taken with
  | block kind => rw [kind]; simp [Body.tally, Body.addBlock, Tally.add]
  | slot kind => rw [kind]; simp [Body.tally, Body.addSlot, Tally.add]
  | constant kind => rw [kind]; simp [Body.tally, Body.addConstant, Tally.add]
  | usingNamespace kind => rw [kind]; simp [Body.tally, Body.addNamespace, Tally.add]
  | other block slot constant usingNamespace =>
    rw [Tally.add_of_not]
    cases hk : h.kind <;> first | rfl | contradiction

/-- Each record that is measured is counted by its kind, and the scan is to go on at the terminator of a block or behind any other
record. -/
theorem Tally.of_count {limit r : Nat} {b : Buffer} {t t' : Tally} {h : RecordHeader} {resume : Resume}
    (hh : Tally.count limit h t b (h.offset + 4) = (.ok (resume, t'), r)) :
    t' = t.add h.kind ∧ h.stop ≤ resume.position h ∧
      if h.kind.isBlock then resume.position h = h.declaredStop b ∧ resume.position h + terminatorSize ≤ limit
      else resume.position h = h.stop := by
  cases hkind : h.kind with
  | block =>
    rw [Tally.count, hkind] at hh
    obtain ⟨stop, _, hdeclared, hh⟩ := exists_of_bind hh
    obtain ⟨rfl, hbehind, hinside⟩ := RecordHeader.of_declaredEnd hdeclared
    obtain ⟨_, _, hfits, hh⟩ := exists_of_bind hh
    obtain ⟨_, rfl, rfl⟩ := of_fits hfits
    obtain ⟨hpair, _⟩ := of_pure hh
    cases hpair
    exact ⟨rfl, hbehind, rfl, hinside⟩
  | slot | constant | usingNamespace =>
    rw [Tally.count, hkind] at hh
    obtain ⟨_, _, hfits, hh⟩ := exists_of_bind hh
    obtain ⟨_, rfl, rfl⟩ := of_fits hfits
    obtain ⟨hpair, _⟩ := of_pure hh
    cases hpair
    exact ⟨rfl, Nat.le_refl _, rfl⟩
  | terminator | vendor | globalProcedure | localProcedure | unknown =>
    rw [Tally.count, hkind] at hh
    obtain ⟨hpair, _⟩ := of_pure hh
    cases hpair
    exact ⟨rfl, Nat.le_refl _, rfl⟩

/-- Each step of the measuring scan counts the record by its kind; a block is stepped over up to its terminator. -/
theorem Tally.of_step {limit p q : Nat} {b : Buffer} {t t' : Tally} {h : RecordHeader}
    (step : ScanStep limit (Tally.count limit) b p t h q t') :
    t' = t.add h.kind ∧
      if h.kind.isBlock then q = h.declaredStop b ∧ q + terminatorSize ≤ limit else q = h.stop := by
  obtain ⟨resume, r, hh, ht⟩ := step.handled
  obtain rfl := step.bounds.1
  obtain ⟨rfl, _⟩ := Resume.of_target ht
  obtain ⟨hcount, _, hposition⟩ := of_count hh
  exact ⟨hcount, hposition⟩

/-- A measure that succeeds leaves the cursor and is a chain of steps. -/
theorem Tally.of_measure {limit p q : Nat} {b : Buffer} {t : Tally} (hm : Tally.measure limit b p = (.ok t, q)) :
    p = q ∧ Scanned limit (Tally.count limit) b p {} (scanRun limit (Tally.count limit) {} b p).visited t
      (scanRun limit (Tally.count limit) {} b p).cursor := by
  simp only [Tally.measure, restoring, Prod.mk.injEq] at hm
  exact ⟨hm.2, scanned_of_answer hm.1⟩

/-! ## Blocks as a whole -/

/-- Reads a block in a body that is nested so deep itself. -/
def Block.readNested (address : UInt32) (maxDepth depth : Nat) (record : BlockRecord) : Reader Block := do
  let _ ← Reader.fits (depth + 1)
  Block.read address maxDepth (depth + 1) record

/-- A block that is not nested too deep is read by its body. -/
theorem Block.read_of_le {address : UInt32} {maxDepth depth : Nat} (hdepth : depth ≤ maxDepth) (record : BlockRecord) :
    Block.read address maxDepth depth record = (do
      Reader.require (address ≤ record.offset) (.malformed (.blockStart record.offset address))
      let _ ← Tally.measure record.stop.toNat
      let body ← scan record.stop.toNat (Body.gather (Block.readNested address maxDepth depth) record.stop.toNat) {}
      expectEnd .block record.stop.toNat
      return ofBody address record body) := by
  rw [Block.read, dif_pos hdepth]
  rfl

/-- A block that is nested too deep is not read. -/
theorem Block.read_of_lt {address : UInt32} {maxDepth depth : Nat} (hdepth : maxDepth < depth) (record : BlockRecord) :
    Block.read address maxDepth depth record = Reader.fail (.recursionLimit maxDepth) := by
  rw [Block.read, dif_neg (Nat.not_le.mpr hdepth)]

/-- A block that is read is nested no deeper than allowed. -/
theorem Block.depth_le_of_read {address : UInt32} {maxDepth depth p q : Nat} {record : BlockRecord} {b : Buffer} {block : Block}
    (hr : Block.read address maxDepth depth record b p = (.ok block, q)) : depth ≤ maxDepth := by
  by_cases hdepth : depth ≤ maxDepth
  · exact hdepth
  · rw [Block.read_of_lt (Nat.lt_of_not_le hdepth)] at hr
    cases hr

/-- A block that is read has been measured and gathered up to its terminator, and the cursor is left four bytes behind that. -/
theorem Block.parts_of_read {address : UInt32} {maxDepth depth p q : Nat} {record : BlockRecord} {b : Buffer} {block : Block}
    (hr : Block.read address maxDepth depth record b p = (.ok block, q)) :
    ∃ t body, Tally.measure record.stop.toNat b p = (.ok t, p) ∧
      scan record.stop.toNat (Body.gather (Block.readNested address maxDepth depth) record.stop.toNat) {} b p =
        (.ok body, record.stop.toNat) ∧
      block = Block.ofBody address record body ∧ RecordKind.ofCode (b.word16 (record.stop.toNat + 2)) = .terminator ∧
      q = record.stop.toNat + terminatorSize := by
  rw [Block.read_of_le (Block.depth_le_of_read hr)] at hr
  obtain ⟨_, _, hrequire, hr⟩ := exists_of_bind hr
  obtain ⟨_, rfl⟩ := of_require hrequire
  obtain ⟨t, _, hmeasure, hr⟩ := exists_of_bind hr
  obtain ⟨body, _, hscan, hr⟩ := exists_of_bind hr
  obtain ⟨_, _, hend, hr⟩ := exists_of_bind hr
  obtain ⟨rfl, hkind, rfl, _⟩ := of_expectEnd hend
  obtain ⟨rfl, rfl⟩ := of_pure hr
  obtain ⟨rfl, _⟩ := Tally.of_measure hmeasure
  exact ⟨t, body, hmeasure, hscan, rfl, hkind, rfl⟩

/-- A block that is read in another body has been read at the next depth. -/
theorem Block.read_of_readNested {address : UInt32} {maxDepth depth p q : Nat} {record : BlockRecord} {b : Buffer}
    {block : Block} (hr : Block.readNested address maxDepth depth record b p = (.ok block, q)) :
    Block.read address maxDepth (depth + 1) record b p = (.ok block, q) := by
  obtain ⟨_, _, hfits, hr⟩ := exists_of_bind hr
  obtain ⟨_, _, rfl⟩ := of_fits hfits
  exact hr

/-! ## Both walks over one body -/

/-- The measuring scan jumps to the end of blocks. -/
theorem Tally.jumpsToEnd (limit : Nat) : JumpsToEnd RecordKind.isBlock limit (Tally.count limit) :=
  fun step => (Tally.of_step step).2

/-- The gathering scan reads to the end of blocks. -/
theorem Body.readsToEnd (address : UInt32) (maxDepth depth limit : Nat) :
    ReadsToEnd RecordKind.isBlock limit (Body.gather (Block.readNested address maxDepth depth) limit) := by
  intro b p q body body' h step
  cases Body.taken_of_step step with
  | block kind fields ended inner =>
    obtain ⟨_, _, _, _, _, hend, hq⟩ := Block.parts_of_read (Block.read_of_readNested inner)
    rw [BlockRecord.stop_of_read fields] at hend hq
    rw [kind]
    exact ⟨hq, hend⟩
  | slot kind => rw [kind]; rfl
  | constant kind => rw [kind]; rfl
  | usingNamespace kind => rw [kind]; rfl
  | other block slot constant usingNamespace =>
    cases hk : h.kind <;> first | rfl | contradiction

/-- A measure adds up the kinds of the records it meets. -/
theorem Tally.foldl_of_scanned {limit p r : Nat} {b : Buffer} {t u : Tally} {hs : List RecordHeader}
    (run : Scanned limit (Tally.count limit) b p t hs u r) : u = hs.foldl (fun t h => t.add h.kind) t := by
  induction run with
  | done behind => rfl
  | step first _ ih => rw [ih, (Tally.of_step first).1, List.foldl_cons]

/-- A body that is gathered holds what the kinds of the records add up to. -/
theorem Body.tally_of_scanned {readBlock : BlockRecord → Reader Block} {limit p r : Nat} {b : Buffer} {body body' : Body}
    {hs : List RecordHeader} (run : Scanned limit (Body.gather readBlock limit) b p body hs body' r) :
    body'.tally = hs.foldl (fun t h => t.add h.kind) body.tally := by
  induction run with
  | done behind => rfl
  | step first _ ih => rw [ih, (Body.taken_of_step first).tally_eq, List.foldl_cons]

end ManagedSymbols
