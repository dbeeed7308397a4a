import ManagedSymbols.Proofs.Module.Adjoining
import ManagedSymbols.Proofs.Module.Safe
import ManagedSymbols.Proofs.Record.Protocol

/-!
# Where modules and bodies end

A module that is read leaves the cursor at its limit, and a method or a block behind its terminator, whose place and kind are known
(`Method.endsAt_of_read`, `Block.endsAt_of_read`). Both follow from how openers are checked: the terminator of an opener stands
behind its record and inside the range, so the scan of a body starts in front of the terminator and stops at it, and no answer in
any scan is refused (`ScanAccepts`). The check of the position in front of a terminator and those of the answers never fail
(`ModuleSymbols.read_lands`).
-/

namespace ManagedSymbols

open Reader

/-! ## Answers that are never refused -/

/-- Every answer in a scan leads to a position where the scan may go on. -/
def ScanAccepts {σ : Type} (limit : Nat) (handler : RecordHandler σ) (s : σ) (b : Buffer) (p : Nat) : Prop :=
  ∀ (i : Nat) (h : RecordHeader) (answer : Resume), (scanRun limit handler s b p).visited[i]? = some h →
    (scanAnswers limit handler s b p)[i]? = some answer → ∃ q, answer.target h limit = .ok q

/-- An answer that a record in a range may give: it names a position between the end of the record and the limit. -/
def Resume.Accepted (h : RecordHeader) (limit : Nat) (answer : Resume) : Prop :=
  h.stop ≤ answer.position h ∧ answer.position h ≤ limit

variable {σ : Type} {limit : Nat} {b : Buffer} {h : RecordHeader}

/-- No answer is refused if the handler gives accepted answers only. -/
theorem scanAccepts_of_handler {handler : RecordHandler σ}
    (accepted : ∀ {h : RecordHeader} {s t : σ} {answer : Resume} {r : Nat}, h.stop ≤ limit →
      handler h s b (h.offset + 4) = (.ok (answer, t), r) → answer.Accepted h limit) (s : σ) (p : Nat) :
    ScanAccepts limit handler s b p := by
  intro i h answer hh ha
  obtain ⟨⟨c, s, t, r, hf, hcall⟩, _⟩ := call_of_answer hh ha
  obtain ⟨rfl, _, _, hinside, _⟩ := RecordHeader.of_frame hf
  obtain ⟨hstop, hlimit⟩ := accepted hinside hcall
  exact ⟨answer.position h, Resume.target_eq hstop hlimit⟩

/-! ## Where a body ends -/

/-- A terminator stands at `stop`, and `q` is the position behind it. -/
def Buffer.EndsAt (b : Buffer) (stop q : Nat) : Prop :=
  q = stop + terminatorSize ∧ b.word16 (stop + 2) = RecordKind.terminator.code

/-- The word that a terminator's kind is told from is its code. -/
theorem RecordKind.code_of_ofCode {code : UInt16} {kind : RecordKind} (hk : ofCode code = kind) : code = kind.code := by
  rw [← hk, code_ofCode]

/-- A block that is read ends at its terminator. -/
theorem Block.endsAt_of_read {address : UInt32} {maxDepth depth p q : Nat} {record : BlockRecord} {block : Block}
    (hr : Block.read address maxDepth depth record b p = (.ok block, q)) : b.EndsAt record.stop.toNat q := by
  obtain ⟨_, _, _, _, _, hkind, hq⟩ := Block.parts_of_read hr
  exact ⟨hq, RecordKind.code_of_ofCode hkind⟩

/-- A method that is read ends at its terminator. -/
theorem Method.endsAt_of_read {moduleName : String} {options : Options} {record : ProcedureRecord} {m : Method} {p q : Nat}
    (hr : Method.read moduleName options h record b p = (.ok m, q)) : b.EndsAt record.stop.toNat q := by
  obtain ⟨_, _, _, _, _, hkind, hq, _⟩ := Method.parts_of_read hr
  exact ⟨hq, RecordKind.code_of_ofCode hkind⟩

/-! ## The answers of the handlers -/

/-- Behind a body that ends at its terminator the scan around it may go on. -/
theorem RecordHeader.accepted_of_endsAt {stop : UInt32} {found : Nat} {answer : Resume}
    (hended : h.checkedEnd stop limit = .ok found) (hends : b.EndsAt stop.toNat (answer.position h)) :
    answer.Accepted h limit := by
  obtain ⟨_, hbehind, hinside⟩ := of_checkedEnd hended
  obtain ⟨hposition, _⟩ := hends
  rw [Resume.Accepted, hposition]
  exact ⟨Nat.le_trans hbehind (Nat.le_add_right _ _), hinside⟩

variable {answer : Resume} {r : Nat}

/-- A measure gives accepted answers only. -/
theorem Tally.accepted_of_count {t t' : Tally} (hinside : h.stop ≤ limit)
    (hh : Tally.count limit h t b (h.offset + 4) = (.ok (answer, t'), r)) : answer.Accepted h limit := by
  obtain ⟨_, hbehind, hposition⟩ := Tally.of_count hh
  refine ⟨hbehind, ?_⟩
  split at hposition
  · exact Nat.le_trans (Nat.le_add_right _ _) hposition.2
  · rw [hposition]
    exact hinside

/-- A body is gathered with accepted answers only, if the blocks in it end at their terminators. -/
theorem Body.accepted_of_gather {readBlock : BlockRecord → Reader Block}
    (ends : ∀ record c found q, readBlock record b c = (.ok found, q) → b.EndsAt record.stop.toNat q) {body body' : Body}
    (hinside : h.stop ≤ limit) (hh : Body.gather readBlock limit h body b (h.offset + 4) = (.ok (answer, body'), r)) :
    answer.Accepted h limit := by
  have taken := Body.taken_of_gather hh
  by_cases hk : h.kind = .block
  · obtain ⟨record, found, c, _, hended, hread, _⟩ := taken.exists_of_block hk
    exact RecordHeader.accepted_of_endsAt hended (ends record h.stop found _ hread)
  · rw [Resume.Accepted, taken.eq_of_not_block hk]
    exact ⟨Nat.le_refl _, hinside⟩

/-- The body of a method is gathered with accepted answers only, if the blocks in it end at their terminators. -/
theorem MethodBody.accepted_of_gather {readBlock : BlockRecord → Reader Block}
    (ends : ∀ record c found q, readBlock record b c = (.ok found, q) → b.EndsAt record.stop.toNat q) {m m' : MethodBody}
    (hinside : h.stop ≤ limit) (hh : MethodBody.gather readBlock limit h m b (h.offset + 4) = (.ok (answer, m'), r)) :
    answer.Accepted h limit := by
  by_cases hv : h.kind = .vendor
  · rw [gather_vendor hv] at hh
    obtain ⟨_, _, _, hh⟩ := exists_of_bind hh
    obtain ⟨hpair, _⟩ := of_pure hh
    cases hpair
    exact ⟨Nat.le_refl _, hinside⟩
  · rw [gather_of_ne_vendor hv] at hh
    obtain ⟨⟨_, _⟩, _, hbody, hh⟩ := exists_of_bind hh
    obtain ⟨hpair, _⟩ := of_pure hh
    cases hpair
    exact Body.accepted_of_gather ends hinside hbody

namespace ModuleSymbols

variable {moduleName : String} {options : Options} {p q : Nat}

/-- The counting walk gives accepted answers only. -/
theorem accepted_of_countProcedure {n n' : Nat} (hinside : h.stop ≤ limit)
    (hh : countProcedure limit h n b (h.offset + 4) = (.ok (answer, n'), r)) : answer.Accepted h limit := by
  obtain ⟨hbehind, hposition⟩ := of_countProcedure hh
  refine ⟨hbehind, ?_⟩
  split at hposition
  · exact Nat.le_trans (Nat.le_add_right _ _) hposition.2.2
  · rw [hposition.2]
    exact hinside

/-- The decoding walk gives accepted answers only. -/
theorem accepted_of_gather {methods methods' : List Method} (hinside : h.stop ≤ limit)
    (hh : gather moduleName limit options h methods b (h.offset + 4) = (.ok (answer, methods'), r)) :
    answer.Accepted h limit := by
  cases hk : h.kind.isProcedure with
  | true =>
    obtain ⟨record, c, m, _, hended, hmethod, _⟩ := exists_of_gather hh hk
    exact RecordHeader.accepted_of_endsAt hended (Method.endsAt_of_read hmethod)
  | false =>
    obtain ⟨rfl, _⟩ := eq_of_gather hh hk
    exact ⟨Nat.le_refl _, hinside⟩

/-- The scans that the reading of a module is made of, from any state and position: none of their answers is refused. -/
structure ScansAccept (moduleName : String) (options : Options) (b : Buffer) : Prop where
  counting : ∀ limit n p, ScanAccepts limit (countProcedure limit) n b p
  decoding : ∀ limit methods p, ScanAccepts limit (gather moduleName limit options) methods b p
  measuring : ∀ stop t p, ScanAccepts stop (Tally.count stop) t b p
  ofMethod : ∀ address stop m p,
    ScanAccepts stop (MethodBody.gather (Block.read address options.maxScopeDepth 1) stop) m b p
  ofBlock : ∀ address depth stop body p,
    ScanAccepts stop (Body.gather (Block.readNested address options.maxScopeDepth depth) stop) body b p

/-- No scan in the reading of a module refuses an answer. -/
theorem scansAccept (moduleName : String) (options : Options) (b : Buffer) : ScansAccept moduleName options b where
  counting _ n p := scanAccepts_of_handler accepted_of_countProcedure n p
  decoding _ methods p := scanAccepts_of_handler accepted_of_gather methods p
  measuring _ t p := scanAccepts_of_handler Tally.accepted_of_count t p
  ofMethod _ _ m p :=
    scanAccepts_of_handler (MethodBody.accepted_of_gather fun _ _ _ _ => Block.endsAt_of_read) m p
  ofBlock _ _ _ body p :=
    scanAccepts_of_handler (Body.accepted_of_gather fun _ _ _ _ hread => Block.endsAt_of_read (Block.read_of_readNested hread))
      body p

/-- The bodies that the reading of a module enters, also if it fails later on: those of procedures and blocks that are met and
whose terminators are accepted in the range around them. -/
inductive Enters (moduleName : String) (limit : Nat) (options : Options) (b : Buffer) (start : Nat) : BodySite → Prop where
  | procedure {h : RecordHeader} {record : ProcedureRecord} {r found : Nat}
      (met : h ∈ (gathering moduleName limit options b start).visited) (kind : h.kind.isProcedure = true)
      (fields : ProcedureRecord.read h options.readNames b (h.offset + 4) = (.ok record, r))
      (ended : h.checkedEnd record.stop limit = .ok found) : Enters moduleName limit options b start (.ofProcedure h record)
  | block {site : BodySite} {h : RecordHeader} {record : BlockRecord} {r found : Nat}
      (outer : Enters moduleName limit options b start site)
      (met : h ∈ (site.gathering options.maxScopeDepth b).visited) (kind : h.kind = .block)
      (fields : BlockRecord.read h b (h.offset + 4) = (.ok record, r))
      (ended : h.checkedEnd record.stop site.stop = .ok found) : Enters moduleName limit options b start (site.ofBlock h record)

/-- A body that is entered does not start behind its terminator, so whatever scans it to its end stops there. -/
theorem Enters.cursor_eq {site : BodySite} (hs : Enters moduleName limit options b p site) {handler : RecordHandler σ} {s u : σ}
    (hscan : scan site.stop handler s b site.start = (.ok u, q)) : q = site.stop := by
  have hstart : site.start ≤ site.stop := by
    cases hs with
    | procedure _ _ _ ended => exact (RecordHeader.of_checkedEnd ended).2.1
    | block _ _ _ _ ended => exact (RecordHeader.of_checkedEnd ended).2.1
  exact (scanned_of_scan hscan).cursor_eq hstart

/-- Each body that the decoding of a module reaches is entered, if the decoding succeeds. -/
theorem enters_of_reaches {methods : List Method} (hr : read moduleName limit options b p = (.ok (some methods), q))
    {site : BodySite} (hs : Reaches moduleName limit options b p site) : Enters moduleName limit options b p site := by
  obtain ⟨met, kind, fields, inside⟩ := hs
  obtain ⟨_, _, _, hscan⟩ := parts_of_read hr
  obtain ⟨_, _, hmethod, ended⟩ := exists_of_met (scanned_of_scan hscan) met kind fields
  obtain ⟨_, _, hprocedure, _⟩ := BodySite.read_of_method hmethod
  induction inside with
  | self => exact .procedure met kind fields ended
  | block inner hmet hkind hblock ih =>
    obtain ⟨_, _, hread, _⟩ := hprocedure.exists_of_inside inner
    obtain ⟨_, _, _, _, _, hended⟩ := hread.exists_ofBlock hmet hkind hblock
    exact .block ih hmet hkind hblock hended

/-- A module in which methods are found has one at least: if the decoding walk meets no procedure, the counting walk meets none
either. -/
theorem ne_some_nil_of_read {found : Option (List Method)} (hr : read moduleName limit options b p = (.ok found, q)) :
    found ≠ some [] := by
  rintro rfl
  obtain ⟨n, hs, gs, counted, gathered, hnone⟩ := scanned_of_read hr
  have hlength := length_of_scanned gathered
  have hnil : gs.filter (fun h => h.kind.isProcedure) = [] := by
    rw [← List.length_eq_zero_iff]
    simpa using hlength.symm
  have hends : ∀ h ∈ gs, h.kind.isProcedure = true → h.EndsPlainly b := by
    intro h hh hk
    have hmem : h ∈ gs.filter (fun h => h.kind.isProcedure) := List.mem_filter.mpr ⟨hh, hk⟩
    rw [hnil] at hmem
    cases hmem
  -- Without procedures nothing can be told of their terminators, so both walks meet the same procedures: none.
  have hsame := Scanned.filter_eq RecordKind.isProcedure (count_jumpsToEnd limit) (gather_readsToEnd moduleName limit options) rfl
    rfl counted gathered hends
  have hcount := count_of_scanned counted
  rw [hsame, hnil] at hcount
  cases hnone.mpr hcount

/-- A module that is read leaves the cursor at the limit, or where it was behind the limit, and methods are found only if there is
one. Each method and each block that is read, at any depth, leaves the cursor behind its terminator, which stands where its opener
says. No reading fails because a body ends elsewhere than at its terminator, or because an answer in a scan is refused: each body
that is entered starts in front of its terminator, and a scan that reaches its end stops exactly there. -/
theorem read_lands (moduleName : String) (limit : Nat) (options : Options) (b : Buffer) (p : Nat) :
    (∀ found q, read moduleName limit options b p = (.ok found, q) → q = (if p ≤ limit then limit else p) ∧ found ≠ some []) ∧
      (∀ h record c m q, Method.read moduleName options h record b c = (.ok m, q) → b.EndsAt record.stop.toNat q) ∧
      (∀ address depth record c block q, Block.read address options.maxScopeDepth depth record b c = (.ok block, q) →
        b.EndsAt record.stop.toNat q) ∧
      (∀ kind expected actual, (read moduleName limit options b p).1 ≠ .error (.notAtEnd kind expected actual)) ∧
      ScansAccept moduleName options b ∧
      ∀ site, Enters moduleName limit options b p site → ∀ {σ : Type} (handler : RecordHandler σ) (s u : σ) (q : Nat),
        scan site.stop handler s b site.start = (.ok u, q) → q = site.stop := by
  refine ⟨?_, ?_, ?_, ?_, scansAccept moduleName options b, ?_⟩
  · intro found q hr
    obtain ⟨_, _, _, counted, _, _⟩ := scanned_of_read hr
    exact ⟨counted.cursor_eq_ite, ne_some_nil_of_read hr⟩
  · intro h record c m q hr
    exact Method.endsAt_of_read hr
  · intro address depth record c block q hr
    exact Block.endsAt_of_read hr
  · intro kind expected actual hfault
    exact ofData_of_read (Prod.ext hfault rfl)
  · intro site hs σ handler s u q hscan
    exact hs.cursor_eq hscan

/-- A procedure with a block in it is read up to its limit, and its method and the block are each read up to the end of their
terminator. Both bodies are entered, and the walk that measures each of them stops at its terminator. -/
theorem read_lands_sampleWithVendors :
    (∃ m, read "M" 126 {} sampleWithVendors 0 = (.ok (some [m]), 126)) ∧
      (∃ m, Method.read "M" {} ⟨.localProcedure, 41, 0, 43⟩ ((sampleShape "M").record true 122) sampleWithVendors 43 =
        (.ok m, 126)) ∧
      (∃ block, Block.read 0 128 1 ⟨0, 92, 4, 0, 1⟩ sampleWithVendors 66 = (.ok block, 96)) ∧
      (Enters "M" 126 {} sampleWithVendors 0 ⟨0, 0, 43, 122⟩ ∧
        ∃ t, scan 122 (Tally.count 122) {} sampleWithVendors 43 = (.ok t, 122) ∧ t.scopes = 1) ∧
      Enters "M" 126 {} sampleWithVendors 0 ⟨0, 1, 66, 92⟩ ∧
        ∃ t, scan 92 (Tally.count 92) {} sampleWithVendors 66 = (.ok t, 92) ∧ t.scopes = 0 := by
  obtain ⟨landed, methodEnds, blockEnds, _, _, stops⟩ := read_lands "M" 126 {} sampleWithVendors 0
  obtain ⟨m, q, hr, _⟩ := read_sampleWithVendors
  obtain ⟨hprocedure, _, hblock, _⟩ := reaches_sampleWithVendors
  have houter := enters_of_reaches hr hprocedure
  have hinner := enters_of_reaches hr hblock
  refine ⟨⟨m, ?_⟩, ?_, ?_, ⟨houter, ?_⟩, hinner, ?_⟩
  · rw [hr, (landed _ q hr).1]
    rfl
  · have hblocks : (Method.read "M" {} ⟨.localProcedure, 41, 0, 43⟩ ((sampleShape "M").record true 122)
        sampleWithVendors 43).1.toOption.map (fun m => m.blocks.length) = some 1 := by decide +kernel
    obtain ⟨found, c, hread, _⟩ := exists_of_answer hblocks
    obtain rfl : c = 126 := (methodEnds _ _ _ _ _ hread).1
    exact ⟨found, hread⟩
  · have hslot : (Block.read 0 128 1 ⟨0, 92, 4, 0, 1⟩ sampleWithVendors 66).1.toOption.map Block.lastSlotType = some none := by
      decide +kernel
    obtain ⟨found, c, hread, _⟩ := exists_of_answer hslot
    obtain rfl : c = 96 := (blockEnds _ _ _ _ _ _ hread).1
    exact ⟨found, hread⟩
  · have hone : (scan 122 (Tally.count 122) {} sampleWithVendors 43).1.toOption.map Tally.scopes = some 1 := by decide +kernel
    obtain ⟨t, c, hscan, ht⟩ := exists_of_answer hone
    obtain rfl := stops _ houter _ _ _ _ hscan
    exact ⟨t, hscan, ht⟩
  · have hzero : (scan 92 (Tally.count 92) {} sampleWithVendors 66).1.toOption.map Tally.scopes = some 0 := by decide +kernel
    obtain ⟨t, c, hscan, ht⟩ := exists_of_answer hzero
    obtain rfl := stops _ hinner _ _ _ _ hscan
    exact ⟨t, hscan, ht⟩

end ModuleSymbols

end ManagedSymbols
