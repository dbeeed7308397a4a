import ManagedSymbols.Proofs.Module.Reached
import ManagedSymbols.Proofs.Reader.Extents
import ManagedSymbols.Proofs.Record.Agreement

/-!
# What the options do not decide

The options only say what is kept of a module. A reading under other options hands out the same records and finds the same methods,
each changed in one way, if the procedures under the other options are read alike (`ModuleSymbols.read_agrees`). With lengths as
Visual Basic means them every method is changed at its end (`Method.read_visualBasic`). Without names a procedure record is read to
the same cursor as with its name (`ProcedureRecord.read_agrees`), except that a name which spells nothing stops the reading that
asks for it; no other step looks at the name (`Method.read_withoutName`).
-/

namespace ManagedSymbols

open Reader

/-! ## Procedures under other options -/

/-- A method without its name. -/
def Method.withoutName (m : Method) : Method :=
  { m with name := none }

/-- A method with lengths as Visual Basic means them is the method without, changed at the end. -/
theorem Method.read_visualBasic (moduleName : String) (options : Options) (h : RecordHeader) (record : ProcedureRecord) :
    Method.read moduleName { options with visualBasic := true } h record =
      forVisualBasic <$> Method.read moduleName { options with visualBasic := false } h record := by
  simp only [Method.read, map_bind, map_pure]
  rfl

/-- A method of a procedure without its name is the method with it, and the name is dropped. -/
theorem Method.read_withoutName (moduleName : String) (options : Options) (h : RecordHeader) (record : ProcedureRecord) :
    Method.read moduleName { options with readNames := false } h { record with name := none } =
      withoutName <$> Method.read moduleName { options with readNames := true } h record := by
  simp only [Method.read, map_bind, map_pure]
  cases options.visualBasic <;> rfl

namespace ProcedureRecord

/-- The fields of a procedure record in front of its name. -/
def readFields (h : RecordHeader) : Reader ProcedureRecord := do
  Reader.check h.fixedLayout
  let parent ← Reader.u32
  let stop ← Reader.u32
  let next ← Reader.u32
  let length ← Reader.u32
  let debugStart ← Reader.u32
  let debugEnd ← Reader.u32
  let token ← Token.mk <$> Reader.u32
  let offset ← Reader.u32
  let segment ← Reader.u16
  let flags ← ProcedureFlags.mk <$> Reader.u8
  let returnRegister ← Reader.u16
  return {
    parent, stop, next, length, debugStart, debugEnd, token, offset, segment, flags, returnRegister, name := none }

/-- A procedure record is its fields and then its name. -/
theorem read_eq (h : RecordHeader) (wanted : Bool) :
    read h wanted = do
      let record ← readFields h
      let name ← readName wanted
      return { record with name } := by
  simp only [read, readFields, bind_assoc, pure_bind]

/-- The name of a procedure starts behind 41 bytes of framing and fields. -/
theorem cursor_of_readFields {h : RecordHeader} {b : Buffer} {record : ProcedureRecord} {q : Nat}
    (hr : readFields h b (h.offset + 4) = (.ok record, q)) : q = h.offset + 41 ∧ q ≤ b.size := by
  obtain ⟨_, _, hfix, hr⟩ := exists_of_bind hr
  obtain ⟨_, rfl⟩ := of_check hfix
  obtain ⟨_, _, hparent, hr⟩ := exists_of_bind hr
  obtain ⟨_, rfl, _⟩ := of_u32 hparent
  obtain ⟨_, _, hstop, hr⟩ := exists_of_bind hr
  obtain ⟨_, rfl, _⟩ := of_u32 hstop
  obtain ⟨_, _, hnext, hr⟩ := exists_of_bind hr
  obtain ⟨_, rfl, _⟩ := of_u32 hnext
  obtain ⟨_, _, hlength, hr⟩ := exists_of_bind hr
  obtain ⟨_, rfl, _⟩ := of_u32 hlength
  obtain ⟨_, _, hdebugStart, hr⟩ := exists_of_bind hr
  obtain ⟨_, rfl, _⟩ := of_u32 hdebugStart
  obtain ⟨_, _, hdebugEnd, hr⟩ := exists_of_bind hr
  obtain ⟨_, rfl, _⟩ := of_u32 hdebugEnd
  obtain ⟨_, _, htoken, hr⟩ := exists_of_bind hr
  obtain ⟨rfl, _⟩ := (Takes.u32.map Token.mk) _ _ _ _ htoken
  obtain ⟨_, _, hoffset, hr⟩ := exists_of_bind hr
  obtain ⟨_, rfl, _⟩ := of_u32 hoffset
  obtain ⟨_, _, hsegment, hr⟩ := exists_of_bind hr
  obtain ⟨_, rfl, _⟩ := of_u16 hsegment
  obtain ⟨_, _, hflags, hr⟩ := exists_of_bind hr
  obtain ⟨rfl, _⟩ := (Takes.u8.map ProcedureFlags.mk) _ _ _ _ hflags
  obtain ⟨_, _, hregister, hr⟩ := exists_of_bind hr
  obtain ⟨_, rfl, hinside⟩ := of_u16 hregister
  obtain ⟨_, rfl⟩ := of_pure hr
  exact ⟨rfl, hinside⟩

/-- The fault of a procedure whose name, which starts behind its fields, spells nothing. -/
def NameFault (b : Buffer) (h : RecordHeader) (e : Fault) : Prop :=
  h.kind.isProcedure = true ∧ ∃ fault, Utf8.decode (b.slice (h.offset + 41) (b.zeroFrom (h.offset + 41))) = .error fault ∧
    e = .malformed (.utf8Text (h.offset + 41) (b.zeroFrom (h.offset + 41)) fault)

/-- A procedure record is read to the same cursor with its name and without, unless the name spells nothing. -/
theorem read_agrees {h : RecordHeader} (hk : h.kind.isProcedure = true) (b : Buffer) :
    Agree (fun record record' => record' = { record with name := none }) (NameFault b h) (fun _ => True)
      (read h true b (h.offset + 4)) (read h false b (h.offset + 4)) := by
  rw [read_eq, read_eq]
  refine .bind_same fun record q hr => ?_
  obtain ⟨rfl, hinside⟩ := cursor_of_readFields hr
  rw [run_bind, run_bind, readName, readName, if_pos rfl, if_neg Bool.false_ne_true, run_map, run_map, run_utf8 hinside,
    run_skipUtf8]
  cases hname : Utf8.decode (b.slice (h.offset + 41) (b.zeroFrom (h.offset + 41))) with
  | ok cs => exact .ok rfl
  | error fault => exact .excused ⟨hk, fault, hname, rfl⟩ fun _ _ _ => trivial

end ProcedureRecord

/-! ## Modules under other options -/

namespace ModuleSymbols

variable {moduleName : String} {options options' : Options} {b : Buffer} {excuse : RecordHeader → Fault → Prop}
  {f : Method → Method}

/-- Procedures are read alike under two options, if the records are and the methods of each are the same but for one change. -/
def ReadAlike (moduleName : String) (options options' : Options) (b : Buffer) (f : Method → Method)
    (excuse : RecordHeader → Fault → Prop) : Prop :=
  ∀ h : RecordHeader, h.kind.isProcedure = true →
    Agree (fun record record' => record'.stop = record.stop ∧
        Method.read moduleName options' h record' = f <$> Method.read moduleName options h record)
      (excuse h) (fun _ => True) (ProcedureRecord.read h options.readNames b (h.offset + 4))
      (ProcedureRecord.read h options'.readNames b (h.offset + 4))

/-- A record of a module is decoded alike under both options. -/
theorem gather_agrees (limit : Nat) (alike : ReadAlike moduleName options options' b f excuse) (h : RecordHeader)
    (methods : List Method) :
    Agree (fun x x' => x.1 = x'.1 ∧ x'.2 = x.2.map f) (excuse h) (fun _ => True)
      (gather moduleName limit options h methods b (h.offset + 4))
      (gather moduleName limit options' h (methods.map f) b (h.offset + 4)) := by
  by_cases hk : h.kind.isProcedure = true
  · rw [gather, gather, if_pos hk, if_pos hk]
    refine .bind (alike h hk) ?_ fun _ _ _ _ _ _ => trivial
    rintro record record' q ⟨hstop, hmethod⟩
    rw [hstop, hmethod]
    refine .bind_same fun _ _ _ => .bind_same fun _ _ _ => .bind (.of_map (D := fun _ => True) f _ _ _) ?_
      fun _ _ _ _ _ _ => trivial
    rintro m _ q rfl
    exact .ok ⟨rfl, by simp⟩
  · rw [gather, gather, if_neg hk, if_neg hk]
    exact .ok ⟨rfl, rfl⟩

/-- A module is read alike under both options: with the same methods but for the change, or with a fault that excuses one of the
records that are met. -/
theorem read_agrees (limit : Nat) (alike : ReadAlike moduleName options options' b f excuse) (p : Nat) :
    Agree (fun found found' => found' = found.map (List.map f))
      (fun e => ∃ h ∈ (gathering moduleName limit options b p).visited, excuse h e) (fun _ => True)
      (read moduleName limit options b p) (read moduleName limit options' b p) := by
  rw [read, read]
  refine .bind_same fun start _ hstart => .bind_same fun count _ _ => ?_
  cases hstart
  split
  · exact .ok rfl
  · refine .bind_same fun _ c hseek => ?_
    obtain ⟨_, rfl⟩ := of_seek hseek
    refine .bind (scan_agree (R := fun methods methods' => methods' = methods.map f) (D := fun _ => True) ?_
      (fun _ _ => trivial) rfl) ?_ fun _ _ _ _ _ _ => trivial
    · rintro c h methods _ hf rfl
      obtain ⟨rfl, _⟩ := RecordHeader.of_frame hf
      exact gather_agrees limit alike h methods
    · rintro methods _ q rfl
      exact .ok rfl

/-- Lengths as Visual Basic means them change every method that is found in one way, and nothing else. Without names the same
methods are found, but for their names; and a reading that fails with names or without fails alike in both cases, or with names it
fails with the fault of a procedure that it meets and whose name spells nothing. -/
theorem read_of_options (moduleName : String) (limit : Nat) (options : Options) (b : Buffer) (p : Nat) :
    (read moduleName limit { options with visualBasic := true } b p =
      ((read moduleName limit { options with visualBasic := false } b p).1.map (Option.map (List.map Method.forVisualBasic)),
        (read moduleName limit { options with visualBasic := false } b p).2)) ∧
    (∀ found q, read moduleName limit { options with readNames := true } b p = (.ok found, q) →
      read moduleName limit { options with readNames := false } b p = (.ok (found.map (List.map Method.withoutName)), q)) ∧
    (∀ e q, read moduleName limit { options with readNames := true } b p = (.error e, q) →
      read moduleName limit { options with readNames := false } b p = (.error e, q) ∨
        ∃ h ∈ (gathering moduleName limit { options with readNames := true } b p).visited, ProcedureRecord.NameFault b h e) ∧
    ∀ e q, read moduleName limit { options with readNames := false } b p = (.error e, q) →
      read moduleName limit { options with readNames := true } b p = (.error e, q) ∨
        ∃ e', (read moduleName limit { options with readNames := true } b p).1 = .error e' ∧
          ∃ h ∈ (gathering moduleName limit { options with readNames := true } b p).visited, ProcedureRecord.NameFault b h e' := by
  have hvisual : ReadAlike moduleName { options with visualBasic := false } { options with visualBasic := true } b
      Method.forVisualBasic fun _ _ => False :=
    fun h _ => .of_same fun record _ _ => ⟨rfl, Method.read_visualBasic moduleName options h record⟩
  have hnames : ReadAlike moduleName { options with readNames := true } { options with readNames := false } b Method.withoutName
      (ProcedureRecord.NameFault b) := by
    intro h hk
    refine (ProcedureRecord.read_agrees hk b).mono ?_ fun _ => id
    rintro record _ rfl
    exact ⟨rfl, Method.read_withoutName moduleName options h record⟩
  have hagree := read_agrees limit hnames p
  refine ⟨(read_agrees limit hvisual p).eq_map fun e ⟨_, _, hnone⟩ => hnone, ?_, ?_, ?_⟩
  · intro found q hr
    rw [hr] at hagree
    obtain ⟨_, hfound, rfl⟩ := hagree.exists_of_ok
    exact hfound
  · intro e q hr
    rw [hr] at hagree
    exact hagree.of_error
  · intro e q hr
    rw [hr] at hagree
    exact hagree.exists_of_error

/-- A method with a name is found without it if names are not read, and with longer blocks if lengths are those of Visual Basic. -/
theorem read_of_options_sample : ∃ m q, read "M" 126 {} sampleWithVendors 0 = (.ok (some [m]), q) ∧ m.name = some "M" ∧
    read "M" 126 { readNames := false } sampleWithVendors 0 = (.ok (some [{ m with name := none }]), q) ∧
    read "M" 126 { visualBasic := true } sampleWithVendors 0 = (.ok (some [m.forVisualBasic]), q) := by
  obtain ⟨m, q, hr, hname, _⟩ := read_sampleWithVendors
  obtain ⟨hvisual, hnamed, _⟩ := read_of_options "M" 126 {} sampleWithVendors 0
  rw [hr] at hvisual
  exact ⟨m, q, hr, hname, hnamed _ _ hr, hvisual⟩

end ModuleSymbols

end ManagedSymbols
