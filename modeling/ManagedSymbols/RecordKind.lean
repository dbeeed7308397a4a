import ManagedSymbols.Text.Hexadecimal

/-!
# Record kinds

Every record of a symbol stream carries a 16-bit kind. A handful of kinds matter for managed code; every other one is kept by
its code so that the record can be named and stepped over. `RecordKind.ofCode` and `RecordKind.code` are inverse to each other
on codes.
-/

namespace ManagedSymbols

/-- What a record of a symbol stream holds. -/
inductive RecordKind where
  /-- Ends the body of a procedure or a block. -/
  | terminator
  /-- A vendor's record, told apart by an identifier. -/
  | vendor
  /-- Opens a nested lexical block. -/
  | block
  /-- A local variable. -/
  | slot
  /-- A namespace imported by the enclosing scope. -/
  | usingNamespace
  /-- A procedure visible outside its module. -/
  | globalProcedure
  /-- A procedure visible inside its module only. -/
  | localProcedure
  /-- A compile-time constant. -/
  | constant
  /-- Any other record, by its code. -/
  | unknown (code : UInt16)
  deriving DecidableEq, Repr

namespace RecordKind

/-- The kind a code stands for. -/
def ofCode (code : UInt16) : RecordKind :=
  match code with
  | 0x0006 => terminator
  | 0x0404 => vendor
  | 0x1103 => block
  | 0x1120 => slot
  | 0x1124 => usingNamespace
  | 0x112A => globalProcedure
  | 0x112B => localProcedure
  | 0x112D => constant
  | other => unknown other

/-- The code of a kind. -/
def code : RecordKind → UInt16
  | terminator => 0x0006
  | vendor => 0x0404
  | block => 0x1103
  | slot => 0x1120
  | usingNamespace => 0x1124
  | globalProcedure => 0x112A
  | localProcedure => 0x112B
  | constant => 0x112D
  | unknown code => code

/-- The symbolic name of a kind; all kinds without one share a name. -/
def name : RecordKind → String
  | terminator => "S_END"
  | vendor => "S_OEM"
  | block => "S_BLOCK32"
  | slot => "S_MANSLOT"
  | usingNamespace => "S_UNAMESPACE"
  | globalProcedure => "S_GMANPROC"
  | localProcedure => "S_LMANPROC"
  | constant => "S_MANCONSTANT"
  | unknown _ => "S_UNKNOWN"

/-- A kind in a message: its name, and the code in four digits where the name does not tell it. -/
def text : RecordKind → String
  | unknown code => "S_UNKNOWN(0x" ++ hexPadded 4 code.toNat ++ ")"
  | kind => kind.name

/-- Whether a record of this kind opens a procedure. -/
def isProcedure : RecordKind → Bool
  | globalProcedure | localProcedure => true
  | _ => false

/-- The least length of a record of this kind: its kind tag and the fields of fixed size, without the name that follows. -/
def minimumLength : RecordKind → Nat
  | globalProcedure | localProcedure => 39
  | block => 20
  | slot => 18
  | constant => 8
  | vendor => 22
  | terminator | usingNamespace | unknown _ => 2

/-- Every record holds its kind tag at least. -/
theorem two_le_minimumLength (kind : RecordKind) : 2 ≤ kind.minimumLength := by
  cases kind <;> simp [minimumLength]

/-- The code of the kind of a code is that code. -/
@[simp] theorem code_ofCode (code : UInt16) : (ofCode code).code = code := by
  unfold ofCode
  split <;> rfl

end RecordKind

end ManagedSymbols
