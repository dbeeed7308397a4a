import ManagedSymbols.Reader.Text
import ManagedSymbols.Real
import ManagedSymbols.Tally

/-!
# Sessions: reads in a row on one buffer

A session is a list of operations, each of which starts where the one before it left the cursor, also if that one failed
(`Session.run`). An operation is a move, a read of a number, of bytes or of a text, a measure, or a question about the cursor.
-/

namespace ManagedSymbols

/-- One operation on a cursor. -/
inductive Operation where
  | seek (target : Nat)
  | advance (length : Nat)
  | align (alignment : Nat)
  | endOf (length : Nat)
  | status
  | u8
  | i8
  | u16
  | i16
  | u32
  | i32
  | u64
  | i64
  | real32
  | real64
  | bytes (length : Nat)
  | guid
  | utf8
  | skipUtf8
  | utf16
  | fixedUtf16 (units : Nat)
  | measure (limit : Nat)
  deriving DecidableEq, Repr

/-- Where a cursor stands in its buffer. -/
structure CursorStatus where
  /-- How many bytes the buffer holds. -/
  size : Nat
  /-- How many bytes are left behind the cursor. -/
  remaining : Nat
  deriving DecidableEq, Repr

/-- What an operation gives. -/
inductive OperationAnswer where
  | unit
  | position (value : Nat)
  | status (value : CursorStatus)
  | number (value : Int)
  | real32 (value : Real32)
  | real64 (value : Real64)
  | bytes (value : List UInt8)
  | guid (value : Guid)
  | text (value : String)
  | tally (value : Tally)
  deriving DecidableEq, Repr

/-- Where the cursor stands in its buffer. -/
def CursorStatus.read : Reader CursorStatus := do
  let size ← Reader.size
  return { size, remaining := size - (← Reader.position) }

/-- What an operation does. -/
def Operation.run : Operation → Reader OperationAnswer
  | seek target => (fun _ => .unit) <$> Reader.seek target
  | advance length => (fun _ => .unit) <$> Reader.advance length
  | align alignment => (fun _ => .unit) <$> Reader.align alignment
  | endOf length => .position <$> Reader.endOf length
  | status => .status <$> CursorStatus.read
  | u8 => (fun n => .number n.toNat) <$> Reader.u8
  | i8 => (fun n => .number n.toInt) <$> Reader.i8
  | u16 => (fun n => .number n.toNat) <$> Reader.u16
  | i16 => (fun n => .number n.toInt) <$> Reader.i16
  | u32 => (fun n => .number n.toNat) <$> Reader.u32
  | i32 => (fun n => .number n.toInt) <$> Reader.i32
  | u64 => (fun n => .number n.toNat) <$> Reader.u64
  | i64 => (fun n => .number n.toInt) <$> Reader.i64
  | real32 => .real32 <$> Reader.real32
  | real64 => .real64 <$> Reader.real64
  | bytes length => .bytes <$> Reader.bytes length
  | guid => .guid <$> Reader.guid
  | utf8 => .text <$> Reader.utf8
  | skipUtf8 => (fun _ => .unit) <$> Reader.skipUtf8
  | utf16 => .text <$> Reader.utf16
  | fixedUtf16 units => .text <$> Reader.fixedUtf16 units
  | measure limit => .tally <$> Tally.measure limit

/-- What the operations of a session give, one after the other, each with the cursor behind it; the first one starts at a
position. -/
def Session.run (b : Buffer) : (start : Nat) → List Operation → List (Except Fault OperationAnswer × Nat)
  | _, [] => []
  | p, op :: rest =>
    let outcome := op.run b p
    outcome :: run b outcome.2 rest

end ManagedSymbols
