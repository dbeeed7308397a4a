import ManagedSymbols.Guid
import ManagedSymbols.RecordKind
import ManagedSymbols.Text.Utf8

/-!
# Faults: why a read stops

Every fault is a cause with what it needs to be told apart. `Fault.message` is the one place that words them. A trap is not a
fault of the data: it stands for an operation that has no result in machine words (a division by zero, a sum past 64 bits, a
slice that leaves its sequence), which the readers rule out before they compute.
-/

namespace ManagedSymbols

/-- Data that is present but spells nothing. -/
inductive Malformation where
  /-- The bytes from `start` to `stop` are no UTF-8 text. -/
  | utf8Text (start stop : Nat) (fault : Utf8.Fault)
  /-- The units from `start` on hold half a surrogate pair. -/
  | utf16Text (start : Nat)
  /-- The tag of a numeric leaf stands for no form. -/
  | leafTag (tag : UInt16) (offset : Nat)
  /-- The string of a numeric leaf is no UTF-8 text. -/
  | leafString (offset : Nat) (fault : Utf8.Fault)
  /-- A metadata item is shorter than its own header. -/
  | itemLength (start : Nat) (length : UInt32)
  /-- A hoisted range stops before it starts. -/
  | hoistedRange (start stop : UInt32)
  /-- A dynamic local has more flags than there is room for. -/
  | flagCount (count : UInt32)
  /-- A block starts before the procedure that holds it. -/
  | blockStart (block procedure : UInt32)
  /-- Two offset tables differ in length. -/
  | offsetTables (yields resumes : Nat)
  deriving DecidableEq, Repr

/-- An operation without a result in 64-bit machine words. -/
inductive Trap where
  | divisionByZero
  | overflow
  | slice
  deriving DecidableEq, Repr

/-- Why a read stops. `offset` is the position of the record at fault, `limit` the end of the range that holds it. The source file
and line that malformed and out-of-bounds errors carry are left out: they tell where the program noticed the fault, and nothing of
the data. -/
inductive Fault where
  /-- The bytes end before what is read. -/
  | outOfBounds
  /-- The bytes are there and spell nothing. -/
  | malformed (cause : Malformation)
  /-- A record is shorter than the fixed fields of its kind. -/
  | recordTooShort (kind : RecordKind) (length : UInt16) (offset : Nat)
  /-- A record stops past the range that holds it. -/
  | recordOverrun (kind : RecordKind) (stop limit offset : Nat)
  /-- A record sends the reader back into itself. -/
  | invalidJump (kind : RecordKind) (target offset : Nat)
  /-- A record puts its terminator outside the range that holds it. -/
  | endOutOfRange (kind : RecordKind) (stop limit offset : Nat)
  /-- The records of a body do not stop at its terminator. -/
  | notAtEnd (kind : RecordKind) (expected actual : Nat)
  /-- The record where a body should stop is no terminator. -/
  | missingEnd (found : RecordKind) (offset : Nat)
  /-- A procedure lies in a segment other than the first. -/
  | invalidSegment (segment : UInt16) (offset : Nat)
  /-- A procedure is linked to another one. -/
  | unexpectedLink (parent next : UInt32) (offset : Nat)
  /-- A vendor record carries an identifier that is not known. -/
  | unknownVendor (guid : Guid) (typeIndex : UInt32) (offset : Nat)
  /-- Blocks are nested deeper than allowed. -/
  | recursionLimit (depth : Nat)
  /-- An operation has no result in machine words. -/
  | trap (cause : Trap)
  deriving DecidableEq, Repr

/-- The wording of a malformation. -/
def Malformation.message : Malformation → String
  | .utf8Text start stop fault =>
    "Invalid UTF-8 string at offset " ++ toString start ++ "-" ++ toString stop ++ ": " ++ fault.message
  | .utf16Text start => "Invalid UTF-16 string at offset " ++ toString start
  | .leafTag tag offset => "Unknown numeric leaf 0x" ++ hexPadded 4 tag.toNat ++ " at offset " ++ toString offset
  | .leafString offset fault => "Invalid LF_VARSTRING at offset " ++ toString offset ++ ": " ++ fault.message
  | .itemLength start length =>
    "Custom metadata item at offset " ++ toString start ++ " declares " ++ toString length.toNat ++ " bytes"
  | .hoistedRange start stop =>
    "Iterator scope ends at " ++ toString stop.toNat ++ " before its start " ++ toString start.toNat
  | .flagCount count => "Dynamic local declares " ++ toString count.toNat ++ " flags, at most 64 fit"
  | .blockStart block procedure =>
    "Block at code offset " ++ hex block.toNat ++ " starts before its function at " ++ hex procedure.toNat
  | .offsetTables yields resumes =>
    toString yields ++ " yield offsets but " ++ toString resumes ++ " resume offsets"

/-- The wording of a trap. -/
def Trap.message : Trap → String
  | .divisionByZero => "division by zero"
  | .overflow => "result outside 64 bits"
  | .slice => "slice outside its sequence"

/-- The wording of a fault. Of malformed data only the message field is worded, without the prefix and the source position that are
printed in front of it. `outOfBounds` has no message field: the words here stand in for a text that only tells the source
position. -/
def Fault.message : Fault → String
  | .outOfBounds => "read past the end of the data"
  | .malformed cause => cause.message
  | .recordTooShort kind length offset =>
    kind.text ++ " record at " ++ hex offset ++ " is " ++ toString length.toNat ++ " bytes long, at least " ++
      toString kind.minimumLength ++ " are required"
  | .recordOverrun kind stop limit offset =>
    kind.text ++ " record at " ++ hex offset ++ " ends at " ++ hex stop ++ ", past the range limit " ++ hex limit
  | .invalidJump kind target offset => kind.text ++ " record at " ++ hex offset ++ " declares its end at " ++ hex target
  | .endOutOfRange kind stop limit offset =>
    kind.text ++ " record at " ++ hex offset ++ " declares its end at " ++ hex stop ++ ", past the range limit " ++ hex limit
  | .notAtEnd kind expected actual =>
    "Not at S_END for " ++ kind.text ++ ": expected " ++ hex expected ++ ", cursor at " ++ hex actual
  | .missingEnd found offset => "Missing S_END at " ++ hex offset ++ ", found " ++ found.text
  | .invalidSegment segment offset =>
    "Segment is " ++ toString segment.toNat ++ ", not 1 (procedure at " ++ hex offset ++ ")"
  | .unexpectedLink parent next offset =>
    "Unexpected procedure link parent=" ++ hex parent.toNat ++ ", next=" ++ hex next.toNat ++ " (procedure at " ++
      hex offset ++ ")"
  | .unknownVendor guid typeIndex offset =>
    "OEM section: guid=" ++ guid.text ++ " ti=" ++ toString typeIndex.toNat ++ " (record at " ++ hex offset ++ ")"
  | .recursionLimit depth => "Reach the maximum recursion level allowed - " ++ toString depth
  | .trap cause => cause.message

end ManagedSymbols
