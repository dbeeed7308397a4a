import ManagedSymbols.Reader.Text
import ManagedSymbols.Record
import ManagedSymbols.Token

/-!
# Procedure records

A procedure record opens the body of a managed method. It holds links to other records, where its terminator stands, its range of
code, its token, its flags and its name. All eight flag bits are kept; every one of them has a meaning.
-/

namespace ManagedSymbols

/-- The flags of a procedure, by their bits. -/
structure ProcedureFlags where
  bits : UInt8
  deriving DecidableEq, Repr

namespace ProcedureFlags

/-- The flags that have a meaning, each with its bit, from the lowest bit up. -/
def declared : List (String × UInt8) :=
  [("NO_FPO", 0x01), ("INTERRUPT_RETURN", 0x02), ("FAR_RETURN", 0x04), ("NEVER_RETURN", 0x08), ("NOT_REACHED", 0x10),
    ("CUSTOM_CALLING_CONVENTION", 0x20), ("NO_INLINE", 0x40), ("OPTIMIZED_DEBUG_INFO", 0x80)]

/-- The names of the flags that are set. -/
def names (f : ProcedureFlags) : List String :=
  (declared.filter fun flag => f.bits &&& flag.2 ≠ 0).map (·.1)

/-- The bits that have a meaning. -/
def known (f : ProcedureFlags) : UInt8 :=
  f.bits &&& declared.foldl (fun mask flag => mask ||| flag.2) 0

end ProcedureFlags

/-- The fields of a procedure record. -/
structure ProcedureRecord where
  /-- Where the enclosing record starts; a managed procedure has none. -/
  parent : UInt32
  /-- Where the terminator of the procedure stands. -/
  stop : UInt32
  /-- Where the next procedure of a chain starts; a managed procedure is in none. -/
  next : UInt32
  length : UInt32
  /-- Where debugging starts, counted from the start of the procedure. -/
  debugStart : UInt32
  /-- Where debugging stops, counted from the start of the procedure. -/
  debugEnd : UInt32
  token : Token
  /-- Where the code of the procedure starts, counted from the start of the segment. -/
  offset : UInt32
  segment : UInt16
  flags : ProcedureFlags
  /-- The register that holds the result. -/
  returnRegister : UInt16
  /-- The name, if it was asked for. -/
  name : Option String
  deriving DecidableEq, Repr

/-- The name at the cursor if it is asked for; otherwise it is stepped over. -/
def ProcedureRecord.readName (wanted : Bool) : Reader (Option String) :=
  if wanted then some <$> Reader.utf8 else (fun _ => none) <$> Reader.skipUtf8

/-- The procedure record whose fields start at the cursor. -/
def ProcedureRecord.read (h : RecordHeader) (nameWanted : Bool) : Reader ProcedureRecord := do
  Reader.check h.fixedLayout
  let parent ← Reader.u32
  let stop ← Reader.u32
  let next ← Reader.u32
  let length ← Reader.u32
  let debugStart ← Reader.u32
  let debugEnd ← Reader.u32
  let token ← Token.mk <$> Reader.u32
  let offset ← Reader.u32
  let segment ← Reader.u16
  let flags ← ProcedureFlags.mk <$> Reader.u8
  let returnRegister ← Reader.u16
  let name ← readName nameWanted
  return {
    parent, stop, next, length, debugStart, debugEnd, token, offset, segment, flags, returnRegister, name }

end ManagedSymbols
