import ManagedSymbols.Reader
import ManagedSymbols.Token

/-!
# Synchronization: where an async method suspends and goes on

The state machine of an async method is described by the method that starts it, the handler that catches around its body, and its
suspension points. The description is stored as a record (`Synchronization.read`) and can also be built from two tables, of the
offsets where the machine yields and of those where it resumes (`Synchronization.ofOffsets`).
-/

namespace ManagedSymbols

/-- One suspension of an async method: where it yields, and the method and the offset where it goes on. -/
structure SuspensionPoint where
  yieldOffset : UInt32
  resumeMethod : Token
  resumeOffset : UInt32
  deriving DecidableEq, Repr

/-- The suspension point whose fields start at the cursor. -/
def SuspensionPoint.read : Reader SuspensionPoint := do
  let yieldOffset ← Reader.u32
  let resumeMethod ← Token.mk <$> Reader.u32
  let resumeOffset ← Reader.u32
  return { yieldOffset, resumeMethod, resumeOffset }

/-- The state machine of an async method. -/
structure Synchronization where
  /-- The method that starts the state machine. -/
  kickoffMethod : Token
  /-- The offset of the handler around the body. -/
  catchHandlerOffset : UInt32
  /-- The suspension points, in the order of the stream. -/
  points : List SuspensionPoint
  deriving DecidableEq, Repr

namespace Synchronization

/-- The description whose fields start at the cursor: two fields, a count and so many points. -/
def read : Reader Synchronization := do
  let kickoffMethod ← Token.mk <$> Reader.u32
  let catchHandlerOffset ← Reader.u32
  let count ← Reader.u32
  let points ← Reader.times count.toNat SuspensionPoint.read
  return { kickoffMethod, catchHandlerOffset, points }

/-- The description with a point for each pair of a yield and a resume offset at the same index; all points go on in the method
that moves the machine. The tables must be of one length. -/
def ofOffsets (moveNext kickoffMethod : Token) (catchHandlerOffset : UInt32) (yields resumes : List UInt32) :
    Except Fault Synchronization :=
  if yields.length = resumes.length then
    .ok { kickoffMethod, catchHandlerOffset, points := (yields.zip resumes).map fun (y, r) => ⟨y, moveNext, r⟩ }
  else .error (.malformed (.offsetTables yields.length resumes.length))

end Synchronization

end ManagedSymbols
