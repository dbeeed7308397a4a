import ManagedSymbols.Text.Hexadecimal

/-!
# Metadata tokens

A token names a row of a metadata table: its high byte is the table, its low 24 bits are the row, and zero names nothing. The
decoder hands tokens out and never resolves them. Tokens are ordered by their value, hence by table first and row second.
-/

namespace ManagedSymbols

/-- A metadata token, by its 32-bit value. -/
structure Token where
  value : UInt32
  deriving DecidableEq, Repr, Inhabited

namespace Token

/-- The table a token points into: its high byte. -/
def table (t : Token) : UInt8 :=
  (t.value >>> 24).toUInt8

/-- The row a token points at: its low 24 bits. -/
def row (t : Token) : UInt32 :=
  t.value &&& 0x00FFFFFF

/-- The token that names nothing is zero. -/
def isNull (t : Token) : Bool :=
  t.value == 0

/-- The names of the tables that symbol records refer to. -/
def tableName? (t : Token) : Option String :=
  match t.table with
  | 0x02 => some "TypeDef"
  | 0x06 => some "MethodDef"
  | 0x11 => some "StandAloneSig"
  | _ => none

/-- A token is shown as eight hexadecimal digits after `0x`. -/
def text (t : Token) : String :=
  "0x" ++ hexPadded 8 t.value.toNat

/-- A token with its table: the table's name and the row where the table has a name, the plain token elsewhere. -/
def tableText (t : Token) : String :=
  match t.tableName? with
  | some name => "Token(" ++ name ++ "[" ++ toString t.row.toNat ++ "])"
  | none => "Token(" ++ t.text ++ ")"

instance : Ord Token :=
  ⟨fun a b => compare a.value b.value⟩

/-- Tokens in ascending order. -/
def sort (ts : List Token) : List Token :=
  ts.mergeSort fun a b => (compare a b).isLE

end Token

end ManagedSymbols
