import SteleDb.Storage.ValidTime
import SteleDb.Session.CatalogCodec

/-!
# Typed values and their cells

A cell of a column is the canonical encoding of a value of the column's type; the type is known
from the schema and not stored.  The evaluator decodes the cells of the columns that an expression
reads, and a join compares the canonical encodings of its keys.
-/

namespace SteleDb

/-- A value that is not `NULL`. -/
inductive ScalarValue where
  | int4 (v : ℤ)
  | int8 (v : ℤ)
  | text (s : Bytes)
  | bool (b : Bool)
  | timestamp (micros : ℤ)
  | timestampTz (micros : ℤ)
  | date (days : ℤ)
  | period (start stop : ℤ)
  | uuid (raw : Bytes)
  | bytea (raw : Bytes)
  | float8 (bits : ℕ)
  deriving DecidableEq, Repr

/-- Why bytes are not a value of a type. -/
inductive DecodeError where
  /-- The type has a fixed width that the bytes do not have. -/
  | width (ty : LogicalType) (expected got : ℕ)
  /-- The text is not UTF-8. -/
  | utf8
  /-- The period does not begin before it ends. -/
  | period (start stop : ℤ)
  deriving DecidableEq, Repr

/-- Why an expression cannot be evaluated. -/
inductive ExprError where
  /-- A reference past the columns. -/
  | columnOutOfRange (index columns : ℕ)
  /-- A reference to a column without a type. -/
  | columnTypeMissing (index schemaLen : ℕ)
  /-- A column that is not as long as the batch. -/
  | lengthMismatch (index rows got : ℕ)
  /-- A comparison of two types. -/
  | compareTypeMismatch (left right : LogicalType)
  /-- Arithmetic on operands that are not of one integer type. -/
  | arithTypeMismatch (left right : LogicalType)
  /-- A connective, or a predicate, with an operand that is not a truth value. -/
  | notBoolean (op : String) (found : LogicalType)
  /-- A period predicate with an operand that is not a period. -/
  | periodOperand (found : LogicalType)
  /-- A bound of a period that is not an instant. -/
  | periodEndpointType (found : LogicalType)
  /-- The evaluator does not read the type, or not from the column's representation. -/
  | unsupportedColumn (logical : LogicalType) (physical : String)
  /-- A cell is not a value of its type. -/
  | decode (e : DecodeError)
  deriving DecidableEq, Repr

/-- `i32::to_le_bytes`. -/
def i32ToLeBytes (x : ℤ) : Bytes := leBytes 4 (x % 2 ^ 32).toNat

/-- `i32::from_le_bytes`. -/
def i32OfLeBytes (bs : Bytes) : ℤ :=
  let n : ℤ := leNat bs
  if n < 2 ^ 31 then n else n - 2 ^ 32

/-- `i32::to_be_bytes`. -/
def i32ToBeBytes (x : ℤ) : Bytes := (i32ToLeBytes x).reverse

/-- `i64::to_be_bytes`. -/
def i64ToBeBytes (x : ℤ) : Bytes := (i64ToLeBytes x).reverse

namespace ScalarValue

/-- The canonical encoding. -/
def encode : ScalarValue → Bytes
  | int4 v | date v => i32ToLeBytes v
  | int8 v | timestamp v | timestampTz v => i64ToLeBytes v
  | text s => s
  | bool b => [if b then 1 else 0]
  | period start stop => i64ToLeBytes start ++ i64ToLeBytes stop
  | uuid raw => raw
  | bytea raw => raw
  | float8 bits => leBytes 8 bits

/-- The bytes, if they have the width of the type. -/
def fixed (ty : LogicalType) (n : ℕ) (bytes : Bytes) : Except DecodeError Bytes :=
  if bytes.length = n then .ok bytes else .error (.width ty n bytes.length)

/-- The value of a type that bytes encode. -/
def decode (ty : LogicalType) (bytes : Bytes) : Except DecodeError ScalarValue :=
  match ty with
  | .int4 => (fixed ty 4 bytes).map fun raw => int4 (i32OfLeBytes raw)
  | .int8 => (fixed ty 8 bytes).map fun raw => int8 (i64OfLeBytes raw)
  | .timestamp => (fixed ty 8 bytes).map fun raw => timestamp (i64OfLeBytes raw)
  | .timestampTz => (fixed ty 8 bytes).map fun raw => timestampTz (i64OfLeBytes raw)
  | .date => (fixed ty 4 bytes).map fun raw => date (i32OfLeBytes raw)
  | .bool => (fixed ty 1 bytes).map fun raw => bool (raw ≠ [0])
  | .text => if validUtf8 bytes then .ok (text bytes) else .error .utf8
  | .period => do
    let raw ← fixed ty 16 bytes
    let start := i64OfLeBytes (raw.take 8)
    let stop := i64OfLeBytes (raw.drop 8)
    if start < stop then .ok (period start stop) else .error (.period start stop)
  | .uuid => (fixed ty 16 bytes).map uuid
  | .bytea => .ok (bytea bytes)
  | .float8 => (fixed ty 8 bytes).map fun raw => float8 (leNat raw)

end ScalarValue

/-- Decode one cell of a byte column. -/
def decodeCell (ty : LogicalType) : Option Bytes → Except ExprError (Option ScalarValue)
  | none => .ok none
  | some bytes => ((ScalarValue.decode ty bytes).map some).mapError .decode

/-- The values of a column of byte cells. -/
def decodeCells (ty : LogicalType) (cells : List (Option Bytes)) :
    Except ExprError (List (Option ScalarValue)) :=
  if ty = .float8 then .error (.unsupportedColumn ty "bytes") else cells.mapM (decodeCell ty)

end SteleDb
