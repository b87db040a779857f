import SteleDb.Storage.ValidTime

/-!
# The row payload codec

A row is stored as its business key and one payload.  The cells after the key are packed into the
payload: nothing for a table with a key only, the cell itself for a table with one value column,
and for more columns a frame of presence byte, little-endian length and bytes for each cell.

Lengths fit `usize`, so a length read back never overflows.
-/

namespace SteleDb

/-- The value cells of a row; `none` is a SQL `NULL`. -/
abbrev Cells := List (Option Bytes)

/-- Why a payload does not match a column count. -/
inductive RowCodecError where
  /-- The frame ends inside a cell. -/
  | truncated (what : String) (needed : ℕ)
  /-- The frame is longer than its cells. -/
  | trailingBytes (count extra : ℕ)
  /-- A presence byte is neither `0` nor `1`. -/
  | invalidTag (tag : Fin 256)
  deriving DecidableEq, Repr

/-- The frame of cells. -/
def encodeFrame : Cells → Bytes
  | [] => []
  | none :: cells => 0 :: encodeFrame cells
  | some bytes :: cells => 1 :: (leBytes 8 bytes.length ++ bytes ++ encodeFrame cells)

/-- Pack cells into a payload. -/
def encodePayload : Cells → Option Bytes
  | [] => none
  | [only] => only
  | cells => some (encodeFrame cells)

/-- Split `n` bytes off the front. -/
def takeBytes (buf : Bytes) (n : ℕ) (what : String) : Except RowCodecError (Bytes × Bytes) :=
  if buf.length < n then .error (.truncated what (n - buf.length))
  else .ok (buf.take n, buf.drop n)

/-- Read `n` cells, and what is left. -/
def decodeFrame : ℕ → Bytes → Except RowCodecError (Cells × Bytes)
  | 0, rest => .ok ([], rest)
  | _ + 1, [] => .error (.truncated "a cell presence byte" 1)
  | n + 1, tag :: rest =>
    if tag = 0 then do
      let (cells, rest) ← decodeFrame n rest
      .ok (none :: cells, rest)
    else if tag = 1 then do
      let (lenBytes, rest) ← takeBytes rest 8 "a cell length"
      let (value, rest) ← takeBytes rest (leNat lenBytes) "a cell value"
      let (cells, rest) ← decodeFrame n rest
      .ok (some value :: cells, rest)
    else .error (.invalidTag tag)

/-- Slice a payload into `count` cells. -/
def decodePayload (count : ℕ) (payload : Option Bytes) : Except RowCodecError Cells :=
  match count, payload with
  | 0, _ => .ok []
  | 1, payload => .ok [payload]
  | count, none => .ok (List.replicate count none)
  | count, some bytes => do
    let (cells, rest) ← decodeFrame count bytes
    if rest = [] then .ok cells else .error (.trailingBytes count rest.length)

end SteleDb
