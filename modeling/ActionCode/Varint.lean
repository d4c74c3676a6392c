import ActionCode.Input
import ActionCode.Position

/-!
# Numbers on the wire

Most numbers are written in groups of seven bits, lowest first, the top bit of each byte
saying whether another one follows; branch offsets take three bytes in two's complement.
Beside the writers stand windowed readers, which look at no more of a byte string than
the number at hand can span.
-/

namespace ActionCode.Varint

-- ---------------------------------------------------------------------------
-- Writing
-- ---------------------------------------------------------------------------

/-- The fewest groups of seven bits that hold a number, one more than `more` at most. -/
def groups : (more n : Nat) → Bytes
  | 0, n => [n.toUInt8]
  | more + 1, n =>
    if n < 128 then [n.toUInt8] else (n % 128 + 128).toUInt8 :: groups more (n / 128)

/-- The shortest form of a 32-bit number. -/
def encode (n : Nat) : Bytes := groups 4 (n % 2 ^ 32)

/-- A number of 32 bits, signed or not. -/
def writeU30 (value : Int) : Except Fault Bytes :=
  if value > 2 ^ 32 - 1 ∨ value < -2 ^ 31 then .error (.refusal (.unsigned32 value))
  else .ok (encode (value % 2 ^ 32).toNat)

/-- A signed number of 32 bits; a negative one always takes five bytes. -/
def writeS32 (value : Int) : Except Fault Bytes :=
  if value > 2 ^ 31 - 1 ∨ value < -2 ^ 31 then .error (.refusal (.signed32 value))
  else .ok (encode (value % 2 ^ 32).toNat)

/-- A signed number of three bytes. -/
def writeS24 (value : Int) : Except Fault Bytes :=
  if value < -2 ^ 23 ∨ value > 2 ^ 23 - 1 then .error (.refusal (.signed24 value))
  else .ok (Bytes.ofNat 3 (value % 2 ^ 24).toNat)

/-- One byte. -/
def writeByte (value : Int) : Except Fault Bytes :=
  if 0 ≤ value ∧ value < 256 then .ok [value.toNat.toUInt8]
  else .error (.refusal (.byte value))

-- ---------------------------------------------------------------------------
-- Windowed reading
-- ---------------------------------------------------------------------------

/-- Runs a reader on the bytes of `data` between `cursor` and `width` bytes later, both counted
from the end if they are negative; offsets are told as if the reader had started at `cursor`. -/
def window {α : Type} (width : Nat) (r : Reader α) (data : Bytes) (cursor : Int) :
    Except Violation (α × Int) :=
  match r (.ofBytes (Position.slice data cursor (cursor + width))) with
  | .error v => .error (v.rebase cursor)
  | .ok (x, t) => .ok (x, cursor + t.offset)

/-- The variable-length number at `cursor`, and the position after it. -/
def readU30 (data : Bytes) (cursor : Int) : Except Violation (Nat × Int) :=
  window 5 Reader.u30 data cursor

/-- The three-byte number at `cursor`, and the position after it. -/
def readS24 (data : Bytes) (cursor : Int) : Except Violation (Int × Int) :=
  window 3 Reader.s24 data cursor

end ActionCode.Varint
