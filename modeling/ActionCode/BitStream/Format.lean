import ActionCode.BitStream.Basic
import ActionCode.Float.Single

/-!
# Formats

A format is a field of a bit stream: how a value is laid out there. Values that the field
cannot hold are refused before the first bit is written.
-/

namespace ActionCode

inductive Shape
  | bit
  /-- Bits that are all clear when they are written. -/
  | zero
  /-- Bits that are all set when they are written. -/
  | one
  /-- An unsigned number of so many bits. -/
  | unsignedBits
  /-- An unsigned number of so many bytes. -/
  | byte
  /-- A number of so many bytes in two's complement. -/
  | signedByte
  | byteString
  /-- A variable-length number of 32 bits. -/
  | u32
  /-- A variable-length number of 32 bits in two's complement. -/
  | s32
  | float
  deriving DecidableEq, Repr

/-- The order of the bytes of a number, as a mark asks for it. Whole numbers take every order
but the little one for the big one. -/
inductive ByteOrder
  | little | big
  /-- The order of the machine. Floats take it for the little one. -/
  | machine
  /-- The order of a mark without a meaning. There are no floats of this order. -/
  | unknown
  deriving DecidableEq, Repr

def ByteOrder.ofMark (mark : String) : ByteOrder :=
  if mark = "<" then .little
  else if mark = ">" ∨ mark = "!" then .big
  else if mark = "=" ∨ mark = "@" ∨ mark = "" then .machine
  else .unknown

/-- A shape with its length and its byte order, where they are given. -/
structure Format where
  shape : Shape
  length : Option Int := none
  order : Option ByteOrder := none
  /-- The name under which a format that is used throughout is shown. -/
  ownName : Option String := none
  deriving DecidableEq, Repr

namespace Format

/-- What a field holds. -/
inductive Value
  | bits (values : List Bool)
  | bit (value : Bool)
  | int (value : Int)
  | bytes (value : Bytes)
  | double (bits : UInt64)
  deriving DecidableEq, Repr

-- ---------------------------------------------------------------------------
-- Whole numbers
-- ---------------------------------------------------------------------------

/-- Writes a value that must be a number; a bit counts as 0 or 1. -/
def writeNumber (write : Int → BitStream.Op Unit) : Value → BitStream.Op Unit
  | .bit value => write value.toNat
  | .int value => write value
  | .bits _ | .bytes _ | .double _ => throw (.refusal .specialization)

/-- A number as so many bits. -/
def writeBitField (width value : Int) : BitStream.Op Unit :=
  if value < 0 then throw (.refusal (.bitField width value))
  else if width < 0 then throw (.refusal .negativeLength)
  else if value < 2 ^ width.toNat then
    BitStream.writeBits (BitStream.bitsOfNat width.toNat value.toNat)
  else throw (.refusal (.bitField width value))

/-- Bytes in the little order as they are, bytes in the big order from the last to the first. -/
def arrange (little : Bool) (bytes : Bytes) : Bytes := if little then bytes else bytes.reverse

/-- Whether a whole number has its lowest byte first. -/
def little (f : Format) : Bool := f.order = some .little

/-- The number of bytes of a whole number is never 0. -/
def wholeBytes (f : Format) : Int :=
  match f.length with
  | none | some 0 => 1
  | some n => n

def readWhole (f : Format) : BitStream.Op Bytes := do
  return arrange f.little (← BitStream.readBytes f.wholeBytes)

/-- The number as whole bytes, which hold the numbers from 0 on or from the middle of two's
complement on. -/
def writeWhole (f : Format) (signed : Bool) (value : Int) : BitStream.Op Unit :=
  if f.wholeBytes < 0 then throw (.refusal .negativeLength)
  else
    let count := f.wholeBytes.toNat
    let low : Int := if signed then -(256 ^ count / 2) else 0
    if low ≤ value ∧ value < low + 256 ^ count then
      BitStream.writeBytes (arrange f.little (Bytes.ofNat count (value % 256 ^ count).toNat))
    else throw (.refusal (.wholeBytes value count))

-- ---------------------------------------------------------------------------
-- Byte strings
-- ---------------------------------------------------------------------------

/-- A byte string must have the length of the format, if there is one. -/
def writeByteString (f : Format) : Value → BitStream.Op Unit
  | .bytes data =>
    match f.length with
    | none => BitStream.writeBytes data
    | some n =>
      if data.length = n then BitStream.writeBytes data
      else throw (.refusal (.byteString data n))
  | .bit _ | .bits _ | .int _ | .double _ => throw (.refusal .specialization)

-- ---------------------------------------------------------------------------
-- Variable-length numbers
-- ---------------------------------------------------------------------------

/-- Groups of seven bits, lowest first; `left` bytes may still belong to the number, which
starts in the byte `start`. -/
def readGroups (start : Nat) : (left : Nat) → BitStream.Op Nat
  | 0 => throw (.violation { cause := .overlong, offset := some start })
  | left + 1 => do
    let b ← BitStream.readByte
    if b.toNat < 128 then return b.toNat
    else
      let high ← readGroups start left
      return b.toNat % 128 + 128 * high

def readU32 : BitStream.Op Nat := do
  let n ← readGroups ((← get).position / 8) 5
  return n % 2 ^ 32

/-- The fewest groups of seven bits, one more than `more` at most. -/
def writeGroups : (more n : Nat) → BitStream.Op Unit
  | 0, n => BitStream.writeByte n
  | more + 1, n =>
    if n < 128 then BitStream.writeByte n
    else do
      BitStream.writeByte ↑(n % 128 + 128)
      writeGroups more (n / 128)

def writeU32 (value : Int) : BitStream.Op Unit :=
  if value ≥ 2 ^ 32 ∨ value < -2 ^ 31 then throw (.refusal (.varint value))
  else writeGroups 4 (value % 2 ^ 32).toNat

-- ---------------------------------------------------------------------------
-- Floating-point numbers
-- ---------------------------------------------------------------------------

/-- The width of a float in bytes, which needs a byte order as well. -/
def floatBytes (f : Format) : Except Refusal Nat :=
  match f.length, f.order with
  | some 32, some _ => .ok 4
  | some 64, some _ => .ok 8
  | some 32, none | some 64, none => .error .specialization
  | _, _ => .error .floatWidth

/-- Whether a float has its lowest byte first. -/
def littleFloat (f : Format) : Except Refusal Bool :=
  match f.order with
  | some .little | some .machine => .ok true
  | some .big => .ok false
  | some .unknown => .error .byteOrder
  | none => .error .specialization

/-- An order that floats do not have is found out only after their bytes have been read, and so are
bytes that are not in the buffer. -/
def readFloat (f : Format) : BitStream.Op UInt64 := do
  match f.floatBytes with
  | .error r => throw (.refusal r)
  | .ok width =>
    let bytes ← BitStream.readBytes width
    match f.littleFloat with
    | .error r => throw (.refusal r)
    | .ok little =>
      if bytes.length < width then throw (.refusal (.absentValue .doubles))
      else
        let n := (arrange little bytes).toNat
        return if width = 4 then Single.widen n.toUInt32 else n.toUInt64

/-- The bytes of a float, given by the bits of a double. -/
def floatToBytes (f : Format) (bits : UInt64) : Except Refusal Bytes := do
  let width ← f.floatBytes
  let little ← f.littleFloat
  if width = 4 then
    match Single.narrow? bits with
    | none => .error .singleOverflow
    | some single => return arrange little (Bytes.ofNat 4 single.toNat)
  else return arrange little (Bytes.ofNat 8 bits.toNat)

/-- A value that is no double is refused, but not before a format that is no float is. -/
def writeFloat (f : Format) (value : Value) : BitStream.Op Unit :=
  match value with
  | .double bits =>
    match f.floatToBytes bits with
    | .error r => throw (.refusal r)
    | .ok bytes => BitStream.writeBytes bytes
  | .bit _ | .bits _ | .int _ | .bytes _ =>
    match f.floatBytes with
    | .error r => throw (.refusal r)
    | .ok _ => throw (.refusal (.absentValue .doubles))

-- ---------------------------------------------------------------------------
-- Reading and writing
-- ---------------------------------------------------------------------------

def read (f : Format) : BitStream.Op Value := do
  match f.shape with
  | .bit => return .bit (← BitStream.readBit)
  | .zero | .one => return .bits (← BitStream.readBits (f.length.getD 1))
  | .unsignedBits =>
    match f.length with
    | none => throw (.refusal .specialization)
    | some width => return .int (BitStream.natOfBits (← BitStream.readBits width))
  | .byte => return .int (← f.readWhole).toNat
  | .signedByte => return .int (← f.readWhole).toInt
  | .byteString =>
    match f.length with
    | some n => return .bytes (← BitStream.readBytes n)
    | none => return .bytes (← BitStream.readBytes ((← get).available / 8))
  | .u32 => return .int (← readU32)
  | .s32 =>
    let n ← readU32
    return .int (if n < 2 ^ 31 then n else n - 2 ^ 32)
  | .float => return .double (← f.readFloat)

def write (f : Format) (value : Value) : BitStream.Op Unit := do
  match f.shape with
  | .bit => writeNumber (fun n => BitStream.writeBit (n ≠ 0)) value
  | .zero => BitStream.writeBits (List.replicate (f.length.getD 1).toNat false)
  | .one => BitStream.writeBits (List.replicate (f.length.getD 1).toNat true)
  | .unsignedBits =>
    match f.length with
    | none => throw (.refusal .specialization)
    | some width => writeNumber (writeBitField width) value
  | .byte => writeNumber (f.writeWhole false) value
  | .signedByte => writeNumber (f.writeWhole true) value
  | .byteString => f.writeByteString value
  | .u32 | .s32 => writeNumber writeU32 value
  | .float => f.writeFloat value

/-- Writes a format without a value, which all but the plainest ones need. -/
def put (f : Format) : BitStream.Op Unit :=
  if f.shape = .bit then BitStream.writeBit true else f.write (.bits [])

-- ---------------------------------------------------------------------------
-- Names
-- ---------------------------------------------------------------------------

def shapeName : Shape → String
  | .bit => "Bit"
  | .zero => "Zero"
  | .one => "One"
  | .unsignedBits => "UB"
  | .byte => "Byte"
  | .signedByte => "SignedByte"
  | .byteString => "ByteString"
  | .u32 => "U32"
  | .s32 => "S32"
  | .float => "FloatFormat"

def shapes : List Shape :=
  [.bit, .zero, .one, .unsignedBits, .byte, .signedByte, .byteString, .u32, .s32, .float]

/-- A shape by its name. The numbers of which only 30 bits are used are a `U32`. -/
def shapeOfName (name : String) : Option Shape :=
  if name = "U30" then some .u32 else shapes.find? (shapeName · = name)

/-- The formats with a name of their own, which have a length and a byte order already. -/
def named : List (String × Format) := [
  ("UI8", { shape := .byte, length := some 1, order := some .little, ownName := some "UI8" }),
  ("UI16", { shape := .byte, length := some 2, order := some .little, ownName := some "UI16" }),
  ("SI24", { shape := .signedByte, length := some 3, order := some .little, ownName := some "SI24" }),
  ("DOUBLE", { shape := .float, length := some 64, order := some .little, ownName := some "DOUBLE" })]

/-- The format with a name, a length and the mark of a byte order. A mark that stands alone must
be one of the two main ones. -/
def ofName (name : String) (length : Option Int) (order : Option String) :
    Except Refusal Format :=
  match named.lookup name, shapeOfName name with
  | some f, _ => if length.isNone ∧ order.isNone then .ok f else .error .specialization
  | none, none => .error .specialization
  | none, some shape =>
    match length, order with
    | none, some mark =>
      if mark = "<" ∨ mark = ">" then .ok { shape, order := some (.ofMark mark) }
      else .error .specialization
    | _, _ => .ok { shape, length, order := order.map .ofMark }

/-- The text of a format: its own name, or its shape and length. -/
def describe (f : Format) : String :=
  match f.ownName with
  | some name => name
  | none =>
    let length := match f.length with
      | some n => toString n
      | none => "None"
    shapeName f.shape ++ "[" ++ length ++ "]"

/-- The text of the shape of a format; one with a name of its own keeps that. -/
def describeShape (f : Format) : String :=
  match f.ownName with
  | some name => name
  | none => "<FormatMeta '" ++ shapeName f.shape ++ "'>"

end Format

end ActionCode
