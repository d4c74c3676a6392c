import ActionCode.Bytes
import ActionCode.Error

/-!
# Bit streams

A growing sequence of bits with a cursor, packed into bytes with the most significant bit
first. Runs that start at a byte boundary are moved a byte at a time, all others bit by bit;
`BitStream.toBits` is the view in which both come to the same. An operation that fails leaves
behind what it did before the failure.

Bytes that are written beyond the end of the buffer are put at its end and not where the cursor
is, so that such a stream counts more bits than its buffer has. Reading one of those fails.
-/

namespace ActionCode

/-- The buffer, the number of bits that count, and the cursor in bits. -/
structure BitStream where
  bytes : Bytes := []
  size : Nat := 0
  position : Nat := 0
  deriving DecidableEq, Repr

namespace BitStream

/-- An operation on a stream, which keeps its effects even where it fails. -/
abbrev Op (α : Type) := ExceptT Fault (StateM BitStream) α

-- ---------------------------------------------------------------------------
-- Bits of a buffer
-- ---------------------------------------------------------------------------

/-- The value of bits, most significant first. -/
def natOfBits (bits : List Bool) : Nat := bits.foldl (fun n b => 2 * n + b.toNat) 0

/-- The lowest `width` bits of a number, most significant first. -/
def bitsOfNat (width n : Nat) : List Bool :=
  (List.range width).reverse.map n.testBit

/-- The bit at a position of a buffer. Beyond its end, where no stream without gaps has any bits, it
is clear. -/
def bitAt (bytes : Bytes) (position : Nat) : Bool :=
  match bytes[position / 8]? with
  | some b => b.toNat.testBit (7 - position % 8)
  | none => false

/-- Puts a bit at a position, after filling the buffer up to it with zeros. -/
def setBit (bytes : Bytes) (position : Nat) (value : Bool) : Bytes :=
  let padded := bytes ++ List.replicate (position / 8 + 1 - bytes.length) 0
  let mask := (2 ^ (7 - position % 8)).toUInt8
  padded.modify (position / 8) fun b => if value then b ||| mask else b &&& ~~~mask

/-- All bits of a stream without gaps, in order. -/
def toBits (s : BitStream) : List Bool := (List.range s.size).map (bitAt s.bytes)

def ofBytes (bytes : Bytes) : BitStream := { bytes, size := 8 * bytes.length }

-- ---------------------------------------------------------------------------
-- The cursor
-- ---------------------------------------------------------------------------

/-- What an offset is counted from. -/
inductive SeekFrom
  | start | cursor | stop
  deriving DecidableEq, Repr

/-- Moves the cursor, also to beyond the end. There are no places before the start here: an offset
that leads there does not make the cursor negative, but leads to the start. -/
def seek (offset : Int) (origin : SeekFrom) : Op Unit :=
  modify fun s =>
    let target := match origin with
      | .start => offset
      | .cursor => s.position + offset
      | .stop => s.size - offset
    { s with position := target.toNat }

def rewind : Op Unit := seek 0 .start

/-- The number of bits after the cursor, negative where the cursor is beyond the end. -/
def available (s : BitStream) : Int := s.size - s.position

/-- Fails unless `count` more bits can be read. -/
def ensure (count : Int) : Op Unit := do
  let s ← get
  if s.position + count > s.size then
    throw (.violation {
      cause := .truncatedInput (s.position + count - s.size), offset := some ↑(s.position / 8) })

/-- The byte of the buffer at a place. A place may count and have none. -/
def byteAt (place : Nat) : Op UInt8 := do
  match (← get).bytes[place]? with
  | some b => return b
  | none => throw (.refusal .noEntry)

-- ---------------------------------------------------------------------------
-- Bits
-- ---------------------------------------------------------------------------

def readBit : Op Bool := do
  ensure 1
  let s ← get
  let b ← byteAt (s.position / 8)
  set { s with position := s.position + 1 }
  return b.toNat.testBit (7 - s.position % 8)

def writeBit (value : Bool) : Op Unit :=
  modify fun s => {
    bytes := setBit s.bytes s.position value
    size := max s.size (s.position + 1)
    position := s.position + 1 }

/-- The same thing `count` times. -/
def replicate {α : Type} (op : Op α) : Nat → Op (List α)
  | 0 => return []
  | count + 1 => do
    let x ← op
    return x :: (← replicate op count)

/-- `count` bits, all of them or none. -/
def readBits (count : Int) : Op (List Bool) := do
  ensure count
  replicate readBit count.toNat

def writeBits : List Bool → Op Unit
  | [] => return ()
  | b :: rest => do
    writeBit b
    writeBits rest

-- ---------------------------------------------------------------------------
-- Bytes
-- ---------------------------------------------------------------------------

/-- Whether the cursor is at a byte boundary. -/
def aligned (s : BitStream) : Bool := s.position % 8 = 0

/-- At a byte boundary, the cursor moves on even if the byte is not there. -/
def readByte : Op UInt8 := do
  let s ← get
  if s.aligned then
    ensure 8
    set { s with position := s.position + 8 }
    byteAt (s.position / 8)
  else return (natOfBits (← readBits 8)).toUInt8

/-- Puts bytes over the buffer at a byte boundary, or at its end if it does not reach there. -/
def overwrite (data : Bytes) : Op Unit :=
  modify fun s =>
    let start := s.position / 8
    { bytes := s.bytes.take start ++ data ++ s.bytes.drop (start + data.length)
      size := max s.size (s.position + 8 * data.length)
      position := s.position + 8 * data.length }

/-- A negative value counts from 256 down. What is still no byte is refused at a byte
boundary, and cut to eight bits elsewhere. -/
def writeByte (value : Int) : Op Unit := do
  let s ← get
  let value := if value < 0 then value + 256 else value
  if s.aligned then
    if 0 ≤ value ∧ value < 256 then overwrite [value.toNat.toUInt8]
    else throw (.refusal (.byte value))
  else writeBits (bitsOfNat 8 (value % 256).toNat)

/-- `count` bytes. At a byte boundary a negative count moves the cursor back and reads nothing, and
bytes that are not in the buffer are left out; elsewhere the bytes before the one that fails have
been read. -/
def readBytes (count : Int) : Op Bytes := do
  let s ← get
  if s.aligned then
    ensure (8 * count)
    set { s with position := (s.position + 8 * count).toNat }
    return (s.bytes.drop (s.position / 8)).take count.toNat
  else replicate readByte count.toNat

def writeBytes (data : Bytes) : Op Unit := do
  let s ← get
  if s.aligned then overwrite data
  else writeBits (data.flatMap fun b => bitsOfNat 8 b.toNat)

-- ---------------------------------------------------------------------------
-- The whole stream
-- ---------------------------------------------------------------------------

/-- All bits of a stream without gaps as bytes, the last one filled up with zeros. -/
def toBytes (s : BitStream) : Bytes :=
  let whole := s.size / 8
  let left := s.size % 8
  if left = 0 then s.bytes.take whole
  else
    let bits := (List.range left).map fun i => bitAt s.bytes (8 * whole + i)
    s.bytes.take whole ++ [(natOfBits (bits ++ List.replicate (8 - left) false)).toUInt8]

/-- Reads the whole stream, and goes back to where the cursor was. -/
def serialize : Op Bytes := do
  let s ← get
  let left := s.size % 8
  rewind
  let data ← readBytes ↑(s.size / 8)
  let rest ← if left = 0 then pure [] else do
    let bits ← readBits left
    pure [(natOfBits (bits ++ List.replicate (8 - left) false)).toUInt8]
  seek s.position .start
  return data ++ rest

/-- A stream of the given bits, with its cursor at the start. -/
def ofBits (bits : List Bool) : BitStream :=
  { (((writeBits bits).run).run {}).2 with position := 0 }

/-- The stream of the ones and zeros in a text; other characters are passed over. -/
def ofText (text : String) : BitStream :=
  ofBits (text.toList.filterMap fun c =>
    if c = '1' then some true else if c = '0' then some false else none)

/-- The bits of a stream without gaps as ones and zeros. -/
def text (s : BitStream) : String :=
  String.ofList (s.toBits.map fun b => if b then '1' else '0')

/-- The first 64 bits and the cursor. -/
def describe (s : BitStream) : String :=
  "<BitStream '" ++ String.ofList (s.text.toList.take 64) ++ "' pos=" ++ toString s.position ++ ">"

end BitStream

end ActionCode
