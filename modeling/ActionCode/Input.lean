import ActionCode.Bytes
import ActionCode.Error

/-!
# Readers

A reader takes a value off the front of what is left of the data, or stops at the
violation it meets; what is left afterwards starts where the value ended. References into
a table that is not complete yet are accepted on trust and kept, with the offset where
they stand, until the table is settled. A field that can be written in several ways leaves
a note of the way in which it was found.
-/

namespace ActionCode

-- ---------------------------------------------------------------------------
-- Input
-- ---------------------------------------------------------------------------

/-- A reference that was accepted on trust. -/
structure Deferred where
  index : Int
  offset : Nat
  place : Place
  deriving DecidableEq, Repr

/-- Names the record around a reference that was accepted on trust. -/
def Deferred.inside (label : String) (d : Deferred) : Deferred :=
  { d with place := Place.within label d.place }

/-- How a field was found that can be written in several ways. -/
inductive Spelling
  /-- A variable-length number and the bytes it was read from. -/
  | number (value : Nat) (bytes : Bytes)
  /-- The same for a number inside of code. -/
  | operand (value : Nat) (bytes : Bytes)
  /-- A byte whose first `reserved` bits have no meaning. -/
  | flags (reserved : Nat) (byte : UInt8)
  deriving DecidableEq, Repr

/-- The numbers of code are its operands. -/
def Spelling.inCode : Spelling → Spelling
  | .number value bytes => .operand value bytes
  | .operand value bytes => .operand value bytes
  | .flags reserved byte => .flags reserved byte

/-- The data still to be read, its offset, the references accepted on trust so far, in
reading order, and the spellings found so far, the last one first. -/
structure Input where
  rest : Bytes
  offset : Nat
  deferred : List (Table × Deferred)
  spellings : List Spelling
  deriving DecidableEq, Repr

abbrev Reader (α : Type) := StateT Input (Except Violation) α

namespace Input

def ofBytes (data : Bytes) : Input := ⟨data, 0, [], []⟩

/-- The data from byte `start` on. A start beyond the end is refused for the bytes that are
missing up to it, its own included. -/
def startingAt (data : Bytes) (start : Nat) : Except Violation Input :=
  if start ≤ data.length then .ok ⟨data.drop start, start, [], []⟩
  else .error ⟨.truncatedInput (8 * (start - data.length + 1)), some start, none⟩

end Input

-- ---------------------------------------------------------------------------
-- Primitive readers
-- ---------------------------------------------------------------------------

namespace Reader

/-- The value read from the front of the data. -/
def result {α : Type} (r : Reader α) (data : Bytes) : Except Violation α :=
  (r (.ofBytes data)).map (·.1)

def offset : Reader Nat := fun s => .ok (s.offset, s)

def fail {α : Type} (cause : Cause) (offset : Nat) : Reader α :=
  fun _ => .error ⟨cause, some offset, none⟩

/-- The next byte. At the end of the data, `missed` bits are reported missing. -/
def next (missed : Nat) : Reader UInt8 := fun s =>
  match s.rest with
  | [] => .error ⟨.truncatedInput missed, some s.offset, none⟩
  | b :: rest => .ok (b, { s with rest := rest, offset := s.offset + 1 })

def byte : Reader UInt8 := next 8

/-- Notes how a field was found. -/
def note (spelling : Spelling) : Reader Unit :=
  fun s => .ok ((), { s with spellings := spelling :: s.spellings })

/-- A byte whose first `skipped` bits are passed over unseen: at the end of the data, the bit
after them is the first one that is missed. -/
def flags (skipped : Nat) : Reader UInt8 := do
  let b ← next (skipped + 1)
  note (.flags skipped b)
  return b

/-- A run of `count` bytes, all of them or none. -/
def bytes (count : Nat) : Reader Bytes := fun s =>
  let run := s.rest.take count
  if run.length < count then
    .error ⟨.truncatedInput (8 * (count - run.length)), some s.offset, none⟩
  else .ok (run, { s with rest := s.rest.drop count, offset := s.offset + count })

def u16 : Reader Nat := do return (← bytes 2).toNat

/-- Three bytes in two's complement. -/
def s24 : Reader Int := do return (← bytes 3).toInt

/-- The bits of a double. -/
def double : Reader UInt64 := do return (← bytes 8).toNat.toUInt64

/-- Groups of seven bits, lowest first, for as long as the top bit of a byte asks for
another one; `left` bytes may still follow before the number, begun at `start`, is too long. -/
def groups (start : Nat) : Nat → Reader Nat
  | 0 => fail .overlong start
  | left + 1 => do
    let b ← byte
    if b.toNat < 128 then return b.toNat
    else
      let high ← groups start left
      return b.toNat % 128 + 128 * high

/-- A value together with the bytes that it was read from. -/
def withBytes {α : Type} (r : Reader α) : Reader (α × Bytes) := fun s =>
  match r s with
  | .error v => .error v
  | .ok (x, t) => .ok ((x, s.rest.take (t.offset - s.offset)), t)

/-- A variable-length number of at most five bytes, cut to 32 bits. -/
def u30 : Reader Nat := do
  let (n, bytes) ← withBytes (groups (← offset) 5)
  note (.number (n % 2 ^ 32) bytes)
  return n % 2 ^ 32

/-- A variable-length number whose 32 bits are in two's complement. -/
def s32 : Reader Int := do
  let n ← u30
  return if n < 2 ^ 31 then n else n - 2 ^ 32

-- ---------------------------------------------------------------------------
-- Sequences and records
-- ---------------------------------------------------------------------------

/-- The same thing `count` times. -/
def replicate {α : Type} (r : Reader α) : Nat → Reader (List α)
  | 0 => return []
  | count + 1 => do
    let x ← r
    return x :: (← replicate r count)

/-- Reads one record: a violation in it is told where the record starts and what it is
called, and so are the references into `table` that it leaves on trust. -/
def record {α : Type} (table : Table) (label : String) (r : Reader α) : Reader α := fun s =>
  match r { s with deferred := [] } with
  | .error v => .error ((v.atOffset s.offset).inside label)
  | .ok (x, t) =>
    let named := t.deferred.map fun (u, d) => (u, if u = table then d.inside label else d)
    .ok (x, { t with deferred := s.deferred ++ named })

/-- `count` records with the positions from `first` on, each called `label` and its position. -/
def records {α : Type} (table : Table) (label : String) (r : Reader α) :
    (first count : Nat) → Reader (List α)
  | _, 0 => return []
  | first, count + 1 => do
    let x ← record table (label ++ " " ++ toString first) r
    return x :: (← records table label r (first + 1) count)

/-- Judges the references into `table` that were accepted on trust, in reading order, now
that it is known to hold `entries` entries. -/
def settle (table : Table) (entries : Nat) : Reader Unit := fun s =>
  let (mine, others) := s.deferred.partition fun (u, _) => u = table
  match mine.find? fun (_, d) => ¬ Table.InBounds table.reserved entries d.index with
  | some (_, d) =>
    .error ⟨.danglingReference table d.index entries, some d.offset, d.place⟩
  | none => .ok ((), { s with deferred := others })

end Reader

end ActionCode
