import ActionCode.Register
import ActionCode.Scope

/-!
# Pools

A pool is one table by itself, as it is filled and read: its entries, the positions handed
out for them, and, while it is open, the references into it that wait for it to close.
-/

namespace ActionCode

/-- A table under construction. -/
structure Pool (α : Type) where
  table : Table
  /-- Position 0 is set aside, and resolves to `absent`. -/
  reserved : Bool
  absent : Option α := none
  register : Register α := {}
  /-- The count that an empty table is written with. -/
  emptyCount : Int := 0
  /-- References are judged when they are read. -/
  complete : Bool := true
  pending : List Deferred := []

namespace Pool

variable {α : Type}

def entries (p : Pool α) : List α := p.register.entries

/-- The position of the first entry. -/
def base (p : Pool α) : Nat := if p.reserved then 1 else 0

/-- The number of positions, the reserved one included. -/
def length (p : Pool α) : Nat := p.entries.length + p.base

/-- Whether two pools set the same positions aside and are written alike while they are empty. -/
def alike (p q : Pool α) : Bool := p.reserved = q.reserved && p.emptyCount = q.emptyCount

/-- Pools are compared by what is written of them. -/
def same [DecidableEq α] (p q : Pool α) : Bool := p.alike q && p.entries = q.entries

-- ---------------------------------------------------------------------------
-- Filling
-- ---------------------------------------------------------------------------

/-- Removes the last entry, which is still found at its old position afterwards. -/
def pop [DecidableEq α] (p : Pool α) : Except Refusal (α × Pool α) :=
  match p.register.pop? with
  | none => .error .noEntry
  | some (value, register) => .ok (value, { p with register })

section Optional

variable [DecidableEq α]

/-- The pool with an entry at its end, which is remembered if it has a hash. -/
def put (p : Pool (Option α)) (value : Option α) : Pool (Option α) :=
  if p.table.hashes value then { p with register := p.register.add value }
  else { p with register := p.register.append value }

theorem put_eq (p : Pool (Option α)) (value : Option α) :
    ∃ register, register.entries = p.entries ++ [value] ∧ p.put value = { p with register } := by
  unfold put
  split
  · exact ⟨_, rfl, rfl⟩
  · exact ⟨_, rfl, rfl⟩

/-- Appends an entry that may be absent and gives its position. An absent double is refused, but
it is appended all the same, without being remembered. -/
def addOptional (p : Pool (Option α)) (value : Option α) :
    Except Refusal Nat × Pool (Option α) :=
  match p.table.ensureKey value with
  | .ok () => (.ok p.length, p.put value)
  | .error r => (.error r, { p with register := p.register.append value })

/-- The position of a value that may be absent, which is appended if it is not found. In a pool
with a reserved position, an absent value stands there and is never appended. -/
def internOptional (p : Pool (Option α)) (value : Option α) :
    Except Refusal (Pool (Option α) × Nat) :=
  if value.isNone ∧ p.reserved then .ok (p, 0)
  else do
    p.table.ensureHash value
    let (register, position) := p.register.intern value
    return ({ p with register }, position + p.base)

def containsOptional (p : Pool (Option α)) (value : Option α) : Except Refusal Bool := do
  p.table.ensureHash value
  return p.register.contains value

/-- A pool of entries that may be absent, added in order. -/
def ofOptionals (table : Table) (reserved : Bool) (values : List (Option α)) :
    Except Refusal (Pool (Option α)) :=
  values.foldlM (fun p value =>
    let (position, next) := p.addOptional value
    position.map fun _ => next) { table, reserved }

/-- Compares pools; their entries are looked at only if the pools are alike otherwise. -/
def sameOptional (p q : Pool (Option α)) : Except Refusal Bool := do
  if p.alike q then
    p.entries.forM p.table.ensureKey
    q.entries.forM q.table.ensureKey
  return p.same q

end Optional

-- ---------------------------------------------------------------------------
-- Positions
-- ---------------------------------------------------------------------------

def InBounds (p : Pool α) (index : Int) : Prop :=
  Table.InBounds p.reserved p.entries.length index

instance (p : Pool α) (index : Int) : Decidable (p.InBounds index) :=
  inferInstanceAs (Decidable (Table.InBounds _ _ _))

/-- Accepts a position that is in bounds. -/
def checkIndex (p : Pool α) (index : Int) (offset : Option Int) (place : Place) :
    Except Violation Unit :=
  if p.InBounds index then .ok ()
  else .error ⟨.danglingReference p.table index p.entries.length, offset, place⟩

/-- What a position resolves to. -/
def valueAt (p : Pool α) (index : Int) : Except Violation (Option α) :=
  match p.checkIndex index none none with
  | .error v => .error v
  | .ok () =>
    if p.reserved ∧ index = 0 then .ok p.absent
    else .ok p.entries[(index - p.base).toNat]?

-- ---------------------------------------------------------------------------
-- Deferred references
-- ---------------------------------------------------------------------------

/-- From now on references wait. -/
def opened (p : Pool α) : Pool α := { p with complete := false }

/-- Judges all references that wait, in the order in which they were read. Whatever comes of
it, the pool is complete and nothing waits any longer. -/
def close (p : Pool α) : Pool α × Except Violation Unit :=
  let closed := { p with complete := true, pending := [] }
  match p.pending.find? fun d => ¬ p.InBounds d.index with
  | none => (closed, .ok ())
  | some d => (closed, p.checkIndex d.index (some d.offset) d.place)

/-- The number of references that wait, to tell later ones from them. -/
def mark (p : Pool α) : Nat := p.pending.length

/-- Names the record around the references that began to wait since `mark`; a negative mark is
counted from the end. -/
def labelPending (p : Pool α) (mark : Int) (label : String) : Pool α :=
  let n := Position.gap p.pending.length mark
  { p with pending := p.pending.take n ++ (p.pending.drop n).map (Deferred.inside label) }

/-- Reads a reference at byte `cursor` of `data`. It is judged at once in a complete pool. -/
def readIndex (p : Pool α) (data : Bytes) (cursor : Nat) (place : Place) :
    Except Violation (Nat × Pool α) := do
  let input ← Input.startingAt data cursor
  let (index, _) ← Reader.u30 input
  if p.complete then
    p.checkIndex index (some cursor) place
    return (index, p)
  else return (index, { p with pending := p.pending ++ [⟨index, cursor, place⟩] })

-- ---------------------------------------------------------------------------
-- Writing
-- ---------------------------------------------------------------------------

def writeIndex (p : Pool α) (index : Int) : Except Fault Bytes :=
  match p.checkIndex index none none with
  | .error v => .error (.violation v)
  | .ok () => Varint.writeU30 index

/-- The count in front of the entries. -/
def writtenCount (p : Pool α) : Int :=
  if p.reserved ∧ p.entries.isEmpty then p.emptyCount else p.length

/-- The count and the entries. -/
protected def write (write : α → Except Fault Bytes) (p : Pool α) : Except Fault Bytes := do
  let count ← Varint.writeU30 p.writtenCount
  return count ++ (← writeEach write p.entries)

/-- The count and the entries, each of which must be present. -/
def writeOptional (write : α → Except Fault Bytes) (p : Pool (Option α)) : Except Fault Bytes :=
  p.write fun
    | some value => write value
    | none => .error (.refusal (.absentValue p.table))

end Pool

end ActionCode
