import ActionCode.Varint

/-!
# References in scope

A `Scope` says what is known of the tables around a record: nothing, that a table is still
being read, or how many entries it holds. Together with the version of the file it is all
that reading or writing one record depends on. A reference is judged where the extent of
its table is known, and accepted on trust while the table is being read.
-/

namespace ActionCode

-- ---------------------------------------------------------------------------
-- Versions
-- ---------------------------------------------------------------------------

structure Version where
  major : Int := 46
  minor : Int := 16
  deriving DecidableEq, Repr

/-- From 46.16 on a handler records the name of its variable. -/
def Version.namesHandlerVariables (v : Version) : Bool :=
  v.major > 46 || (v.major = 46 && v.minor ≥ 16)

-- ---------------------------------------------------------------------------
-- Scopes
-- ---------------------------------------------------------------------------

/-- What is known of the size of a table. -/
inductive Extent
  /-- Not known at all: references are taken as they are. -/
  | unknown
  /-- The table is being read: references are judged when it is settled. -/
  | unfinished
  | entries (count : Nat)
  deriving DecidableEq, Repr

structure Scope where
  extent : Table → Extent
  version : Version := {}

namespace Scope

/-- The scope in which nothing is known, so that no reference is judged. -/
def unknown : Scope := { extent := fun _ => .unknown }

/-- The same scope, with the extent of one table replaced. -/
def set (scope : Scope) (table : Table) (extent : Extent) : Scope :=
  { scope with extent := fun t => if t = table then extent else scope.extent t }

/-- Accepts a reference that is in bounds or whose table has no known extent. -/
def check (scope : Scope) (table : Table) (index : Int) (offset : Option Int) :
    Except Violation Unit :=
  match scope.extent table with
  | .entries count =>
    if Table.InBounds table.reserved count index then .ok ()
    else .error ⟨.danglingReference table index count, offset, none⟩
  | .unknown | .unfinished => .ok ()

-- ---------------------------------------------------------------------------
-- Reading and writing references
-- ---------------------------------------------------------------------------

/-- Judges a reference that was read at `offset`, or keeps it until its table is settled. -/
def accept (scope : Scope) (t : Table) (index offset : Nat) : Reader Unit :=
  match scope.extent t with
  | .unfinished =>
    modify fun s => { s with deferred := s.deferred ++ [(t, ⟨index, offset, none⟩)] }
  | .unknown | .entries _ => scope.check t index (some offset)

/-- A reference into table `t`. -/
def readIndex (scope : Scope) (t : Table) : Reader (Index t) := do
  let offset ← Reader.offset
  let index ← Reader.u30
  scope.accept t index offset
  return ⟨index⟩

def writeIndex {t : Table} (scope : Scope) (i : Index t) : Except Fault Bytes := do
  match scope.check t i.val none with
  | .error v => throw (.violation v)
  | .ok () => Varint.writeU30 i.val

/-- Judges the references into some tables that were accepted on trust, one table after
another, as far as the scope knows them. -/
def settle (scope : Scope) : List Table → Reader Unit
  | [] => return ()
  | t :: rest =>
    match scope.extent t with
    | .entries count => do
      Reader.settle t count
      settle scope rest
    | .unknown | .unfinished => settle scope rest

/-- Reads something as if some tables of the scope were not complete yet, and judges the
references into them afterwards. -/
def late {α : Type} (scope : Scope) (tables : List Table) (r : Scope → Reader α) : Reader α := do
  let x ← r (tables.foldl (fun s t => s.set t .unfinished) scope)
  scope.settle tables
  return x

end Scope

-- ---------------------------------------------------------------------------
-- Looking up
-- ---------------------------------------------------------------------------

/-- The entry at a position of a table; the reserved position resolves to no entry. -/
def Table.lookup {α : Type} (table : Table) (entries : List α) (index : Int) :
    Except Violation (Option α) :=
  if Table.InBounds table.reserved entries.length index then
    if table.reserved then
      if index = 0 then .ok none else .ok entries[(index - 1).toNat]?
    else .ok entries[index.toNat]?
  else .error { cause := .danglingReference table index entries.length }

/-- Accepts a value that may be absent as one with a key in a table. Doubles are told apart by
their bits, so a double must be present. -/
def Table.ensureKey {α : Type} (table : Table) (value : Option α) : Except Refusal Unit :=
  if table = .doubles ∧ value.isNone then .error (.absentValue table) else .ok ()

/-- Whether the values of a table have a hash. A body has none, as its code can be changed. -/
def Table.hashed : Table → Bool
  | .bodies => false
  | .ints | .uints | .doubles | .strings | .namespaces | .namespaceSets | .multinames
  | .methods | .metadata | .instances | .classes | .scripts | .handlers => true

/-- Whether a value that may be absent has a hash. What is absent always does. -/
def Table.hashes {α : Type} (table : Table) (value : Option α) : Bool :=
  table.hashed || value.isNone

/-- Accepts a value that may be absent as one to be looked for in a table. -/
def Table.ensureHash {α : Type} (table : Table) (value : Option α) : Except Refusal Unit := do
  table.ensureKey value
  if table.hashes value then return () else throw .unhashable

@[simp] theorem Table.ensureKey_some {α : Type} (table : Table) (value : α) :
    table.ensureKey (some value) = .ok () := by
  simp [ensureKey]

@[simp] theorem Table.hashes_some {α : Type} (table : Table) (value : α) :
    table.hashes (some value) = table.hashed := Bool.or_false _

theorem Table.ensureHash_some {α : Type} (table : Table) (value : α) :
    table.ensureHash (some value) = if table.hashed then .ok () else .error .unhashable := by
  rw [ensureHash, ensureKey_some, hashes_some]
  rfl

-- ---------------------------------------------------------------------------
-- Writing sequences
-- ---------------------------------------------------------------------------

/-- The written forms of a list of things, one after another. -/
def writeEach {α : Type} (write : α → Except Fault Bytes) : List α → Except Fault Bytes
  | [] => .ok []
  | x :: rest => do
    let head ← write x
    let tail ← writeEach write rest
    return head ++ tail

/-- The written forms of records with the positions from `first` on; a violation in one is
told what the record is called. -/
def writeRecords {α : Type} (label : String) (write : α → Except Fault Bytes) :
    (first : Nat) → List α → Except Fault Bytes
  | _, [] => .ok []
  | first, x :: rest => do
    let head ← (write x).mapError (Fault.inside (label ++ " " ++ toString first))
    let tail ← writeRecords label write (first + 1) rest
    return head ++ tail

/-- A list of things after their number. -/
def writeCounted {α : Type} (write : α → Except Fault Bytes) (xs : List α) :
    Except Fault Bytes := do
  let count ← Varint.writeU30 xs.length
  return count ++ (← writeEach write xs)

/-- Things after their number. -/
def Reader.counted {α : Type} (r : Reader α) : Reader (List α) := do
  Reader.replicate r (← Reader.u30)

end ActionCode
