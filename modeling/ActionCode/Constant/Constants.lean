import ActionCode.Constant.Literal
import ActionCode.Constant.Multiname
import ActionCode.Constant.Namespace

/-!
# The constant pool

Seven tables of constants, written one after another. A table is written as its count,
one more than its entries, and the entries; an empty table may be written with a count of
0 or 1, and which of them it was is kept. Multinames may refer to later multinames, so
their references are judged when their table is complete.
-/

namespace ActionCode

-- ---------------------------------------------------------------------------
-- One table
-- ---------------------------------------------------------------------------

structure ConstantTable (α : Type) where
  entries : List α := []
  /-- The count that an empty table is written with. -/
  emptyCount : Int := 0
  deriving DecidableEq, Repr

namespace ConstantTable

variable {α : Type}

def extent (t : ConstantTable α) : Extent := .entries t.entries.length

/-- The number of positions, the reserved one included. -/
def length (t : ConstantTable α) : Nat := t.entries.length + 1

/-- The count in front of the entries. -/
def writtenCount (t : ConstantTable α) : Int :=
  if t.entries.isEmpty then t.emptyCount else t.length

def read (table : Table) (r : Reader α) : Reader (ConstantTable α) := do
  let count ← Reader.u30
  let entries ← Reader.records table table.name r 1 (count - 1)
  Reader.settle table entries.length
  return { entries := entries, emptyCount := if count < 2 then count else 0 }

def write (write : α → Except Fault Bytes) (t : ConstantTable α) : Except Fault Bytes := do
  let count ← Varint.writeU30 t.writtenCount
  return count ++ (← writeEach write t.entries)

end ConstantTable

-- ---------------------------------------------------------------------------
-- Plain entries
-- ---------------------------------------------------------------------------

def readText : Reader Bytes := do
  let length ← Reader.u30
  Reader.bytes length

def writeText (text : Bytes) : Except Fault Bytes := do
  return (← Varint.writeU30 text.length) ++ text

/-- The eight bytes of a double, lowest first. -/
def writeDouble (bits : UInt64) : Except Fault Bytes := .ok (Bytes.ofNat 8 bits.toNat)

-- ---------------------------------------------------------------------------
-- All seven tables
-- ---------------------------------------------------------------------------

/-- Strings are kept as bytes and doubles as their bits, so that every one of them survives. -/
structure Constants where
  ints : ConstantTable Int := {}
  uints : ConstantTable Int := {}
  doubles : ConstantTable UInt64 := {}
  strings : ConstantTable Bytes := {}
  namespaces : ConstantTable Namespace := {}
  namespaceSets : ConstantTable NamespaceSet := {}
  multinames : ConstantTable Multiname := {}
  deriving DecidableEq, Repr

namespace Constants

/-- What the constant tables make known about references. -/
def scope (c : Constants) (version : Version) : Scope where
  version := version
  extent
    | .ints => c.ints.extent
    | .uints => c.uints.extent
    | .doubles => c.doubles.extent
    | .strings => c.strings.extent
    | .namespaces => c.namespaces.extent
    | .namespaceSets => c.namespaceSets.extent
    | .multinames => c.multinames.extent
    | .methods | .metadata | .instances | .classes | .scripts | .bodies | .handlers => .unknown

def read : Reader Constants := do
  let ints ← ConstantTable.read .ints Reader.s32
  let uints ← ConstantTable.read .uints (do return Int.ofNat (← Reader.u30))
  let doubles ← ConstantTable.read .doubles Reader.double
  let strings ← ConstantTable.read .strings readText
  let scope := Scope.unknown.set .strings strings.extent
  let namespaces ← ConstantTable.read .namespaces (Namespace.read scope)
  let scope := scope.set .namespaces namespaces.extent
  let namespaceSets ← ConstantTable.read .namespaceSets (NamespaceSet.read scope)
  let scope := (scope.set .namespaceSets namespaceSets.extent).set .multinames .unfinished
  let multinames ← ConstantTable.read .multinames (Multiname.read scope)
  return { ints, uints, doubles, strings, namespaces, namespaceSets, multinames }

def write (scope : Scope) (c : Constants) : Except Fault Bytes := do
  let ints ← c.ints.write Varint.writeS32
  let uints ← c.uints.write Varint.writeU30
  let doubles ← c.doubles.write writeDouble
  let strings ← c.strings.write writeText
  let namespaces ← c.namespaces.write (Namespace.write scope)
  let namespaceSets ← c.namespaceSets.write (NamespaceSet.write scope)
  let multinames ← c.multinames.write (Multiname.write scope)
  return ints ++ uints ++ doubles ++ strings ++ namespaces ++ namespaceSets ++ multinames

/-- The constant pool at the front of the data. -/
def decode (data : Bytes) : Except Violation Constants := Reader.result read data

def encode (c : Constants) : Except Fault Bytes := c.write (c.scope {})

end Constants

-- ---------------------------------------------------------------------------
-- Resolving literals
-- ---------------------------------------------------------------------------

/-- What a literal stands for. -/
inductive Constant
  | bool (value : Bool)
  | int (value : Int)
  | double (bits : UInt64)
  | text (bytes : Bytes)
  | ns (ns : Namespace)
  deriving DecidableEq, Repr

/-- What a literal stands for; undefined, null and the reserved position stand for nothing. -/
def Constants.resolve (c : Constants) (l : Literal) : Except Fault (Option Constant) :=
  let entry {α : Type} (table : Table) (t : ConstantTable α) (wrap : α → Constant) :
      Except Fault (Option Constant) :=
    match table.lookup t.entries l.index with
    | .error v => .error (.violation v)
    | .ok found => .ok (found.map wrap)
  match Literal.meaning l.kind with
  | none => .error (.refusal (.literalKind l.kind))
  | some .truth => .ok (some (.bool true))
  | some .falsehood => .ok (some (.bool false))
  | some .undefined | some .null => .ok none
  | some (.entry .ints) => entry .ints c.ints .int
  | some (.entry .uints) => entry .uints c.uints .int
  | some (.entry .doubles) => entry .doubles c.doubles .double
  | some (.entry .strings) => entry .strings c.strings .text
  | some (.entry .namespaces) => entry .namespaces c.namespaces .ns
  | some (.entry _) => .error (.refusal (.literalKind l.kind))

-- ---------------------------------------------------------------------------
-- Resolving names
-- ---------------------------------------------------------------------------

/-- What a multiname refers to as its name: a text, or another multiname of a generic type. -/
inductive NameTarget
  | text (bytes : Bytes)
  | multiname (name : Multiname)
  deriving DecidableEq, Repr

/-- What the name of a multiname refers to, where it has one that is not 0. -/
def Constants.nameOf (c : Constants) (m : Multiname) : Except Violation (Option NameTarget) :=
  match m with
  | .qualified _ name _ | .multi _ name _ | .runtime _ name =>
    (Table.strings.lookup c.strings.entries name.val).map (Option.map .text)
  | .typeName name _ =>
    (Table.multinames.lookup c.multinames.entries name.val).map (Option.map .multiname)
  | .runtimeLate _ | .multiLate _ _ => .ok none

end ActionCode
