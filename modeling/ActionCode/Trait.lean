import ActionCode.Constant.Literal

/-!
# Traits

A trait is a named member of an instance, a class, a script or a method body. Its tag byte
holds four attribute bits over the kind; the lowest three of them say that the member is
final, that it overrides another one, and that a list of metadata follows.
-/

namespace ActionCode

/-- What a method trait is called as. -/
inductive MethodRole
  | method | getter | setter
  deriving DecidableEq, Repr

/-- The part of a trait that depends on its kind. -/
inductive Member
  /-- A variable, or a constant, with its type and its initial value. -/
  | slot (constant : Bool) (slotId : Int) (type : Index .multinames) (value : Option Literal)
  | method (role : MethodRole) (dispId : Int) (ref : Index .methods)
  | classRef (slotId : Int) (ref : Index .classes)
  | function (slotId : Int) (ref : Index .methods)
  deriving DecidableEq, Repr

/-- A list of metadata may be empty, which differs from having none. -/
structure Trait where
  name : Index .multinames := 0
  final : Bool := false
  override : Bool := false
  metadata : Option (List (Index .metadata)) := none
  member : Member
  deriving DecidableEq, Repr

-- ---------------------------------------------------------------------------
-- Members
-- ---------------------------------------------------------------------------

namespace Member

/-- The kind in the low half of the tag byte. -/
def kind : Member → Nat
  | slot false _ _ _ => 0
  | method .method _ _ => 1
  | method .getter _ _ => 2
  | method .setter _ _ => 3
  | classRef _ _ => 4
  | function _ _ => 5
  | slot true _ _ _ => 6

def readSlot (scope : Scope) (constant : Bool) : Reader Member := do
  let slotId ← Reader.u30
  let type ← scope.readIndex .multinames
  let offset ← Reader.offset
  let index ← Reader.u30
  if index = 0 then return slot constant slotId type none
  else return slot constant slotId type (some (← Literal.readKind scope index offset))

def readMethod (scope : Scope) (role : MethodRole) : Reader Member := do
  let dispId ← Reader.u30
  return method role dispId (← scope.readIndex .methods)

def readClass (scope : Scope) : Reader Member := do
  let slotId ← Reader.u30
  return classRef slotId (← scope.readIndex .classes)

def readFunction (scope : Scope) : Reader Member := do
  let slotId ← Reader.u30
  return function slotId (← scope.readIndex .methods)

/-- The member of a kind that was read from the tag byte at `offset`. -/
def read (scope : Scope) (kind offset : Nat) : Reader Member :=
  match kind with
  | 0 => readSlot scope false
  | 1 => readMethod scope .method
  | 2 => readMethod scope .getter
  | 3 => readMethod scope .setter
  | 4 => readClass scope
  | 5 => readFunction scope
  | 6 => readSlot scope true
  | kind => Reader.fail (.unknownTraitKind kind) offset

/-- An index of 0 means that there is no value, and no kind follows it. -/
def writeValue (scope : Scope) : Option Literal → Except Fault Bytes
  | none => Varint.writeU30 0
  | some l => if l.index = 0 then Varint.writeU30 0 else l.write scope

def write (scope : Scope) : Member → Except Fault Bytes
  | slot _ slotId type value => do
    let slotId ← Varint.writeU30 slotId
    let type ← scope.writeIndex type
    return slotId ++ type ++ (← writeValue scope value)
  | method _ dispId ref => do
    let dispId ← Varint.writeU30 dispId
    return dispId ++ (← scope.writeIndex ref)
  | classRef slotId ref => do
    let slotId ← Varint.writeU30 slotId
    return slotId ++ (← scope.writeIndex ref)
  | function slotId ref => do
    let slotId ← Varint.writeU30 slotId
    return slotId ++ (← scope.writeIndex ref)

end Member

-- ---------------------------------------------------------------------------
-- Traits
-- ---------------------------------------------------------------------------

namespace Trait

/-- The tag byte: the kind below, the attributes above, and the highest bit clear. -/
def tag (t : Trait) : Nat :=
  t.member.kind + (if t.final then 16 else 0) + (if t.override then 32 else 0)
    + (if t.metadata.isSome then 64 else 0)

def readMetadata (scope : Scope) (present : Bool) :
    Reader (Option (List (Index .metadata))) := do
  if present then return some (← Reader.counted (scope.readIndex .metadata))
  else return none

def read (scope : Scope) : Reader Trait := do
  let name ← scope.readIndex .multinames
  let offset ← Reader.offset
  let tag ← Reader.flags 1
  let member ← Member.read scope (tag.toNat % 16) offset
  let metadata ← readMetadata scope (tag.toNat.testBit 6)
  return {
    name, member, metadata
    final := tag.toNat.testBit 4
    override := tag.toNat.testBit 5 }

def writeMetadata (scope : Scope) : Option (List (Index .metadata)) → Except Fault Bytes
  | none => return []
  | some refs => writeCounted scope.writeIndex refs

def write (scope : Scope) (t : Trait) : Except Fault Bytes := do
  let name ← scope.writeIndex t.name
  let member ← t.member.write scope
  return name ++ t.tag.toUInt8 :: member ++ (← writeMetadata scope t.metadata)

/-- Traits after their number. A class that a trait refers to may come later in the file, and
is then blamed on the trait. -/
def readAll (scope : Scope) : Reader (List Trait) := do
  Reader.records .classes "trait" (read scope) 0 (← Reader.u30)

def writeAll (scope : Scope) (traits : List Trait) : Except Fault Bytes := do
  let count ← Varint.writeU30 traits.length
  return count ++ (← writeRecords "trait" (write scope) 0 traits)

end Trait

end ActionCode
