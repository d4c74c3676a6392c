import ActionCode.Scope

/-!
# Metadata

A metadata record is a name with key and value pairs. All keys are written before all values.
-/

namespace ActionCode

/-- A key of 0 makes a bare value. -/
structure MetadataItem where
  key : Index .strings := 0
  value : Index .strings := 0
  deriving DecidableEq, Repr

structure Metadata where
  name : Index .strings := 0
  items : List MetadataItem := []
  deriving DecidableEq, Repr

namespace Metadata

def read (scope : Scope) : Reader Metadata := do
  let name ← scope.readIndex .strings
  let count ← Reader.u30
  let keys ← Reader.replicate (scope.readIndex .strings) count
  let values ← Reader.replicate (scope.readIndex .strings) count
  return { name, items := (keys.zip values).map fun (key, value) => { key, value } }

def write (scope : Scope) (m : Metadata) : Except Fault Bytes := do
  let name ← scope.writeIndex m.name
  let count ← Varint.writeU30 m.items.length
  let keys ← writeEach (fun item => scope.writeIndex item.key) m.items
  let values ← writeEach (fun item => scope.writeIndex item.value) m.items
  return name ++ count ++ keys ++ values

end Metadata

end ActionCode
