import ActionCode.Trait

/-!
# Instances, classes and scripts

A class of the language is two records: the instance holds what its objects have, the class
what it has itself. A script is what runs when the file is loaded.
-/

namespace ActionCode

-- ---------------------------------------------------------------------------
-- Instances
-- ---------------------------------------------------------------------------

structure Instance where
  name : Index .multinames := 0
  superName : Index .multinames := 0
  sealed : Bool := true
  final : Bool := false
  interface : Bool := false
  /-- The namespace of the protected members, of an instance that has one. -/
  protectedNs : Option (Index .namespaces) := none
  interfaces : List (Index .multinames) := []
  /-- The method that initialises an object. -/
  init : Index .methods := 0
  traits : List Trait := []
  deriving DecidableEq, Repr

namespace Instance

/-- The flag byte; its high half is reserved. -/
def flags (i : Instance) : Nat :=
  (if i.sealed then 1 else 0) + (if i.final then 2 else 0) + (if i.interface then 4 else 0)
    + (if i.protectedNs.isSome then 8 else 0)

def readProtectedNs (scope : Scope) (present : Bool) :
    Reader (Option (Index .namespaces)) := do
  if present then return some (← scope.readIndex .namespaces)
  else return none

def read (scope : Scope) : Reader Instance := do
  let name ← scope.readIndex .multinames
  let superName ← scope.readIndex .multinames
  let flags ← Reader.flags 4
  let protectedNs ← readProtectedNs scope (flags.toNat.testBit 3)
  let interfaces ← Reader.counted (scope.readIndex .multinames)
  let init ← scope.readIndex .methods
  let traits ← Trait.readAll scope
  return {
    name, superName, protectedNs, interfaces, init, traits
    sealed := flags.toNat.testBit 0
    final := flags.toNat.testBit 1
    interface := flags.toNat.testBit 2 }

def writeProtectedNs (scope : Scope) : Option (Index .namespaces) → Except Fault Bytes
  | none => return []
  | some ns => scope.writeIndex ns

def write (scope : Scope) (i : Instance) : Except Fault Bytes := do
  let name ← scope.writeIndex i.name
  let superName ← scope.writeIndex i.superName
  let protectedNs ← writeProtectedNs scope i.protectedNs
  let interfaces ← writeCounted scope.writeIndex i.interfaces
  let init ← scope.writeIndex i.init
  let traits ← Trait.writeAll scope i.traits
  return name ++ superName ++ i.flags.toUInt8 :: protectedNs ++ interfaces ++ init ++ traits

end Instance

-- ---------------------------------------------------------------------------
-- Classes and scripts
-- ---------------------------------------------------------------------------

structure Class where
  /-- The method that initialises the class. -/
  init : Index .methods := 0
  traits : List Trait := []
  deriving DecidableEq, Repr

namespace Class

def read (scope : Scope) : Reader Class := do
  let init ← scope.readIndex .methods
  let traits ← Trait.readAll scope
  return { init, traits }

def write (scope : Scope) (c : Class) : Except Fault Bytes := do
  let init ← scope.writeIndex c.init
  return init ++ (← Trait.writeAll scope c.traits)

end Class

structure Script where
  /-- The method that runs the script. -/
  init : Index .methods := 0
  traits : List Trait := []
  deriving DecidableEq, Repr

namespace Script

def read (scope : Scope) : Reader Script := do
  let init ← scope.readIndex .methods
  let traits ← Trait.readAll scope
  return { init, traits }

def write (scope : Scope) (s : Script) : Except Fault Bytes := do
  let init ← scope.writeIndex s.init
  return init ++ (← Trait.writeAll scope s.traits)

end Script

end ActionCode
