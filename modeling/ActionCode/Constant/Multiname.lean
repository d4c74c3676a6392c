import ActionCode.Scope

/-!
# Multinames

A multiname says how a name is found: what is known at compile time is a reference into
the string, namespace or namespace set table, and what is not comes from the stack. All
shapes but one exist twice, for elements and for attributes.
-/

namespace ActionCode

inductive Multiname
  /-- A name in one namespace. -/
  | qualified (isAttr : Bool) (name : Index .strings) (ns : Index .namespaces)
  /-- A name that is looked up in a set of namespaces. -/
  | multi (isAttr : Bool) (name : Index .strings) (nsSet : Index .namespaceSets)
  /-- A name whose namespace comes from the stack. -/
  | runtime (isAttr : Bool) (name : Index .strings)
  /-- Both the name and the namespace come from the stack. -/
  | runtimeLate (isAttr : Bool)
  /-- The name comes from the stack and is looked up in a set of namespaces. -/
  | multiLate (isAttr : Bool) (nsSet : Index .namespaceSets)
  /-- A generic type and its parameters. -/
  | typeName (name : Index .multinames) (types : List (Index .multinames))
  deriving DecidableEq, Repr

namespace Multiname

/-- The tag byte in front of a multiname. -/
def kind : Multiname → UInt8
  | qualified false _ _ => 0x07
  | qualified true _ _ => 0x0D
  | multi false _ _ => 0x09
  | multi true _ _ => 0x0E
  | runtime false _ => 0x0F
  | runtime true _ => 0x10
  | runtimeLate false => 0x11
  | runtimeLate true => 0x12
  | multiLate false _ => 0x1B
  | multiLate true _ => 0x1C
  | typeName _ _ => 0x1D

/-- The name of the shape of a multiname. -/
def shape : Multiname → String
  | qualified false _ _ => "QName"
  | qualified true _ _ => "QNameA"
  | multi false _ _ => "Multiname"
  | multi true _ _ => "MultinameA"
  | runtime false _ => "RtqName"
  | runtime true _ => "RtqNameA"
  | runtimeLate false => "RtqNameL"
  | runtimeLate true => "RtqNameLA"
  | multiLate false _ => "MultinameL"
  | multiLate true _ => "MultinameLA"
  | typeName _ _ => "TypeName"

/-- The name comes from the stack. -/
def isLate : Multiname → Bool
  | runtimeLate _ | multiLate _ _ => true
  | qualified _ _ _ | multi _ _ _ | runtime _ _ | typeName _ _ => false

/-- The namespace comes from the stack. -/
def hasLateNamespace : Multiname → Bool
  | runtime _ _ | runtimeLate _ => true
  | qualified _ _ _ | multi _ _ _ | multiLate _ _ | typeName _ _ => false

-- ---------------------------------------------------------------------------
-- Reading
-- ---------------------------------------------------------------------------

def readQualified (scope : Scope) (isAttr : Bool) : Reader Multiname := do
  let ns ← scope.readIndex .namespaces
  let name ← scope.readIndex .strings
  return qualified isAttr name ns

def readMulti (scope : Scope) (isAttr : Bool) : Reader Multiname := do
  let name ← scope.readIndex .strings
  let nsSet ← scope.readIndex .namespaceSets
  return multi isAttr name nsSet

def readRuntime (scope : Scope) (isAttr : Bool) : Reader Multiname := do
  return runtime isAttr (← scope.readIndex .strings)

def readMultiLate (scope : Scope) (isAttr : Bool) : Reader Multiname := do
  return multiLate isAttr (← scope.readIndex .namespaceSets)

def readTypeName (scope : Scope) : Reader Multiname := do
  let name ← scope.readIndex .multinames
  let types ← Reader.counted (scope.readIndex .multinames)
  return typeName name types

def read (scope : Scope) : Reader Multiname := do
  let offset ← Reader.offset
  let kind ← Reader.byte
  match kind with
  | 0x07 => readQualified scope false
  | 0x0D => readQualified scope true
  | 0x09 => readMulti scope false
  | 0x0E => readMulti scope true
  | 0x0F => readRuntime scope false
  | 0x10 => readRuntime scope true
  | 0x11 => return runtimeLate false
  | 0x12 => return runtimeLate true
  | 0x1B => readMultiLate scope false
  | 0x1C => readMultiLate scope true
  | 0x1D => readTypeName scope
  | _ => Reader.fail (.unknownMultinameKind kind) offset

-- ---------------------------------------------------------------------------
-- Writing
-- ---------------------------------------------------------------------------

/-- What follows the tag byte. -/
def writeParts (scope : Scope) : Multiname → Except Fault Bytes
  | qualified _ name ns => do
    let ns ← scope.writeIndex ns
    return ns ++ (← scope.writeIndex name)
  | multi _ name nsSet => do
    let name ← scope.writeIndex name
    return name ++ (← scope.writeIndex nsSet)
  | runtime _ name => scope.writeIndex name
  | runtimeLate _ => return []
  | multiLate _ nsSet => scope.writeIndex nsSet
  | typeName name types => do
    let name ← scope.writeIndex name
    return name ++ (← writeCounted scope.writeIndex types)

def write (scope : Scope) (name : Multiname) : Except Fault Bytes := do
  return name.kind :: (← name.writeParts scope)

end Multiname

end ActionCode
