import ActionCode.Scope

/-!
# Namespaces and namespace sets

A namespace is a kind and a name; a set lists the namespaces in which a name is looked up.
-/

namespace ActionCode

/-- The kind is kept as a number, since a model may hold one that the format does not know. -/
structure Namespace where
  kind : Int
  name : Index .strings
  deriving DecidableEq, Repr

namespace Namespace

/-- The seven kinds of the format: private, normal, package, package internal, protected,
explicit and static protected. -/
def kinds : List Int := [0x05, 0x08, 0x16, 0x17, 0x18, 0x19, 0x1A]

def read (scope : Scope) : Reader Namespace := do
  let offset ← Reader.offset
  let kind ← Reader.byte
  if (kind.toNat : Int) ∈ kinds then
    return ⟨kind.toNat, ← scope.readIndex .strings⟩
  else Reader.fail (.unknownNamespaceKind kind.toNat) offset

def write (scope : Scope) (ns : Namespace) : Except Fault Bytes :=
  if ns.kind ∈ kinds then do
    let kind ← Varint.writeByte ns.kind
    return kind ++ (← scope.writeIndex ns.name)
  else .error (.violation { cause := .unknownNamespaceKind ns.kind })

end Namespace

structure NamespaceSet where
  members : List (Index .namespaces)
  deriving DecidableEq, Repr

namespace NamespaceSet

def read (scope : Scope) : Reader NamespaceSet := do
  return ⟨← Reader.counted (scope.readIndex .namespaces)⟩

def write (scope : Scope) (set : NamespaceSet) : Except Fault Bytes :=
  writeCounted scope.writeIndex set.members

end NamespaceSet

end ActionCode
