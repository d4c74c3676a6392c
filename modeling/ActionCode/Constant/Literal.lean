import ActionCode.Scope

/-!
# Literals

A literal is the default of a parameter or the initial value of a slot: a kind, and a
position in the constant table that the kind selects. Four kinds (undefined, null, true
and false) stand for themselves; their index is carried along but points nowhere.
-/

namespace ActionCode

/-- The kind is kept as a number, since a model may hold one that the format does not know. -/
structure Literal where
  kind : Int
  index : Int
  deriving DecidableEq, Repr

namespace Literal

/-- What a kind says about the index beside it. -/
inductive Meaning
  | undefined | null | falsehood | truth
  | entry (table : Table)
  deriving DecidableEq, Repr

def meaning : Int → Option Meaning
  | 0x00 => some .undefined
  | 0x0A => some .falsehood
  | 0x0B => some .truth
  | 0x0C => some .null
  | 0x01 => some (.entry .strings)
  | 0x03 => some (.entry .ints)
  | 0x04 => some (.entry .uints)
  | 0x06 => some (.entry .doubles)
  | 0x05 | 0x08 | 0x16 | 0x17 | 0x18 | 0x19 | 0x1A => some (.entry .namespaces)
  | _ => none

/-- A literal of a kind that stands for itself needs no index and takes its kind for one. -/
def ofKind (kind : Int) (index : Option Int) : Except Refusal Literal :=
  match index with
  | some index => .ok ⟨kind, index⟩
  | none =>
    match meaning kind with
    | some .undefined | some .null | some .falsehood | some .truth => .ok ⟨kind, kind⟩
    | some (.entry _) | none => .error (.missingIndex kind)

/-- The kind must be one of the format, and the index must be in the table it selects. -/
def check (scope : Scope) (l : Literal) (kindOffset indexOffset : Option Int) :
    Except Violation Unit :=
  match meaning l.kind with
  | none => .error ⟨.unknownValueKind l.kind, kindOffset, none⟩
  | some (.entry table) => scope.check table l.index indexOffset
  | some .undefined | some .null | some .falsehood | some .truth => .ok ()

/-- The kind after an index that was read at `indexOffset`. -/
def readKind (scope : Scope) (index : Nat) (indexOffset : Nat) : Reader Literal := do
  let kindOffset ← Reader.offset
  let kind ← Reader.byte
  let l : Literal := ⟨kind.toNat, index⟩
  l.check scope (some kindOffset) (some indexOffset)
  return l

def read (scope : Scope) : Reader Literal := do
  let offset ← Reader.offset
  let index ← Reader.u30
  readKind scope index offset

def write (scope : Scope) (l : Literal) : Except Fault Bytes := do
  match l.check scope none none with
  | .error v => throw (.violation v)
  | .ok () =>
    let index ← Varint.writeU30 l.index
    return index ++ (← Varint.writeByte l.kind)

end Literal

end ActionCode
