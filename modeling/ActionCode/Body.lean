import ActionCode.Code
import ActionCode.Trait

/-!
# Method bodies

A body is the code of a method with its limits, its exception handlers and its traits. The
code is written before the handlers, but can refer to them, so it is read last.
-/

namespace ActionCode

-- ---------------------------------------------------------------------------
-- Handlers
-- ---------------------------------------------------------------------------

/-- An exception handler, for a stretch of the code. A type of 0 is any type, and a variable of
0 is none; versions before 46.16 do not write the variable. -/
structure Handler where
  start : Int
  stop : Int
  target : Int
  type : Index .multinames := 0
  varName : Index .multinames := 0
  deriving DecidableEq, Repr

namespace Handler

/-- The three positions with their names, in the order in which they are judged. -/
def offsets (h : Handler) : List (String × Int) :=
  [("from_offset", h.start), ("to_offset", h.stop), ("target_offset", h.target)]

/-- Every position lies in code of `size` bytes. -/
def checkOffsets (size : Nat) (h : Handler) : Except Violation Unit :=
  match h.offsets.find? fun (_, offset) => ¬ (0 ≤ offset ∧ offset ≤ size) with
  | some (field, offset) => .error { cause := .handlerOutside field offset size }
  | none => .ok ()

def readVariable (scope : Scope) : Reader (Index .multinames) :=
  if scope.version.namesHandlerVariables then scope.readIndex .multinames else return 0

def read (scope : Scope) : Reader Handler := do
  let start ← Reader.u30
  let stop ← Reader.u30
  let target ← Reader.u30
  let type ← scope.readIndex .multinames
  let varName ← readVariable scope
  return { start, stop, target, type, varName }

/-- A handler whose positions must lie in code of `size` bytes. -/
def readWithin (scope : Scope) (size : Nat) : Reader Handler := do
  let h ← read scope
  h.checkOffsets size
  return h

def writeVariable (scope : Scope) (varName : Index .multinames) : Except Fault Bytes :=
  if scope.version.namesHandlerVariables then scope.writeIndex varName else return []

def write (scope : Scope) (h : Handler) : Except Fault Bytes := do
  let start ← Varint.writeU30 h.start
  let stop ← Varint.writeU30 h.stop
  let target ← Varint.writeU30 h.target
  let type ← scope.writeIndex h.type
  return start ++ stop ++ target ++ type ++ (← writeVariable scope h.varName)

/-- Every position of the handlers, from the position `first` on, lies in code of `size` bytes. -/
def checkAll (size : Nat) : (first : Nat) → List Handler → Except Violation Unit
  | _, [] => .ok ()
  | first, h :: rest =>
    match h.checkOffsets size with
    | .error v => .error (v.inside ("exception " ++ toString first))
    | .ok () => checkAll size (first + 1) rest

end Handler

-- ---------------------------------------------------------------------------
-- Bodies
-- ---------------------------------------------------------------------------

structure Body where
  method : Index .methods := 0
  maxStack : Int := 0
  localCount : Int := 0
  initScopeDepth : Int := 0
  maxScopeDepth : Int := 0
  code : Code := []
  handlers : List Handler := []
  traits : List Trait := []
  deriving DecidableEq

namespace Body

/-- What the code of a body can refer to. -/
def codeScope (scope : Scope) (handlers : List Handler) : Scope :=
  scope.set .handlers (.entries handlers.length)

def read (scope : Scope) : Reader Body := do
  let method ← scope.readIndex .methods
  let maxStack ← Reader.u30
  let localCount ← Reader.u30
  let initScopeDepth ← Reader.u30
  let maxScopeDepth ← Reader.u30
  let size ← Reader.u30
  let origin ← Reader.offset
  let data ← Reader.bytes size
  let count ← Reader.u30
  let handlers ← Reader.records .handlers "exception" (Handler.readWithin scope size) 0 count
  let traits ← Trait.readAll scope
  let code ← Code.read (codeScope scope handlers) origin data
  return { method, maxStack, localCount, initScopeDepth, maxScopeDepth, code, handlers, traits }

def write (scope : Scope) (b : Body) : Except Fault Bytes := do
  let code ← b.code.encode (codeScope scope b.handlers)
  match Handler.checkAll code.length 0 b.handlers with
  | .error v => throw (.violation v)
  | .ok () =>
    let method ← scope.writeIndex b.method
    let maxStack ← Varint.writeU30 b.maxStack
    let localCount ← Varint.writeU30 b.localCount
    let initScopeDepth ← Varint.writeU30 b.initScopeDepth
    let maxScopeDepth ← Varint.writeU30 b.maxScopeDepth
    let size ← Varint.writeU30 code.length
    let handlers ← writeCounted (Handler.write scope) b.handlers
    let traits ← Trait.writeAll scope b.traits
    return method ++ maxStack ++ localCount ++ initScopeDepth ++ maxScopeDepth ++ size ++ code
      ++ handlers ++ traits

end Body

end ActionCode
