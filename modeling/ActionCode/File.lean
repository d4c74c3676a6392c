import ActionCode.Body
import ActionCode.Constant.Constants
import ActionCode.Definition
import ActionCode.Metadata
import ActionCode.Method

/-!
# Files

A whole ABC file: its version, the constant pool and six tables of records. Traits of
instances and classes can refer to classes that come later in the file; these references
are judged when all classes have been read. Bytes after the last body are ignored.
-/

namespace ActionCode

structure File where
  version : Version := {}
  constants : Constants := {}
  methods : List Method := []
  metadata : List Metadata := []
  instances : List Instance := []
  classes : List Class := []
  scripts : List Script := []
  bodies : List Body := []
  deriving DecidableEq

namespace File

/-- What the tables of a file make known about references. -/
def scope (f : File) : Scope :=
  (((f.constants.scope f.version).set .methods (.entries f.methods.length)).set
    .metadata (.entries f.metadata.length)).set .classes (.entries f.classes.length)

-- ---------------------------------------------------------------------------
-- Decoding
-- ---------------------------------------------------------------------------

/-- The records of one table, called `label` in diagnostics. -/
def readTable {α : Type} (label : String) (r : Reader α) (count : Nat) : Reader (List α) :=
  Reader.records .classes label r 0 count

def read : Reader File := do
  let minor ← Reader.u16
  let major ← Reader.u16
  let version : Version := { major, minor }
  let constants ← Constants.read
  let scope := constants.scope version
  let methods ← readTable "method" (Method.read scope) (← Reader.u30)
  let metadata ← readTable "metadata" (Metadata.read scope) (← Reader.u30)
  let scope := (scope.set .methods (.entries methods.length)).set
    .metadata (.entries metadata.length)
  let reading := scope.set .classes .unfinished
  let count ← Reader.u30
  let instances ← readTable "instance" (Instance.read reading) count
  let classes ← readTable "class" (Class.read reading) count
  Reader.settle .classes classes.length
  let scope := scope.set .classes (.entries classes.length)
  let scripts ← readTable "script" (Script.read scope) (← Reader.u30)
  let bodies ← readTable "method body" (Body.read scope) (← Reader.u30)
  return { version, constants, methods, metadata, instances, classes, scripts, bodies }

def decode (data : Bytes) : Except Violation File := Reader.result read data

-- ---------------------------------------------------------------------------
-- Encoding
-- ---------------------------------------------------------------------------

/-- The version, as two numbers of two bytes. -/
def writeVersion (v : Version) : Except Fault Bytes :=
  if ¬ (0 ≤ v.minor ∧ v.minor < 2 ^ 16) then .error (.refusal (.version v.minor))
  else if ¬ (0 ≤ v.major ∧ v.major < 2 ^ 16) then .error (.refusal (.version v.major))
  else .ok (Bytes.ofNat 2 v.minor.toNat ++ Bytes.ofNat 2 v.major.toNat)

/-- The records of one table after their number. -/
def writeTable {α : Type} (label : String) (write : α → Except Fault Bytes) (xs : List α) :
    Except Fault Bytes := do
  let count ← Varint.writeU30 xs.length
  return count ++ (← writeRecords label write 0 xs)

/-- The sections of a file, one after another. The classes are not counted again. -/
def write (scope : Scope) (f : File) : Except Fault Bytes := do
  let version ← writeVersion f.version
  let constants ← f.constants.write scope
  let methods ← writeTable "method" (Method.write scope) f.methods
  let metadata ← writeTable "metadata" (Metadata.write scope) f.metadata
  let instances ← writeTable "instance" (Instance.write scope) f.instances
  let classes ← writeRecords "class" (Class.write scope) 0 f.classes
  let scripts ← writeTable "script" (Script.write scope) f.scripts
  let bodies ← writeTable "method body" (Body.write scope) f.bodies
  return version ++ constants ++ methods ++ metadata ++ instances ++ classes ++ scripts ++ bodies

/-- The whole file, in which every instance must have its class. -/
def encode (f : File) : Except Fault Bytes :=
  if f.instances.length = f.classes.length then f.write f.scope
  else .error (.violation {
    cause := .unpairedClasses f.instances.length f.classes.length })

-- ---------------------------------------------------------------------------
-- Looking around
-- ---------------------------------------------------------------------------

/-- The first body of a method, and its position; native and abstract methods have none. -/
def bodyOf? (f : File) (method : Int) : Option (Nat × Body) := do
  let position ← f.bodies.findIdx? fun b => b.method.val = method
  return (position, ← f.bodies[position]?)

end File

end ActionCode
