import ActionCode.Constant.Literal

/-!
# Methods

The signature of a method: its return type, its parameters and eight flags. Defaults belong
to the last parameters, so a parameter after one with a default must have one too. Two of
the flags announce optional blocks, of defaults and of parameter names.
-/

namespace ActionCode

/-- A parameter has no name where the method has no names, and no default where it is required. -/
structure Param where
  type : Index .multinames := 0
  name : Option (Index .strings) := none
  default : Option Literal := none
  deriving DecidableEq, Repr

structure Method where
  name : Index .strings := 0
  returnType : Index .multinames := 0
  params : List Param := []
  flags : Int := 0
  deriving DecidableEq, Repr

-- ---------------------------------------------------------------------------
-- Flags
-- ---------------------------------------------------------------------------

/-- The flags by the number of their bit. -/
inductive MethodFlag
  | argumentsObject | activation | needRest | hasDefaults
  | ignoreRest | native | setsNamespace | hasParamNames
  deriving DecidableEq, Repr

namespace MethodFlag

def bit : MethodFlag → Nat
  | argumentsObject => 0
  | activation => 1
  | needRest => 2
  | hasDefaults => 3
  | ignoreRest => 4
  | native => 5
  | setsNamespace => 6
  | hasParamNames => 7

/-- Whether the bit of a flag is set in a number in two's complement. -/
def isSet (f : MethodFlag) (flags : Int) : Bool := flags / 2 ^ f.bit % 2 = 1

/-- Sets or clears the bit of a flag and keeps all other bits. -/
def assign (f : MethodFlag) (value : Bool) (flags : Int) : Int :=
  match f.isSet flags, value with
  | false, true => flags + 2 ^ f.bit
  | true, false => flags - 2 ^ f.bit
  | _, _ => flags

end MethodFlag

-- ---------------------------------------------------------------------------
-- Reading
-- ---------------------------------------------------------------------------

namespace Method

/-- The block of defaults, which a method with `count` parameters may have no more of. -/
def readDefaults (scope : Scope) (flags : Nat) (count : Nat) : Reader (List Literal) := do
  if flags.testBit MethodFlag.hasDefaults.bit then
    let offset ← Reader.offset
    let defaults ← Reader.u30
    if defaults > count then Reader.fail (.surplusDefaults defaults count) offset
    else Reader.replicate (Literal.read scope) defaults
  else return []

def readNames (scope : Scope) (flags : Nat) (count : Nat) :
    Reader (List (Option (Index .strings))) := do
  if flags.testBit MethodFlag.hasParamNames.bit then
    return (← Reader.replicate (scope.readIndex .strings) count).map some
  else return List.replicate count none

/-- Gives the defaults to the last parameters. -/
def assemble (types : List (Index .multinames)) (names : List (Option (Index .strings)))
    (defaults : List Literal) : List Param :=
  let missing := List.replicate (types.length - defaults.length) none
  (types.zip (names.zip (missing ++ defaults.map some))).map fun (type, name, default) =>
    { type, name, default }

def read (scope : Scope) : Reader Method := do
  let count ← Reader.u30
  let returnType ← scope.readIndex .multinames
  let types ← Reader.replicate (scope.readIndex .multinames) count
  let name ← scope.readIndex .strings
  let flags ← Reader.byte
  let defaults ← readDefaults scope flags.toNat count
  let names ← readNames scope flags.toNat count
  return { name, returnType, flags := flags.toNat, params := assemble types names defaults }

-- ---------------------------------------------------------------------------
-- Writing
-- ---------------------------------------------------------------------------

/-- The defaults of the parameters, from the position `first` on; `begun` says that an earlier
parameter has one. -/
def defaultsFrom : (first : Nat) → (begun : Bool) → List Param → Except Fault (List Literal)
  | _, _, [] => .ok []
  | first, begun, p :: rest =>
    match p.default with
    | some l => (defaultsFrom (first + 1) true rest).map (l :: ·)
    | none =>
      if begun then .error (.violation { cause := .missingDefault first })
      else defaultsFrom (first + 1) false rest

def defaults (m : Method) : Except Fault (List Literal) := defaultsFrom 0 false m.params

/-- The flags with the announcements that the parameters call for. -/
def announcedFlags (m : Method) : Int :=
  let withDefaults :=
    if m.params.any (·.default.isSome) then MethodFlag.hasDefaults.assign true m.flags else m.flags
  if m.params.any (·.name.isSome) then MethodFlag.hasParamNames.assign true withDefaults
  else withDefaults

def writeDefaults (scope : Scope) (flags : Int) (defaults : List Literal) :
    Except Fault Bytes :=
  if MethodFlag.hasDefaults.isSet flags then writeCounted (Literal.write scope) defaults
  else return []

def writeNames (scope : Scope) (flags : Int) (params : List Param) : Except Fault Bytes :=
  if MethodFlag.hasParamNames.isSet flags then
    writeEach (fun p => scope.writeIndex (p.name.getD 0)) params
  else return []

def write (scope : Scope) (m : Method) : Except Fault Bytes := do
  let count ← Varint.writeU30 m.params.length
  let returnType ← scope.writeIndex m.returnType
  let types ← writeEach (fun p => scope.writeIndex p.type) m.params
  let name ← scope.writeIndex m.name
  let defaults ← m.defaults
  let flags := m.announcedFlags
  let defaults ← writeDefaults scope flags defaults
  let names ← writeNames scope flags m.params
  return count ++ returnType ++ types ++ name ++ (flags % 256).toNat.toUInt8 :: defaults ++ names

end Method

end ActionCode
