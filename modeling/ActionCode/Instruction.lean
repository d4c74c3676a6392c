import ActionCode.Opcode
import ActionCode.Scope

/-!
# Instructions

An instruction is an opcode with the operands that its layout asks for. Branch targets are
held as absolute positions in the code, although the wire has them relative to the end of
a branch and to the start of a switch.
-/

namespace ActionCode

-- ---------------------------------------------------------------------------
-- Operands
-- ---------------------------------------------------------------------------

abbrev Operand.Value : Operand → Type
  | .byte => Int
  | .number => Int
  | .entry t => Index t

/-- One value for every operand of a list. -/
def Operands : List (String × Operand) → Type
  | [] => Unit
  | (_, o) :: rest => o.Value × Operands rest

/-- The targets of a switch. An empty list of cases is written as one case, the default. -/
structure Switch where
  default : Int
  cases : List Int
  deriving DecidableEq, Repr

/-- The operands that a layout asks for. -/
def Layout.Args : Layout → Type
  | .fixed operands => Operands operands
  | .branch => Int
  | .switch => Switch

structure Instruction where
  op : Opcode
  args : op.layout.Args

/-- An operand as it is given or shown: a number, or the cases of a switch. -/
inductive Argument
  | number (value : Int)
  | targets (values : List Int)
  deriving DecidableEq, Repr

-- ---------------------------------------------------------------------------
-- Equality
-- ---------------------------------------------------------------------------

instance Operand.decEqValue : (o : Operand) → DecidableEq o.Value
  | .byte => inferInstanceAs (DecidableEq Int)
  | .number => inferInstanceAs (DecidableEq Int)
  | .entry t => inferInstanceAs (DecidableEq (Index t))

instance Operands.decEq : (os : List (String × Operand)) → DecidableEq (Operands os)
  | [] => inferInstanceAs (DecidableEq Unit)
  | (_, o) :: rest =>
    haveI := Operands.decEq rest
    inferInstanceAs (DecidableEq (o.Value × Operands rest))

instance Layout.decEqArgs : (l : Layout) → DecidableEq l.Args
  | .fixed os => inferInstanceAs (DecidableEq (Operands os))
  | .branch => inferInstanceAs (DecidableEq Int)
  | .switch => inferInstanceAs (DecidableEq Switch)

instance : DecidableEq Instruction := fun ⟨op, args⟩ ⟨op', args'⟩ =>
  if h : op = op' then by
    subst h
    exact if g : args = args' then isTrue (by rw [g]) else isFalse (by simp [g])
  else isFalse (by simp [h])

-- ---------------------------------------------------------------------------
-- Reading
-- ---------------------------------------------------------------------------

def Operand.read (scope : Scope) : (o : Operand) → Reader o.Value
  | .byte => do return Int.ofNat (← Reader.byte).toNat
  | .number => do return Int.ofNat (← Reader.u30)
  | .entry t => scope.readIndex t

def Operands.read (scope : Scope) : (os : List (String × Operand)) → Reader (Operands os)
  | [] => return ()
  | (_, o) :: rest => do
    let value ← o.read scope
    return (value, ← Operands.read scope rest)

/-- A branch target relative to its own end. -/
def readBranch : Reader Int := do
  let distance ← Reader.s24
  return distance + (← Reader.offset)

/-- A branch target relative to `base`. -/
def readTarget (base : Nat) : Reader Int := do
  return base + (← Reader.s24)

def Switch.read (address : Nat) : Reader Switch := do
  let default ← readTarget address
  let last ← Reader.u30
  return { default, cases := ← Reader.replicate (readTarget address) (last + 1) }

/-- The operands of the instruction at `address`. -/
def Layout.read (scope : Scope) (address : Nat) : (l : Layout) → Reader l.Args
  | .fixed os => Operands.read scope os
  | .branch => readBranch
  | .switch => Switch.read address

-- ---------------------------------------------------------------------------
-- Writing
-- ---------------------------------------------------------------------------

def Operand.write (scope : Scope) : (o : Operand) → o.Value → Except Fault Bytes
  | .byte, value => Varint.writeByte value
  | .number, value => Varint.writeU30 value
  | .entry _, index => scope.writeIndex index

def Operands.write (scope : Scope) :
    (os : List (String × Operand)) → Operands os → Except Fault Bytes
  | [], _ => .ok []
  | (_, o) :: rest, (value, values) => do
    let head ← o.write scope value
    return head ++ (← Operands.write scope rest values)

/-- A branch target relative to `base`, if three bytes can hold the distance. -/
def writeTarget (base target : Int) : Except Fault Bytes :=
  let distance := target - base
  if distance < -2 ^ 23 ∨ distance > 2 ^ 23 - 1 then
    .error (.violation { cause := .branchTooFar base target })
  else Varint.writeS24 distance

/-- The cases as they are written: at least one. -/
def Switch.writtenCases (s : Switch) : List Int :=
  if s.cases.isEmpty then [s.default] else s.cases

def Switch.write (address : Nat) (s : Switch) : Except Fault Bytes := do
  let default ← writeTarget address s.default
  let last ← Varint.writeU30 (s.writtenCases.length - 1)
  return default ++ last ++ (← writeEach (writeTarget address) s.writtenCases)

/-- The operands of the instruction at `address`. -/
def Layout.write (scope : Scope) (address : Nat) : (l : Layout) → l.Args → Except Fault Bytes
  | .fixed os, args => Operands.write scope os args
  | .branch, target => writeTarget (address + 4) target
  | .switch, s => Switch.write address s

/-- The number of bytes that operands take, wherever they stand and whatever is in scope. -/
def Layout.size : (l : Layout) → l.Args → Except Fault Nat
  | .fixed os, args => do return (← Operands.write .unknown os args).length
  | .branch, _ => return 3
  | .switch, s => do
    let last ← Varint.writeU30 (s.writtenCases.length - 1)
    return 3 + last.length + 3 * s.writtenCases.length

-- ---------------------------------------------------------------------------
-- Arguments
-- ---------------------------------------------------------------------------

/-- The names of the operands. -/
def Layout.fields : Layout → List String
  | .fixed os => os.map (·.1)
  | .branch => ["target"]
  | .switch => ["default", "case_offsets"]

def Operand.toInt : (o : Operand) → o.Value → Int
  | .byte, value => value
  | .number, value => value
  | .entry _, index => index.val

def Operand.ofInt : (o : Operand) → Int → o.Value
  | .byte, value => value
  | .number, value => value
  | .entry _, value => ⟨value⟩

def Operands.arguments : (os : List (String × Operand)) → Operands os → List Argument
  | [], _ => []
  | (_, o) :: rest, (value, values) => .number (o.toInt value) :: Operands.arguments rest values

def Layout.arguments : (l : Layout) → l.Args → List Argument
  | .fixed os, args => Operands.arguments os args
  | .branch, target => [.number target]
  | .switch, s => [.number s.default, .targets s.cases]

def Operands.ofArguments : (os : List (String × Operand)) → List Argument → Option (Operands os)
  | [], [] => some ()
  | (_, o) :: rest, .number value :: values =>
    (Operands.ofArguments rest values).map fun tail => (o.ofInt value, tail)
  | _, _ => none

def Layout.ofArguments : (l : Layout) → List Argument → Option l.Args
  | .fixed os, arguments => Operands.ofArguments os arguments
  | .branch, [.number target] => some target
  | .switch, [.number default, .targets cases] => some { default, cases : Switch }
  | .branch, _ => none
  | .switch, _ => none

-- ---------------------------------------------------------------------------
-- Instructions
-- ---------------------------------------------------------------------------

namespace Instruction

def read (scope : Scope) : Reader Instruction := do
  let address ← Reader.offset
  let code ← Reader.byte
  match Opcode.ofCode? code with
  | none => Reader.fail (.unknownOpcode code) address
  | some op => return ⟨op, ← op.layout.read scope address⟩

def write (scope : Scope) (address : Nat) (i : Instruction) : Except Fault Bytes := do
  return i.op.code :: (← i.op.layout.write scope address i.args)

/-- The number of bytes that an instruction takes. -/
def size (i : Instruction) : Except Fault Nat := do
  return 1 + (← i.op.layout.size i.args)

/-- The positions that an instruction can branch to. -/
def targets : Instruction → List Int
  | ⟨op, args⟩ => go op.layout args
where
  go : (l : Layout) → l.Args → List Int
    | .fixed _, _ => []
    | .branch, target => [target]
    | .switch, s => s.default :: s.cases

def arguments (i : Instruction) : List Argument := i.op.layout.arguments i.args

/-- The instruction with a mnemonic and its operands. Underscores at the end of the mnemonic
are ignored. -/
def ofArguments (mnemonic : String) (arguments : List Argument) :
    Except Refusal Instruction :=
  let trimmed := String.ofList (mnemonic.toList.reverse.dropWhile (· = '_')).reverse
  match Opcode.ofMnemonic? trimmed with
  | none => .error (.unknownMnemonic mnemonic)
  | some op =>
    match op.layout.ofArguments arguments with
    | some args => .ok ⟨op, args⟩
    | none => .error (.operandCount op.mnemonic op.layout.fields.length arguments.length)

/-- The same instruction with one operand replaced; a name that no operand has changes nothing. -/
def assign (i : Instruction) (field : String) (value : Argument) : Instruction :=
  let replaced := (i.op.layout.fields.zip i.arguments).map fun (name, old) =>
    if name = field then value else old
  match i.op.layout.ofArguments replaced with
  | some args => ⟨i.op, args⟩
  | none => i

/-- The number that a `pushbyte` pushes: its operand in two's complement. -/
def pushedByte? (i : Instruction) : Option Int :=
  match i.op, i.arguments with
  | .pushbyte, [.number value] => some (if value > 127 then value - 256 else value)
  | _, _ => none

end Instruction

end ActionCode
