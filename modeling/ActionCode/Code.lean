import ActionCode.Instruction

/-!
# Code

The instructions of one method body. Reading keeps branch targets as positions, writing
works the distances out again, and both make sure that every target lies in the code.
-/

namespace ActionCode

abbrev Code := List Instruction

namespace Code

-- ---------------------------------------------------------------------------
-- Addresses
-- ---------------------------------------------------------------------------

def addressesFrom : (address : Nat) → Code → Except Fault (List Nat)
  | _, [] => .ok []
  | address, i :: rest => do
    let size ← i.size
    return address :: (← addressesFrom (address + size) rest)

/-- The address of every instruction, in order. -/
def addresses (code : Code) : Except Fault (List Nat) := addressesFrom 0 code

/-- The name of the instruction at an address in diagnostics. -/
def label (address : Nat) : String := "instruction at 0x" ++ Hex.lower address

/-- Every target of the instructions, given with their addresses, lies in code of `size` bytes. -/
def checkTargets (origin : Option Int) (size : Nat) :
    List (Nat × Instruction) → Except Violation Unit
  | [] => .ok ()
  | (address, i) :: rest =>
    match i.targets.find? fun (target : Int) => ¬ (0 ≤ target ∧ target ≤ size) with
    | some target => .error {
        cause := .branchOutside i.op.mnemonic target size
        offset := origin.map (· + address)
        place := some (label address) }
    | none => checkTargets origin size rest

-- ---------------------------------------------------------------------------
-- Reading
-- ---------------------------------------------------------------------------

/-- How a violation inside the instruction at `address` is told of the whole payload, in which
the code of `size` bytes starts at `origin`. -/
def misread (origin : Int) (size address : Nat) (v : Violation) : Violation :=
  match v.cause with
  | .truncatedInput _ =>
    { cause := .truncatedInstruction address size, offset := some (origin + address) }
  | _ => (v.rebase origin).inside (label address)

/-- The instructions up to the end of the data, with their addresses. Each takes at least one
byte, so there are no more of them than `limit`, the number of bytes left. -/
def scan (scope : Scope) (origin : Int) (size : Nat) :
    (limit : Nat) → Reader (List (Nat × Instruction))
  | 0 => return []
  | limit + 1 => fun s =>
    if s.rest.isEmpty then .ok ([], s)
    else
      match Instruction.read scope s with
      | .error v => .error (misread origin size s.offset v)
      | .ok (i, t) =>
        match scan scope origin size limit t with
        | .error v => .error v
        | .ok (rest, u) => .ok ((s.offset, i) :: rest, u)

/-- Reads `data`, which starts at `origin` of the payload, as code. Addresses in it start at 0,
and nothing is taken from the input around it. -/
def read (scope : Scope) (origin : Int) (data : Bytes) : Reader Code := fun s =>
  match scan scope origin data.length data.length ⟨data, 0, s.deferred, []⟩ with
  | .error v => .error v
  | .ok (placed, t) =>
    match checkTargets (some origin) data.length placed with
    | .error v => .error v
    | .ok () => .ok (placed.map (·.2), { s with
        deferred := t.deferred
        spellings := t.spellings.map Spelling.inCode ++ s.spellings })

def decode (scope : Scope) (origin : Int) (data : Bytes) : Except Violation Code :=
  (read scope origin data).result []

-- ---------------------------------------------------------------------------
-- Writing
-- ---------------------------------------------------------------------------

/-- The address and the bytes of every instruction. -/
def layoutFrom (scope : Scope) : (address : Nat) → Code → Except Fault (List (Nat × Bytes))
  | _, [] => .ok []
  | address, i :: rest => do
    let bytes ← (i.write scope address).mapError (Fault.inside (label address))
    return (address, bytes) :: (← layoutFrom scope (address + bytes.length) rest)

def encode (scope : Scope) (code : Code) : Except Fault Bytes := do
  let pieces ← layoutFrom scope 0 code
  let bytes := pieces.flatMap (·.2)
  match checkTargets none bytes.length ((pieces.map (·.1)).zip code) with
  | .error v => throw (.violation v)
  | .ok () => return bytes

-- ---------------------------------------------------------------------------
-- Editing
-- ---------------------------------------------------------------------------

/-- Puts an instruction into the gap at a position. -/
def insertAt (code : Code) (position : Int) (i : Instruction) : Code :=
  let n := Position.gap code.length position
  code.take n ++ i :: code.drop n

/-- Takes out the instruction at a position. -/
def removeAt (code : Code) (position : Int) : Except Refusal (Instruction × Code) := do
  let (n, i) ← Position.entryAt code position
  return (i, code.eraseIdx n)

/-- Replaces one operand of the instruction at a position. -/
def assignAt (code : Code) (position : Int) (field : String) (value : Argument) :
    Except Refusal Code := do
  let (n, i) ← Position.entryAt code position
  return code.set n (i.assign field value)

/-- Whether the instructions at two positions are equal. -/
def sameAt (code : Code) (position other : Int) : Except Refusal Bool := do
  let (_, i) ← Position.entryAt code position
  let (_, j) ← Position.entryAt code other
  return i = j

end Code

end ActionCode
