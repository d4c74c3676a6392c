import ActionCode.Table
import ActionCode.Text.Hex

/-!
# Diagnostics

A payload that breaks a rule of the format is reported as a `Violation`: the `Cause`,
the byte offset and the enclosing records, as far as they are known. A value that has
no encoding at all is a `Refusal`. Reading can only end in a violation; writing can end
in either, which is a `Fault`.
-/

namespace ActionCode

-- ---------------------------------------------------------------------------
-- Violations
-- ---------------------------------------------------------------------------

/-- The rule of the format that was broken. -/
inductive Cause
  /-- The data ends this many bits too early. -/
  | truncatedInput (bits : Int)
  /-- The code ends inside the instruction at this address. -/
  | truncatedInstruction (address size : Nat)
  | overlong
  | unknownOpcode (code : UInt8)
  | unknownMultinameKind (kind : UInt8)
  | unknownNamespaceKind (kind : Int)
  | unknownTraitKind (kind : Nat)
  | unknownValueKind (kind : Int)
  | danglingReference (table : Table) (index : Int) (entries : Nat)
  | branchOutside (mnemonic : String) (target : Int) (size : Nat)
  | branchTooFar (base target : Int)
  | handlerOutside (field : String) (offset : Int) (size : Nat)
  | surplusDefaults (defaults params : Nat)
  | missingDefault (position : Nat)
  | unpairedClasses (instances classes : Nat)
  deriving DecidableEq, Repr

/-- The kinds that callers tell apart. -/
inductive Kind
  | truncatedInput | truncatedInstruction | overlong | unknownOpcode
  | unknownMultinameKind | unknownNamespaceKind | unknownTraitKind | unknownValueKind
  | danglingReference | offsetOutOfRange | countMismatch
  deriving DecidableEq, Repr

def Cause.kind : Cause → Kind
  | .truncatedInput _ => .truncatedInput
  | .truncatedInstruction _ _ => .truncatedInstruction
  | .overlong => .overlong
  | .unknownOpcode _ => .unknownOpcode
  | .unknownMultinameKind _ => .unknownMultinameKind
  | .unknownNamespaceKind _ => .unknownNamespaceKind
  | .unknownTraitKind _ => .unknownTraitKind
  | .unknownValueKind _ => .unknownValueKind
  | .danglingReference _ _ _ => .danglingReference
  | .branchOutside _ _ _ => .offsetOutOfRange
  | .branchTooFar _ _ => .offsetOutOfRange
  | .handlerOutside _ _ _ => .offsetOutOfRange
  | .surplusDefaults _ _ => .countMismatch
  | .missingDefault _ => .countMismatch
  | .unpairedClasses _ _ => .countMismatch

def Cause.message : Cause → String
  | .truncatedInput bits => s!"unexpected end of data, needed {bits} more bit(s)"
  | .truncatedInstruction address size =>
    s!"instruction at 0x{Hex.lower address} runs past the end of the code (0x{Hex.lower size} bytes)"
  | .overlong => "variable-length integer longer than five bytes"
  | .unknownOpcode code => "unknown opcode 0x" ++ Hex.padded (Hex.upper code.toNat)
  | .unknownMultinameKind kind => "unknown multiname kind 0x" ++ Hex.padded (Hex.lower kind.toNat)
  | .unknownNamespaceKind kind => "unknown namespace kind 0x" ++ Hex.padded (Hex.lower kind)
  | .unknownTraitKind kind => s!"unknown trait kind {kind}"
  | .unknownValueKind kind => "unknown default value kind 0x" ++ Hex.padded (Hex.lower kind)
  | .danglingReference table index entries =>
    s!"{table.name} index {index} out of range, table has {entries} entries"
  | .branchOutside mnemonic target size =>
    s!"{mnemonic} branches to 0x{Hex.lower target}, outside of the code (0x{Hex.lower size} bytes)"
  | .branchTooFar base target =>
    s!"branch from 0x{Hex.lower base} to 0x{Hex.lower target} does not fit in a s24"
  | .handlerOutside field offset size =>
    s!"{field} 0x{Hex.lower offset} is outside of the code (0x{Hex.lower size} bytes)"
  | .surplusDefaults defaults params =>
    s!"{defaults} optional parameters but only {params} parameters"
  | .missingDefault position => s!"parameter {position} has no default but an earlier one has"
  | .unpairedClasses instances classes => s!"{instances} instances but {classes} classes"

/-- The records around a spot, outermost first and separated by commas. `none` and the
empty text both stand for an unknown place. -/
abbrev Place := Option String

/-- Puts an enclosing record in front of a place. -/
def Place.within (outer : String) (inner : Place) : Place :=
  match inner with
  | none | some "" => some outer
  | some text => some (outer ++ ", " ++ text)

/-- A broken rule of the format and where it was broken, as far as that is known. -/
structure Violation where
  cause : Cause
  offset : Option Int := none
  place : Place := none
  deriving DecidableEq, Repr

namespace Violation

/-- Names the record around a violation. An empty label leaves the place as it is. -/
def inside (label : String) (v : Violation) : Violation :=
  if label = "" then v else { v with place := Place.within label v.place }

/-- Fills in the offset where none is known yet. -/
def atOffset (offset : Int) (v : Violation) : Violation :=
  { v with offset := some (v.offset.getD offset) }

/-- Moves a known offset, for data that starts at `origin` of a larger payload. -/
def rebase (origin : Int) (v : Violation) : Violation :=
  { v with offset := v.offset.map (· + origin) }

def kind (v : Violation) : Kind := v.cause.kind

def message (v : Violation) : String :=
  let placed := match v.place with
    | none | some "" => v.cause.message
    | some place => place ++ ": " ++ v.cause.message
  match v.offset with
  | none => placed
  | some offset => placed ++ " (at offset 0x" ++ Hex.lower offset ++ ")"

end Violation

-- ---------------------------------------------------------------------------
-- Refusals
-- ---------------------------------------------------------------------------

/-- A request that cannot be met whatever the file around it. -/
inductive Refusal
  | unsigned32 (value : Int)
  | signed32 (value : Int)
  | signed24 (value : Int)
  /-- A stream was given a number outside of the range of a `U32`. -/
  | varint (value : Int)
  | wholeBytes (value : Int) (count : Nat)
  | byteString (data : List UInt8) (count : Int)
  | bitField (width : Int) (value : Int)
  /-- A number cannot be laid out in fewer than no bits. -/
  | negativeLength
  /-- A literal of this kind was given no index. -/
  | missingIndex (kind : Int)
  | operandCount (mnemonic : String) (expected given : Nat)
  | byte (value : Int)
  | version (value : Int)
  | singleOverflow
  | unknownMnemonic (name : String)
  | unknownField (name : String)
  | literalKind (kind : Int)
  | specialization
  | floatWidth
  /-- Floats have no byte order of this mark. -/
  | byteOrder
  /-- Nothing was given where a value of this table is needed. -/
  | absentValue (table : Table)
  /-- There is no entry at a position. -/
  | noEntry
  /-- A value was looked for that has no hash. -/
  | unhashable
  deriving DecidableEq, Repr

/-- A run of bytes between quotes. Only letters and digits are shown as they are given. -/
def quoteBytes (data : List UInt8) : String :=
  "b'" ++ String.ofList (data.map fun b => Char.ofNat b.toNat) ++ "'"

/-- The text of a refusal, for those that have one. -/
def Refusal.message : Refusal → Option String
  | .unsigned32 value => s!"value {value} does not fit in a u32"
  | .signed32 value => s!"value {value} does not fit in a s32"
  | .signed24 value => s!"value {value} does not fit in a s24"
  | .varint value => s!"value {value} does not fit in a U32"
  | .wholeBytes value count => s!"{value} does not fit in {count} bytes"
  | .byteString data count => s!"{quoteBytes data} is not {count} bytes long"
  | .bitField width value => s!"length of {width} is not large enough to store {value}"
  | .missingIndex kind =>
    "a default value of kind 0x" ++ Hex.padded (Hex.lower kind) ++ " needs an index"
  | .operandCount mnemonic expected given =>
    s!"{mnemonic} takes {expected} argument(s). This instance has {given} argument(s)."
  | .byte _ | .version _ | .singleOverflow | .unknownMnemonic _ | .unknownField _
  | .literalKind _ | .specialization | .floatWidth | .byteOrder | .negativeLength
  | .absentValue _ | .noEntry | .unhashable => none

-- ---------------------------------------------------------------------------
-- Faults
-- ---------------------------------------------------------------------------

/-- Why nothing was written. -/
inductive Fault
  | violation (v : Violation)
  | refusal (r : Refusal)
  deriving DecidableEq, Repr

/-- Names the record around a violation; a refusal is the same wherever it comes from. -/
def Fault.inside (label : String) : Fault → Fault
  | .violation v => .violation (v.inside label)
  | .refusal r => .refusal r

instance : Coe Violation Fault := ⟨.violation⟩
instance : Coe Refusal Fault := ⟨.refusal⟩

end ActionCode
