import ActionCode.File
import ActionCode.Proofs.Spelling

/-!
# Normal forms

A file that is written and read back is the same up to what the format cannot tell apart:
numbers lose what is above 32 bits, flags what is above eight, and a few optional parts are
always there or never. References into tables do not change.
-/

namespace ActionCode

/-! ## Methods -/

/-- An index that points nowhere is a plain number. -/
def Literal.normal (l : Literal) : Literal :=
  match Literal.meaning l.kind with
  | some .undefined | some .null | some .falsehood | some .truth =>
    { l with index := Varint.wrap l.index }
  | some (.entry _) | none => l

namespace Method

/-- The flags in their byte. -/
def normalFlags (m : Method) : Int := m.announcedFlags % 256

/-- Where parameters are named, one without a name gets the name 0. -/
def normalName (m : Method) (p : Param) : Option (Index .strings) :=
  if MethodFlag.hasParamNames.isSet m.normalFlags then some (p.name.getD 0) else p.name

def normal (m : Method) : Method :=
  { m with
    flags := m.normalFlags
    params := m.params.map fun p =>
      { p with name := m.normalName p, default := p.default.map Literal.normal } }

end Method

/-! ## Traits and their owners -/

/-- A value at the reserved position is no value. -/
def Member.normalValue (value : Option Literal) : Option Literal :=
  match value with
  | none => none
  | some l => if l.index = 0 then none else some l.normal

def Member.normal : Member → Member
  | slot constant slotId type value =>
    slot constant (Varint.wrap slotId) type (normalValue value)
  | method role dispId ref => method role (Varint.wrap dispId) ref
  | classRef slotId ref => classRef (Varint.wrap slotId) ref
  | function slotId ref => function (Varint.wrap slotId) ref

def Trait.normal (t : Trait) : Trait := { t with member := t.member.normal }

def Instance.normal (i : Instance) : Instance := { i with traits := i.traits.map Trait.normal }

def Class.normal (c : Class) : Class := { c with traits := c.traits.map Trait.normal }

def Script.normal (s : Script) : Script := { s with traits := s.traits.map Trait.normal }

/-! ## Code -/

def Operand.normal : (o : Operand) → o.Value → o.Value
  | .byte, value => value
  | .number, value => Varint.wrap value
  | .entry _, index => index

def Operands.normal : (os : List (String × Operand)) → Operands os → Operands os
  | [], _ => ()
  | (_, o) :: rest, (value, values) => (o.normal value, Operands.normal rest values)

/-- A switch always has a case. -/
def Switch.normal (s : Switch) : Switch := { s with cases := s.writtenCases }

def Layout.normal : (l : Layout) → l.Args → l.Args
  | .fixed os, args => Operands.normal os args
  | .branch, target => target
  | .switch, s => Switch.normal s

def Instruction.normal (i : Instruction) : Instruction := ⟨i.op, i.op.layout.normal i.args⟩

def Code.normal (code : Code) : Code := code.map Instruction.normal

/-! ## Bodies -/

/-- Versions before 46.16 have no variables. -/
def Handler.normal (version : Version) (h : Handler) : Handler :=
  if version.namesHandlerVariables then h else { h with varName := 0 }

def Body.normal (version : Version) (b : Body) : Body :=
  { b with
    maxStack := Varint.wrap b.maxStack
    localCount := Varint.wrap b.localCount
    initScopeDepth := Varint.wrap b.initScopeDepth
    maxScopeDepth := Varint.wrap b.maxScopeDepth
    code := b.code.normal
    handlers := b.handlers.map (Handler.normal version)
    traits := b.traits.map Trait.normal }

/-! ## Constants -/

namespace ConstantTable

variable {α : Type}

/-- Only an empty table remembers its count. -/
def normal (t : ConstantTable α) : ConstantTable α :=
  { t with emptyCount := if t.entries.isEmpty then t.emptyCount else 0 }

/-- The counts that a table without entries can be read from. -/
def Plain (t : ConstantTable α) : Prop :=
  t.entries = [] → t.emptyCount = 0 ∨ t.emptyCount = 1

instance [DecidableEq α] (t : ConstantTable α) : Decidable t.Plain :=
  inferInstanceAs (Decidable (_ → _))

@[simp] theorem extent_normal (t : ConstantTable α) : t.normal.extent = t.extent := rfl

end ConstantTable

namespace Constants

def normal (c : Constants) : Constants where
  ints := c.ints.normal
  uints := { c.uints.normal with entries := c.uints.entries.map Varint.wrap }
  doubles := c.doubles.normal
  strings := c.strings.normal
  namespaces := c.namespaces.normal
  namespaceSets := c.namespaceSets.normal
  multinames := c.multinames.normal

/-- Every empty table has a count of 0 or 1. -/
structure Plain (c : Constants) : Prop where
  ints : c.ints.Plain
  uints : c.uints.Plain
  doubles : c.doubles.Plain
  strings : c.strings.Plain
  namespaces : c.namespaces.Plain
  namespaceSets : c.namespaceSets.Plain
  multinames : c.multinames.Plain

/-- No table changes its length. -/
theorem scope_normal (c : Constants) (version : Version) :
    c.normal.scope version = c.scope version := by
  simp only [scope, normal, ConstantTable.extent_normal]
  simp only [ConstantTable.extent, List.length_map]

end Constants

/-! ## Files -/

def File.normal (f : File) : File :=
  { f with
    constants := f.constants.normal
    methods := f.methods.map Method.normal
    instances := f.instances.map Instance.normal
    classes := f.classes.map Class.normal
    scripts := f.scripts.map Script.normal
    bodies := f.bodies.map (Body.normal f.version) }

end ActionCode
