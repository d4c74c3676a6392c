import ActionCode.File

/-!
# Descriptions

One-line texts of everything in a file, for diagnostics and listings: a record is its name
with its fields in brackets, a list stands in square brackets, and a position in a table is
shown with the name of its index type.
-/

namespace ActionCode

namespace Describe

-- ---------------------------------------------------------------------------
-- Parts
-- ---------------------------------------------------------------------------

def commaSeparated (items : List String) : String := ", ".intercalate items

def list {α : Type} (item : α → String) (xs : List α) : String :=
  "[" ++ commaSeparated (xs.map item) ++ "]"

def bool (b : Bool) : String := if b then "True" else "False"

def optional {α : Type} (item : α → String) : Option α → String
  | none => "None"
  | some x => item x

/-- A record: its name, and its fields with their values. -/
def record (name : String) (fields : List (String × String)) : String :=
  name ++ "(" ++ commaSeparated (fields.map fun (field, value) => field ++ "=" ++ value) ++ ")"

end Describe

open Describe

-- ---------------------------------------------------------------------------
-- Constants
-- ---------------------------------------------------------------------------

/-- Three kinds of namespaces have a name. -/
def Namespace.describe (ns : Namespace) : String :=
  let kind :=
    if ns.kind = 0x16 then "'package'"
    else if ns.kind = 0x08 then "'normal'"
    else if ns.kind = 0x05 then "'private'"
    else toString ns.kind
  record "Namespace" [("name", ns.name.describe), ("kind", kind)]

def NamespaceSet.describe (set : NamespaceSet) : String :=
  "NamespaceSet(" ++ list Index.describe set.members ++ ")"

def Multiname.describe (m : Multiname) : String :=
  match m with
  | .qualified _ name ns => record m.shape [("name", name.describe), ("ns", ns.describe)]
  | .multi _ name nsSet => record m.shape [("name", name.describe), ("ns_set", nsSet.describe)]
  | .runtime _ name => record m.shape [("name", name.describe)]
  | .runtimeLate _ => record m.shape []
  | .multiLate _ nsSet => record m.shape [("ns_set", nsSet.describe)]
  | .typeName name types =>
    m.shape ++ "(" ++ name.describe ++ ".<" ++ commaSeparated (types.map Index.describe) ++ ">)"

/-- The index of a literal is shown as one of the table that its kind selects. -/
def Literal.describe (l : Literal) : String :=
  let index := match Literal.meaning l.kind with
    | some (.entry table) => table.showIndex l.index
    | _ => toString l.index
  record "DefaultValue" [("kind", toString l.kind), ("index", index)]

/-- The number of entries of every constant table. -/
def Constants.describe (c : Constants) : String :=
  record "ConstantPool" [
    ("int", toString c.ints.entries.length),
    ("uint", toString c.uints.entries.length),
    ("double", toString c.doubles.entries.length),
    ("utf8", toString c.strings.entries.length),
    ("namespace", toString c.namespaces.entries.length),
    ("nsset", toString c.namespaceSets.entries.length),
    ("multiname", toString c.multinames.entries.length)]

-- ---------------------------------------------------------------------------
-- Records
-- ---------------------------------------------------------------------------

def Param.describe (p : Param) : String :=
  record "MethodParam" [
    ("type", p.type.describe),
    ("name", optional Index.describe p.name),
    ("default", optional Literal.describe p.default)]

def Method.describe (m : Method) : String :=
  record "MethodInfo" [
    ("name", m.name.describe),
    ("return_type", m.returnType.describe),
    ("params", list Param.describe m.params),
    ("flags", toString m.flags)]

def MetadataItem.describe (item : MetadataItem) : String :=
  record "MetadataItem" [("key", item.key.describe), ("value", item.value.describe)]

def Metadata.describe (m : Metadata) : String :=
  record "MetadataInfo" [("name", m.name.describe), ("items", list MetadataItem.describe m.items)]

def Member.shape : Member → String
  | slot false _ _ _ => "SlotTrait"
  | slot true _ _ _ => "ConstTrait"
  | method .method _ _ => "MethodTrait"
  | method .getter _ _ => "GetterTrait"
  | method .setter _ _ => "SetterTrait"
  | classRef _ _ => "ClassTrait"
  | function _ _ => "FunctionTrait"

def Member.fields : Member → List (String × String)
  | slot _ slotId type value => [
    ("slot_id", toString slotId),
    ("type_name", type.describe),
    ("value", optional Literal.describe value)]
  | method _ dispId ref => [("disp_id", toString dispId), ("method", ref.describe)]
  | classRef slotId ref => [("slot_id", toString slotId), ("cls", ref.describe)]
  | function slotId ref => [("slot_id", toString slotId), ("function", ref.describe)]

def Trait.describe (t : Trait) : String :=
  record t.member.shape ([
    ("name", t.name.describe),
    ("final", bool t.final),
    ("override", bool t.override),
    ("metadata", optional (list Index.describe) t.metadata)] ++ t.member.fields)

def Instance.describe (i : Instance) : String :=
  record "InstanceInfo" [
    ("name", i.name.describe),
    ("super_name", i.superName.describe),
    ("sealed", bool i.sealed),
    ("final", bool i.final),
    ("interface", bool i.interface),
    ("protected_ns", optional Index.describe i.protectedNs),
    ("interfaces", list Index.describe i.interfaces),
    ("iinit", i.init.describe),
    ("traits", list Trait.describe i.traits)]

def Class.describe (c : Class) : String :=
  record "ClassInfo" [("cinit", c.init.describe), ("traits", list Trait.describe c.traits)]

def Script.describe (s : Script) : String :=
  record "ScriptInfo" [("init", s.init.describe), ("traits", list Trait.describe s.traits)]

-- ---------------------------------------------------------------------------
-- Code
-- ---------------------------------------------------------------------------

def Operand.describe : (o : Operand) → o.Value → String
  | .byte, value => toString value
  | .number, value => toString value
  | .entry _, index => index.describe

def Operands.describe : (os : List (String × Operand)) → Operands os → List (String × String)
  | [], _ => []
  | (name, o) :: rest, (value, values) =>
    (name, o.describe value) :: Operands.describe rest values

def Layout.describe : (l : Layout) → l.Args → List (String × String)
  | .fixed os, args => Operands.describe os args
  | .branch, target => [("target", toString (show Int from target))]
  | .switch, s => [("default", toString s.default), ("case_offsets", list toString s.cases)]

def Instruction.describe (i : Instruction) : String :=
  let fields := (i.op.layout.describe i.args).map fun (field, value) => field ++ "=" ++ value
  let code := "0x" ++ Hex.padded (Hex.upper i.op.code.toNat)
  i.op.mnemonic ++ " (" ++ commaSeparated (code :: fields) ++ ")"

/-- The number of instructions. -/
def Code.describe (code : Code) : String :=
  "<CodeAssembler (" ++ toString code.length ++ " instructions)>"

def Handler.describe (h : Handler) : String :=
  record "ExceptionInfo" [
    ("from_offset", toString h.start),
    ("to_offset", toString h.stop),
    ("target_offset", toString h.target),
    ("exc_type", h.type.describe),
    ("var_name", h.varName.describe)]

def Body.describe (b : Body) : String :=
  record "MethodBodyInfo" [
    ("method", b.method.describe),
    ("max_stack", toString b.maxStack),
    ("local_count", toString b.localCount),
    ("init_scope_depth", toString b.initScopeDepth),
    ("max_scope_depth", toString b.maxScopeDepth),
    ("code", Code.describe b.code),
    ("exceptions", list Handler.describe b.handlers),
    ("traits", list Trait.describe b.traits)]

-- ---------------------------------------------------------------------------
-- Files
-- ---------------------------------------------------------------------------

/-- The version and the sizes of the main tables. -/
def File.describe (f : File) : String :=
  let version := toString f.version.major ++ "." ++ toString f.version.minor
  "<AbcFile " ++ version ++ ": " ++ commaSeparated [
    toString f.methods.length ++ " methods",
    toString f.classes.length ++ " classes",
    toString f.scripts.length ++ " scripts",
    toString f.bodies.length ++ " bodies"] ++ ">"

end ActionCode
