import ActionCode.File
import ActionCode.Register

/-!
# Drafts

A draft is a file that is being edited. Beside the file it keeps what each table remembers
of the values added to it, so that a value can be interned instead of added again.
-/

namespace ActionCode

/-- What the tables of a file remember. Bodies have no hash, so nothing is remembered of them. -/
structure Memories where
  ints : List (Memory Int) := []
  uints : List (Memory Int) := []
  doubles : List (Memory UInt64) := []
  strings : List (Memory Bytes) := []
  namespaces : List (Memory Namespace) := []
  namespaceSets : List (Memory NamespaceSet) := []
  multinames : List (Memory Multiname) := []
  methods : List (Memory Method) := []
  metadata : List (Memory Metadata) := []
  instances : List (Memory Instance) := []
  classes : List (Memory Class) := []
  scripts : List (Memory Script) := []

structure Draft where
  file : File := {}
  memories : Memories := {}

-- ---------------------------------------------------------------------------
-- Columns
-- ---------------------------------------------------------------------------

/-- One table of a draft, with its entries and what it remembers of them. -/
structure Column (α : Type) where
  table : Table
  get : Draft → Register α
  set : Register α → Draft → Draft

namespace Column

def ints : Column Int where
  table := .ints
  get d := ⟨d.file.constants.ints.entries, d.memories.ints⟩
  set r d := {
    file := { d.file with constants.ints.entries := r.entries }
    memories := { d.memories with ints := r.memories } }

def uints : Column Int where
  table := .uints
  get d := ⟨d.file.constants.uints.entries, d.memories.uints⟩
  set r d := {
    file := { d.file with constants.uints.entries := r.entries }
    memories := { d.memories with uints := r.memories } }

def doubles : Column UInt64 where
  table := .doubles
  get d := ⟨d.file.constants.doubles.entries, d.memories.doubles⟩
  set r d := {
    file := { d.file with constants.doubles.entries := r.entries }
    memories := { d.memories with doubles := r.memories } }

def strings : Column Bytes where
  table := .strings
  get d := ⟨d.file.constants.strings.entries, d.memories.strings⟩
  set r d := {
    file := { d.file with constants.strings.entries := r.entries }
    memories := { d.memories with strings := r.memories } }

def namespaces : Column Namespace where
  table := .namespaces
  get d := ⟨d.file.constants.namespaces.entries, d.memories.namespaces⟩
  set r d := {
    file := { d.file with constants.namespaces.entries := r.entries }
    memories := { d.memories with namespaces := r.memories } }

def namespaceSets : Column NamespaceSet where
  table := .namespaceSets
  get d := ⟨d.file.constants.namespaceSets.entries, d.memories.namespaceSets⟩
  set r d := {
    file := { d.file with constants.namespaceSets.entries := r.entries }
    memories := { d.memories with namespaceSets := r.memories } }

def multinames : Column Multiname where
  table := .multinames
  get d := ⟨d.file.constants.multinames.entries, d.memories.multinames⟩
  set r d := {
    file := { d.file with constants.multinames.entries := r.entries }
    memories := { d.memories with multinames := r.memories } }

def methods : Column Method where
  table := .methods
  get d := ⟨d.file.methods, d.memories.methods⟩
  set r d := {
    file := { d.file with methods := r.entries }
    memories := { d.memories with methods := r.memories } }

def metadata : Column Metadata where
  table := .metadata
  get d := ⟨d.file.metadata, d.memories.metadata⟩
  set r d := {
    file := { d.file with metadata := r.entries }
    memories := { d.memories with metadata := r.memories } }

def instances : Column Instance where
  table := .instances
  get d := ⟨d.file.instances, d.memories.instances⟩
  set r d := {
    file := { d.file with instances := r.entries }
    memories := { d.memories with instances := r.memories } }

def classes : Column Class where
  table := .classes
  get d := ⟨d.file.classes, d.memories.classes⟩
  set r d := {
    file := { d.file with classes := r.entries }
    memories := { d.memories with classes := r.memories } }

def scripts : Column Script where
  table := .scripts
  get d := ⟨d.file.scripts, d.memories.scripts⟩
  set r d := {
    file := { d.file with scripts := r.entries }
    memories := { d.memories with scripts := r.memories } }

def bodies : Column Body where
  table := .bodies
  get d := ⟨d.file.bodies, []⟩
  set r d := { d with file := { d.file with bodies := r.entries } }

/-- The position of the first entry of the table. -/
def base {α : Type} (c : Column α) : Nat := if c.table.reserved then 1 else 0

end Column

-- ---------------------------------------------------------------------------
-- Editing
-- ---------------------------------------------------------------------------

namespace Draft

variable {α : Type}

/-- A file to edit, whose tables remember what they hold. -/
def ofFile (file : File) : Draft where
  file := file
  memories := {
    ints := (Register.ofList file.constants.ints.entries).memories
    uints := (Register.ofList file.constants.uints.entries).memories
    doubles := (Register.ofList file.constants.doubles.entries).memories
    strings := (Register.ofList file.constants.strings.entries).memories
    namespaces := (Register.ofList file.constants.namespaces.entries).memories
    namespaceSets := (Register.ofList file.constants.namespaceSets.entries).memories
    multinames := (Register.ofList file.constants.multinames.entries).memories
    methods := (Register.ofList file.methods).memories
    metadata := (Register.ofList file.metadata).memories
    instances := (Register.ofList file.instances).memories
    classes := (Register.ofList file.classes).memories
    scripts := (Register.ofList file.scripts).memories }

section Tables

variable [DecidableEq α]

/-- Whether a value is found in a table. No table of a draft holds an absent value. -/
def containsOptional (d : Draft) (c : Column α) (value : Option α) : Except Refusal Bool := do
  c.table.ensureHash value
  return value.any (c.get d).contains

/-- Appends a value to a table, which remembers it if it has a hash, and gives its position. -/
def add (d : Draft) (c : Column α) (value : α) : Draft × Nat :=
  let r := c.get d
  (c.set (if c.table.hashed then r.add value else r.append value) d, r.entries.length + c.base)

/-- The position of a value in a table, which is appended if it is not found. -/
def intern (d : Draft) (c : Column α) (value : α) : Except Refusal (Draft × Nat) := do
  c.table.ensureHash (some value)
  let (r, position) := (c.get d).intern value
  return (c.set r d, position + c.base)

/-- Removes the last entry of a table. -/
def pop (d : Draft) (c : Column α) : Except Refusal (α × Draft) :=
  match (c.get d).pop? with
  | none => .error .noEntry
  | some (value, r) => .ok (value, c.set r d)

end Tables

def valueAt (d : Draft) (c : Column α) (index : Int) : Except Violation (Option α) :=
  c.table.lookup (c.get d).entries index

/-- The entry at a position of a table. -/
def entry (d : Draft) (c : Column α) (position : Int) : Except Refusal α := do
  return (← Position.entryAt (c.get d).entries position).2

/-- Changes the entry at a position of a table in place. -/
def edit (d : Draft) (c : Column α) (position : Int) (change : α → α) :
    Except Refusal Draft := do
  let r := c.get d
  let (n, value) ← Position.entryAt r.entries position
  return c.set { r with entries := r.entries.set n (change value) } d

def appendInstruction (d : Draft) (body : Int) (i : Instruction) : Except Refusal Draft :=
  d.edit Column.bodies body fun b => { b with code := b.code ++ [i] }

def appendHandler (d : Draft) (body : Int) (h : Handler) : Except Refusal Draft :=
  d.edit Column.bodies body fun b => { b with handlers := b.handlers ++ [h] }

/-- Appends a trait to the entry at a position of a table, whose records must have traits. -/
def appendTrait (d : Draft) (owner : Table) (position : Int) (t : Trait) :
    Except Refusal Draft :=
  match owner with
  | .instances => d.edit Column.instances position fun x => { x with traits := x.traits ++ [t] }
  | .classes => d.edit Column.classes position fun x => { x with traits := x.traits ++ [t] }
  | .scripts => d.edit Column.scripts position fun x => { x with traits := x.traits ++ [t] }
  | .bodies => d.edit Column.bodies position fun x => { x with traits := x.traits ++ [t] }
  | .ints | .uints | .doubles | .strings | .namespaces | .namespaceSets | .multinames
  | .methods | .metadata | .handlers => .error (.unknownField "traits")

/-- Appends an instance and its class, which always go in pairs. -/
def addClass (d : Draft) (i : Instance) (c : Class) : Draft × Nat :=
  let (d, position) := d.add Column.instances i
  ((d.add Column.classes c).1, position)

def setVersion (d : Draft) (version : Version) : Draft :=
  { d with file := { d.file with version } }

/-- Writes the file and reads it again; tells whether the same file came back. -/
def reload (d : Draft) : Except Fault (Bool × Draft) :=
  match d.file.encode with
  | .error fault => .error fault
  | .ok data =>
    match File.decode data with
    | .error v => .error (.violation v)
    | .ok file => .ok (file = d.file, ofFile file)

end Draft

end ActionCode
