/-!
# Tables and typed indices

An ABC file is a group of tables that refer to each other by position. `Table` names
them, and `Index t` is a position in table `t`. The seven constant tables reserve
position 0 for "absent" or "any" and keep their entries at 1 and above; the other
tables start at 0.
-/

namespace ActionCode

/-- The tables that a reference can point into. -/
inductive Table
  | ints | uints | doubles | strings | namespaces | namespaceSets | multinames
  | methods | metadata | instances | classes | scripts | bodies | handlers
  deriving DecidableEq, Repr

namespace Table

/-- The seven constant tables, in file order. -/
def constants : List Table :=
  [ints, uints, doubles, strings, namespaces, namespaceSets, multinames]

/-- Position 0 of a constant table is reserved and has no entry. -/
def reserved : Table → Bool
  | ints | uints | doubles | strings | namespaces | namespaceSets | multinames => true
  | methods | metadata | instances | classes | scripts | bodies | handlers => false

/-- The name of a table in diagnostics. -/
def name : Table → String
  | ints => "int"
  | uints => "uint"
  | doubles => "double"
  | strings => "utf8"
  | namespaces => "namespace"
  | namespaceSets => "nsset"
  | multinames => "multiname"
  | methods => "methods"
  | metadata => "metadatas"
  | instances => "instances"
  | classes => "classes"
  | scripts => "scripts"
  | bodies => "bodies"
  | handlers => "exceptions"

/-- The name of the index type of a table. Instances share the index of their class, and
nothing refers to a script or a body. -/
def indexName : Table → Option String
  | ints => some "IntIndex"
  | uints => some "UIntIndex"
  | doubles => some "DoubleIndex"
  | strings => some "StringIndex"
  | namespaces => some "NamespaceIndex"
  | namespaceSets => some "NamespaceSetIndex"
  | multinames => some "MultinameIndex"
  | methods => some "MethodIndex"
  | metadata => some "MetadataIndex"
  | instances => some "ClassIndex"
  | classes => some "ClassIndex"
  | scripts => none
  | bodies => none
  | handlers => some "ExceptionIndex"

/-- Whether a position is valid in a table that holds `entries` entries, where `reserved`
says if position 0 is set aside. -/
def InBounds (reserved : Bool) (entries : Nat) (index : Int) : Prop :=
  0 ≤ index ∧ index < entries + (if reserved then 1 else 0)

instance (reserved : Bool) (entries : Nat) (index : Int) :
    Decidable (InBounds reserved entries index) :=
  inferInstanceAs (Decidable (_ ∧ _))

end Table

/-- A position in table `t`. Nothing is looked up until it is resolved, so any integer is one. -/
structure Index (t : Table) where
  val : Int
  deriving DecidableEq, Repr

/-- The text of a position in table `t`, with the name of its type where it has one. -/
def Table.showIndex (t : Table) (index : Int) : String :=
  match t.indexName with
  | some name => name ++ "(" ++ toString index ++ ")"
  | none => toString index

def Index.describe {t : Table} (i : Index t) : String := t.showIndex i.val

instance {t : Table} {n : Nat} : OfNat (Index t) n := ⟨⟨n⟩⟩

end ActionCode
