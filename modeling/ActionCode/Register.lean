/-!
# Registers

A register is a list of entries that finds a value again by remembering where it was first
added. What it remembers is not taken back with the entry: a value that was removed is
still found at its old position, while a value that was changed in place is found neither
by its old content nor by its new one. Values without a hash are neither remembered nor looked
for, but only appended.
-/

namespace ActionCode

/-- What a register remembers of a value that was added to it. -/
structure Memory (α : Type) where
  value : α
  position : Nat
  /-- The entry has not been removed, so what it holds now may differ from `value`. -/
  held : Bool
  deriving DecidableEq, Repr

structure Register (α : Type) where
  entries : List α := []
  memories : List (Memory α) := []
  deriving DecidableEq, Repr

namespace Register

variable {α : Type} [DecidableEq α]

/-- The position that is remembered for a value that has a hash. -/
def find? (r : Register α) (value : α) : Option Nat :=
  (r.memories.find? fun m =>
    m.value = value ∧ (m.held → r.entries[m.position]? = some value)).map (·.position)

def contains (r : Register α) (value : α) : Bool := (r.find? value).isSome

/-- Adds a value at the end and remembers nothing of it. -/
def append (r : Register α) (value : α) : Register α :=
  { r with entries := r.entries ++ [value] }

/-- Adds a value with a hash at the end. A position that is already remembered for it stays the
one. -/
def add (r : Register α) (value : α) : Register α where
  entries := r.entries ++ [value]
  memories :=
    if r.contains value then r.memories
    else r.memories ++ [⟨value, r.entries.length, true⟩]

/-- The position of a value with a hash, which is added if it is not found. -/
def intern (r : Register α) (value : α) : Register α × Nat :=
  match r.find? value with
  | some position => (r, position)
  | none => (r.add value, r.entries.length)

/-- Removes the last entry and keeps what is remembered of it. -/
def pop? (r : Register α) : Option (α × Register α) :=
  match r.entries.getLast? with
  | none => none
  | some last =>
    let position := r.entries.length - 1
    let memories := r.memories.filterMap fun m =>
      if m.held ∧ m.position = position then
        if m.value = last then some { m with held := false } else none
      else some m
    some (last, { entries := r.entries.dropLast, memories })

/-- The register with the given entries, which have a hash and are added in order. -/
def ofList (values : List α) : Register α := values.foldl add {}

end Register

end ActionCode
