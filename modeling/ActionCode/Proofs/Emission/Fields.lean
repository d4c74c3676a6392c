import ActionCode.Constant.Namespace
import ActionCode.Method
import ActionCode.Proofs.Reader.Reads

/-!
# Emitted fields

Whether a record can be written is decided by the fields that are emitted for it, each of which
is judged by itself: a number by its range, a reference by the extent of its table. `Emits W x
fields` says so of the writer `x` in the scope `W`. A chain of writers emits the fields of all
its links.
-/

namespace ActionCode

/-- The numbers that are written in groups of seven bits, with a sign or without. -/
def Varint.Fits (value : Int) : Prop := -2 ^ 31 ≤ value ∧ value ≤ 2 ^ 32 - 1

/-- What is emitted for a record, apart from what can always be written. -/
inductive Field
  /-- A number in groups of seven bits. -/
  | number (value : Int)
  /-- A number in groups of seven bits that has a sign. -/
  | signed (value : Int)
  /-- A number of two bytes. -/
  | word (value : Int)
  | byte (value : Int)
  | reference (table : Table) (index : Int)
  | literal (l : Literal)
  | namespaceKind (kind : Int)
  /-- The parameters of a method, of which the last ones have defaults. -/
  | params (ps : List Param)

/-- What is asked of a field that is written in the scope `W`. -/
def Field.Fits (W : Scope) : Field → Prop
  | number value => Varint.Fits value
  | signed value => -2 ^ 31 ≤ value ∧ value ≤ 2 ^ 31 - 1
  | word value => 0 ≤ value ∧ value ≤ 2 ^ 16 - 1
  | byte value => 0 ≤ value ∧ value ≤ 2 ^ 8 - 1
  | reference t index => W.Admits t index ∧ Varint.Fits index
  | literal l => (Literal.meaning l.kind).isSome ∧
      (∀ t, Literal.meaning l.kind = some (.entry t) → W.Admits t l.index) ∧ Varint.Fits l.index
  | namespaceKind kind => kind ∈ Namespace.kinds
  | params ps => ps.Pairwise fun p q => p.default.isSome → q.default.isSome

def Index.emitted {t : Table} (i : Index t) : List Field := [.reference t i.val]

/-- The fields decide whether anything is written. -/
def Emits {α : Type} (W : Scope) (x : Except Fault α) (fields : List Field) : Prop :=
  (∃ y, x = .ok y) ↔ ∀ field ∈ fields, field.Fits W

namespace Emits

variable {α β : Type} {W : Scope} {x : Except Fault α} {f : α → Except Fault β}
  {fs gs : List Field}

/-! ## Chains -/

theorem pure (y : α) : Emits W (Pure.pure y) [] := ⟨fun _ => by simp, fun _ => ⟨y, rfl⟩⟩

/-- A link that makes something of what the first one came to. -/
theorem bind_of_ok (hx : Emits W x fs) (hf : ∀ y, x = .ok y → Emits W (f y) gs) :
    Emits W (x >>= f) (fs ++ gs) := by
  simp only [Emits, List.forall_mem_append, Outcome.bind_eq_ok]
  constructor
  · rintro ⟨z, y, hy, hz⟩
    exact ⟨hx.1 ⟨y, hy⟩, (hf y hy).1 ⟨z, hz⟩⟩
  · rintro ⟨hfs, hgs⟩
    obtain ⟨y, hy⟩ := hx.2 hfs
    obtain ⟨z, hz⟩ := (hf y hy).2 hgs
    exact ⟨z, y, hy, hz⟩

theorem bind (hx : Emits W x fs) (hf : ∀ y, Emits W (f y) gs) : Emits W (x >>= f) (fs ++ gs) :=
  hx.bind_of_ok fun y _ => hf y

/-- The last link of a chain, whose bytes are only put into place. -/
theorem ret (hx : Emits W x fs) (g : α → β) : Emits W (x >>= fun y => Pure.pure (g y)) fs := by
  have hchain := hx.bind fun y => pure (g y)
  rwa [List.append_nil] at hchain

/-! ## Single fields -/

theorem number (value : Int) : Emits W (Varint.writeU30 value) [.number value] := by
  simp only [Emits, Varint.writeU30_eq_ok, List.forall_mem_singleton, Field.Fits, Varint.Fits]
  exact ⟨fun h => h.elim fun _ h => h.1, fun h => ⟨_, h, rfl⟩⟩

/-- A zero can always be written. -/
theorem zero : Emits W (Varint.writeU30 0) [] := ⟨fun _ => by simp, fun _ => ⟨_, rfl⟩⟩

theorem signed (value : Int) : Emits W (Varint.writeS32 value) [.signed value] := by
  simp only [Emits, Varint.writeS32_eq_ok, List.forall_mem_singleton, Field.Fits]
  exact ⟨fun h => h.elim fun _ h => h.1, fun h => ⟨_, h, rfl⟩⟩

theorem byte (value : Int) : Emits W (Varint.writeByte value) [.byte value] := by
  simp only [Emits, Varint.writeByte_eq_ok, List.forall_mem_singleton, Field.Fits]
  constructor
  · rintro ⟨_, b, rfl, -⟩
    have hlt := b.toNat_lt
    omega
  · intro h
    refine ⟨_, value.toNat.toUInt8, ?_, rfl⟩
    rw [Bytes.toNat_toUInt8 (by omega)]
    omega

theorem index {t : Table} (i : Index t) : Emits W (W.writeIndex i) i.emitted := by
  simp only [Emits, Index.emitted, Scope.writeIndex_eq_ok, Varint.writeU30_eq_ok,
    List.forall_mem_singleton, Field.Fits]
  exact ⟨fun h => h.elim fun _ h => ⟨h.1, h.2.1⟩, fun h => ⟨_, h.1, h.2, rfl⟩⟩

/-! ## Sequences -/

variable {write : α → Except Fault Bytes} {emitted : α → List Field}

theorem each (hwrite : ∀ x, Emits W (write x) (emitted x)) (xs : List α) :
    Emits W (writeEach write xs) (xs.flatMap emitted) := by
  rw [Emits, exists_writeEach, List.forall_mem_flatMap]
  exact forall₂_congr fun x _ => hwrite x

theorem counted (hwrite : ∀ x, Emits W (write x) (emitted x)) (xs : List α) :
    Emits W (writeCounted write xs) (.number xs.length :: xs.flatMap emitted) :=
  (number _).bind fun count => (each hwrite xs).ret (count ++ ·)

theorem records {label : String} (hwrite : ∀ x, Emits W (write x) (emitted x)) (first : Nat)
    (xs : List α) : Emits W (writeRecords label write first xs) (xs.flatMap emitted) := by
  simp only [Emits, writeRecords_eq_ok]
  exact each hwrite xs

end Emits

end ActionCode
