import ActionCode.Proofs.Readback.Code
import ActionCode.Proofs.Writeback.Code

/-!
# Code is its own inverse

Code whose operands fit their fields is read back as it was written, wherever its branches stand
and whichever tables are known. Data that was read as code is written again exactly if it has no
number that could have been spelled in fewer bytes or in others.
-/

namespace ActionCode

open Reader (Reads)

/-! ## Operands that fit -/

/-- The values that the field of an operand can hold. -/
def Operand.InRange : (o : Operand) → o.Value → Prop
  | .byte, value => 0 ≤ value ∧ value < 2 ^ 8
  | .number, value => 0 ≤ value ∧ value < 2 ^ 32
  | .entry _, index => 0 ≤ index.val ∧ index.val < 2 ^ 32

def Operands.InRange : (os : List (String × Operand)) → Operands os → Prop
  | [], _ => True
  | (_, o) :: rest, (value, values) => o.InRange value ∧ Operands.InRange rest values

/-- Targets are judged where their distances are written. -/
def Layout.InRange : (l : Layout) → l.Args → Prop
  | .fixed os, args => Operands.InRange os args
  | .branch, _ | .switch, _ => True

def Instruction.InRange (i : Instruction) : Prop := i.op.layout.InRange i.args

def Code.InRange (code : Code) : Prop := ∀ i ∈ code, i.InRange

instance Operand.decidableInRange : (o : Operand) → (value : o.Value) → Decidable (o.InRange value)
  | .byte, _ | .number, _ | .entry _, _ => inferInstanceAs (Decidable (_ ∧ _))

instance Operands.decidableInRange :
    (os : List (String × Operand)) → (args : Operands os) → Decidable (Operands.InRange os args)
  | [], _ => inferInstanceAs (Decidable True)
  | (_, o) :: rest, (value, values) =>
    haveI := Operands.decidableInRange rest values
    inferInstanceAs (Decidable (o.InRange value ∧ Operands.InRange rest values))

instance Layout.decidableInRange : (l : Layout) → (args : l.Args) → Decidable (l.InRange args)
  | .fixed os, args => Operands.decidableInRange os args
  | .branch, _ | .switch, _ => inferInstanceAs (Decidable True)

instance (i : Instruction) : Decidable i.InRange := Layout.decidableInRange i.op.layout i.args

instance (code : Code) : Decidable code.InRange :=
  inferInstanceAs (Decidable (∀ i ∈ code, i.InRange))

/-! ## Switches without cases -/

/-- A switch without cases has its default for the only case. -/
def Layout.filled : (l : Layout) → l.Args → l.Args
  | .fixed _, args => args
  | .branch, target => target
  | .switch, s => { s with cases := if s.cases = [] then [s.default] else s.cases : Switch }

def Instruction.filled (i : Instruction) : Instruction := ⟨i.op, i.op.layout.filled i.args⟩

def Code.filled (code : Code) : Code := code.map Instruction.filled

/-! ## What fits is not changed -/

theorem Operand.normal_of_inRange {o : Operand} {value : o.Value} (h : o.InRange value) :
    o.normal value = value := by
  cases o with
  | byte => rfl
  | number => exact Varint.wrap_of_lt h.1 h.2
  | entry t => rfl

theorem Operand.kept_of_inRange {W : Scope} {o : Operand} {value : o.Value}
    (h : o.InRange value) : o.Kept W value := by
  cases o with
  | byte => trivial
  | number => trivial
  | entry t => exact .inr (Varint.wrap_of_lt h.1 h.2)

theorem Operands.of_inRange {W : Scope} {os : List (String × Operand)} {args : Operands os}
    (h : Operands.InRange os args) :
    Operands.normal os args = args ∧ Operands.Kept W os args := by
  induction os with
  | nil => exact ⟨rfl, trivial⟩
  | cons p os ih =>
    obtain ⟨value, values⟩ := args
    obtain ⟨hvalue, hvalues⟩ := h
    obtain ⟨hnormal, hkept⟩ := ih hvalues
    refine ⟨?_, Operand.kept_of_inRange hvalue, hkept⟩
    rw [Operands.normal, Operand.normal_of_inRange hvalue, hnormal]

theorem Layout.of_inRange {W : Scope} {l : Layout} {args : l.Args} (h : l.InRange args) :
    l.normal args = l.filled args ∧ l.Kept W args := by
  cases l with
  | fixed os => exact Operands.of_inRange h
  | branch => exact ⟨rfl, trivial⟩
  | switch =>
    refine ⟨?_, trivial⟩
    simp only [normal, filled, Switch.normal, Switch.writtenCases, List.isEmpty_iff]
    rfl

namespace Code

variable {scope : Scope} {code : Code} {origin : Int} {data : Bytes} {t : Input}

theorem InRange.normal_eq (h : code.InRange) : code.normal = code.filled :=
  List.map_congr_left fun i hi => by
    rw [Instruction.normal, Instruction.filled, (Layout.of_inRange (W := .unknown) (h i hi)).1]

theorem InRange.kept (h : code.InRange) : ∀ i ∈ code, i.Kept scope :=
  fun i hi => (Layout.of_inRange (h i hi)).2

end Code

/-! ## One scope for reading and writing -/

namespace Scope

variable {scope : Scope} {tables : List Table}

/-- The tables that are still being read. -/
def unfinished (scope : Scope) : List Table :=
  (Table.constants ++ [Table.methods, .metadata, .instances, .classes, .scripts, .bodies,
    .handlers]).filter fun t => scope.extent t = Extent.unfinished

theorem mem_unfinished {t : Table} : t ∈ scope.unfinished ↔ scope.extent t = .unfinished := by
  rw [unfinished, List.mem_filter, decide_eq_true_iff, and_iff_right_iff_imp]
  intro _
  cases t <;> decide

theorem mirrors_self : scope.Mirrors scope scope scope.unfinished tables where
  same _ _ := .inl rfl
  leaves := .refl _ _
  later _ ht := mem_unfinished.2 ht

end Scope

/-- What is kept for later is not judged yet. -/
theorem Input.Spans.admitted_self {C : Spelling → Prop} {scope : Scope} {s t : Input}
    {P : Bytes → Prop} (h : s.Spans C scope scope.unfinished t P) (hs : s.deferred = []) :
    t.Admitted scope := by
  intro p hp
  rcases h.kept p hp with hlater | ⟨q, hq, -⟩
  · intro count hcount
    rw [Scope.mem_unfinished.1 hlater] at hcount
    cases hcount
  · rw [hs] at hq
    cases hq

/-! ## Both directions -/

namespace Code

variable {scope : Scope} {code : Code} {origin : Int} {data : Bytes} {t : Input}

/-- Data from which code is read, and in which every variable-length number has the bytes that
it is written as. -/
def Canonical (scope : Scope) (origin : Int) (data : Bytes) : Prop :=
  ∃ code t, read scope origin data (.ofBytes []) = .ok (code, t) ∧ t.Spelled Spelling.Canonical

theorem canonical_iff (h : read scope origin data (.ofBytes []) = .ok (code, t)) :
    Canonical scope origin data ↔ t.Spelled Spelling.Canonical := by
  constructor
  · rintro ⟨_, u, hread, hcanonical⟩
    obtain ⟨-, rfl⟩ := Prod.mk.inj (Except.ok.inj (h.symm.trans hread))
    exact hcanonical
  · exact fun hcanonical => ⟨code, t, h, hcanonical⟩

instance : Decidable (Canonical scope origin data) :=
  match hread : read scope origin data (.ofBytes []) with
  | .ok (_, t) => decidable_of_iff (∀ sp ∈ t.spellings, sp.Canonical) (canonical_iff hread).symm
  | .error _ => .isFalse fun ⟨_, _, h, _⟩ => nomatch hread.symm.trans h

/-- Written code is read again in its normal form, out of numbers that are spelled as written. -/
theorem read_encode (origin : Int) (hkept : ∀ i ∈ code, i.Kept scope)
    (h : code.encode scope = .ok data) :
    ∃ t, read scope origin data (.ofBytes []) = .ok (code.normal, t) ∧
      t.Spelled Spelling.Canonical := by
  have hreads : Reads scope 0 (read scope origin data) [] code.normal :=
    reads_read (.refl scope) (.refl scope scope) hkept h
  obtain ⟨t, hread, -, -, hcanonical⟩ := hreads.ofBytes
  exact ⟨t, hread, hcanonical⟩

/-- However it is spelled, code that was read is normal and keeps its references. -/
theorem unchanged_of_read (h : read scope origin data (.ofBytes []) = .ok (code, t)) :
    code.normal = code ∧ ∀ i ∈ code, i.Kept scope := by
  obtain ⟨placed, u, hscan, rfl, -, -⟩ := read_eq_ok h
  obtain ⟨-, hspans⟩ := scan_spans (C := fun _ => True) Scope.mirrors_self
    Opcode.tables_shared hscan (Nat.le_refl _)
  obtain ⟨_, ⟨hall, -⟩, -⟩ := hspans.written ⟨hspans.admitted_self rfl, fun _ _ => trivial⟩
  exact unchanged_of_forall hall

/-- Canonical data is what is written for the code in it. -/
theorem encode_of_canonical (h : read scope origin data (.ofBytes []) = .ok (code, t))
    (hcanonical : t.Spelled Spelling.Canonical) : code.encode scope = .ok data := by
  have hspans := spans_read Scope.mirrors_self Opcode.tables_shared h
  obtain ⟨_, ⟨-, -, -, bytes, hencode, -, hsame⟩, -⟩ := hspans.written
    ⟨hspans.admitted_self rfl, fun sp hsp => (hcanonical sp hsp).unpadded.compact⟩
  rw [hencode, hsame hcanonical]

/-- Writing and reading code undo each other: all of the code comes back, but for switches
without cases, and so do all data that have nothing but canonical numbers. -/
theorem encode_decode_inverse (scope : Scope) (origin : Int) :
    (∀ (code : Code) (data : Bytes), code.InRange → code.encode scope = .ok data →
      decode scope origin data = .ok code.filled) ∧
    ∀ (data : Bytes) (code : Code), decode scope origin data = .ok code →
      (code.encode scope = .ok data ↔ Canonical scope origin data) := by
  constructor
  · intro code data hrange hencode
    obtain ⟨t, hread, -⟩ := read_encode origin hrange.kept hencode
    rw [hrange.normal_eq] at hread
    exact Outcome.map_eq_ok.2 ⟨_, hread, rfl⟩
  · intro data code h
    obtain ⟨⟨code, t⟩, hread, rfl⟩ := Outcome.map_eq_ok.1 h
    rw [canonical_iff hread]
    constructor
    · intro hencode
      obtain ⟨u, hback, hcanonical⟩ := read_encode origin (unchanged_of_read hread).2 hencode
      obtain ⟨-, rfl⟩ := Prod.mk.inj (Except.ok.inj (hread.symm.trans hback))
      exact hcanonical
    · exact encode_of_canonical hread

/-- A number of two bytes, a switch without cases, a reference into a known table and a branch
back to the start; and the same data with a padded number. -/
theorem encode_decode_inverse_switch :
    let scope := Scope.unknown.set .ints (.entries 3)
    let code : Code := [⟨.getlocal, ((300 : Int), ())⟩, ⟨.lookupswitch, ⟨3, []⟩⟩,
      ⟨.pushint, ((3 : Index .ints), ())⟩, ⟨.jump, (0 : Int)⟩]
    let back : Code := [⟨.getlocal, ((300 : Int), ())⟩, ⟨.lookupswitch, ⟨3, [3]⟩⟩,
      ⟨.pushint, ((3 : Index .ints), ())⟩, ⟨.jump, (0 : Int)⟩]
    let data : Bytes := [
      0x62, 0xAC, 0x02, 0x1B, 0, 0, 0, 0, 0, 0, 0, 0x2D, 3, 0x10, 0xEF, 0xFF, 0xFF]
    let padded : Bytes := [
      0x62, 0xAC, 0x82, 0, 0x1B, 0xFF, 0xFF, 0xFF, 0, 0xFF, 0xFF, 0xFF, 0x2D, 3, 0x10, 0xEE, 0xFF,
      0xFF]
    code.InRange ∧ code.encode scope = .ok data ∧ decode scope 40 data = .ok back ∧
      back.encode scope = .ok data ∧
      decode scope 40 padded = .ok back ∧ back.encode scope ≠ .ok padded := by
  intro scope code back data padded
  obtain ⟨hback, hagain⟩ := encode_decode_inverse scope 40
  have hrange : code.InRange := by decide +kernel
  have hencode : code.encode scope = .ok data :=
    Outcome.toOption_eq_some.1 (by decide +kernel)
  have hfilled : code.filled = back := by decide +kernel
  have hdecode : decode scope 40 data = .ok back := hfilled ▸ hback code data hrange hencode
  have hpadded : decode scope 40 padded = .ok back :=
    Outcome.toOption_eq_some.1 (by decide +kernel)
  refine ⟨hrange, hencode, hdecode, (hagain data back hdecode).2 (by decide +kernel), hpadded, ?_⟩
  exact fun h => absurd ((hagain padded back hpadded).1 h) (by decide +kernel)

end Code

end ActionCode
