import ActionCode.Body
import ActionCode.Proofs.Emission.Fields

/-!
# Placed code

Writing code gives every instruction an address, the sum of the sizes of those before it.
What is judged of code and handlers afterwards is where their positions lie.
-/

namespace ActionCode

/-! ## Targets -/

/-- The distances that are refused are those that three bytes do not hold. -/
theorem writeTarget_eq_ok {base target : Int} {bytes : Bytes} :
    writeTarget base target = .ok bytes ↔ Varint.writeS24 (target - base) = .ok bytes := by
  unfold writeTarget
  dsimp only
  split
  · rw [Varint.writeS24_eq_ok]
    simp only [reduceCtorEq, false_iff, not_and]
    omega
  · rfl

theorem length_writeTarget {base target : Int} {bytes : Bytes}
    (h : writeTarget base target = .ok bytes) : bytes.length = 3 := by
  obtain ⟨-, rfl⟩ := Varint.writeS24_eq_ok.1 (writeTarget_eq_ok.1 h)
  exact Bytes.length_ofNat _ _

theorem Switch.writtenCases_ne_nil (s : Switch) : s.writtenCases ≠ [] := by
  unfold writtenCases
  split
  · simp
  · rename_i hcases
    exact fun h => hcases (by rw [h]; rfl)

/-- The case that stands in for none is the default. -/
theorem Switch.mem_writtenCases {s : Switch} {target : Int} :
    target ∈ s.default :: s.writtenCases ↔ target ∈ s.default :: s.cases := by
  unfold writtenCases
  split
  · rename_i hcases
    rw [List.isEmpty_iff.1 hcases]
    simp
  · rfl

/-- Three bytes hold the distance from `base` to a target. -/
def InReach (base target : Int) : Prop := -2 ^ 23 ≤ target - base ∧ target - base ≤ 2 ^ 23 - 1

theorem exists_writeTarget {base target : Int} :
    (∃ bytes, writeTarget base target = .ok bytes) ↔ InReach base target := by
  simp only [writeTarget_eq_ok, Varint.writeS24_eq_ok]
  constructor
  · rintro ⟨_, hreach, -⟩
    exact hreach
  · exact fun hreach => ⟨_, hreach, rfl⟩

/-! ## Operands -/

def Operand.emitted : (o : Operand) → o.Value → List Field
  | .byte, value => [.byte value]
  | .number, value => [.number value]
  | .entry _, index => index.emitted

theorem Operand.emits_write {W : Scope} (o : Operand) (value : o.Value) :
    Emits W (o.write W value) (o.emitted value) := by
  cases o with
  | byte => exact .byte value
  | number => exact .number value
  | entry t => exact .index value

def Operands.emitted : (os : List (String × Operand)) → Operands os → List Field
  | [], _ => []
  | (_, o) :: rest, (value, values) => o.emitted value ++ Operands.emitted rest values

theorem Operands.emits_write {W : Scope} (os : List (String × Operand)) (args : Operands os) :
    Emits W (Operands.write W os args) (Operands.emitted os args) := by
  induction os with
  | nil => exact .pure []
  | cons p os ih =>
    obtain ⟨name, o⟩ := p
    obtain ⟨value, values⟩ := args
    exact (o.emits_write value).bind fun head => (ih values).ret (head ++ ·)

/-- Targets are judged by where they lie, so only the number of cases is left of a switch. -/
def Layout.emitted : (l : Layout) → l.Args → List Field
  | .fixed os, args => Operands.emitted os args
  | .branch, _ => []
  | .switch, s => [.number ((Switch.writtenCases s).length - 1)]

def Instruction.emitted (i : Instruction) : List Field := i.op.layout.emitted i.args

/-! ## Sizes -/

theorem Operands.write_unknown {W : Scope} {os : List (String × Operand)} {args : Operands os}
    {bytes : Bytes} (h : Operands.write W os args = .ok bytes) :
    Operands.write .unknown os args = .ok bytes := by
  induction os generalizing bytes with
  | nil => exact h
  | cons p os ih =>
    obtain ⟨name, o⟩ := p
    obtain ⟨value, values⟩ := args
    simp only [Operands.write, Outcome.bind_eq_ok, Outcome.pure_eq_ok] at h ⊢
    obtain ⟨head, hhead, tail, htail, rfl⟩ := h
    refine ⟨head, ?_, tail, ih htail, rfl⟩
    cases o with
    | byte => exact hhead
    | number => exact hhead
    | entry t =>
      obtain ⟨-, hhead⟩ := Scope.writeIndex_eq_ok.1 hhead
      exact Scope.writeIndex_eq_ok.2 ⟨Scope.admits_unknown, hhead⟩

theorem length_writeEach {α : Type} {write : α → Except Fault Bytes} {xs : List α} {n : Nat}
    {bytes : Bytes} (hn : ∀ x run, write x = .ok run → run.length = n)
    (h : writeEach write xs = .ok bytes) : bytes.length = n * xs.length := by
  induction xs generalizing bytes with
  | nil =>
    obtain ⟨⟩ := h
    rfl
  | cons x xs ih =>
    simp only [writeEach, Outcome.bind_eq_ok, Outcome.pure_eq_ok] at h
    obtain ⟨a, ha, b, hb, rfl⟩ := h
    rw [List.length_append, hn x a ha, ih hb, List.length_cons, Nat.mul_succ, Nat.add_comm]

namespace Layout

variable {W : Scope} {address : Nat} {l : Layout} {args : l.Args} {bytes : Bytes}

/-- What the targets of the instruction at `address` are relative to. -/
def base (address : Nat) : Layout → Int
  | .branch => address + 4
  | .switch | .fixed _ => address

/-- Operands take as many bytes as was foretold, wherever they are written. -/
theorem size_of_write (h : l.write W address args = .ok bytes) :
    l.size args = .ok bytes.length := by
  cases l with
  | fixed os =>
    simp only [size, Outcome.bind_eq_ok, Outcome.pure_eq_ok]
    exact ⟨bytes, Operands.write_unknown h, rfl⟩
  | branch => rw [size, length_writeTarget h]; rfl
  | switch =>
    simp only [write, Switch.write, Outcome.bind_eq_ok, Outcome.pure_eq_ok] at h
    obtain ⟨a, ha, b, hb, c, hc, rfl⟩ := h
    have hcases := length_writeEach (fun _ _ => length_writeTarget) hc
    simp only [size, Outcome.bind_eq_ok, Outcome.pure_eq_ok]
    refine ⟨b, hb, ?_⟩
    rw [List.length_append, List.length_append, length_writeTarget ha, hcases]

theorem emits_size (l : Layout) (args : l.Args) :
    Emits .unknown (l.size args) (l.emitted args) := by
  cases l with
  | fixed os => exact (Operands.emits_write os args).ret List.length
  | branch => exact .pure 3
  | switch => exact (Emits.number _).ret _

/-- Where operands stand only matters for the reach of their targets. -/
theorem exists_write : (∃ bytes, l.write W address args = .ok bytes) ↔
    (∀ field ∈ l.emitted args, field.Fits W) ∧
      ∀ target ∈ Instruction.targets.go l args, InReach (l.base address) target := by
  cases l with
  | fixed os =>
    exact (Operands.emits_write os args).trans
      (and_iff_left fun _ htarget => absurd htarget List.not_mem_nil).symm
  | branch =>
    apply Iff.trans exists_writeTarget
    constructor
    · intro hreach
      exact ⟨by simp [emitted], fun _ htarget => List.mem_singleton.1 htarget ▸ hreach⟩
    · exact fun h => h.2 args List.mem_cons_self
  | switch =>
    simp only [write, Switch.write, Outcome.bind_eq_ok, Outcome.pure_eq_ok]
    have hreach : (∀ target ∈ Instruction.targets.go .switch args, InReach address target) ↔
        InReach address args.default ∧ ∀ target ∈ args.writtenCases, InReach address target := by
      rw [← List.forall_mem_cons]
      exact forall_congr' fun target => imp_congr_left Switch.mem_writtenCases.symm
    have hcount : (∃ bytes, Varint.writeU30 (args.writtenCases.length - 1) = .ok bytes) ↔ _ :=
      Emits.number (W := W) _
    rw [emitted, ← hcount]
    constructor
    · rintro ⟨_, a, ha, b, hb, c, hc, -⟩
      refine ⟨⟨b, hb⟩, hreach.2 ⟨exists_writeTarget.1 ⟨a, ha⟩, fun target htarget => ?_⟩⟩
      exact exists_writeTarget.1 (exists_writeEach.1 ⟨c, hc⟩ target htarget)
    · rintro ⟨⟨b, hb⟩, h⟩
      obtain ⟨hdefault, hcases⟩ := hreach.1 h
      obtain ⟨a, ha⟩ := exists_writeTarget.2 hdefault
      obtain ⟨c, hc⟩ := exists_writeEach.2 fun target htarget =>
        exists_writeTarget.2 (hcases target htarget)
      exact ⟨_, a, ha, b, hb, c, hc, rfl⟩

end Layout

namespace Instruction

variable {W : Scope} {address n : Nat} {i : Instruction} {bytes : Bytes}

def base (address : Nat) (i : Instruction) : Int := i.op.layout.base address

theorem size_of_write (h : i.write W address = .ok bytes) : i.size = .ok bytes.length := by
  simp only [write, Outcome.bind_eq_ok, Outcome.pure_eq_ok] at h
  obtain ⟨run, hrun, rfl⟩ := h
  simp only [size, Outcome.bind_eq_ok, Outcome.pure_eq_ok]
  exact ⟨run.length, Layout.size_of_write hrun, by rw [List.length_cons, Nat.add_comm]⟩

theorem length_of_write (hsize : i.size = .ok n) (h : i.write W address = .ok bytes) :
    bytes.length = n :=
  Except.ok.inj ((size_of_write h).symm.trans hsize)

theorem emits_size (i : Instruction) : Emits .unknown i.size i.emitted :=
  (Layout.emits_size i.op.layout i.args).ret (1 + ·)

/-- Apart from its own fields, only targets that are out of reach keep an instruction from being
written. -/
theorem exists_write : (∃ bytes, i.write W address = .ok bytes) ↔
    (∀ field ∈ i.emitted, field.Fits W) ∧
      ∀ target ∈ i.targets, InReach (i.base address) target := by
  have hlayout : (∃ run, i.op.layout.write W address i.args = .ok run) ↔ _ := Layout.exists_write
  refine Iff.trans ?_ hlayout
  simp only [write, Outcome.bind_eq_ok, Outcome.pure_eq_ok]
  constructor
  · rintro ⟨_, run, hrun, -⟩
    exact ⟨run, hrun⟩
  · rintro ⟨run, hrun⟩
    exact ⟨_, run, hrun, rfl⟩

end Instruction

namespace Code

/-- All targets of all instructions lie in code of `size` bytes. -/
def TargetsWithin (size : Nat) (code : Code) : Prop :=
  ∀ i ∈ code, ∀ target ∈ i.targets, 0 ≤ target ∧ target ≤ size

theorem checkTargets_eq_ok {origin : Option Int} {size : Nat}
    {placed : List (Nat × Instruction)} :
    checkTargets origin size placed = .ok () ↔ TargetsWithin size (placed.map (·.2)) := by
  unfold TargetsWithin
  induction placed with
  | nil => simp [checkTargets]
  | cons p rest ih =>
    simp only [checkTargets]
    split
    · rename_i target hfind
      have hmem := List.mem_of_find?_eq_some hfind
      have hout := List.find?_some hfind
      simp only [decide_eq_true_eq] at hout
      simp only [reduceCtorEq, List.map_cons, List.forall_mem_cons, false_iff, not_and]
      exact fun h => absurd (h target hmem) hout
    · rename_i hfind
      have hall : ∀ target ∈ p.2.targets, 0 ≤ target ∧ target ≤ size := by
        simpa [List.find?_eq_none] using hfind
      rw [ih, List.map_cons, List.forall_mem_cons, and_iff_right hall]

/-! ## Addresses -/

variable {W : Scope} {address : Nat} {code : Code} {pieces : List (Nat × Bytes)} {bytes : Bytes}

theorem layoutFrom_nil : layoutFrom W address [] = .ok pieces ↔ [] = pieces := by
  simp [layoutFrom]

theorem layoutFrom_cons {i : Instruction} : layoutFrom W address (i :: code) = .ok pieces ↔
    ∃ head, i.write W address = .ok head ∧ ∃ tail,
      layoutFrom W (address + head.length) code = .ok tail ∧
        (address, head) :: tail = pieces := by
  simp only [layoutFrom, Outcome.bind_eq_ok, Outcome.mapError_eq_ok, Outcome.pure_eq_ok]

theorem length_layoutFrom (h : layoutFrom W address code = .ok pieces) :
    pieces.length = code.length := by
  induction code generalizing address pieces with
  | nil => rw [← layoutFrom_nil.1 h]; rfl
  | cons i code ih =>
    obtain ⟨head, -, tail, htail, rfl⟩ := layoutFrom_cons.1 h
    rw [List.length_cons, List.length_cons, ih htail]

/-- Every instruction takes at least its opcode. -/
theorem length_le_layoutFrom (h : layoutFrom W address code = .ok pieces) :
    code.length ≤ (pieces.flatMap (·.2)).length := by
  induction code generalizing address pieces with
  | nil => exact Nat.zero_le _
  | cons i code ih =>
    obtain ⟨head, hhead, tail, htail, rfl⟩ := layoutFrom_cons.1 h
    simp only [Instruction.write, Outcome.bind_eq_ok, Outcome.pure_eq_ok] at hhead
    obtain ⟨args, -, rfl⟩ := hhead
    have hrest := ih htail
    simp only [List.flatMap_cons, List.length_append, List.length_cons]
    omega

theorem encode_eq_ok : code.encode W = .ok bytes ↔
    ∃ pieces, layoutFrom W 0 code = .ok pieces ∧ pieces.flatMap (·.2) = bytes ∧
      TargetsWithin bytes.length code := by
  have hplaced {pieces : List (Nat × Bytes)} (h : layoutFrom W 0 code = .ok pieces) :
      ((pieces.map (·.1)).zip code).map (·.2) = code :=
    List.map_snd_zip (Nat.le_of_eq (by rw [List.length_map, length_layoutFrom h]))
  unfold encode
  simp only [Outcome.bind_eq_ok]
  constructor
  · rintro ⟨pieces, hpieces, h⟩
    split at h
    · simp at h
    · rename_i htargets
      rw [checkTargets_eq_ok, hplaced hpieces] at htargets
      obtain rfl := Outcome.pure_eq_ok.1 h
      exact ⟨pieces, hpieces, rfl, htargets⟩
  · rintro ⟨pieces, hpieces, rfl, htargets⟩
    have hok : checkTargets none (pieces.flatMap (·.2)).length
        ((pieces.map (·.1)).zip code) = .ok () := by
      rw [checkTargets_eq_ok, hplaced hpieces]
      exact htargets
    exact ⟨pieces, hpieces, by rw [hok]; rfl⟩

end Code

/-! ## Handlers -/

namespace Handler

/-- All positions of a handler lie in code of `size` bytes. -/
def OffsetsWithin (size : Nat) (h : Handler) : Prop :=
  ∀ p ∈ h.offsets, 0 ≤ p.2 ∧ p.2 ≤ size

theorem checkOffsets_eq_ok {size : Nat} {h : Handler} :
    h.checkOffsets size = .ok () ↔ h.OffsetsWithin size := by
  unfold checkOffsets OffsetsWithin
  split
  · rename_i field offset hfind
    have hmem := List.mem_of_find?_eq_some hfind
    have hout := List.find?_some hfind
    simp only [decide_eq_true_eq] at hout
    simp only [reduceCtorEq, false_iff]
    exact fun h => hout (h _ hmem)
  · rename_i hfind
    simpa [List.find?_eq_none] using hfind

theorem checkAll_eq_ok {size first : Nat} {hs : List Handler} :
    checkAll size first hs = .ok () ↔ ∀ h ∈ hs, h.OffsetsWithin size := by
  induction hs generalizing first with
  | nil => simp [checkAll]
  | cons h hs ih =>
    have hrest : checkAll size (first + 1) hs = .ok () ↔ _ := ih
    rw [List.forall_mem_cons, ← checkOffsets_eq_ok, ← hrest, checkAll]
    split
    · rename_i hv
      simp [hv]
    · rename_i hok
      simp [hok]

end Handler

end ActionCode
