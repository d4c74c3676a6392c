import ActionCode.Proofs.Arrangement

/-!
# Foretold addresses

The addresses that are foretold for code are the places where its instructions come to stand when
it is written, whatever is in scope, and where they are found when the bytes are read.
-/

namespace ActionCode

/-! ## References without lost bits -/

variable {W : Scope} {address : Nat} {run : Bytes}

/-- A reference as it is found again: what 32 bits hold of it. -/
def Operand.wrapped : (o : Operand) → o.Value → o.Value
  | .byte, value | .number, value => value
  | .entry _, index => ⟨Varint.wrap index.val⟩

def Operands.wrapped : (os : List (String × Operand)) → Operands os → Operands os
  | [], _ => ()
  | (_, o) :: rest, (value, values) => (o.wrapped value, Operands.wrapped rest values)

def Layout.wrapped : (l : Layout) → l.Args → l.Args
  | .fixed os, args => Operands.wrapped os args
  | .branch, target => target
  | .switch, s => s

def Instruction.wrapped (i : Instruction) : Instruction := ⟨i.op, i.op.layout.wrapped i.args⟩

theorem Varint.wrap_wrap (n : Int) : wrap (wrap n) = wrap n :=
  wrap_of_lt (wrap_nonneg n) (wrap_lt n)

theorem Operand.kept_wrapped (o : Operand) (value : o.Value) : o.Kept W (o.wrapped value) := by
  cases o with
  | byte => trivial
  | number => trivial
  | entry t => exact .inr (Varint.wrap_wrap value.val)

/-- The bits that are lost are not written in the first place. -/
theorem Operand.write_wrapped {o : Operand} {value : o.Value} (h : o.write W value = .ok run) :
    o.write W (o.wrapped value) = .ok run := by
  cases o with
  | byte => exact h
  | number => exact h
  | entry t =>
    obtain ⟨hadmits, hwritten⟩ := Scope.writeIndex_eq_ok.1 h
    refine Scope.writeIndex_eq_ok.2 ⟨fun count hcount => ?_, ?_⟩
    · rw [wrapped, Scope.wrap_of_writeIndex ⟨count, hcount⟩ h]
      exact hadmits count hcount
    · obtain ⟨-, rfl⟩ := Varint.writeU30_eq_ok.1 hwritten
      have hnonneg := Varint.wrap_nonneg value.val
      have hlt := Varint.wrap_lt value.val
      refine Varint.writeU30_eq_ok.2 ⟨?_, ?_⟩
      · exact ⟨by simp only [wrapped]; omega, by simp only [wrapped]; omega⟩
      · rw [wrapped, Varint.wrap_wrap]

theorem Operands.kept_wrapped (os : List (String × Operand)) (args : Operands os) :
    Operands.Kept W os (Operands.wrapped os args) := by
  induction os with
  | nil => trivial
  | cons p os ih =>
    obtain ⟨name, o⟩ := p
    obtain ⟨value, values⟩ := args
    exact ⟨o.kept_wrapped value, ih values⟩

theorem Operands.write_wrapped {os : List (String × Operand)} {args : Operands os}
    (h : Operands.write W os args = .ok run) :
    Operands.write W os (Operands.wrapped os args) = .ok run := by
  induction os generalizing run with
  | nil => exact h
  | cons p os ih =>
    obtain ⟨name, o⟩ := p
    obtain ⟨value, values⟩ := args
    simp only [Operands.write, Operands.wrapped, Outcome.bind_eq_ok, Outcome.pure_eq_ok] at h ⊢
    obtain ⟨head, hhead, tail, htail, rfl⟩ := h
    exact ⟨head, Operand.write_wrapped hhead, tail, ih htail, rfl⟩

namespace Layout

theorem kept_wrapped (l : Layout) (args : l.Args) : l.Kept W (l.wrapped args) := by
  cases l with
  | fixed os => exact Operands.kept_wrapped os args
  | branch => trivial
  | switch => trivial

theorem write_wrapped {l : Layout} {args : l.Args} (h : l.write W address args = .ok run) :
    l.write W address (l.wrapped args) = .ok run := by
  cases l with
  | fixed os => exact Operands.write_wrapped h
  | branch => exact h
  | switch => exact h

theorem targets_wrapped (l : Layout) (args : l.Args) :
    Instruction.targets.go l (l.wrapped args) = Instruction.targets.go l args := by
  cases l with
  | fixed os => rfl
  | branch => rfl
  | switch => rfl

end Layout

theorem Instruction.write_wrapped {i : Instruction} (h : i.write W address = .ok run) :
    i.wrapped.write W address = .ok run := by
  simp only [write, Outcome.bind_eq_ok, Outcome.pure_eq_ok] at h ⊢
  obtain ⟨operands, hoperands, rfl⟩ := h
  exact ⟨operands, Layout.write_wrapped hoperands, rfl⟩

namespace Code

variable {R : Scope} {code : Code} {pieces : List (Nat × Bytes)} {d : Bytes}

def wrapped (code : Code) : Code := code.map Instruction.wrapped

theorem kept_wrapped (code : Code) : ∀ i ∈ code.wrapped, i.Kept W := by
  intro i hi
  obtain ⟨j, -, rfl⟩ := List.mem_map.1 hi
  exact Layout.kept_wrapped j.op.layout j.args

theorem layoutFrom_wrapped (h : layoutFrom W address code = .ok pieces) :
    layoutFrom W address code.wrapped = .ok pieces := by
  induction code generalizing address pieces with
  | nil => exact h
  | cons i code ih =>
    obtain ⟨head, hhead, tail, htail, rfl⟩ := layoutFrom_cons.1 h
    exact layoutFrom_cons.2 ⟨head, Instruction.write_wrapped hhead, tail, ih htail, rfl⟩

theorem targetsWithin_wrapped {size : Nat} (h : code.TargetsWithin size) :
    code.wrapped.TargetsWithin size := by
  intro i hi
  obtain ⟨j, hj, rfl⟩ := List.mem_map.1 hi
  have htargets : j.wrapped.targets = j.targets := Layout.targets_wrapped j.op.layout j.args
  rw [htargets]
  exact h j hj

/-! ## Places -/

/-- Written between `a` and `b` of `d`, an instruction starts with its opcode, and takes as many
bytes as it takes wherever it is written and whatever is in scope. -/
structure Stands (W : Scope) (d : Bytes) (i : Instruction) (a b : Nat) : Prop where
  before : a < b
  opcode : d[a]? = some i.op.code
  written : i.write W a = .ok ((d.drop a).take (b - a))
  size : i.size = .ok (b - a)
  anywhere : ∀ W' address run, i.write W' address = .ok run → run.length = b - a

theorem stands_of_write {i : Instruction} {front rest : Bytes}
    (h : i.write W front.length = .ok run) :
    Stands W (front ++ (run ++ rest)) i front.length (front.length + run.length) where
  before := by
    simp only [Instruction.write, Outcome.bind_eq_ok, Outcome.pure_eq_ok] at h
    obtain ⟨operands, -, rfl⟩ := h
    rw [List.length_cons]
    omega
  opcode := by
    simp only [Instruction.write, Outcome.bind_eq_ok, Outcome.pure_eq_ok] at h
    obtain ⟨operands, -, rfl⟩ := h
    simp
  written := by simpa using h
  size := by simpa using Instruction.size_of_write h
  anywhere W' address run' h' := by
    simpa using Instruction.length_of_write (Instruction.size_of_write h) h'

/-- Where the pieces start, and where the last one stops. -/
def bounds (address : Nat) (pieces : List (Nat × Bytes)) : List Nat :=
  pieces.map (·.1) ++ [address + (pieces.flatMap (·.2)).length]

theorem bounds_cons (address : Nat) (head : Bytes) (tail : List (Nat × Bytes)) :
    bounds address ((address, head) :: tail) = address :: bounds (address + head.length) tail := by
  simp [bounds, Nat.add_assoc]

theorem bounds_zero (h : layoutFrom W address code = .ok pieces) :
    (bounds address pieces)[0]? = some address := by
  cases code with
  | nil =>
    obtain rfl := layoutFrom_nil.1 h
    rfl
  | cons i code =>
    obtain ⟨head, -, tail, -, rfl⟩ := layoutFrom_cons.1 h
    rfl

/-- Every instruction stands between two bounds, behind those before it and in front of those
after it. -/
theorem stands_of_layoutFrom (front : Bytes) (h : layoutFrom W front.length code = .ok pieces) :
    ∀ (k : Nat) i, code[k]? = some i → ∃ a b, (bounds front.length pieces)[k]? = some a ∧
      (bounds front.length pieces)[k + 1]? = some b ∧
      Stands W (front ++ pieces.flatMap (·.2)) i a b := by
  induction code generalizing front pieces with
  | nil => intro k i hi; cases hi
  | cons i code ih =>
    obtain ⟨head, hhead, tail, htail, rfl⟩ := layoutFrom_cons.1 h
    rw [bounds_cons]
    intro k j hj
    cases k with
    | zero =>
      cases hj
      exact ⟨_, _, rfl, bounds_zero htail, stands_of_write hhead⟩
    | succ k =>
      rw [← List.length_append] at htail ⊢
      obtain ⟨a, b, ha, hb, hstands⟩ := ih _ htail k j hj
      rw [List.append_assoc] at hstands
      exact ⟨a, b, ha, hb, hstands⟩

/-- Written code is foretold. -/
theorem addresses_of_layoutFrom (h : layoutFrom W 0 code = .ok pieces) :
    code.addresses = .ok (pieces.map (·.1)) := by
  have hlength : (pieces.map (·.1)).length = code.length := by
    rw [List.length_map, length_layoutFrom h]
  rw [addresses, addressesFrom_of_arrangeFrom (arrangeFrom_of_layoutFrom h),
    List.map_fst_zip (Nat.le_of_eq hlength)]

/-! ## Reading back -/

theorem decode_of_scan {origin : Int} {placed : List (Nat × Instruction)} {t : Input}
    (hscan : scan R origin d.length d.length (.ofBytes d) = .ok (placed, t))
    (htargets : TargetsWithin d.length (placed.map (·.2))) :
    decode R origin d = .ok (placed.map (·.2)) := by
  have hscan' : scan R origin d.length d.length ⟨d, 0, [], []⟩ = .ok (placed, t) := hscan
  have hcheck : checkTargets (some origin) d.length placed = .ok () :=
    checkTargets_eq_ok.2 htargets
  simp only [decode, Reader.result, read, Input.ofBytes, hscan', hcheck, Except.map]

/-- Where nothing is known that was not known before, instructions are found at the places where
they were written. -/
theorem scan_encode {origin : Int} (hR : R.Within W) (h : layoutFrom W 0 code = .ok pieces)
    (hd : pieces.flatMap (·.2) = d) (htargets : code.TargetsWithin d.length) :
    ∃ placed t, scan R origin d.length d.length (.ofBytes d) = .ok (placed, t) ∧
      placed.map (·.1) = pieces.map (·.1) ∧ decode R origin d = .ok (placed.map (·.2)) := by
  obtain ⟨t, hscan, -⟩ : ∃ t, scan R origin d.length d.length (.ofBytes d) =
      .ok ((pieces.map (·.1)).zip code.wrapped.normal, t) ∧ _ ∧ _ :=
    scan_layoutFrom hR (.refl R W) code.kept_wrapped (layoutFrom_wrapped h) hd.symm rfl
      Input.admitted_ofBytes (Nat.le_refl _)
  have hlength : code.wrapped.normal.length = (pieces.map (·.1)).length := by
    rw [normal, wrapped, List.length_map, List.length_map, List.length_map, length_layoutFrom h]
  have hplaced : ((pieces.map (·.1)).zip code.wrapped.normal).map (·.2) = code.wrapped.normal :=
    List.map_snd_zip (Nat.le_of_eq hlength)
  refine ⟨_, t, hscan, List.map_fst_zip (Nat.le_of_eq hlength.symm), decode_of_scan hscan ?_⟩
  rw [hplaced]
  exact targetsWithin_normal (targetsWithin_wrapped htargets)

/-! ## Main result -/

/-- The addresses that are foretold for code that can be written start at 0, cut the bytes that are
written for it into its instructions, and are where instructions are found in these bytes, as long
as no more is known of the tables than was known at first. -/
theorem addresses_encode (h : code.encode W = .ok d) :
    ∃ addresses, code.addresses = .ok addresses ∧ addresses.length = code.length ∧
      (addresses ++ [d.length])[0]? = some 0 ∧
      (∀ (k : Nat) i, code[k]? = some i → ∃ a b, (addresses ++ [d.length])[k]? = some a ∧
        (addresses ++ [d.length])[k + 1]? = some b ∧ Stands W d i a b) ∧
      ∀ (R : Scope) (origin : Int), R.Within W →
        ∃ placed t, scan R origin d.length d.length (.ofBytes d) = .ok (placed, t) ∧
          placed.map (·.1) = addresses ∧ decode R origin d = .ok (placed.map (·.2)) := by
  obtain ⟨pieces, hpieces, hd, htargets⟩ := encode_eq_ok.1 h
  have hbounds : pieces.map (·.1) ++ [d.length] = bounds 0 pieces := by
    rw [bounds, hd, Nat.zero_add]
  have hstands := stands_of_layoutFrom [] hpieces
  rw [List.nil_append, hd, List.length_nil] at hstands
  refine ⟨pieces.map (·.1), addresses_of_layoutFrom hpieces, ?_, ?_, ?_, ?_⟩
  · rw [List.length_map, length_layoutFrom hpieces]
  · rw [hbounds]
    exact bounds_zero hpieces
  · rw [hbounds]
    exact hstands
  · exact fun R origin hR => scan_encode hR hpieces hd htargets

/-- A number of two bytes, a switch without cases, a reference of which bits are lost and a branch
back to the start, read where no table is known. -/
theorem addresses_encode_switch :
    let scope := Scope.unknown.set .ints (.entries 3)
    let reference : Instruction := ⟨.pushstring, ((⟨-1⟩ : Index .strings), ())⟩
    let code : Code := [⟨.getlocal, ((300 : Int), ())⟩, ⟨.lookupswitch, ⟨3, []⟩⟩, reference,
      ⟨.jump, (0 : Int)⟩]
    let d : Bytes := [0x62, 0xAC, 0x02, 0x1B, 0, 0, 0, 0, 0, 0, 0, 0x2C, 0xFF, 0xFF, 0xFF, 0xFF,
      0x0F, 0x10, 0xEB, 0xFF, 0xFF]
    code.encode scope = .ok d ∧ code.addresses = .ok [0, 3, 11, 17] ∧
      Stands scope d reference 11 17 ∧
      ∃ placed t, scan .unknown 40 21 21 (.ofBytes d) = .ok (placed, t) ∧
        placed.map (·.1) = [0, 3, 11, 17] := by
  intro scope reference code d
  have hencode : code.encode scope = .ok d := Outcome.toOption_eq_some.1 (by decide +kernel)
  have hforetold : code.addresses = .ok [0, 3, 11, 17] :=
    Outcome.toOption_eq_some.1 (by decide +kernel)
  obtain ⟨addresses, haddresses, -, -, hstands, hback⟩ := addresses_encode hencode
  obtain rfl : [0, 3, 11, 17] = addresses := Except.ok.inj (hforetold.symm.trans haddresses)
  obtain ⟨a, b, ha, hb, hplace⟩ := hstands 2 reference rfl
  cases ha
  cases hb
  obtain ⟨placed, t, hscan, hstarts, -⟩ := hback .unknown 40 (.unknown scope)
  exact ⟨hencode, hforetold, hplace, placed, t, hscan, hstarts⟩

end Code

end ActionCode
