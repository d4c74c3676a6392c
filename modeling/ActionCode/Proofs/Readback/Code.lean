import ActionCode.Proofs.Placement
import ActionCode.Proofs.Readback.Records

/-!
# Code is read back

Instructions are read back at the addresses at which they were written, so that distances
become the same targets again. A body reads its code last, when its handlers are known.
-/

namespace ActionCode

open Reader (Reads)

variable {R W A : Scope} {offset : Nat} {run : Bytes}

/-! ## Operands -/

/-- The tables that a list of operands refers to. -/
def Operands.tables : List (String × Operand) → List Table
  | [] => []
  | (_, .entry t) :: rest => t :: Operands.tables rest
  | (_, .byte) :: rest | (_, .number) :: rest => Operands.tables rest

def Layout.tables : Layout → List Table
  | .fixed os => Operands.tables os
  | .branch | .switch => []

/-- A reference that loses no bits when it is written, either because its table is known or
because 32 bits hold it. -/
def Operand.Kept (W : Scope) : (o : Operand) → o.Value → Prop
  | .byte, _ | .number, _ => True
  | .entry t, index => W.Knows t ∨ Varint.wrap index.val = index.val

def Operands.Kept (W : Scope) : (os : List (String × Operand)) → Operands os → Prop
  | [], _ => True
  | (_, o) :: rest, (value, values) => o.Kept W value ∧ Operands.Kept W rest values

def Layout.Kept (W : Scope) : (l : Layout) → l.Args → Prop
  | .fixed os, args => Operands.Kept W os args
  | .branch, _ | .switch, _ => True

def Instruction.Kept (W : Scope) (i : Instruction) : Prop := i.op.layout.Kept W i.args

theorem Operand.reads_read {o : Operand} {value : o.Value} (hR : R.Within W)
    (hA : R.LeavesTo W A) (hkept : o.Kept W value) (h : o.write W value = .ok run) :
    Reads A offset (o.read R) run (o.normal value) := by
  cases o with
  | byte =>
    obtain ⟨b, rfl, rfl⟩ := Varint.writeByte_eq_ok.1 h
    exact (Reads.byte b).ret _
  | number => exact .number h
  | entry t =>
    have hwrap : Varint.wrap value.val = value.val := by
      rcases hkept with hknows | hwrap
      · exact Scope.wrap_of_writeIndex hknows h
      · exact hwrap
    have hread : Reads A offset (R.readIndex t) run _ := .wrapped hR hA h
    rwa [hwrap] at hread

theorem Operands.reads_read {os : List (String × Operand)} {args : Operands os}
    (hR : R.Within W) (hA : R.LeavesTo W A) (hkept : Operands.Kept W os args)
    (h : Operands.write W os args = .ok run) :
    Reads A offset (Operands.read R os) run (Operands.normal os args) := by
  induction os generalizing offset run with
  | nil =>
    simp only [Operands.write, Except.ok.injEq] at h
    exact h ▸ .pure _
  | cons p os ih =>
    obtain ⟨value, values⟩ := args
    simp only [Operands.write, Outcome.bind_eq_ok, Outcome.pure_eq_ok] at h
    obtain ⟨head, hhead, tail, htail, rfl⟩ := h
    exact (Operand.reads_read hR hA hkept.1 hhead).bind ((ih hkept.2 htail).ret _)

/-! ## Branches -/

theorem reads_readTarget {base : Nat} {target : Int} (h : writeTarget base target = .ok run) :
    Reads W offset (readTarget base) run target := by
  have hread : Reads W offset (readTarget base) run _ := (Reads.s24 (writeTarget_eq_ok.1 h)).ret _
  have hsum : base + (target - base) = target := by omega
  rwa [hsum] at hread

/-- A branch stands behind its opcode and is relative to its own end. -/
theorem reads_readBranch {address : Nat} {target : Int}
    (h : writeTarget (address + 4) target = .ok run) :
    Reads W (address + 1) readBranch run target := by
  have hlength := length_writeTarget h
  refine (Reads.s24 (writeTarget_eq_ok.1 h)).bind_nil (.offset_bind ?_)
  have hsum : target - (address + 4) + ((address + 1 + run.length : Nat) : Int) = target := by
    omega
  rw [hsum]
  exact .pure _

theorem Switch.reads_read {address : Nat} {s : Switch} (h : s.write address = .ok run) :
    Reads W offset (read address) run s.normal := by
  simp only [write, Outcome.bind_eq_ok, Outcome.pure_eq_ok] at h
  obtain ⟨default, hdefault, last, hlast, cases, hcases, rfl⟩ := h
  have hpos : 0 < s.writtenCases.length := List.length_pos_iff.2 s.writtenCases_ne_nil
  have hcount : (Varint.wrap (s.writtenCases.length - 1)).toNat + 1 = s.writtenCases.length := by
    obtain ⟨hrange, -⟩ := Varint.writeU30_eq_ok.1 hlast
    rw [Varint.wrap_of_lt (by omega) (by omega)]
    omega
  have hread : Reads W (offset + default.length + last.length)
      (Reader.replicate (readTarget address) s.writtenCases.length) cases _ :=
    .replicate id (fun _ _ _ _ => reads_readTarget) hcases
  rw [List.map_id] at hread
  simp only [List.append_assoc]
  refine (reads_readTarget hdefault).bind ((Reads.u30 hlast).bind ?_)
  rw [hcount]
  exact hread.ret _

/-! ## Instructions -/

theorem Layout.reads_read {address : Nat} {l : Layout} {args : l.Args} (hR : R.Within W)
    (hA : R.LeavesTo W A) (hkept : l.Kept W args) (h : l.write W address args = .ok run) :
    Reads A (address + 1) (l.read R address) run (l.normal args) := by
  cases l with
  | fixed os => exact Operands.reads_read hR hA hkept h
  | branch => exact reads_readBranch h
  | switch => exact Switch.reads_read h

theorem Instruction.reads_read {address : Nat} {i : Instruction} (hR : R.Within W)
    (hA : R.LeavesTo W A) (hkept : i.Kept W) (h : i.write W address = .ok run) :
    Reads A address (read R) run i.normal := by
  simp only [write, Outcome.bind_eq_ok, Outcome.pure_eq_ok] at h
  obtain ⟨args, hargs, rfl⟩ := h
  refine .offset_bind ((Reads.byte _).bind ?_)
  rw [Opcode.ofCode?_code]
  exact (Layout.reads_read hR hA hkept hargs).ret _

/-- The case that stands in for none is the default. -/
theorem Instruction.mem_targets_normal {i : Instruction} {target : Int} :
    target ∈ i.normal.targets ↔ target ∈ i.targets := by
  obtain ⟨op, args⟩ := i
  simp only [normal, targets]
  generalize op.layout = l at args
  cases l with
  | fixed os => rfl
  | branch => rfl
  | switch =>
    simp only [Layout.normal, targets.go, Switch.normal]
    exact Switch.mem_writtenCases

/-! ## Lists of instructions -/

namespace Code

variable {address : Nat} {code : Code} {pieces : List (Nat × Bytes)}

/-- Placed pieces are scanned back one by one, each at its address. -/
theorem scan_layoutFrom {origin : Int} {size limit : Nat} {s : Input} (hR : R.Within W)
    (hA : R.LeavesTo W A) (hkept : ∀ i ∈ code, i.Kept W)
    (h : layoutFrom W address code = .ok pieces) (hrest : s.rest = pieces.flatMap (·.2))
    (hoffset : s.offset = address) (hs : s.Admitted A) (hlimit : s.rest.length ≤ limit) :
    ∃ t, scan R origin size limit s = .ok ((pieces.map (·.1)).zip code.normal, t) ∧
      t.Admitted A ∧ (s.Spelled Spelling.Canonical → t.Spelled Spelling.Canonical) := by
  induction limit generalizing s address code pieces with
  | zero =>
    have hcode := length_le_layoutFrom h
    rw [← hrest] at hcode
    obtain rfl := List.length_eq_zero_iff.1 (by omega : code.length = 0)
    obtain rfl := layoutFrom_nil.1 h
    exact ⟨s, rfl, hs, id⟩
  | succ limit ih =>
    cases code with
    | nil =>
      obtain rfl := layoutFrom_nil.1 h
      simp only [scan, hrest, List.flatMap_nil, List.isEmpty_nil, if_true]
      exact ⟨s, rfl, hs, id⟩
    | cons i code =>
      obtain ⟨head, hhead, tail, htail, rfl⟩ := layoutFrom_cons.1 h
      have hrest : s.rest = head ++ tail.flatMap (·.2) := hrest
      obtain ⟨t, hx, htrest, htoffset, ht, hcanon⟩ :=
        Instruction.reads_read hR hA (hkept i List.mem_cons_self) hhead s _ hrest hoffset hs
      have hpos : 0 < head.length := by
        simp only [Instruction.write, Outcome.bind_eq_ok, Outcome.pure_eq_ok] at hhead
        obtain ⟨args, -, rfl⟩ := hhead
        simp
      have hlength : s.rest.length = head.length + t.rest.length := by
        rw [hrest, htrest, List.length_append]
      have hnonempty : s.rest.isEmpty = false := by
        rw [List.isEmpty_eq_false_iff, ← List.length_pos_iff]
        omega
      obtain ⟨u, hy, hu, hcanon'⟩ := ih (fun j hj => hkept j (List.mem_cons_of_mem _ hj)) htail
        htrest htoffset ht (by omega)
      refine ⟨u, ?_, hu, hcanon' ∘ hcanon⟩
      simp only [scan, hnonempty, Bool.false_eq_true, if_false, hx, hy, hoffset]
      rfl

theorem targetsWithin_normal {size : Nat} (h : code.TargetsWithin size) :
    code.normal.TargetsWithin size := by
  intro i hi target htarget
  obtain ⟨j, hj, rfl⟩ := List.mem_map.1 hi
  exact h j hj target (Instruction.mem_targets_normal.1 htarget)

/-- Code leaves the input around it as it is. -/
theorem reads_read {origin : Int} {data : Bytes} (hR : R.Within W) (hA : R.LeavesTo W A)
    (hkept : ∀ i ∈ code, i.Kept W) (h : code.encode W = .ok data) :
    Reads A offset (read R origin data) [] code.normal := by
  intro s rest hrest hoffset hs
  obtain ⟨pieces, hpieces, rfl, htargets⟩ := encode_eq_ok.1 h
  generalize hdata : pieces.flatMap (·.2) = data at htargets
  obtain ⟨t, hscan, ht, hcanon⟩ : ∃ t, scan R origin data.length data.length
      ⟨data, 0, s.deferred, []⟩ = .ok ((pieces.map (·.1)).zip code.normal, t) ∧ _ ∧ _ :=
    scan_layoutFrom hR hA hkept hpieces hdata.symm rfl hs (Nat.le_refl _)
  have hplaced : ((pieces.map (·.1)).zip code.normal).map (·.2) = code.normal := by
    refine List.map_snd_zip (Nat.le_of_eq ?_)
    rw [normal, List.length_map, List.length_map, length_layoutFrom hpieces]
  have hcheck : checkTargets (some origin) data.length
      ((pieces.map (·.1)).zip code.normal) = .ok () := by
    rw [checkTargets_eq_ok, hplaced]
    exact targetsWithin_normal htargets
  refine ⟨{ s with
    deferred := t.deferred
    spellings := t.spellings.map Spelling.inCode ++ s.spellings }, ?_, hrest, hoffset, ht, ?_⟩
  · simp only [read, hscan, hcheck, hplaced]
  · intro hs sp hsp
    rcases List.mem_append.1 hsp with hsp | hsp
    · obtain ⟨sp', hsp', rfl⟩ := List.mem_map.1 hsp
      exact Spelling.canonical_inCode.2 (hcanon (by simp [Input.Spelled]) sp' hsp')
    · exact hs sp hsp

end Code

/-! ## Handlers -/

namespace Handler

theorem reads_readVariable {varName : Index .multinames} (hR : R.Within W)
    (hW : W.KnowsAll Table.shared) (hversion : R.version = W.version)
    (h : writeVariable W varName = .ok run) :
    Reads W offset (readVariable R) run
      (if W.version.namesHandlerVariables then varName else 0) := by
  unfold writeVariable at h
  unfold readVariable
  rw [hversion]
  split at h
  · rename_i hnames
    rw [if_pos hnames, if_pos hnames]
    exact .index hR (hW _ (by decide)) h
  · rename_i hnames
    obtain rfl := Outcome.pure_eq_ok.1 h
    rw [if_neg hnames, if_neg hnames]
    exact .pure 0

/-- Positions in code of less than 32 bits do not change. -/
theorem reads_readWithin {size : Nat} {h : Handler} (hR : R.Within W)
    (hW : W.KnowsAll Table.shared) (hversion : R.version = W.version)
    (hoffsets : h.OffsetsWithin size) (hwrite : h.write W = .ok run) :
    Reads W offset (readWithin R size) run (h.normal W.version) := by
  simp only [write, Outcome.bind_eq_ok, Outcome.pure_eq_ok] at hwrite
  obtain ⟨start, hstart, stop, hstop, target, htarget, type, htype, varName, hvarName,
    rfl⟩ := hwrite
  have hfield {value : Int} {written : Bytes} {offset : Nat} (hvalue : 0 ≤ value ∧ value ≤ size)
      (hwritten : Varint.writeU30 value = .ok written) :
      Reads W offset Reader.u30 written value.toNat := by
    obtain ⟨hrange, -⟩ := Varint.writeU30_eq_ok.1 hwritten
    have hread : Reads W offset Reader.u30 written _ := .u30 hwritten
    rwa [Varint.wrap_of_lt hvalue.1 (by omega)] at hread
  have hstart' := hoffsets ("from_offset", h.start) (by simp [offsets])
  have hstop' := hoffsets ("to_offset", h.stop) (by simp [offsets])
  have htarget' := hoffsets ("target_offset", h.target) (by simp [offsets])
  have hnormal : h.normal W.version = { h with
      varName := if W.version.namesHandlerVariables then h.varName else 0 } := by
    unfold normal
    split
    · rfl
    · rfl
  have hread : Reads W offset (read R) (start ++ (stop ++ (target ++ (type ++ varName))))
      (h.normal W.version) := by
    refine (hfield hstart' hstart).bind ((hfield hstop' hstop).bind ?_)
    apply (hfield htarget' htarget).bind
    apply (Reads.index hR (hW _ (by decide)) htype).bind
    apply (reads_readVariable hR hW hversion hvarName).bind_nil
    rw [Int.toNat_of_nonneg hstart'.1, Int.toNat_of_nonneg hstop'.1,
      Int.toNat_of_nonneg htarget'.1, hnormal]
    exact .pure _
  have hcheck : (h.normal W.version).checkOffsets size = .ok () := by
    rw [checkOffsets_eq_ok, hnormal]
    exact hoffsets
  simp only [List.append_assoc]
  exact hread.bind_nil ((Reads.lift hcheck).ret _)

end Handler

/-! ## Bodies -/

namespace Opcode

theorem tables_shared (op : Opcode) :
    ∀ t ∈ op.layout.tables, t ∈ Table.handlers :: Table.shared := by
  have every : ∀ op ∈ all, ∀ t ∈ op.layout.tables, t ∈ Table.handlers :: Table.shared := by
    decide +kernel
  exact every op op.mem_all

end Opcode

theorem Operands.kept_of_knows {os : List (String × Operand)} (args : Operands os)
    (h : ∀ t ∈ Operands.tables os, W.Knows t) : Operands.Kept W os args := by
  induction os with
  | nil => trivial
  | cons p os ih =>
    obtain ⟨name, o⟩ := p
    obtain ⟨value, values⟩ := args
    cases o with
    | byte => exact ⟨trivial, ih values h⟩
    | number => exact ⟨trivial, ih values h⟩
    | entry t =>
      exact ⟨.inl (h t List.mem_cons_self), ih values fun u hu => h u (List.mem_cons_of_mem _ hu)⟩

theorem Instruction.kept_of_knows (i : Instruction)
    (hW : W.KnowsAll (Table.handlers :: Table.shared)) : i.Kept W := by
  have htables := i.op.tables_shared
  unfold Kept
  generalize i.args = args at *
  generalize i.op.layout = l at *
  cases l with
  | fixed os => exact Operands.kept_of_knows args fun t ht => hW t (htables t ht)
  | branch => trivial
  | switch => trivial

namespace Body

theorem reads_read {b : Body} (hR : R.Within W) (hW : W.KnowsAll Table.shared)
    (hversion : R.version = W.version) (h : b.write W = .ok run) :
    Reads W offset (read R) run (b.normal W.version) := by
  simp only [write, Outcome.bind_eq_ok] at h
  obtain ⟨code, hcode, h⟩ := h
  split at h
  · simp at h
  · rename_i hcheck
    simp only [Outcome.bind_eq_ok, Outcome.pure_eq_ok] at h
    obtain ⟨method, hmethod, maxStack, hmaxStack, localCount, hlocalCount, initScopeDepth,
      hinitScopeDepth, maxScopeDepth, hmaxScopeDepth, size, hsize, handlers, hhandlers,
      traits, htraits, rfl⟩ := h
    simp only [writeCounted, Outcome.bind_eq_ok, Outcome.pure_eq_ok] at hhandlers
    obtain ⟨number, hnumber, each, heach, rfl⟩ := hhandlers
    have hoffsets := Handler.checkAll_eq_ok.1 hcheck
    have hreadHandlers {offset : Nat} : Reads W offset
        (Reader.records .handlers "exception" (Handler.readWithin R code.length) 0
          b.handlers.length) each (b.handlers.map (Handler.normal W.version)) :=
      .records _ (fun x hx _ _ => Handler.reads_readWithin hR hW hversion (hoffsets x hx)) heach
    simp only [List.append_assoc]
    apply (Reads.index hR (hW _ (by decide)) hmethod).bind
    refine (Reads.u30 hmaxStack).bind ((Reads.u30 hlocalCount).bind ?_)
    refine (Reads.u30 hinitScopeDepth).bind ((Reads.u30 hmaxScopeDepth).bind ?_)
    refine (Reads.count hsize).bind (.offset_bind ((Reads.bytes rfl).bind ?_))
    refine (Reads.count hnumber).bind (hreadHandlers.bind ?_)
    apply (Trait.reads_readAll hR hW htraits).bind_nil
    have hscope : codeScope R (b.handlers.map (Handler.normal W.version)) =
        codeScope R b.handlers := by
      unfold codeScope
      rw [List.length_map]
    rw [hscope]
    have hkept : ∀ i ∈ b.code, i.Kept (codeScope W b.handlers) :=
      fun i _ => i.kept_of_knows hW.set
    simp only [Varint.natCast_toNat_wrap]
    exact (Code.reads_read hR.set_set (.set R W) hkept hcode).ret _

end Body

end ActionCode
