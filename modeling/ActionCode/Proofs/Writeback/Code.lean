import ActionCode.Proofs.Readback.Code
import ActionCode.Proofs.Writeback.Records

/-!
# Code is written back

An instruction that was read can be written at the address where it was read. Operands that
were padded move everything behind them, so code can only be written at the same addresses
if none was.
-/

namespace ActionCode

open Reader (Yields)

variable {C : Spelling → Prop} {R W A : Scope} {later tables : List Table} {s t : Input}

/-! ## Operands -/

theorem Operand.yields_read {o : Operand} (h : R.Mirrors W A later tables)
    (ho : ∀ t, o = .entry t → t ∈ tables) :
    Yields C A later (o.read R) fun value run =>
      o.write W value = .ok run ∧ o.normal value = value ∧ o.Kept W value := by
  cases o with
  | byte =>
    apply (Yields.byte.ret fun b => Int.ofNat b.toNat).imp
    intro _ _ hpost
    rcases hpost with ⟨b, rfl, rfl⟩
    exact ⟨Varint.writeByte_eq_ok.2 ⟨b, rfl, rfl⟩, rfl, trivial⟩
  | number => exact Yields.number.imp fun _ _ hv => ⟨hv.1, hv.2, trivial⟩
  | entry t =>
    apply (Yields.index h (ho t rfl)).imp
    intro i run hpost
    rcases hpost with ⟨hi, hwrap⟩
    exact ⟨hi, rfl, .inr hwrap⟩

theorem Operands.yields_read {os : List (String × Operand)} (h : R.Mirrors W A later tables)
    (hos : Operands.tables os ⊆ tables) :
    Yields C A later (Operands.read R os) fun args run =>
      Operands.write W os args = .ok run ∧ Operands.normal os args = args ∧
        Operands.Kept W os args := by
  induction os with
  | nil =>
    apply (Yields.pure ()).imp
    intro _ _ hpost
    rcases hpost with ⟨rfl, rfl⟩
    exact ⟨rfl, rfl, trivial⟩
  | cons p os ih =>
    obtain ⟨name, o⟩ := p
    have ho : ∀ t, o = .entry t → t ∈ tables := by
      rintro t rfl
      exact hos List.mem_cons_self
    have hrest : Operands.tables os ⊆ tables := by
      cases o with
      | byte => exact hos
      | number => exact hos
      | entry t => exact fun u hu => hos (List.mem_cons_of_mem _ hu)
    refine ((Operand.yields_read h ho).bind fun value =>
      (ih hrest).ret fun values => ((value, values) : Operands ((name, o) :: os))).imp ?_
    intro _ _ hpost
    rcases hpost with ⟨value, a, ⟨ha, hnormal, hkept⟩, b, ⟨values, ⟨hb, hnormal', hkept'⟩, rfl⟩,
        rfl⟩
    simp only [Operands.write, Outcome.bind_eq_ok, Outcome.pure_eq_ok]
    refine ⟨⟨a, ha, b, hb, rfl⟩, ?_, hkept, hkept'⟩
    rw [Operands.normal, hnormal, hnormal']

/-! ## Branches -/

theorem yields_readTarget (base : Nat) :
    Yields C A later (readTarget base) fun target run => writeTarget base target = .ok run := by
  apply (Yields.s24.ret fun distance => base + distance).imp
  intro _ run hpost
  rcases hpost with ⟨distance, hrun, rfl⟩
  have hsum : base + distance - base = distance := by omega
  rw [writeTarget_eq_ok, hsum]
  exact hrun

/-- A branch target is counted from where the input is left. -/
theorem spans_readBranch {address : Nat} {target : Int} (h : readBranch s = .ok (target, t))
    (hs : s.offset = address + 1) :
    s.Spans C A later t fun run => writeTarget (address + 4) target = .ok run := by
  obtain ⟨distance, t, hdistance, h⟩ := Reader.bind_eq_ok.1 h
  obtain ⟨_, _, ⟨⟩, ⟨⟩⟩ := Reader.bind_eq_ok.1 h
  have hoffset : t.offset = s.offset + 3 := by
    obtain ⟨run, _, hrun, ⟨⟩⟩ := Reader.bind_eq_ok.1 hdistance
    obtain ⟨-, -, ht⟩ := Yields.bytes_eq_ok hrun
    rw [ht]
  have hsum : distance + t.offset - (address + 4) = distance := by omega
  refine (Yields.s24 s distance t hdistance).imp fun run hrun => ?_
  rw [writeTarget_eq_ok, hsum]
  exact hrun

theorem Switch.yields_read (address : Nat) :
    Yields C A later (read address) fun s run => s.write address = .ok run ∧ s.normal = s := by
  have hcase : Yields C A later (readTarget address) fun target run =>
      writeTarget address target = .ok run ∧ True :=
    (yields_readTarget address).imp fun _ _ hrun => ⟨hrun, trivial⟩
  refine (hcase.bind fun default => Yields.u30.bind fun last =>
    (hcase.replicate (last + 1)).ret fun cases => Switch.mk default cases).imp ?_
  intro _ _ hpost
  rcases hpost with ⟨default, a, ⟨ha, -⟩, _, ⟨last, b, ⟨hb, -⟩, c, ⟨cases, ⟨hlength, hc, -⟩, rfl⟩,
      rfl⟩, rfl⟩
  have hcases : writtenCases ⟨default, cases⟩ = cases := by
    unfold writtenCases
    split
    · rename_i hempty
      have hnil : cases = [] := List.isEmpty_iff.1 hempty
      rw [hnil] at hlength
      cases hlength
    · rfl
  have hlast : ((cases.length : Int) - 1) = last := by omega
  simp only [write, Outcome.bind_eq_ok, Outcome.pure_eq_ok, normal, hcases, hlast]
  exact ⟨⟨a, ha, b, hb, c, hc, by simp only [List.append_assoc]⟩, trivial⟩

/-! ## Instructions -/

theorem Layout.spans_read {address : Nat} {l : Layout} {args : l.Args}
    (hR : R.Mirrors W A later tables) (hl : l.tables ⊆ tables)
    (h : l.read R address s = .ok (args, t)) (hs : s.offset = address + 1) :
    s.Spans C A later t fun run =>
      l.write W address args = .ok run ∧ l.normal args = args ∧ l.Kept W args := by
  cases l with
  | fixed os => exact Operands.yields_read hR hl s args t h
  | branch => exact (spans_readBranch h hs).imp fun run hrun => ⟨hrun, rfl, trivial⟩
  | switch =>
    exact (Switch.yields_read address s args t h).imp fun run hrun => ⟨hrun.1, hrun.2, trivial⟩

namespace Instruction

theorem read_eq_ok {i : Instruction} (h : read R s = .ok (i, t)) : ∃ u,
    s.rest = i.op.code :: u.rest ∧ u = { s with rest := u.rest, offset := s.offset + 1 } ∧
      i.op.layout.read R s.offset u = .ok (i.args, t) := by
  obtain ⟨_, _, ⟨⟩, h⟩ := Reader.bind_eq_ok.1 h
  obtain ⟨code, u, hcode, h⟩ := Reader.bind_eq_ok.1 h
  obtain ⟨hrest, hu⟩ := Yields.next_eq_ok hcode
  cases hop : Opcode.ofCode? code with
  | none =>
    simp only [hop] at h
    cases h
  | some op =>
    simp only [hop] at h
    obtain ⟨args, t', hargs, ⟨⟩⟩ := Reader.bind_eq_ok.1 h
    rw [← Opcode.code_of_ofCode? hop] at hrest
    exact ⟨u, hrest, hu, hargs⟩

theorem spans_read {i : Instruction} (hR : R.Mirrors W A later tables)
    (htables : i.op.layout.tables ⊆ tables) (h : read R s = .ok (i, t)) :
    s.Spans C A later t fun run =>
      i.write W s.offset = .ok run ∧ i.normal = i ∧ i.Kept W := by
  obtain ⟨u, hrest, hu, hargs⟩ := read_eq_ok h
  have hopcode : s.Spans C A later u fun run => [i.op.code] = run := by
    rw [hu]
    exact .of_same rfl hrest rfl rfl rfl
  have hlayout := Layout.spans_read (C := C) hR htables hargs (by rw [hu])
  apply (hopcode.trans hlayout).imp
  intro _ hpost
  rcases hpost with ⟨_, rfl, b, ⟨hb, hnormal, hkept⟩, rfl⟩
  simp only [write, Outcome.bind_eq_ok, Outcome.pure_eq_ok]
  refine ⟨⟨b, hb, rfl⟩, ?_, hkept⟩
  rw [normal, hnormal]

theorem length_rest_lt {i : Instruction} (hR : R.Mirrors W A later tables)
    (htables : i.op.layout.tables ⊆ tables) (h : read R s = .ok (i, t)) :
    t.rest.length < s.rest.length := by
  obtain ⟨u, hrest, hu, hargs⟩ := read_eq_ok h
  obtain ⟨used, hused, -⟩ :=
    (Layout.spans_read (C := Spelling.Compact) hR htables hargs (by rw [hu])).leaves
  rw [hrest, hused, List.length_cons, List.length_append]
  omega

end Instruction

/-! ## Lists of instructions -/

namespace Code

variable {origin : Int} {size limit : Nat} {placed : List (Nat × Instruction)}

/-- All of the code is scanned, and every instruction can be written where it was read. Without
padding, they can be laid out again as they were. -/
theorem scan_spans (hR : R.Mirrors W A later tables)
    (htables : ∀ op : Opcode, op.layout.tables ⊆ tables)
    (h : scan R origin size limit s = .ok (placed, t)) (hlimit : s.rest.length ≤ limit) :
    t.rest = [] ∧ s.Spans C A later t fun run =>
      (∀ p ∈ placed, p.2.normal = p.2 ∧ p.2.Kept W ∧ ∃ bytes, p.2.write W p.1 = .ok bytes) ∧
      (t.Spelled Spelling.Unpadded → ∃ pieces,
        layoutFrom W s.offset (placed.map (·.2)) = .ok pieces ∧
          pieces.map (·.1) = placed.map (·.1) ∧ pieces.flatMap (·.2) = run) := by
  induction limit generalizing s placed with
  | zero =>
    obtain ⟨⟩ := h
    have hnil := List.length_eq_zero_iff.1 (Nat.le_zero.1 hlimit)
    refine ⟨hnil, .of_same ⟨by simp, fun _ => ⟨[], rfl, rfl, rfl⟩⟩ rfl rfl rfl rfl⟩
  | succ limit ih =>
    simp only [scan] at h
    split at h
    · rename_i hempty
      obtain ⟨⟩ := h
      have hnil := List.isEmpty_iff.1 hempty
      exact ⟨hnil, .of_same ⟨by simp, fun _ => ⟨[], rfl, rfl, rfl⟩⟩ rfl rfl rfl rfl⟩
    · split at h
      · cases h
      · rename_i i u hi
        split at h
        · cases h
        · rename_i rest t' hrest
          obtain ⟨⟩ := h
          have hinstruction := (Instruction.spans_read (C := C) hR (htables i.op) hi).located
          have hshort := Instruction.length_rest_lt hR (htables i.op) hi
          obtain ⟨hnil, hspans⟩ := ih hrest (by omega)
          refine ⟨hnil, (hinstruction.trans hspans).imp ?_⟩
          intro _ hpost
          rcases hpost with ⟨a, ⟨⟨ha, hnormal, hkept⟩, hoffset⟩, b, ⟨hall, hlayout⟩, rfl⟩
          refine ⟨?_, fun hunpadded => ?_⟩
          · rw [List.forall_mem_cons]
            exact ⟨⟨hnormal, hkept, a, ha⟩, hall⟩
          · obtain ⟨pieces, hpieces, haddresses, rfl⟩ := hlayout hunpadded
            rw [hoffset (hunpadded.mono hspans.noted)] at hpieces
            refine ⟨(s.offset, a) :: pieces, ?_, ?_, rfl⟩
            · rw [List.map_cons, layoutFrom_cons]
              exact ⟨a, ha, pieces, hpieces, rfl⟩
            · rw [List.map_cons, List.map_cons, haddresses]

theorem read_eq_ok {data : Bytes} {code : Code} (h : read R origin data s = .ok (code, t)) :
    ∃ placed u, scan R origin data.length data.length ⟨data, 0, s.deferred, []⟩ = .ok (placed, u) ∧
      code = placed.map (·.2) ∧ code.TargetsWithin data.length ∧ t = { s with
        deferred := u.deferred
        spellings := u.spellings.map Spelling.inCode ++ s.spellings } := by
  unfold read at h
  split at h
  · cases h
  · rename_i placed u hscan
    split at h
    · cases h
    · rename_i hcheck
      obtain ⟨⟩ := h
      exact ⟨placed, u, hscan, rfl, checkTargets_eq_ok.1 hcheck, rfl⟩

/-- The data of code stands apart: nothing is taken from the input around it. -/
theorem spans_of_scan {F : Spelling → Prop} {P : Bytes → Prop} {data : Bytes} {u : Input}
    (hspans : Input.Spans F A later ⟨data, 0, s.deferred, []⟩ u P)
    (ht : t = { s with
      deferred := u.deferred
      spellings := u.spellings.map Spelling.inCode ++ s.spellings })
    (hF : ∀ sp : Spelling, C sp.inCode → F sp) :
    s.Spans C A later t fun run => [] = run ∧ u.Spelled F ∧
      ∃ bytes, P bytes ∧ Input.Rewrites ⟨data, 0, s.deferred, []⟩ bytes u := by
  have hdeferred : t.deferred = u.deferred := by rw [ht]
  have hspelled : t.spellings = u.spellings.map Spelling.inCode ++ s.spellings := by rw [ht]
  have hsuffix : s.spellings <:+ t.spellings := by
    rw [hspelled]
    exact List.suffix_append _ _
  have hsound (ht : t.Sound C A) : u.Sound F A := by
    refine ⟨fun p hp => ht.admitted p (hdeferred ▸ hp), fun sp hsp => hF sp (ht.spelled _ ?_)⟩
    rw [hspelled]
    exact List.mem_append_left _ (List.mem_map_of_mem hsp)
  exact {
    leaves := by
      rw [ht]
      exact .refl _
    noted := hsuffix
    kept := fun p hp => hspans.kept p (hdeferred ▸ hp)
    sound := fun ht => ⟨(hspans.sound (hsound ht)).admitted, ht.spelled.mono hsuffix⟩
    written := fun ht' => by
      obtain ⟨bytes, hP, hwritten⟩ := hspans.written (hsound ht')
      refine ⟨[], ⟨rfl, (hsound ht').spelled, bytes, hP, hwritten⟩, ?_, ?_, ?_⟩
      · rw [ht]
        exact Nat.le_refl _
      · rw [ht]
        exact fun _ => rfl
      · rw [ht]
        exact fun _ => rfl }

/-- What is kept of each instruction is kept of the code. -/
theorem unchanged_of_forall (h : ∀ p ∈ placed, p.2.normal = p.2 ∧ p.2.Kept W ∧
    ∃ bytes, p.2.write W p.1 = .ok bytes) :
    normal (placed.map (·.2)) = placed.map (·.2) ∧ ∀ i ∈ placed.map (·.2), i.Kept W := by
  constructor
  · rw [normal, List.map_map]
    exact List.map_congr_left fun p hp => (h p hp).1
  · intro i hi
    obtain ⟨p, hp, rfl⟩ := List.mem_map.1 hi
    exact (h p hp).2.1

/-- Code is written in as many bytes as it was read from, and in the same bytes if all of them
were canonical. -/
theorem spans_read {data : Bytes} {code : Code} (hR : R.Mirrors W A later tables)
    (htables : ∀ op : Opcode, op.layout.tables ⊆ tables)
    (h : read R origin data s = .ok (code, t)) :
    s.Spans Spelling.Compact A later t fun run =>
      [] = run ∧ code.normal = code ∧ (∀ i ∈ code, i.Kept W) ∧
      ∃ bytes, code.encode W = .ok bytes ∧ bytes.length = data.length ∧
        (t.Spelled Spelling.Canonical → bytes = data) := by
  obtain ⟨placed, u, hscan, hcode, htargets, ht⟩ := read_eq_ok h
  obtain ⟨hnil, hspans⟩ := scan_spans hR htables hscan (Nat.le_refl _)
  -- The operands of code are what must not be padded.
  refine (spans_of_scan hspans ht fun _ => Spelling.compact_inCode.1).imp ?_
  intro _ hpost
  rcases hpost with ⟨rfl, hunpadded, bytes, ⟨hall, hlayout⟩, hwritten⟩
  obtain ⟨pieces, hpieces, -, rfl⟩ := hlayout hunpadded
  have hlength : (pieces.flatMap (·.2)).length = data.length := by
    have hstop := hspans.leaves.stop
    have hoffset := hwritten.offset hunpadded
    rw [hnil, List.length_nil] at hstop
    dsimp only at hstop hoffset
    omega
  have hencode : code.encode W = .ok (pieces.flatMap (·.2)) := by
    rw [hcode] at htargets ⊢
    exact encode_eq_ok.2 ⟨pieces, hpieces, rfl, hlength ▸ htargets⟩
  have hcanonical (hc : t.Spelled Spelling.Canonical) : pieces.flatMap (·.2) = data := by
    have hinner : u.Spelled Spelling.Canonical := fun sp hsp => by
      refine Spelling.canonical_inCode.1 (hc _ ?_)
      rw [ht]
      exact List.mem_append_left _ (List.mem_map_of_mem hsp)
    have hrest := hwritten.rest hinner
    rw [hnil, List.append_nil] at hrest
    exact hrest.symm
  obtain ⟨hnormal, hkept⟩ := unchanged_of_forall hall
  rw [← hcode] at hnormal hkept
  exact ⟨rfl, hnormal, hkept, _, hencode, hlength, hcanonical⟩

/-- However its operands are spelled, each instruction of code can be written by itself. -/
theorem spans_each {data : Bytes} {code : Code} (hR : R.Mirrors W A later tables)
    (htables : ∀ op : Opcode, op.layout.tables ⊆ tables)
    (h : read R origin data s = .ok (code, t)) :
    s.Spans C A later t fun run => [] = run ∧ code.TargetsWithin data.length ∧
      ∀ i ∈ code, ∃ address bytes, i.write W address = .ok bytes := by
  obtain ⟨placed, u, hscan, rfl, htargets, ht⟩ := read_eq_ok h
  obtain ⟨-, hspans⟩ := scan_spans (C := fun _ => True) hR htables hscan (Nat.le_refl _)
  refine (spans_of_scan hspans ht fun _ _ => trivial).imp ?_
  intro _ hpost
  rcases hpost with ⟨rfl, -, _, ⟨hall, -⟩, -⟩
  refine ⟨rfl, htargets, fun i hi => ?_⟩
  obtain ⟨p, hp, rfl⟩ := List.mem_map.1 hi
  exact ⟨p.1, (hall p hp).2.2⟩

end Code

/-! ## Handlers -/

namespace Handler

theorem yields_readVariable (h : R.Mirrors W A later Table.shared)
    (hversion : R.version = W.version) :
    Yields C A later (readVariable R) fun varName run => writeVariable W varName = .ok run ∧
      (if W.version.namesHandlerVariables then varName else 0) = varName := by
  unfold readVariable writeVariable
  rw [hversion]
  split
  · exact (Yields.index h (by decide)).imp fun _ _ hi => ⟨hi.1, rfl⟩
  · apply (Yields.pure 0).imp
    intro _ _ hpost
    rcases hpost with ⟨rfl, rfl⟩
    exact ⟨rfl, rfl⟩

theorem yields_readWithin (h : R.Mirrors W A later Table.shared)
    (hversion : R.version = W.version) (size : Nat) :
    Yields C A later (readWithin R size) fun h run =>
      h.write W = .ok run ∧ h.normal W.version = h ∧ h.OffsetsWithin size := by
  have hread : Yields C A later (read R) fun h run =>
      h.write W = .ok run ∧ h.normal W.version = h := by
    refine (Yields.u30.bind fun start => Yields.u30.bind fun stop => Yields.u30.bind fun target =>
      (yields_index h (t := .multinames) (by decide)).bind fun type =>
      (yields_readVariable h hversion).ret fun varName =>
        Handler.mk start stop target type varName).imp ?_
    intro _ _ hpost
    rcases hpost with ⟨start, a, ⟨ha, -⟩, _, ⟨stop, b, ⟨hb, -⟩, _, ⟨target, c, ⟨hc, -⟩, _, ⟨type, d,
        ⟨hd, -⟩, e, ⟨varName, ⟨he, hname⟩, rfl⟩, rfl⟩, rfl⟩, rfl⟩, rfl⟩
    simp only [write, Outcome.bind_eq_ok, Outcome.pure_eq_ok]
    refine ⟨⟨a, ha, b, hb, c, hc, d, hd, e, he, by simp only [List.append_assoc]⟩, ?_⟩
    unfold normal
    split
    · rfl
    · rename_i hclear
      rw [if_neg hclear] at hname
      rw [← hname]
  apply (hread.bind fun h => Yields.lift.ret fun _ => h).imp
  intro _ _ hpost
  rcases hpost with ⟨h, a, ⟨ha, hnormal⟩, b, ⟨_, ⟨hcheck, rfl⟩, rfl⟩, rfl⟩
  rw [List.append_nil]
  exact ⟨ha, hnormal, checkOffsets_eq_ok.1 hcheck⟩

end Handler

/-! ## Bodies -/

namespace Body

/-- Inside of a body the handlers are known as well. -/
theorem mirrors_codeScope {handlers : List Handler} (h : R.Mirrors W W later Table.shared) :
    (codeScope R handlers).Mirrors (codeScope W handlers) W later
      (Table.handlers :: Table.shared) where
  same t ht := by
    by_cases heq : t = .handlers
    · simp [codeScope, Scope.set, heq]
    · have hsame := h.same t (List.mem_of_ne_of_mem heq ht)
      simpa [codeScope, Scope.set, heq] using hsame
  leaves := .set R W
  later t ht := by
    by_cases heq : t = .handlers
    · simp [codeScope, Scope.set, heq] at ht
    · simp only [codeScope, Scope.set, if_neg heq] at ht
      exact h.later t ht

/-- The size of the code, behind the other numbers of a body. -/
def codeSize (scope : Scope) : Reader Nat := do
  let _method ← scope.readIndex .methods
  let _maxStack ← Reader.u30
  let _localCount ← Reader.u30
  let _initScopeDepth ← Reader.u30
  let _maxScopeDepth ← Reader.u30
  Reader.u30

/-- What is written in front of code of `size` bytes. -/
def writeFront (scope : Scope) (size : Nat) (b : Body) : Except Fault Bytes := do
  let method ← scope.writeIndex b.method
  let maxStack ← Varint.writeU30 b.maxStack
  let localCount ← Varint.writeU30 b.localCount
  let initScopeDepth ← Varint.writeU30 b.initScopeDepth
  let maxScopeDepth ← Varint.writeU30 b.maxScopeDepth
  let size ← Varint.writeU30 size
  return method ++ maxStack ++ localCount ++ initScopeDepth ++ maxScopeDepth ++ size

/-- What is written behind the code. -/
def writeBack (scope : Scope) (b : Body) : Except Fault Bytes := do
  let handlers ← writeCounted (Handler.write scope) b.handlers
  return handlers ++ (← Trait.writeAll scope b.traits)

theorem write_eq_ok {b : Body} {run : Bytes} : b.write W = .ok run ↔
    ∃ code, b.code.encode (codeScope W b.handlers) = .ok code ∧
      (∀ h ∈ b.handlers, h.OffsetsWithin code.length) ∧
      ∃ front, b.writeFront W code.length = .ok front ∧
      ∃ back, b.writeBack W = .ok back ∧ front ++ code ++ back = run := by
  simp only [write, Outcome.bind_eq_ok]
  refine exists_congr fun code => and_congr_right fun _ => ?_
  rw [← (Handler.checkAll_eq_ok : Handler.checkAll code.length 0 b.handlers = .ok () ↔ _)]
  cases hcheck : Handler.checkAll code.length 0 b.handlers with
  | error v =>
    constructor
    · rintro ⟨⟩
    · rintro ⟨⟨⟩, -⟩
  | ok _ =>
    simp only [writeFront, writeBack, Outcome.bind_eq_ok, Outcome.pure_eq_ok, true_and]
    constructor
    · rintro ⟨a, ha, b, hb, c, hc, d, hd, e, he, f, hf, g, hg, i, hi, rfl⟩
      exact ⟨_, ⟨a, ha, b, hb, c, hc, d, hd, e, he, f, hf, rfl⟩, _, ⟨g, hg, i, hi, rfl⟩, by
        simp only [List.append_assoc]⟩
    · rintro ⟨_, ⟨a, ha, b, hb, c, hc, d, hd, e, he, f, hf, rfl⟩, _, ⟨g, hg, i, hi, rfl⟩, rfl⟩
      exact ⟨a, ha, b, hb, c, hc, d, hd, e, he, f, hf, g, hg, i, hi, by
        simp only [List.append_assoc]⟩

/-- All but the code of a body can be written. What is known of its code, as `F` says, is known
of the data that it was read from. -/
theorem spans_around {b : Body} {F : Bytes → Prop} (hR : R.Mirrors W W later Table.shared)
    (hnow : ∀ t ∈ Table.constants, t ∉ later) (hversion : R.version = W.version)
    (h : read R s = .ok (b, t))
    (hF : ∀ origin data u, Code.read (codeScope R b.handlers) origin data u = .ok (b.code, t) →
      u.Spans C W later t fun run => [] = run ∧ F data) :
    s.Spans C W later t fun run => ∃ data, F data ∧
      (∃ u, codeSize R s = .ok (data.length, u)) ∧
      b.normal W.version = { b with code := b.code.normal } ∧
      (∀ h ∈ b.handlers, h.OffsetsWithin data.length) ∧
      ∃ front, b.writeFront W data.length = .ok front ∧
      ∃ back, b.writeBack W = .ok back ∧ front ++ data ++ back = run := by
  obtain ⟨method, s₁, hmethod, h⟩ := Reader.bind_eq_ok.1 h
  obtain ⟨maxStack, s₂, hmaxStack, h⟩ := Reader.bind_eq_ok.1 h
  obtain ⟨localCount, s₃, hlocalCount, h⟩ := Reader.bind_eq_ok.1 h
  obtain ⟨initScopeDepth, s₄, hinitScopeDepth, h⟩ := Reader.bind_eq_ok.1 h
  obtain ⟨maxScopeDepth, s₅, hmaxScopeDepth, h⟩ := Reader.bind_eq_ok.1 h
  obtain ⟨size, s₆, hsize, h⟩ := Reader.bind_eq_ok.1 h
  obtain ⟨_, _, ⟨⟩, h⟩ := Reader.bind_eq_ok.1 h
  obtain ⟨data, s₇, hdata, h⟩ := Reader.bind_eq_ok.1 h
  obtain ⟨count, s₈, hcount, h⟩ := Reader.bind_eq_ok.1 h
  obtain ⟨handlers, s₉, hhandlers, h⟩ := Reader.bind_eq_ok.1 h
  obtain ⟨traits, s₁₀, htraits, h⟩ := Reader.bind_eq_ok.1 h
  obtain ⟨code, s₁₁, hcode, ⟨⟩⟩ := Reader.bind_eq_ok.1 h
  have hcodeSize : codeSize R s = .ok (size, s₆) := by
    rw [codeSize, Reader.bind_apply hmethod, Reader.bind_apply hmaxStack,
      Reader.bind_apply hlocalCount, Reader.bind_apply hinitScopeDepth,
      Reader.bind_apply hmaxScopeDepth, hsize]
  have hall := (yields_index hR (by decide) s method s₁ hmethod).trans <|
    (Yields.u30 s₁ maxStack s₂ hmaxStack).trans <|
    (Yields.u30 s₂ localCount s₃ hlocalCount).trans <|
    (Yields.u30 s₃ initScopeDepth s₄ hinitScopeDepth).trans <|
    (Yields.u30 s₄ maxScopeDepth s₅ hmaxScopeDepth).trans <|
    (Yields.u30 s₅ size s₆ hsize).trans <|
    (Yields.bytes size s₆ data s₇ hdata).trans <|
    (Yields.u30 s₇ count s₈ hcount).trans <|
    ((Handler.yields_readWithin hR hversion size).records 0 count s₈ handlers s₉
      hhandlers).trans <|
    (Trait.yields_readAll hR hnow s₉ traits s₁₀ htraits).trans <|
    hF _ data s₁₀ hcode
  apply hall.imp
  intro _ hpost
  rcases hpost with ⟨a, ⟨ha, -⟩, _, ⟨b, ⟨hb, hmaxStack⟩, _, ⟨c, ⟨hc, hlocalCount⟩, _, ⟨d, ⟨hd,
      hinitScopeDepth⟩, _, ⟨e, ⟨he, hmaxScopeDepth⟩, _, ⟨f, ⟨hf, -⟩, _, ⟨_, ⟨rfl, hlength⟩, _, ⟨g,
      ⟨hg, -⟩, _, ⟨i, ⟨rfl, hi, hhandlers⟩, _, ⟨j, ⟨hj, htraits⟩, _, ⟨rfl, hknown⟩, rfl⟩, rfl⟩,
      rfl⟩, rfl⟩, rfl⟩, rfl⟩, rfl⟩, rfl⟩, rfl⟩, rfl⟩
  have hnormal : handlers.map (Handler.normal W.version) = handlers :=
    (List.map_congr_left fun h hh => (hhandlers h hh).1).trans (List.map_id' _)
  subst hlength
  refine ⟨data, hknown, ⟨_, hcodeSize⟩, ?_, fun h hh => (hhandlers h hh).2,
    a ++ b ++ c ++ d ++ e ++ f, ?_, g ++ i ++ j, ?_, ?_⟩
  · simp only [normal, hmaxStack, hlocalCount, hinitScopeDepth, hmaxScopeDepth, hnormal, htraits]
  · simp only [writeFront, Outcome.bind_eq_ok, Outcome.pure_eq_ok]
    exact ⟨a, ha, b, hb, c, hc, d, hd, e, he, f, hf, rfl⟩
  · simp only [writeBack, writeCounted, Outcome.bind_eq_ok, Outcome.pure_eq_ok]
    exact ⟨_, ⟨g, hg, i, hi, rfl⟩, j, hj, rfl⟩
  · simp only [List.append_assoc, List.append_nil]

/-- A body is written in as many bytes as it was read from if no operand of its code is padded. -/
theorem spans_read {b : Body} (hR : R.Mirrors W W later Table.shared)
    (hnow : ∀ t ∈ Table.constants, t ∉ later) (hversion : R.version = W.version)
    (h : read R s = .ok (b, t)) :
    s.Spans Spelling.Compact W later t fun run =>
      b.write W = .ok run ∧ b.normal W.version = b := by
  refine (spans_around hR hnow hversion h fun _ data u hcode =>
    (Code.spans_read (mirrors_codeScope hR) Opcode.tables_shared hcode)).replace ?_
  intro _ hpost
  rcases hpost with ⟨data, ⟨hcode, -, bytes, hbytes, hlength, hsame⟩, -, hnormal, hhandlers, front,
    hfront, back, hback, rfl⟩
  rw [← hlength] at hhandlers hfront
  refine ⟨front ++ bytes ++ back, ⟨?_, ?_⟩, ?_, fun hc => by rw [hsame hc]⟩
  · exact write_eq_ok.2 ⟨bytes, hbytes, hhandlers, front, hfront, back, hback, rfl⟩
  · rw [hnormal, hcode]
  · simp only [List.length_append, hlength]

end Body

end ActionCode
