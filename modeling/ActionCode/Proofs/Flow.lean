import ActionCode.Proofs.Arrangement
import ActionCode.Proofs.Writeback.Code

/-!
# The flow of control

The targets of branches are kept as positions, so code that is written stands for the same
flow of control only if what it branches to has not moved. Padding of operands is not written,
and everything behind it moves to the front.
-/

namespace ActionCode

/-! ## Branches between boundaries -/

namespace Placement

/-- A branch operand, by the positions of its instruction and of itself in there. -/
def branch? (p : Placement) (k m : Nat) : Option Int := do (← p.code[k]?).targets[m]?

/-- A branch operand of `p` that goes to a boundary goes to the same boundary in `q`. -/
def SameFlow (p q : Placement) : Prop :=
  ∀ k m j address : Nat, p.boundaries[j]? = some address → p.branch? k m = some (address : Int) →
    ∃ address' : Nat, q.boundaries[j]? = some address' ∧ q.branch? k m = some (address' : Int)

/-- The boundaries that branches go to have the same addresses. -/
def Unmoved (p q : Placement) : Prop :=
  ∀ e ∈ p.boundaries.zip q.boundaries, (∃ i ∈ p.code, (e.1 : Int) ∈ i.targets) → e.2 = e.1

instance (p q : Placement) : Decidable (p.Unmoved q) :=
  inferInstanceAs (Decidable (∀ e ∈ p.boundaries.zip q.boundaries, _ → e.2 = e.1))

/-- Branches that go to no boundary, but into the middle of an instruction, can be written. -/
def Inside (p q : Placement) : Prop :=
  ∀ spot ∈ q.placed, ∀ target ∈ spot.2.targets, (∀ x ∈ p.boundaries, (x : Int) ≠ target) →
    target ≤ q.stop ∧ target - spot.2.base spot.1 ≤ 2 ^ 23 - 1

instance (p q : Placement) : Decidable (p.Inside q) :=
  inferInstanceAs (Decidable (∀ spot ∈ q.placed, ∀ target ∈ spot.2.targets, _ → _))

variable {p q : Placement}

theorem exists_branch? {target : Int} :
    (∃ k m, p.branch? k m = some target) ↔ ∃ i ∈ p.code, target ∈ i.targets := by
  simp only [branch?, Option.bind_eq_bind, Option.bind_eq_some_iff, List.mem_iff_getElem?]
  constructor
  · rintro ⟨k, m, i, hi, hm⟩
    exact ⟨i, ⟨k, hi⟩, m, hm⟩
  · rintro ⟨i, ⟨k, hi⟩, m, hm⟩
    exact ⟨k, m, i, hi, hm⟩

theorem unmoved_iff (hcode : q.code = p.code) : p.Unmoved q ↔
    ∀ j x : Nat, p.boundaries[j]? = some x → (∃ i ∈ p.code, (x : Int) ∈ i.targets) →
      q.boundaries[j]? = some x := by
  constructor
  · intro h j x hj hx
    obtain ⟨hlt, -⟩ := List.getElem?_eq_some_iff.1 hj
    rw [length_boundaries, ← length_placed hcode, ← length_boundaries] at hlt
    have hj' := List.getElem?_eq_getElem hlt
    have hsame : q.boundaries[j] = x :=
      h (x, _) (List.mem_of_getElem? (List.getElem?_zip_eq_some.2 ⟨hj, hj'⟩)) hx
    rw [hj', hsame]
  · rintro h ⟨x, y⟩ he hx
    obtain ⟨j, hj⟩ := List.mem_iff_getElem?.1 he
    obtain ⟨hj, hj'⟩ := List.getElem?_zip_eq_some.1 hj
    rw [h j x hj hx] at hj'
    exact (Option.some.inj hj').symm

/-- As targets are kept, a branch goes to the same boundary only if that has not moved. -/
theorem sameFlow_iff (hcode : q.code = p.code) : p.SameFlow q ↔ p.Unmoved q := by
  have hbranch : q.branch? = p.branch? := by
    funext k m
    rw [branch?, branch?, hcode]
  rw [unmoved_iff hcode]
  simp only [SameFlow, hbranch, ← exists_branch?]
  constructor
  · intro h j address hj hpost
    rcases hpost with ⟨k, m, hm⟩
    obtain ⟨address', hj', hm'⟩ := h k m j address hj hm
    rw [hm, Option.some.injEq, Int.ofNat_inj] at hm'
    rw [hj', hm']
  · intro h k m j address hj hm
    exact ⟨address, h j address hj ⟨k, m, hm⟩, hm⟩

end Placement

/-! ## Code with room for itself -/

/-- Instructions between the addresses `a` and `stop`, with room for each to be written where it
stands. -/
inductive Spaced : (a : Nat) → List (Nat × Instruction) → (stop : Nat) → Prop
  | nil {a : Nat} : Spaced a [] a
  | cons {a b stop : Nat} {i : Instruction} {run : Bytes} {placed : List (Nat × Instruction)}
      (hrun : i.write .unknown a = .ok run) (hroom : a + run.length ≤ b)
      (hnormal : i.normal = i) (hkept : i.Kept .unknown) (hrest : Spaced b placed stop) :
      Spaced a ((a, i) :: placed) stop

namespace Spaced

variable {a b stop : Nat} {placed : List (Nat × Instruction)} {q : Placement}

/-- Boundaries move to the front at least as much as where the instructions start. -/
theorem from_start (h : Spaced a placed stop)
    (hq : Code.arrangeFrom b (placed.map (·.2)) = .ok q) {k x y : Nat}
    (hx : (Placement.mk placed stop).boundaries[k]? = some x) (hy : q.boundaries[k]? = some y) :
    b ≤ y ∧ a + y ≤ x + b := by
  induction h generalizing b q k with
  | nil =>
    obtain rfl := Code.arrangeFrom_nil.1 hq
    cases k with
    | zero =>
      obtain ⟨⟩ := hx
      obtain ⟨⟩ := hy
      exact ⟨Nat.le_refl _, Nat.le_refl _⟩
    | succ k => cases hx
  | cons hrun hroom hnormal hkept hrest ih =>
    obtain ⟨size, hsize, p, hp, rfl⟩ := Code.arrangeFrom_cons.1 hq
    obtain rfl := Instruction.length_of_write hsize hrun
    rw [Placement.boundaries_cons] at hx hy
    cases k with
    | zero =>
      obtain ⟨⟩ := hx
      obtain ⟨⟩ := hy
      exact ⟨Nat.le_refl _, Nat.le_refl _⟩
    | succ k =>
      have hrest := ih hp hx hy
      omega

/-- The later a boundary, the more it moves. -/
theorem between (h : Spaced a placed stop) (hq : Code.arrangeFrom b (placed.map (·.2)) = .ok q)
    {j k x x' y y' : Nat} (hjk : j ≤ k)
    (hx : (Placement.mk placed stop).boundaries[j]? = some x) (hy : q.boundaries[j]? = some y)
    (hx' : (Placement.mk placed stop).boundaries[k]? = some x')
    (hy' : q.boundaries[k]? = some y') : y ≤ y' ∧ x + y' ≤ x' + y := by
  induction h generalizing b q j k with
  | nil =>
    have hstart := Spaced.nil.from_start hq hx' hy'
    obtain rfl := Code.arrangeFrom_nil.1 hq
    cases j with
    | zero =>
      obtain ⟨⟩ := hx
      obtain ⟨⟩ := hy
      exact hstart
    | succ j => cases hx
  | cons hrun hroom hnormal hkept hrest ih =>
    have hstart := (Spaced.cons hrun hroom hnormal hkept hrest).from_start hq hx' hy'
    obtain ⟨size, hsize, p, hp, rfl⟩ := Code.arrangeFrom_cons.1 hq
    rw [Placement.boundaries_cons] at hx hy hx' hy'
    cases j with
    | zero =>
      obtain ⟨⟩ := hx
      obtain ⟨⟩ := hy
      exact hstart
    | succ j =>
      cases k with
      | zero => exact absurd hjk (Nat.not_succ_le_zero j)
      | succ k => exact ih hp (Nat.le_of_succ_le_succ hjk) hx hy hx' hy'

theorem forall_mem (h : Spaced a placed stop) : ∀ spot ∈ placed, spot.2.normal = spot.2 ∧
    spot.2.Kept .unknown ∧ ∃ run, spot.2.write .unknown spot.1 = .ok run := by
  induction h with
  | nil => exact fun _ h => absurd h List.not_mem_nil
  | cons hrun hroom hnormal hkept hrest ih =>
    exact List.forall_mem_cons.2 ⟨⟨hnormal, hkept, _, hrun⟩, ih⟩

/-- The same instructions can be arranged from any address on. -/
theorem exists_arrangeFrom (h : Spaced a placed stop) :
    ∃ q, Code.arrangeFrom b (placed.map (·.2)) = .ok q := by
  refine Code.exists_arrangeFrom.2 fun i hi => ?_
  obtain ⟨spot, hspot, rfl⟩ := List.mem_map.1 hi
  obtain ⟨-, -, run, hrun⟩ := h.forall_mem spot hspot
  exact (Instruction.exists_write.1 ⟨run, hrun⟩).1

theorem unchanged (h : Spaced a placed stop) :
    Code.normal (placed.map (·.2)) = placed.map (·.2) ∧
      ∀ i ∈ placed.map (·.2), i.Kept .unknown :=
  Code.unchanged_of_forall h.forall_mem

end Spaced

/-! ## Scanned code -/

theorem Scope.Mirrors.unknown {tables : List Table} :
    Scope.unknown.Mirrors .unknown .unknown [] tables where
  same _ _ := .inl rfl
  leaves := .refl _ _
  later := by rintro t ⟨⟩

theorem Spaced.of_scan {origin : Int} {size limit : Nat} {s t : Input}
    {placed : List (Nat × Instruction)}
    (h : Code.scan .unknown origin size limit s = .ok (placed, t))
    (hlimit : s.rest.length ≤ limit) : Spaced s.offset placed (s.offset + s.rest.length) := by
  induction limit generalizing s placed with
  | zero =>
    obtain ⟨⟩ := h
    rw [Nat.le_zero.1 hlimit]
    exact .nil
  | succ limit ih =>
    simp only [Code.scan] at h
    split at h
    · rename_i hempty
      obtain ⟨⟩ := h
      rw [List.isEmpty_iff.1 hempty]
      exact .nil
    · split at h
      · cases h
      · rename_i i u hi
        split at h
        · cases h
        · rename_i rest t' hrest
          obtain ⟨⟩ := h
          have hspans :=
            Instruction.spans_read (C := fun _ => True) .unknown (List.Subset.refl _) hi
          have hshort := Instruction.length_rest_lt .unknown (List.Subset.refl _) hi
          obtain ⟨run, ⟨hrun, hnormal, hkept⟩, hwritten⟩ := hspans.written
            ⟨fun _ _ => Scope.admits_unknown, fun _ _ => trivial⟩
          have hspaced := ih hrest (by omega)
          rw [hspans.leaves.stop.2] at hspaced
          exact .cons hrun hwritten.short hnormal hkept hspaced

/-! ## Code that was read -/

theorem Instruction.base_eq (address : Nat) (i : Instruction) :
    i.base address = address + i.base 0 ∧ 0 ≤ i.base 0 := by
  unfold base
  cases i.op.layout with
  | fixed os => exact ⟨(Int.add_zero _).symm, Int.le_refl 0⟩
  | branch => exact ⟨rfl, by decide⟩
  | switch => exact ⟨(Int.add_zero _).symm, Int.le_refl 0⟩

namespace Spaced

variable {p q : Placement} {j k a b x : Nat} {i : Instruction}

/-- A branch still reaches a boundary that has not moved: if it stands in front of it, it has not
moved either, and otherwise it has come closer. -/
theorem inReach_of_unmoved (h : Spaced 0 p.placed p.stop) (hq : p.code.arrange = .ok q)
    (hk : p.placed[k]? = some (a, i)) (hk' : q.placed[k]? = some (b, i))
    (hj : p.boundaries[j]? = some x) (hj' : q.boundaries[j]? = some x)
    (hreach : InReach (i.base a) x) : InReach (i.base b) x := by
  have hboundary := Placement.getElem?_boundaries hk
  have hboundary' := Placement.getElem?_boundaries hk'
  have hba := h.from_start hq hboundary hboundary'
  obtain ⟨ha, hpos⟩ := i.base_eq a
  obtain ⟨hb, -⟩ := i.base_eq b
  unfold InReach at hreach ⊢
  rcases Nat.le_total k j with hkj | hjk
  · have hbetween := h.between hq hkj hboundary hboundary' hj hj'
    omega
  · have hbetween := h.between hq hjk hj hj' hboundary hboundary'
    omega

end Spaced

namespace Code

variable {code : Code} {p q : Placement} {origin : Int} {data : Bytes}

theorem place_of_decode (h : decode .unknown origin data = .ok code) :
    ∃ p, place origin data = .ok p ∧ p.code = code ∧ code.TargetsWithin p.stop ∧
      Spaced 0 p.placed p.stop := by
  obtain ⟨⟨_, t⟩, hread, rfl⟩ := Outcome.map_eq_ok.1 h
  obtain ⟨placed, u, hscan, rfl, htargets, -⟩ := read_eq_ok hread
  have hspaced := Spaced.of_scan hscan (Nat.le_refl _)
  rw [Nat.zero_add] at hspaced
  exact ⟨⟨placed, data.length⟩, Outcome.map_eq_ok.2 ⟨_, hscan, rfl⟩, rfl, htargets, hspaced⟩

/-- Code can be written if the branches into the middle of instructions can. -/
theorem exists_encode_iff (h : Spaced 0 p.placed p.stop) (hq : p.code.arrange = .ok q)
    (htargets : p.code.TargetsWithin p.stop) (hunmoved : p.Unmoved q) :
    (∃ bytes, p.code.encode .unknown = .ok bytes) ↔ p.Inside q := by
  have hcode := code_arrangeFrom hq
  rw [exists_encode hq, and_iff_right (exists_arrangeFrom.1 ⟨q, hq⟩)]
  constructor
  · rintro ⟨hreach, hwithin⟩ spot hspot target htarget -
    have hmem : spot.2 ∈ p.code := hcode ▸ List.mem_map_of_mem hspot
    exact ⟨(hwithin _ hmem target htarget).2, (hreach spot hspot target htarget).2⟩
  · intro hinside
    have hall : ∀ spot ∈ q.placed, ∀ target ∈ spot.2.targets,
        InReach (spot.2.base spot.1) target ∧ target ≤ q.stop := by
      rintro ⟨b, i⟩ hspot target htarget
      obtain ⟨k, hk'⟩ := List.mem_iff_getElem?.1 hspot
      obtain ⟨a, hk⟩ := Placement.exists_placed hcode hk'
      obtain ⟨-, -, run, hrun⟩ := h.forall_mem _ (List.mem_of_getElem? hk)
      have hreach := (Instruction.exists_write.1 ⟨run, hrun⟩).2 target htarget
      by_cases hboundary : ∃ x ∈ p.boundaries, (x : Int) = target
      · obtain ⟨x, hx, rfl⟩ := hboundary
        obtain ⟨j, hj⟩ := List.mem_iff_getElem?.1 hx
        have hi : i ∈ p.code := hcode ▸ List.mem_map_of_mem hspot
        have hj' := (Placement.unmoved_iff hcode).1 hunmoved j x hj ⟨i, hi, htarget⟩
        have hle : j ≤ p.placed.length := by
          obtain ⟨hlt, -⟩ := List.getElem?_eq_some_iff.1 hj
          rw [p.length_boundaries] at hlt
          omega
        have hstop := h.between hq hle hj hj' p.getElem?_stop
          (Placement.length_placed hcode ▸ q.getElem?_stop)
        exact ⟨h.inReach_of_unmoved hq hk hk' hj hj' hreach, Int.ofNat_le.2 hstop.1⟩
      · have hnone : ∀ x ∈ p.boundaries, (x : Int) ≠ target :=
          fun x hx heq => hboundary ⟨x, hx, heq⟩
        obtain ⟨hstop, hupper⟩ := hinside _ hspot target htarget hnone
        have hba := h.from_start hq (Placement.getElem?_boundaries hk)
          (Placement.getElem?_boundaries hk')
        obtain ⟨ha, -⟩ := i.base_eq a
        obtain ⟨hb, -⟩ := i.base_eq b
        have hlower := hreach.1
        dsimp only at hlower hupper
        exact ⟨⟨by dsimp only; omega, hupper⟩, hstop⟩
    refine ⟨fun spot hspot target htarget => (hall spot hspot target htarget).1, ?_⟩
    intro i hi target htarget
    obtain ⟨spot, hspot, rfl⟩ := List.mem_map.1 (hcode.symm ▸ hi : i ∈ q.code)
    exact ⟨(htargets _ hi target htarget).1, (hall spot hspot target htarget).2⟩

/-- What is written for code that was read has the same flow of control exactly if nothing that a
branch goes to has moved, and if the branches into the middle of instructions can be written. -/
theorem encode_sameFlow_iff (h : decode .unknown origin data = .ok code) :
    ∃ p q, place origin data = .ok p ∧ p.code = code ∧ code.arrange = .ok q ∧
      ((∃ bytes q', code.encode .unknown = .ok bytes ∧ place origin bytes = .ok q' ∧
        p.SameFlow q') ↔ p.Unmoved q ∧ p.Inside q) := by
  obtain ⟨p, hp, rfl, htargets, hspaced⟩ := place_of_decode h
  obtain ⟨q, hq⟩ : ∃ q, p.code.arrange = .ok q := hspaced.exists_arrangeFrom
  obtain ⟨hnormal, hkept⟩ := hspaced.unchanged
  have hsame {bytes : Bytes} (hbytes : p.code.encode .unknown = .ok bytes) :
      place origin bytes = .ok q := (place_encode hnormal hkept hq hbytes).1
  refine ⟨p, q, hp, rfl, hq, ?_⟩
  constructor
  · rintro ⟨bytes, q', hbytes, hq', hflow⟩
    rw [hsame hbytes] at hq'
    obtain ⟨⟩ := hq'
    have hunmoved := (Placement.sameFlow_iff (code_arrangeFrom hq)).1 hflow
    exact ⟨hunmoved, (exists_encode_iff hspaced hq htargets hunmoved).1 ⟨bytes, hbytes⟩⟩
  · rintro ⟨hunmoved, hinside⟩
    obtain ⟨bytes, hbytes⟩ := (exists_encode_iff hspaced hq htargets hunmoved).2 hinside
    exact ⟨bytes, q, hbytes, hsame hbytes,
      (Placement.sameFlow_iff (code_arrangeFrom hq)).2 hunmoved⟩

/-- Padding behind everything that is branched to does no harm. -/
theorem encode_sameFlow_behind :
    let data : Bytes := [0x10, 0, 0, 0, 0x62, 0x80, 0]
    ∃ code p bytes q, decode .unknown 0 data = .ok code ∧ place 0 data = .ok p ∧
      code.encode .unknown = .ok bytes ∧ place 0 bytes = .ok q ∧ p.SameFlow q := by
  intro data
  have hdecode : decode .unknown 0 data = .ok _ := rfl
  obtain ⟨p, q, hp, -, hq, hflow⟩ := encode_sameFlow_iff hdecode
  obtain ⟨⟩ := hp
  obtain ⟨⟩ := hq
  obtain ⟨bytes, q, hbytes, hq, hsame⟩ := hflow.2 (by decide)
  exact ⟨_, _, bytes, q, hdecode, rfl, hbytes, hq, hsame⟩

/-- In front of a label, padding turns a branch back to the label into a branch to itself. In
front of a branch to the end, it leaves the end short of the target. -/
theorem encode_padded_branch :
    let old : Placement :=
      ⟨[(0, ⟨.getlocal, ((0 : Int), ())⟩), (3, ⟨.label, ()⟩), (4, ⟨.jump, (3 : Int)⟩)], 8⟩
    let new : Placement :=
      ⟨[(0, ⟨.getlocal, ((0 : Int), ())⟩), (2, ⟨.label, ()⟩), (3, ⟨.jump, (3 : Int)⟩)], 7⟩
    let data : Bytes := [0x62, 0x80, 0, 0x09, 0x10, 0xFB, 0xFF, 0xFF]
    let bytes : Bytes := [0x62, 0, 0x09, 0x10, 0xFC, 0xFF, 0xFF]
    (decode .unknown 0 data = .ok old.code ∧ place 0 data = .ok old ∧
      old.code.encode .unknown = .ok bytes ∧ place 0 bytes = .ok new ∧ ¬ old.SameFlow new) ∧
    ∃ code v, decode .unknown 0 [0x62, 0x80, 0, 0x10, 0, 0, 0] = .ok code ∧
      code.encode .unknown = .error v := by
  intro old new data bytes
  have hcode : new.code = old.code := rfl
  have hflow : ¬ old.SameFlow new := by
    rw [Placement.sameFlow_iff hcode]
    decide
  exact ⟨⟨rfl, rfl, rfl, rfl, hflow⟩, _, _, rfl, rfl⟩

end Code

end ActionCode
