import ActionCode.Proofs.Walk

/-!
# Code that is cut

A piece of code is cut inside of an instruction or in front of one. In the one case that
instruction is missed where it starts, whatever its operands are. In the other case the
instructions in front of the cut are left, but they may branch to what is no longer there.
-/

namespace ActionCode

namespace Placement

theorem getElem?_boundaries_append (front back : List (Nat × Instruction)) (stop n : Nat) :
    (boundaries ⟨front ++ back, stop⟩)[front.length + n]? = (boundaries ⟨back, stop⟩)[n]? := by
  rw [boundaries, List.map_append, List.append_assoc, ← List.length_map (·.1),
    List.getElem?_append_right (Nat.le_add_right _ _), Nat.add_sub_cancel_left]
  rfl

end Placement

namespace Code

/-- No instruction has a target beyond `k`. -/
def TargetsUpTo (k : Nat) (code : Code) : Prop := ∀ i ∈ code, ∀ target ∈ i.targets, target ≤ k

variable {scope : Scope} {origin : Int} {data : Bytes} {code : Code} {t u : Input}
  {v : Violation} {k n : Nat} {placed front : List (Nat × Instruction)} {i : Instruction}

theorem Walk.length_data (h : Walk scope (.ofBytes data) placed t) :
    t.offset + t.rest.length = data.length :=
  h.leaves.stop.2.trans (Nat.zero_add _)

/-- What stands in front of an instruction is code by itself. -/
theorem Walk.scan_take (h : Walk scope (.ofBytes data) front t) :
    scan scope origin t.offset t.offset (.ofBytes (data.take t.offset)) =
      .ok (front, { t with rest := [] }) := by
  have hlength : (data.take t.offset).length = t.offset :=
    List.length_take_of_le (h.length_data ▸ Nat.le_add_right _ _)
  exact (scan_eq_ok (Nat.le_of_eq hlength)).2 ⟨h.cut 0, rfl⟩

/-- Code is told to end in the instruction whose first `n` bytes are all that is left of it. -/
theorem decode_take_truncated (origin : Int) (h : Walk scope (.ofBytes data) front t)
    (hv : Instruction.read scope { t with rest := t.rest.take n } = .error v) (hcut : v.Truncated)
    (hn : 0 < n) (hroom : n < t.rest.length) :
    decode scope origin (data.take (t.offset + n)) = .error
      ⟨.truncatedInstruction t.offset (t.offset + n), some (origin + t.offset), none⟩ := by
  have hlength : (data.take (t.offset + n)).length = t.offset + n := by
    have hdata := h.length_data
    rw [List.length_take]
    omega
  have hne : t.rest.take n ≠ [] := by
    apply List.ne_nil_of_length_pos
    rw [List.length_take]
    omega
  refine decode_eq_error.2 (.inl ⟨front, _, v, h.cut n, hne, hv, ?_⟩)
  rw [misread_of_truncated hcut, hlength]

/-- Code that is cut inside of an instruction is told to end there. -/
theorem decode_take_inside (h : Walk scope (.ofBytes data) front t)
    (hi : Instruction.read scope t = .ok (i, u)) (hn : 0 < n) (hu : t.offset + n < u.offset) :
    decode scope origin (data.take (t.offset + n)) = .error
      ⟨.truncatedInstruction t.offset (t.offset + n), some (origin + t.offset), none⟩ := by
  obtain ⟨v, hv, hcut⟩ := (Instruction.stable_read scope).cut hi hu
  have hstop := ((Instruction.stable_read scope).leaves hi).stop.2
  exact decode_take_truncated origin h hv hcut hn (by omega)

/-- Code that is cut in front of an instruction is what stands before, if that does not branch
to anything else. -/
theorem decode_take_before (h : Walk scope (.ofBytes data) front t) :
    decode scope origin (data.take t.offset) =
      (checkTargets (some origin) t.offset front).map fun _ => front.map (·.2) := by
  have hlength : (data.take t.offset).length = t.offset :=
    List.length_take_of_le (h.length_data ▸ Nat.le_add_right _ _)
  rw [decode_eq, hlength, h.scan_take]
  rfl

/-- Of targets that lie in the code, those that lie beyond a part of it are outside of the part. -/
theorem checkTargets_beyond {size : Nat} (origin : Int) (k : Nat)
    (h : TargetsWithin size (placed.map (·.2))) :
    TargetsUpTo k (placed.map (·.2)) ∧ checkTargets (some origin) k placed = .ok () ∨
      ∃ (front back : List (Nat × Instruction)) (c : Nat) (i : Instruction) (target : Int),
        placed = front ++ (c, i) :: back ∧ TargetsUpTo k (front.map (·.2)) ∧
          (i.targets.find? fun (target : Int) => k < target) = some target ∧
            checkTargets (some origin) k placed = .error
              ⟨.branchOutside i.op.mnemonic target k, some (origin + c), some (label c)⟩ := by
  cases hcheck : checkTargets (some origin) k placed with
  | ok _ =>
    have hwithin := checkTargets_eq_ok.1 hcheck
    exact .inl ⟨fun i hi target htarget => (hwithin i hi target htarget).2, rfl⟩
  | error v =>
    obtain ⟨front, back, c, i, target, rfl, hfront, hfind, rfl⟩ := checkTargets_eq_error.1 hcheck
    have hi : i ∈ (front ++ (c, i) :: back).map (·.2) :=
      List.mem_map_of_mem (List.mem_append_right _ List.mem_cons_self)
    have hbeyond : (i.targets.find? fun (target : Int) => k < target) = some target := by
      obtain ⟨hout, before, after, htargets, hbefore⟩ := List.find?_eq_some_iff_append.1 hfind
      refine List.find?_eq_some_iff_append.2 ⟨?_, before, after, htargets, fun x hx => ?_⟩
      · have hnonneg := (h i hi target (htargets ▸ List.mem_append_right _ List.mem_cons_self)).1
        simp only [decide_eq_true_eq] at hout ⊢
        omega
      · have hwithin := hbefore x hx
        simp only [Bool.not_eq_true', decide_eq_false_iff_not, Decidable.not_not] at hwithin ⊢
        omega
    exact .inr ⟨front, back, c, i, target, rfl,
      fun i hi target htarget => (hfront i hi target htarget).2, hbeyond, rfl⟩

/-- Code that was read can be cut anywhere. Inside of an instruction, it is told to end there. In
front of one, the instructions before it are left, unless they have a target beyond the cut: the
first of those is blamed for the first such target. -/
theorem decode_take (h : decode scope origin data = .ok code) :
    ∃ (p : Placement) (t : Input),
      scan scope origin data.length data.length (.ofBytes data) = .ok (p.placed, t) ∧
      p.stop = data.length ∧ p.code = code ∧
      p.boundaries.head? = some 0 ∧ p.boundaries.Pairwise (· < ·) ∧
      ∀ k < data.length, ∃ j a b,
        p.boundaries[j]? = some a ∧ p.boundaries[j + 1]? = some b ∧ a ≤ k ∧ k < b ∧
        (a < k → decode scope origin (data.take k) =
          .error ⟨.truncatedInstruction a k, some (origin + a), none⟩) ∧
        (a = k →
          TargetsUpTo k (code.take j) ∧ decode scope origin (data.take k) = .ok (code.take j) ∨
          ∃ (m c : Nat) (i : Instruction) (target : Int), m < j ∧ p.placed[m]? = some (c, i) ∧
            TargetsUpTo k (code.take m) ∧
            (i.targets.find? fun (target : Int) => k < target) = some target ∧
            decode scope origin (data.take k) = .error
              ⟨.branchOutside i.op.mnemonic target k, some (origin + c), some (label c)⟩) := by
  obtain ⟨placed, t, hwalk, hend, rfl, htargets⟩ := decode_eq_ok.1 h
  have hstart : (Input.ofBytes data).rest.length ≤ data.length := Nat.le_refl _
  have hscan : scan scope origin data.length data.length (.ofBytes data) = .ok (placed, t) :=
    (scan_eq_ok hstart).2 ⟨hwalk, hend⟩
  have hstop : t.offset = data.length := by
    have hdata := hwalk.length_data
    rwa [hend, List.length_nil, Nat.add_zero] at hdata
  obtain ⟨hincreasing, hhead⟩ := hwalk.increasing
  refine ⟨⟨placed, t.offset⟩, t, hscan, hstop, rfl, hhead, hincreasing, fun k hk => ?_⟩
  obtain ⟨front, u, i, u', back, rfl, hfront, hi, hback, hle, hlt⟩ :=
    hwalk.exists_at (Nat.zero_le k) (hstop ▸ hk)
  have htake (front back : List (Nat × Instruction)) :
      ((front ++ back).map (·.2)).take front.length = front.map (·.2) := by
    rw [List.map_append, ← List.length_map (·.2), List.take_left]
  refine ⟨front.length, u.offset, u'.offset, ?_, ?_, hle, hlt, fun hinside => ?_, ?_⟩
  · exact Placement.getElem?_boundaries_append front _ t.offset 0
  · rw [Placement.getElem?_boundaries_append front _ t.offset 1, Placement.boundaries_cons,
      List.getElem?_cons_succ, ← List.head?_eq_getElem?]
    exact hback.increasing.2
  · obtain ⟨n, rfl⟩ := Nat.exists_eq_add_of_lt hinside
    exact decode_take_inside hfront hi (Nat.succ_pos n) hlt
  · rintro rfl
    have hwithin : TargetsWithin data.length (front.map (·.2)) := fun j hj =>
      htargets j (by rw [List.map_append]; exact List.mem_append_left _ hj)
    rw [htake, decode_take_before hfront]
    rcases checkTargets_beyond origin u.offset hwithin with
      ⟨hupto, hcheck⟩ | ⟨front', back', c, j, target, rfl, hfront', hfind, hcheck⟩
    · rw [hcheck]
      exact .inl ⟨hupto, rfl⟩
    · rw [hcheck]
      refine .inr ⟨front'.length, c, j, target, ?_, ?_, ?_, hfind, rfl⟩
      · simp
      · simp
      · rw [List.append_assoc, htake]
        exact hfront'

/-- Where the switch is cut off, the jump across it goes too far; what is left of a switch is not
read at all. -/
theorem decode_take_switch :
    let data : Bytes := [0x60, 0x81, 0, 0x10, 8, 0, 0, 0x1B, 0xF9, 0xFF, 0xFF, 0, 0xFC, 0xFF, 0xFF,
      0x47]
    let scope := Scope.unknown.set .multinames (.entries 1)
    let code : Code := [⟨.getlex, ((1 : Index .multinames), ())⟩, ⟨.jump, (15 : Int)⟩,
      ⟨.lookupswitch, (⟨0, [3]⟩ : Switch)⟩, ⟨.returnvoid, ()⟩]
    decode scope 100 data = .ok code ∧
      decode scope 100 (data.take 7) =
        .error ⟨.branchOutside "jump" 15 7, some 103, some "instruction at 0x3"⟩ ∧
      decode scope 100 (data.take 11) = .error ⟨.truncatedInstruction 7 11, some 107, none⟩ := by
  intro data scope code
  have hdecode : decode scope 100 data = .ok code := Outcome.toOption_eq_some.1 (by decide +kernel)
  have hplaced : (scan scope 100 data.length data.length (.ofBytes data)).map (·.1) =
      .ok ([0, 3, 7, 15].zip code) := Outcome.toOption_eq_some.1 (by decide +kernel)
  obtain ⟨⟨placed, stop⟩, t, hscan, hstop, -, -, -, hcut⟩ := decode_take hdecode
  rw [hscan] at hplaced
  obtain rfl : placed = [0, 3, 7, 15].zip code := Except.ok.inj hplaced
  obtain rfl : stop = 16 := hstop
  have hswitch {k j a b : Nat} (hk : 7 ≤ k ∧ k < 15) (ha : [0, 3, 7, 15, 16][j]? = some a)
      (hb : [0, 3, 7, 15, 16][j + 1]? = some b) (hle : a ≤ k) (hlt : k < b) : j = 2 ∧ a = 7 := by
    rcases j with _ | _ | _ | _ | _ | j
    all_goals simp at ha hb
    all_goals omega
  refine ⟨hdecode, ?_, ?_⟩
  · obtain ⟨j, a, b, ha, hb, hle, hlt, -, h⟩ := hcut 7 (by decide)
    obtain ⟨rfl, rfl⟩ := hswitch (by decide) ha hb hle hlt
    rcases h rfl with ⟨hupto, -⟩ | ⟨m, c, i, target, hm, hspot, -, hfind, h⟩
    · have hjump := hupto _ (List.mem_cons_of_mem _ List.mem_cons_self) 15 List.mem_cons_self
      exact absurd hjump (by decide)
    · rcases m with _ | _ | m
      · obtain ⟨⟩ := hspot
        cases hfind
      · obtain ⟨⟩ := hspot
        obtain ⟨⟩ := hfind
        exact h
      · omega
  · obtain ⟨j, a, b, ha, hb, hle, hlt, h, -⟩ := hcut 11 (by decide)
    obtain ⟨rfl, rfl⟩ := hswitch (by decide) ha hb hle hlt
    exact h (by decide)

end Code

end ActionCode
