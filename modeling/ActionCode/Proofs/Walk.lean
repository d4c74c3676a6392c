import ActionCode.Proofs.Arrangement
import ActionCode.Proofs.Reader.Onward

/-!
# Walks through code

Scanning code is a walk from instruction to instruction, which ends with the data or at an
instruction that cannot be read. What a walk has passed does not depend on what lies ahead, so
a walk can be cut wherever an instruction starts.
-/

namespace ActionCode

namespace Code

/-- The instructions between two states of the input, with their addresses. -/
inductive Walk (scope : Scope) : Input → List (Nat × Instruction) → Input → Prop
  | nil {s : Input} : Walk scope s [] s
  | cons {s t u : Input} {i : Instruction} {placed : List (Nat × Instruction)}
      (hi : Instruction.read scope s = .ok (i, t)) (hrest : Walk scope t placed u) :
      Walk scope s ((s.offset, i) :: placed) u

variable {w : Limits} {scope : Scope} {s t u : Input} {a k : Nat} {i : Instruction}
  {placed front back : List (Nat × Instruction)}

namespace Walk

theorem leaves (h : Walk scope s placed t) : s.Leaves t := by
  induction h with
  | nil => exact .refl _
  | cons hi _ ih => exact ((Instruction.stable_read scope).leaves hi).trans ih

theorem within (h : Walk scope s placed t) (hs : s.Within w) : t.Within w := by
  induction h with
  | nil => exact hs
  | cons hi _ ih => exact ih ((Instruction.located_read scope).within hi hs)

/-- The same walk goes through the same bytes, whatever stands behind them. -/
theorem takes (h : Walk scope s placed t) :
    ∃ used, s.rest = used ++ t.rest ∧ t.offset = s.offset + used.length ∧
      ∀ rest, Walk scope { s with rest := used ++ rest } placed { t with rest := rest } := by
  induction h with
  | nil => exact ⟨[], rfl, rfl, fun _ => .nil⟩
  | @cons s t u i placed hi _ ih =>
    obtain ⟨used, hrest, hoffset, hread⟩ := (Instruction.onward_read scope).takes hi (Nat.le_refl _)
    obtain ⟨used', hrest', hoffset', hwalk⟩ := ih
    refine ⟨used ++ used', ?_, ?_, fun rest => ?_⟩
    · rw [hrest, hrest', List.append_assoc]
    · rw [hoffset', hoffset, List.length_append, Nat.add_assoc]
    · have hi' := hread (used' ++ rest)
      rw [← List.append_assoc] at hi'
      exact .cons hi' (hwalk rest)

/-- A walk through data is cut at any number of bytes behind it. -/
theorem cut {data : Bytes} (h : Walk scope (.ofBytes data) placed t) (n : Nat) :
    Walk scope (.ofBytes (data.take (t.offset + n))) placed { t with rest := t.rest.take n } := by
  obtain ⟨used, hrest, hoffset, hwalk⟩ := h.takes
  have hdata : data = used ++ t.rest := hrest
  have hlength : t.offset = used.length := hoffset.trans (Nat.zero_add _)
  have htake : data.take (t.offset + n) = used ++ t.rest.take n := by
    rw [hdata, hlength, List.take_length_add_append]
  rw [htake]
  exact hwalk (t.rest.take n)

/-- A walk passes through the start of each of its instructions. -/
theorem split (h : Walk scope s (front ++ (a, i) :: back) t) :
    ∃ u u', Walk scope s front u ∧ u.offset = a ∧ Instruction.read scope u = .ok (i, u') ∧
      Walk scope u' back t := by
  induction front generalizing s with
  | nil =>
    obtain _ | ⟨hi, hrest⟩ := h
    exact ⟨s, _, .nil, rfl, hi, hrest⟩
  | cons spot front ih =>
    obtain _ | ⟨hi, hrest⟩ := h
    obtain ⟨u, u', hfront, hrest⟩ := ih hrest
    exact ⟨u, u', .cons hi hfront, hrest⟩

/-- Every byte that is passed belongs to an instruction. -/
theorem exists_at (h : Walk scope s placed t) (hs : s.offset ≤ k) (ht : k < t.offset) :
    ∃ front u i u' back, placed = front ++ (u.offset, i) :: back ∧ Walk scope s front u ∧
      Instruction.read scope u = .ok (i, u') ∧ Walk scope u' back t ∧
        u.offset ≤ k ∧ k < u'.offset := by
  induction h with
  | nil => exact absurd hs (Nat.not_le_of_lt ht)
  | @cons s t u i placed hi hrest ih =>
    rcases Nat.lt_or_ge k t.offset with hk | hk
    · exact ⟨[], s, i, t, placed, rfl, .nil, hi, hrest, hs, hk⟩
    · obtain ⟨front, v, j, v', back, rfl, hfront, hrest⟩ := ih hk ht
      exact ⟨_ :: front, v, j, v', back, rfl, .cons hi hfront, hrest⟩

/-- Instructions start one behind another. -/
theorem increasing (h : Walk scope s placed t) :
    (Placement.mk placed t.offset).boundaries.Pairwise (· < ·) ∧
      (Placement.mk placed t.offset).boundaries.head? = some s.offset := by
  induction h with
  | nil => exact ⟨List.pairwise_singleton _ _, rfl⟩
  | @cons s t u i placed hi hrest ih =>
    obtain ⟨hpairwise, hhead⟩ := ih
    refine ⟨List.pairwise_cons.2 ⟨fun b hb => ?_, hpairwise⟩, rfl⟩
    have hlt := Instruction.offset_lt_read hi
    obtain ⟨tail, hcons⟩ := List.head?_eq_some_iff.1 hhead
    rw [hcons] at hpairwise
    rcases List.mem_cons.1 (hcons ▸ hb : b ∈ t.offset :: tail) with rfl | hb
    · exact hlt
    · exact Nat.lt_trans hlt ((List.pairwise_cons.1 hpairwise).1 b hb)

end Walk

/-! ## Scanning -/

variable {origin : Int} {size limit : Nat} {v : Violation}

theorem scan_of_rest_nil (hnil : s.rest = []) :
    scan scope origin size limit s = .ok ([], s) := by
  cases limit with
  | zero => rfl
  | succ limit => simp only [scan, hnil, List.isEmpty_nil, if_true]

theorem scan_succ (hne : s.rest ≠ []) : scan scope origin size (limit + 1) s =
    match Instruction.read scope s with
    | .error v => .error (misread origin size s.offset v)
    | .ok p => (scan scope origin size limit p.2).map fun q => ((s.offset, p.1) :: q.1, q.2) := by
  have hempty : ¬ s.rest.isEmpty := fun h => hne (List.isEmpty_iff.1 h)
  simp only [scan, if_neg hempty]
  cases Instruction.read scope s with
  | error v => rfl
  | ok p =>
    dsimp only
    cases scan scope origin size limit p.2 <;> rfl

theorem length_rest_of_read (hi : Instruction.read scope s = .ok (i, t)) :
    t.rest.length < s.rest.length := by
  have hlt := Instruction.offset_lt_read hi
  have hstop := ((Instruction.stable_read scope).leaves hi).stop.2
  omega

/-- What a walk passes is scanned, and what it comes to is left to be scanned. -/
theorem Walk.scan_eq (h : Walk scope s placed t) (hlimit : s.rest.length ≤ limit) :
    ∃ left, t.rest.length ≤ left ∧ scan scope origin size limit s =
      (scan scope origin size left t).map fun q => (placed ++ q.1, q.2) := by
  induction h generalizing limit with
  | @nil s =>
    refine ⟨limit, hlimit, ?_⟩
    cases scan scope origin size limit s <;> rfl
  | @cons s t u i placed hi hrest ih =>
    have hlt := length_rest_of_read hi
    have hne : s.rest ≠ [] := List.ne_nil_of_length_pos (Nat.zero_lt_of_lt hlt)
    cases limit with
    | zero => exact absurd (List.length_eq_zero_iff.1 (Nat.le_zero.1 hlimit)) hne
    | succ limit =>
      obtain ⟨left, hleft, hscan⟩ := ih (Nat.le_of_lt_succ (Nat.lt_of_lt_of_le hlt hlimit))
      refine ⟨left, hleft, ?_⟩
      rw [scan_succ hne, hi]
      dsimp only
      rw [hscan]
      cases scan scope origin size left u <;> rfl

/-- A scan walks to the end of the data or to something that is no instruction. -/
theorem scan_cases (origin : Int) (size : Nat) (hlimit : s.rest.length ≤ limit) :
    (∃ placed t, scan scope origin size limit s = .ok (placed, t) ∧
      Walk scope s placed t ∧ t.rest = []) ∨
    ∃ placed t w, scan scope origin size limit s = .error (misread origin size t.offset w) ∧
      Walk scope s placed t ∧ t.rest ≠ [] ∧ Instruction.read scope t = .error w := by
  induction limit generalizing s with
  | zero =>
    have hnil := List.length_eq_zero_iff.1 (Nat.le_zero.1 hlimit)
    exact .inl ⟨[], s, rfl, .nil, hnil⟩
  | succ limit ih =>
    by_cases hnil : s.rest = []
    · exact .inl ⟨[], s, scan_of_rest_nil hnil, .nil, hnil⟩
    · rw [scan_succ hnil]
      cases hi : Instruction.read scope s with
      | error w => exact .inr ⟨[], s, w, rfl, .nil, hnil, hi⟩
      | ok p =>
        have hlt := length_rest_of_read hi
        dsimp only
        rcases ih (Nat.le_of_lt_succ (Nat.lt_of_lt_of_le hlt hlimit)) with
          ⟨placed, t, hscan, hwalk, hend⟩ | ⟨placed, t, w, hscan, hwalk, hw⟩
        · rw [hscan]
          exact .inl ⟨_, t, rfl, .cons hi hwalk, hend⟩
        · rw [hscan]
          exact .inr ⟨_, t, w, rfl, .cons hi hwalk, hw⟩

theorem scan_eq_ok (hlimit : s.rest.length ≤ limit) :
    scan scope origin size limit s = .ok (placed, t) ↔ Walk scope s placed t ∧ t.rest = [] := by
  constructor
  · intro h
    rcases scan_cases origin size hlimit with ⟨_, _, hscan, hwalk⟩ | ⟨_, _, w, hscan, -⟩
    · obtain ⟨⟩ := h.symm.trans hscan
      exact hwalk
    · cases h.symm.trans hscan
  · rintro ⟨hwalk, hnil⟩
    obtain ⟨left, -, hscan⟩ := hwalk.scan_eq hlimit
    rw [hscan, scan_of_rest_nil hnil, Except.map, List.append_nil]

theorem scan_eq_error (hlimit : s.rest.length ≤ limit) :
    scan scope origin size limit s = .error v ↔ ∃ placed t w, Walk scope s placed t ∧
      t.rest ≠ [] ∧ Instruction.read scope t = .error w ∧ misread origin size t.offset w = v := by
  constructor
  · intro h
    rcases scan_cases origin size hlimit with ⟨_, _, hscan, -⟩ | ⟨placed, t, w, hscan, hwalk, hw⟩
    · cases h.symm.trans hscan
    · obtain ⟨⟩ := h.symm.trans hscan
      exact ⟨placed, t, w, hwalk, hw.1, hw.2, rfl⟩
  · rintro ⟨placed, t, w, hwalk, hne, hw, rfl⟩
    obtain ⟨left, hleft, hscan⟩ := hwalk.scan_eq hlimit
    rw [hscan]
    cases left with
    | zero => exact absurd (List.length_eq_zero_iff.1 (Nat.le_zero.1 hleft)) hne
    | succ left =>
      rw [scan_succ hne, hw]
      rfl

/-! ## Targets -/

/-- Of the instructions with targets outside of the code, the first one is blamed, for the first
of these targets. -/
theorem checkTargets_eq_error {origin : Option Int} :
    checkTargets origin size placed = .error v ↔
      ∃ (front back : List (Nat × Instruction)) (a : Nat) (i : Instruction) (target : Int),
        placed = front ++ (a, i) :: back ∧ TargetsWithin size (front.map (·.2)) ∧
          i.targets.find? (fun (target : Int) => ¬ (0 ≤ target ∧ target ≤ size)) = some target ∧
            v = ⟨.branchOutside i.op.mnemonic target size, origin.map (· + a), some (label a)⟩ := by
  induction placed with
  | nil =>
    constructor
    · rintro ⟨⟩
    · rintro ⟨front, back, a, i, target, hplaced, -⟩
      simp at hplaced
  | cons spot placed ih =>
    obtain ⟨b, j⟩ := spot
    cases hfind : j.targets.find? fun (target : Int) => ¬ (0 ≤ target ∧ target ≤ size) with
    | some target =>
      simp only [checkTargets, hfind, Except.error.injEq]
      constructor
      · rintro rfl
        exact ⟨[], placed, b, j, target, rfl, by simp [TargetsWithin], hfind, rfl⟩
      · rintro ⟨front, back, a, i, target', hplaced, hfront, hfind', rfl⟩
        cases front with
        | nil =>
          obtain ⟨⟩ := hplaced
          obtain ⟨⟩ := hfind.symm.trans hfind'
          rfl
        | cons spot front =>
          obtain ⟨⟩ := hplaced
          have hout := List.find?_some hfind
          simp only [decide_eq_true_eq] at hout
          exact absurd (hfront j List.mem_cons_self target (List.mem_of_find?_eq_some hfind)) hout
    | none =>
      have hwithin : ∀ target ∈ j.targets, 0 ≤ target ∧ target ≤ size := by
        simpa [List.find?_eq_none] using hfind
      simp only [checkTargets, hfind, ih]
      constructor
      · rintro ⟨front, back, a, i, target, rfl, hfront, h⟩
        exact ⟨_ :: front, back, a, i, target, rfl, List.forall_mem_cons.2 ⟨hwithin, hfront⟩, h⟩
      · rintro ⟨front, back, a, i, target, hplaced, hfront, hfind', h⟩
        cases front with
        | nil =>
          obtain ⟨⟩ := hplaced
          cases hfind.symm.trans hfind'
        | cons spot front =>
          obtain ⟨⟩ := hplaced
          exact ⟨front, back, a, i, target, rfl, (List.forall_mem_cons.1 hfront).2, hfind', h⟩

/-! ## Violations -/

theorem label_ne_empty (a : Nat) : label a ≠ "" := by
  unfold label
  simp

/-- An instruction that breaks off is told where it starts, and as no part of a record. -/
theorem misread_of_truncated (hv : v.Truncated) : misread origin size a v =
    ⟨.truncatedInstruction a size, some (origin + a), none⟩ := by
  obtain ⟨cause, offset, place⟩ := v
  cases cause with
  | truncatedInput bits => rfl
  | _ => cases hv

/-- Anything else is told where it stands, and which instruction it belongs to. -/
theorem misread_of_not_truncated {cause : Cause} {o : Option Int}
    (hcause : cause.kind ≠ .truncatedInput) : misread origin size a ⟨cause, o, none⟩ =
      ⟨cause, o.map (· + origin), some (label a)⟩ := by
  have hinside : (Violation.rebase origin ⟨cause, o, none⟩).inside (label a) =
      ⟨cause, o.map (· + origin), some (label a)⟩ := if_neg (label_ne_empty a)
  cases cause with
  | truncatedInput bits => exact absurd rfl hcause
  | _ => exact hinside

/-! ## Decoding -/

theorem decode_eq (scope : Scope) (origin : Int) (data : Bytes) : decode scope origin data =
    scan scope origin data.length data.length (.ofBytes data) >>= fun q =>
      (checkTargets (some origin) data.length q.1).map fun _ => q.1.map (·.2) := by
  have hstart : Input.ofBytes data = ⟨data, 0, (Input.ofBytes []).deferred, []⟩ := rfl
  unfold decode Reader.result read
  rw [hstart]
  cases scan scope origin data.length data.length ⟨data, 0, (Input.ofBytes []).deferred, []⟩ with
  | error v => rfl
  | ok q =>
    simp only [bind, Except.bind]
    cases checkTargets (some origin) data.length q.1 <;> rfl

/-- Code is read by a walk to the end of the data if all targets lie in the data. -/
theorem decode_eq_ok {data : Bytes} {code : Code} : decode scope origin data = .ok code ↔
    ∃ placed t, Walk scope (.ofBytes data) placed t ∧ t.rest = [] ∧ placed.map (·.2) = code ∧
      code.TargetsWithin data.length := by
  have hstart : (Input.ofBytes data).rest.length ≤ data.length := Nat.le_refl _
  simp only [decode_eq, Outcome.bind_eq_ok, Outcome.map_eq_ok, Prod.exists, scan_eq_ok hstart]
  constructor
  · rintro ⟨placed, t, ⟨hwalk, hend⟩, ⟨⟩, hcheck, rfl⟩
    exact ⟨placed, t, hwalk, hend, rfl, checkTargets_eq_ok.1 hcheck⟩
  · rintro ⟨placed, t, hwalk, hend, rfl, htargets⟩
    exact ⟨placed, t, ⟨hwalk, hend⟩, (), checkTargets_eq_ok.2 htargets, rfl⟩

/-- Code is not read if a walk ends in front of something that is no instruction, or if a target
lies outside of the data. -/
theorem decode_eq_error {data : Bytes} : decode scope origin data = .error v ↔
    (∃ placed t w, Walk scope (.ofBytes data) placed t ∧ t.rest ≠ [] ∧
      Instruction.read scope t = .error w ∧ misread origin data.length t.offset w = v) ∨
    ∃ placed t, Walk scope (.ofBytes data) placed t ∧ t.rest = [] ∧
      checkTargets (some origin) data.length placed = .error v := by
  have hstart : (Input.ofBytes data).rest.length ≤ data.length := Nat.le_refl _
  simp only [decode_eq, Outcome.bind_eq_error, Outcome.map_eq_error, Prod.exists,
    scan_eq_error hstart, scan_eq_ok hstart, and_assoc]

end Code

end ActionCode
