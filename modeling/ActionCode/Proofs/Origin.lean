import ActionCode.Proofs.Cuts

/-!
# Code inside of a payload

Code may start anywhere in a larger payload. That shows nowhere but in the offsets of violations,
and there once, whether an instruction breaks off, cannot be read or branches too far. Apart from
that, a violation is told inside of the instruction that it is about.
-/

namespace ActionCode

namespace Code

variable {scope : Scope} {data : Bytes} {v w : Violation} {t : Input}
  {placed : List (Nat × Instruction)}

/-- `v` is told at byte `a` of code, which belongs to the instruction at address `b`. In front of
that stand whole instructions, and up to `a` nothing is wrong but that the instruction breaks off. -/
structure ToldAt (scope : Scope) (data : Bytes) (v : Violation) (a b : Nat) : Prop where
  offset : v.offset = some ↑a
  inside : b ≤ a ∧ a < data.length
  named : v.place = some (label b) ∨
    v.place = none ∧ v.cause = .truncatedInstruction b data.length ∧ a = b
  front : ∃ placed t, scan scope 0 b b (.ofBytes (data.take b)) = .ok (placed, t)
  taken : b < a → decode scope 0 (data.take a) = .error ⟨.truncatedInstruction b a, some ↑b, none⟩

/-- An instruction that cannot be read is told of at a byte of its own, and nowhere else is the
origin added to that. -/
theorem toldAt_misread (hwalk : Walk scope (.ofBytes data) placed t) (hne : t.rest ≠ [])
    (hw : Instruction.read scope t = .error w) :
    ∃ a, ToldAt scope data (misread 0 data.length t.offset w) a t.offset ∧
      ∀ origin, misread origin data.length t.offset w =
        { misread 0 data.length t.offset w with offset := some (a + origin) } := by
  have hdata := hwalk.length_data
  have hpos := List.length_pos_iff.2 hne
  by_cases htruncated : w.Truncated
  · have hmisread (o : Int) : misread o data.length t.offset w =
        ⟨.truncatedInstruction t.offset data.length, some (t.offset + o), none⟩ := by
      rw [misread_of_truncated htruncated, Int.add_comm]
    simp only [hmisread]
    refine ⟨t.offset, ?_, fun origin => rfl⟩
    exact {
      offset := by rw [Int.add_zero]
      inside := ⟨Nat.le_refl _, by omega⟩
      named := .inr ⟨rfl, rfl, rfl⟩
      front := ⟨_, _, hwalk.scan_take⟩
      taken := fun hlt => absurd hlt (Nat.lt_irrefl _) }
  · have hwithin : t.Within (.whole data.length) :=
      hwalk.within ⟨Nat.zero_add _, by simp [Input.ofBytes]⟩
    obtain ⟨n, hplain, hn, u, hu, hcut⟩ := Instruction.cut_of_read_error hw hwithin htruncated
    have hmisread (o : Int) : misread o data.length t.offset w =
        ⟨w.cause, some (↑(t.offset + n) + o), some (label t.offset)⟩ := by
      rw [hplain]
      exact misread_of_not_truncated htruncated
    simp only [hmisread]
    refine ⟨t.offset + n, ?_, fun origin => rfl⟩
    exact {
      offset := by rw [Int.add_zero]
      inside := ⟨Nat.le_add_right _ _, by omega⟩
      named := .inl rfl
      front := ⟨_, _, hwalk.scan_take⟩
      taken := fun hlt => by
        have htaken := decode_take_truncated 0 hwalk hu hcut (by omega) hn
        rwa [Int.zero_add] at htaken }

/-- A branch out of the code is told of where it starts. -/
theorem toldAt_checkTargets (hwalk : Walk scope (.ofBytes data) placed t)
    (hcheck : checkTargets (some 0) data.length placed = .error v) :
    ∃ a, ToldAt scope data v a a ∧ ∀ origin : Int, checkTargets (some origin) data.length placed =
      .error { v with offset := some (a + origin) } := by
  obtain ⟨front, back, b, i, target, rfl, hwithin, hfind, rfl⟩ := checkTargets_eq_error.1 hcheck
  obtain ⟨u, u', hfront, rfl, hi, hback⟩ := hwalk.split
  have hdata := hfront.length_data
  have hlt := length_rest_of_read hi
  refine ⟨u.offset, ?_, fun origin => ?_⟩
  · exact {
      offset := congrArg some (Int.zero_add _)
      inside := ⟨Nat.le_refl _, by omega⟩
      named := .inl rfl
      front := ⟨_, _, hfront.scan_take⟩
      taken := fun hlt => absurd hlt (Nat.lt_irrefl _) }
  · refine checkTargets_eq_error.2 ⟨front, back, _, i, target, rfl, hwithin, hfind, ?_⟩
    rw [Int.add_comm]
    rfl

/-- Where code starts in the payload changes nothing but the offset of a violation, which is moved
by that much. -/
theorem decode_origin (scope : Scope) (origin : Int) (data : Bytes) :
    (∀ code, decode scope origin data = .ok code ↔ decode scope 0 data = .ok code) ∧
    ∀ v, decode scope 0 data = .error v → ∃ a b, ToldAt scope data v a b ∧
      decode scope origin data = .error { v with offset := some (a + origin) } := by
  refine ⟨fun code => by rw [decode_eq_ok, decode_eq_ok], fun v h => ?_⟩
  rcases decode_eq_error.1 h with
    ⟨placed, t, w, hwalk, hne, hw, rfl⟩ | ⟨placed, t, hwalk, hend, hcheck⟩
  · obtain ⟨a, htold, hmoved⟩ := toldAt_misread hwalk hne hw
    exact ⟨a, t.offset, htold,
      decode_eq_error.2 (.inl ⟨placed, t, w, hwalk, hne, hw, hmoved origin⟩)⟩
  · obtain ⟨a, htold, hmoved⟩ := toldAt_checkTargets hwalk hcheck
    exact ⟨a, a, htold, decode_eq_error.2 (.inr ⟨placed, t, hwalk, hend, hmoved origin⟩)⟩

/-- Forty bytes further on the same code is read, and what is wrong is told forty bytes further on:
an operand that is too long, at its own place, an instruction that breaks off and a branch out of
the code. -/
theorem decode_origin_forty :
    let plain : Bytes := [0x09, 0x47]
    let overlong : Bytes := [0x09, 0x62, 0x80, 0x80, 0x80, 0x80, 0x80, 0x00]
    let cut : Bytes := [0x09, 0x62]
    let astray : Bytes := [0x09, 0x10, 0x05, 0x00, 0x00]
    decode .unknown 40 plain = .ok [⟨.label, ()⟩, ⟨.returnvoid, ()⟩] ∧
    decode .unknown 40 overlong = .error ⟨.overlong, some 42, some "instruction at 0x1"⟩ ∧
    decode .unknown 40 cut = .error ⟨.truncatedInstruction 1 2, some 41, none⟩ ∧
    decode .unknown 40 astray =
      .error ⟨.branchOutside "jump" 10 5, some 41, some "instruction at 0x1"⟩ := by
  have moved {data : Bytes} {v : Violation} (a : Nat) (ho : v.offset = some ↑a)
      (h : decode .unknown 0 data = .error v) :
      decode .unknown 40 data = .error { v with offset := some (a + 40) } := by
    obtain ⟨a', b, htold, hmoved⟩ := (decode_origin .unknown 40 data).2 v h
    obtain rfl : a' = a := Int.ofNat.inj (Option.some.inj (htold.offset.symm.trans ho))
    exact hmoved
  intro plain overlong cut astray
  have hplain : decode .unknown 0 plain = .ok [⟨.label, ()⟩, ⟨.returnvoid, ()⟩] :=
    Outcome.toOption_eq_some.1 (by decide +kernel)
  have hoverlong : decode .unknown 0 overlong =
      .error ⟨.overlong, some 2, some "instruction at 0x1"⟩ :=
    Outcome.failure?_eq_some.1 (by decide +kernel)
  have hcut : decode .unknown 0 cut = .error ⟨.truncatedInstruction 1 2, some 1, none⟩ :=
    Outcome.failure?_eq_some.1 (by decide +kernel)
  have hastray : decode .unknown 0 astray =
      .error ⟨.branchOutside "jump" 10 5, some 1, some "instruction at 0x1"⟩ :=
    Outcome.failure?_eq_some.1 (by decide +kernel)
  exact ⟨((decode_origin .unknown 40 plain).1 _).2 hplain, moved 2 rfl hoverlong, moved 1 rfl hcut,
    moved 1 rfl hastray⟩

end Code

end ActionCode
