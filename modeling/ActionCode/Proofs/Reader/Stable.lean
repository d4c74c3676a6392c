import ActionCode.Proofs.Outcome

/-!
# Stable readers

A reader is stable if it takes a run of bytes off the front of its input and never looks
beyond what it takes: more data behind the input changes nothing but a truncation, and a
truncation is found inside of the data. Chains, lists and records of stable readers are
stable, so this is shown of each reader by following its definition.
-/

namespace ActionCode

namespace Input

/-- The same input with more data behind it. -/
def extend (s : Input) (more : Bytes) : Input := { s with rest := s.rest ++ more }

/-- `t` is what is left of `s` after a run of bytes. -/
def Leaves (s t : Input) : Prop :=
  ∃ used, s.rest = used ++ t.rest ∧ t.offset = s.offset + used.length

theorem Leaves.refl (s : Input) : s.Leaves s := ⟨[], rfl, rfl⟩

theorem Leaves.trans {s t u : Input} (h : s.Leaves t) (g : t.Leaves u) : s.Leaves u := by
  obtain ⟨used, hrest, hoffset⟩ := h
  obtain ⟨used', hrest', hoffset'⟩ := g
  refine ⟨used ++ used', ?_, ?_⟩
  · rw [hrest, hrest', List.append_assoc]
  · rw [hoffset', hoffset, List.length_append, Nat.add_assoc]

/-- Reading never moves the end of the data. -/
theorem Leaves.stop {s t : Input} (h : s.Leaves t) :
    s.offset ≤ t.offset ∧ t.offset + t.rest.length = s.offset + s.rest.length := by
  obtain ⟨used, hrest, hoffset⟩ := h
  rw [hrest, List.length_append]
  omega

end Input

/-- A violation that more data could mend. -/
def Violation.Truncated (v : Violation) : Prop := v.kind = .truncatedInput

namespace Reader

structure Stable {α : Type} (r : Reader α) : Prop where
  leaves {s t : Input} {x : α} : r s = .ok (x, t) → s.Leaves t
  extend_ok {s t : Input} {x : α} :
    r s = .ok (x, t) → ∀ more, r (s.extend more) = .ok (x, t.extend more)
  extend_error {s : Input} {v : Violation} :
    r s = .error v → ¬ v.Truncated → ∀ more, r (s.extend more) = .error v
  truncated {s : Input} {v : Violation} : r s = .error v → v.Truncated →
    ∃ o : Nat, v.offset = some ↑o ∧ s.offset ≤ o ∧ o ≤ s.offset + s.rest.length

namespace Stable

variable {α β : Type} {r : Reader α} {f : α → Reader β}

/-! ## Chains -/

theorem pure (x : α) : Stable (pure x : Reader α) where
  leaves h := by
    simp only [pure_apply, Except.ok.injEq, Prod.mk.injEq] at h
    exact h.2 ▸ .refl _
  extend_ok h more := by
    simp only [pure_apply, Except.ok.injEq, Prod.mk.injEq] at h ⊢
    exact ⟨h.1, by rw [h.2]⟩
  extend_error h := by simp at h
  truncated h := by simp at h

theorem bind (hr : Stable r) (hf : ∀ x, Stable (f x)) : Stable (r >>= f) where
  leaves h := by
    obtain ⟨x, t, hx, hy⟩ := bind_eq_ok.1 h
    exact (hr.leaves hx).trans ((hf x).leaves hy)
  extend_ok h more := by
    obtain ⟨x, t, hx, hy⟩ := bind_eq_ok.1 h
    rw [bind_apply (hr.extend_ok hx more)]
    exact (hf x).extend_ok hy more
  extend_error h hv more := by
    rcases bind_eq_error.1 h with hx | ⟨x, t, hx, hy⟩
    · exact bind_error (hr.extend_error hx hv more)
    · rw [bind_apply (hr.extend_ok hx more)]
      exact (hf x).extend_error hy hv more
  truncated h hv := by
    rcases bind_eq_error.1 h with hx | ⟨x, t, hx, hy⟩
    · exact hr.truncated hx hv
    · obtain ⟨o, ho, hlow, hhigh⟩ := (hf x).truncated hy hv
      have hstop := (hr.leaves hx).stop
      exact ⟨o, ho, by omega, by omega⟩

/-- A verdict that depends on no input can end in anything but a truncation. -/
theorem lift {e : Except Violation α} (he : ∀ v, e = .error v → ¬ v.Truncated) :
    Stable (liftM e : Reader α) where
  leaves h := (lift_eq_ok.1 h).2 ▸ .refl _
  extend_ok h more := by
    obtain ⟨rfl, rfl⟩ := lift_eq_ok.1 h
    exact lift_eq_ok.2 ⟨rfl, rfl⟩
  extend_error h _ more := lift_eq_error.2 (lift_eq_error.1 h)
  truncated h hv := absurd hv (he _ (lift_eq_error.1 h))

/-! ## Single fields -/

theorem offset : Stable Reader.offset where
  leaves h := by
    simp only [Reader.offset, Except.ok.injEq, Prod.mk.injEq] at h
    exact h.2 ▸ .refl _
  extend_ok h more := by
    simp only [Reader.offset, Except.ok.injEq, Prod.mk.injEq] at h ⊢
    exact ⟨h.1, by rw [h.2]⟩
  extend_error h := by simp [Reader.offset] at h
  truncated h := by simp [Reader.offset] at h

theorem fail {cause : Cause} {o : Nat} (hc : cause.kind ≠ .truncatedInput) :
    Stable (fail cause o : Reader α) where
  leaves h := by simp [Reader.fail] at h
  extend_ok h := by simp [Reader.fail] at h
  extend_error h _ _ := h
  truncated h hv := by
    simp only [Reader.fail, Except.error.injEq] at h
    subst h
    exact absurd hv hc

theorem next (missed : Nat) : Stable (next missed) where
  leaves {s t b} h := by
    cases hs : s.rest with
    | nil => simp [Reader.next, hs] at h
    | cons b rest =>
      simp only [Reader.next, hs, Except.ok.injEq, Prod.mk.injEq] at h
      exact ⟨[b], by simp [hs, ← h.2], by simp [← h.2]⟩
  extend_ok {s t b} h more := by
    cases hs : s.rest with
    | nil => simp [Reader.next, hs] at h
    | cons b rest =>
      simp only [Reader.next, hs, Except.ok.injEq, Prod.mk.injEq] at h
      obtain ⟨rfl, rfl⟩ := h
      simp [Reader.next, Input.extend, hs]
  extend_error {s v} h hv more := by
    cases hs : s.rest with
    | nil =>
      simp only [Reader.next, hs, Except.error.injEq] at h
      exact absurd (h ▸ rfl : v.kind = .truncatedInput) hv
    | cons b rest => simp [Reader.next, hs] at h
  truncated {s v} h _ := by
    cases hs : s.rest with
    | nil =>
      simp only [Reader.next, hs, Except.error.injEq] at h
      exact ⟨s.offset, by simp [← h], by omega, by omega⟩
    | cons b rest => simp [Reader.next, hs] at h

theorem byte : Stable byte := next 8

theorem note (spelling : Spelling) : Stable (note spelling) where
  leaves h := by
    simp only [Reader.note, Except.ok.injEq, Prod.mk.injEq] at h
    exact ⟨[], by simp [← h.2], by simp [← h.2]⟩
  extend_ok h more := by
    simp only [Reader.note, Except.ok.injEq, Prod.mk.injEq] at h ⊢
    obtain ⟨-, rfl⟩ := h
    exact ⟨trivial, rfl⟩
  extend_error h := by simp [Reader.note] at h
  truncated h := by simp [Reader.note] at h

theorem flags (skipped : Nat) : Stable (flags skipped) :=
  (next _).bind fun _ => (note _).bind fun _ => .pure _

theorem bytes (count : Nat) : Stable (bytes count) where
  leaves {s t run} h := by
    rcases Nat.lt_or_ge s.rest.length count with hlen | hlen
    · simp [bytes_of_lt hlen] at h
    · simp only [bytes_of_le hlen, Except.ok.injEq, Prod.mk.injEq] at h
      exact ⟨s.rest.take count, by simp [← h.2], by simp [← h.2, hlen]⟩
  extend_ok {s t run} h more := by
    rcases Nat.lt_or_ge s.rest.length count with hlen | hlen
    · simp [bytes_of_lt hlen] at h
    · simp only [bytes_of_le hlen, Except.ok.injEq, Prod.mk.injEq] at h
      obtain ⟨rfl, rfl⟩ := h
      have hmore : count ≤ (s.extend more).rest.length := by
        simp only [Input.extend, List.length_append]
        omega
      rw [bytes_of_le hmore]
      simp [Input.extend, List.take_append_of_le_length hlen, List.drop_append_of_le_length hlen]
  extend_error {s v} h hv more := by
    rcases Nat.lt_or_ge s.rest.length count with hlen | hlen
    · simp only [bytes_of_lt hlen, Except.error.injEq] at h
      exact absurd (h ▸ rfl : v.kind = .truncatedInput) hv
    · simp [bytes_of_le hlen] at h
  truncated {s v} h _ := by
    rcases Nat.lt_or_ge s.rest.length count with hlen | hlen
    · simp only [bytes_of_lt hlen, Except.error.injEq] at h
      exact ⟨s.offset, by simp [← h], by omega, by omega⟩
    · simp [bytes_of_le hlen] at h

theorem withBytes (hr : Stable r) : Stable (withBytes r) where
  leaves {s t p} h := by
    simp only [Reader.withBytes] at h
    split at h
    · simp at h
    · rename_i hx
      simp only [Except.ok.injEq, Prod.mk.injEq] at h
      exact h.2 ▸ hr.leaves hx
  extend_ok {s t p} h more := by
    simp only [Reader.withBytes] at h
    split at h
    · simp at h
    · rename_i x u hx
      simp only [Except.ok.injEq, Prod.mk.injEq] at h
      obtain ⟨rfl, rfl⟩ := h
      have hle : u.offset - s.offset ≤ s.rest.length := by
        have := (hr.leaves hx).stop
        omega
      simp only [Reader.withBytes, hr.extend_ok hx more]
      simp [Input.extend, List.take_append_of_le_length hle]
  extend_error {s v} h hv more := by
    simp only [Reader.withBytes] at h
    split at h
    · rename_i hx
      simp only [Except.error.injEq] at h
      subst h
      simp only [Reader.withBytes, hr.extend_error hx hv more]
    · simp at h
  truncated {s v} h hv := by
    simp only [Reader.withBytes] at h
    split at h
    · rename_i hx
      simp only [Except.error.injEq] at h
      subst h
      exact hr.truncated hx hv
    · simp at h

theorem groups (start left : Nat) : Stable (groups start left) := by
  induction left with
  | zero => exact fail (by decide)
  | succ left ih =>
    refine byte.bind fun b => ?_
    split
    · exact .pure _
    · exact ih.bind fun _ => .pure _

theorem u30 : Stable u30 :=
  offset.bind fun _ => (withBytes (groups _ _)).bind fun ⟨_, _⟩ => (note _).bind fun _ => .pure _

theorem s32 : Stable s32 := u30.bind fun _ => .pure _

theorem u16 : Stable u16 := (bytes _).bind fun _ => .pure _

theorem s24 : Stable s24 := (bytes _).bind fun _ => .pure _

theorem double : Stable double := (bytes _).bind fun _ => .pure _

/-! ## Lists and records -/

theorem replicate (hr : Stable r) (count : Nat) : Stable (replicate r count) := by
  induction count with
  | zero => exact .pure _
  | succ count ih => exact hr.bind fun _ => ih.bind fun _ => .pure _

theorem counted (hr : Stable r) : Stable (counted r) := u30.bind fun _ => hr.replicate _

/-- What a record adds to a violation leaves its cause alone, and its offset where it is known. -/
theorem record (table : Table) (label : String) (hr : Stable r) :
    Stable (record table label r) where
  leaves {s t x} h := by
    simp only [Reader.record] at h
    split at h
    · simp at h
    · rename_i hx
      simp only [Except.ok.injEq, Prod.mk.injEq] at h
      obtain ⟨used, hrest, hoffset⟩ := hr.leaves hx
      exact ⟨used, by simpa [← h.2] using hrest, by simpa [← h.2] using hoffset⟩
  extend_ok {s t x} h more := by
    simp only [Reader.record] at h
    split at h
    · simp at h
    · rename_i hx
      simp only [Except.ok.injEq, Prod.mk.injEq] at h
      obtain ⟨rfl, rfl⟩ := h
      have hmore := hr.extend_ok hx more
      simp only [Input.extend] at hmore
      simp only [Reader.record, Input.extend, hmore]
  extend_error {s v} h hv more := by
    simp only [Reader.record] at h
    split at h
    · rename_i w hx
      simp only [Except.error.injEq] at h
      have hw : ¬ w.Truncated := by
        simpa [← h, Violation.Truncated, Violation.kind, Violation.inside, Violation.atOffset,
          apply_ite] using hv
      have hmore := hr.extend_error hx hw more
      simp only [Input.extend] at hmore
      simp only [Reader.record, Input.extend, hmore, h]
    · simp at h
  truncated {s v} h hv := by
    simp only [Reader.record] at h
    split at h
    · rename_i w hx
      simp only [Except.error.injEq] at h
      have hw : w.Truncated := by
        simpa [← h, Violation.Truncated, Violation.kind, Violation.inside, Violation.atOffset,
          apply_ite] using hv
      obtain ⟨o, ho, hlow, hhigh⟩ := hr.truncated hx hw
      refine ⟨o, ?_, hlow, hhigh⟩
      simp only [← h, Violation.inside]
      split <;> simp [Violation.atOffset, ho]
    · simp at h

theorem records (table : Table) (label : String) (hr : Stable r) (first count : Nat) :
    Stable (records table label r first count) := by
  induction count generalizing first with
  | zero => exact .pure _
  | succ count ih => exact (hr.record _ _).bind fun _ => (ih _).bind fun _ => .pure _

theorem settle (table : Table) (entries : Nat) : Stable (settle table entries) where
  leaves {s t x} h := by
    simp only [Reader.settle] at h
    split at h
    · simp at h
    · simp only [Except.ok.injEq, Prod.mk.injEq] at h
      exact ⟨[], by simp [← h.2], by simp [← h.2]⟩
  extend_ok {s t x} h more := by
    simp only [Reader.settle] at h
    split at h
    · simp at h
    · rename_i hnone
      simp only [Except.ok.injEq, Prod.mk.injEq] at h
      obtain ⟨-, rfl⟩ := h
      simp only [Reader.settle, Input.extend, hnone]
  extend_error {s v} h _ more := by
    simp only [Reader.settle] at h
    split at h
    · rename_i hsome
      simp only [Except.error.injEq] at h
      simp only [Reader.settle, Input.extend, hsome, h]
    · simp at h
  truncated {s v} h hv := by
    simp only [Reader.settle] at h
    split at h
    · simp only [Except.error.injEq] at h
      subst h
      simp [Violation.Truncated, Violation.kind, Cause.kind] at hv
    · simp at h

/-! ## Shorter inputs -/

/-- Any other end of the shorter data would be its end in the longer data too, which is read
beyond the cut. -/
theorem cut {s t : Input} {x : α} {n : Nat} (hr : Stable r) (h : r s = .ok (x, t))
    (hn : s.offset + n < t.offset) :
    ∃ v, r { s with rest := s.rest.take n } = .error v ∧ v.Truncated := by
  have hwhole : Input.extend { s with rest := s.rest.take n } (s.rest.drop n) = s := by
    simp [Input.extend]
  cases hcut : r { s with rest := s.rest.take n } with
  | ok p =>
    obtain ⟨y, u⟩ := p
    have hsame := hr.extend_ok hcut (s.rest.drop n)
    rw [hwhole, h] at hsame
    have hoffset : t.offset = u.offset := by
      simp only [Except.ok.injEq, Prod.mk.injEq] at hsame
      rw [hsame.2]
      rfl
    have hstop := (hr.leaves hcut).stop
    have hlen := List.length_take_le n s.rest
    dsimp only at hstop
    omega
  | error v =>
    by_cases hv : v.Truncated
    · exact ⟨v, rfl, hv⟩
    · have hsame := hr.extend_error hcut hv (s.rest.drop n)
      rw [hwhole, h] at hsame
      cases hsame

/-! ## Whole inputs -/

variable {b : Bytes} {x : α} {t : Input} {v : Violation}

theorem result_append (hr : Stable r) (h : r.result b = .ok x) (more : Bytes) :
    r.result (b ++ more) = .ok x := by
  obtain ⟨⟨_, t⟩, ht, rfl⟩ := Outcome.map_eq_ok.1 h
  have hmore := hr.extend_ok ht more
  exact Outcome.map_eq_ok.2 ⟨_, hmore, rfl⟩

theorem result_append_error (hr : Stable r) (h : r.result b = .error v) (hv : ¬ v.Truncated)
    (more : Bytes) : r.result (b ++ more) = .error v := by
  have ht := Outcome.map_eq_error.1 h
  exact Outcome.map_eq_error.2 (hr.extend_error ht hv more)

theorem result_take (hr : Stable r) (h : r (.ofBytes b) = .ok (x, t)) {k : Nat}
    (hk : k < t.offset) : ∃ v, r.result (b.take k) = .error v ∧ v.Truncated ∧
      ∃ o : Nat, v.offset = some ↑o ∧ o ≤ k := by
  have hcut : (Input.ofBytes b).offset + k < t.offset := (Nat.zero_add k).symm ▸ hk
  obtain ⟨v, hcut, hv⟩ := hr.cut h hcut
  obtain ⟨o, ho, -, hhigh⟩ := hr.truncated hcut hv
  have hlen : (b.take k).length ≤ k := List.length_take_le k b
  simp only [Input.ofBytes, Nat.zero_add] at hhigh
  exact ⟨v, Outcome.map_eq_error.2 hcut, hv, o, ho, Nat.le_trans hhigh hlen⟩

end Stable

end Reader

end ActionCode
