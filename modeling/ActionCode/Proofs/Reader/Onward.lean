import ActionCode.Proofs.Location

/-!
# Readers that go on

A stable reader does not see what lies behind the bytes it takes, but it may still insist that
there is something. A reader goes on from an offset if it needs nothing but what it takes, and
if it never blames what lies in front of that offset. The readers of instructions do, and they
know of no record around an instruction.
-/

namespace ActionCode

/-- Told at a byte from `base` on, and in no record. -/
def Violation.Since (base : Nat) (v : Violation) : Prop :=
  v.place = none ∧ ∃ o : Nat, v.offset = some ↑o ∧ base ≤ o

namespace Reader

/-- Reads in the same way whatever stands behind the bytes that it takes, from `base` on. -/
structure Onward {α : Type} (base : Nat) (r : Reader α) : Prop where
  takes {s t : Input} {x : α} : r s = .ok (x, t) → base ≤ s.offset →
    ∃ used, s.rest = used ++ t.rest ∧ t.offset = s.offset + used.length ∧
      ∀ rest, r { s with rest := used ++ rest } = .ok (x, { t with rest := rest })
  since {s : Input} {v : Violation} : r s = .error v → base ≤ s.offset → v.Since base

namespace Onward

variable {α β : Type} {base : Nat} {r : Reader α}

/-! ## Chains -/

theorem pure (x : α) : Onward base (pure x : Reader α) where
  takes := by
    rintro s _ _ ⟨⟩ -
    exact ⟨[], rfl, rfl, fun _ => rfl⟩
  since := by rintro s v ⟨⟩

theorem bind {f : α → Reader β} (hr : Onward base r) (hf : ∀ x, Onward base (f x)) :
    Onward base (r >>= f) where
  takes {s u y} h hs := by
    obtain ⟨x, t, hx, hy⟩ := bind_eq_ok.1 h
    obtain ⟨used, hrest, hoffset, hr'⟩ := hr.takes hx hs
    have ht : base ≤ t.offset := hoffset ▸ Nat.le_add_right_of_le hs
    obtain ⟨used', hrest', hoffset', hf'⟩ := (hf x).takes hy ht
    refine ⟨used ++ used', ?_, ?_, fun rest => ?_⟩
    · rw [hrest, hrest', List.append_assoc]
    · rw [hoffset', hoffset, List.length_append, Nat.add_assoc]
    · rw [List.append_assoc, bind_apply (hr' (used' ++ rest))]
      exact hf' rest
  since {s v} h hs := by
    rcases bind_eq_error.1 h with hx | ⟨x, t, hx, hy⟩
    · exact hr.since hx hs
    · obtain ⟨used, -, hoffset, -⟩ := hr.takes hx hs
      exact (hf x).since hy (hoffset ▸ Nat.le_add_right_of_le hs)

/-- What is read next may be blamed, since it stands behind `base`. -/
theorem offset_bind {f : Nat → Reader β} (hf : ∀ o, base ≤ o → Onward base (f o)) :
    Onward base (Reader.offset >>= f) where
  takes {s u y} h hs := by
    obtain ⟨_, _, ⟨⟩, hy⟩ := bind_eq_ok.1 h
    exact (hf s.offset hs).takes hy hs
  since {s v} h hs := by
    rcases bind_eq_error.1 h with ⟨⟨⟩⟩ | ⟨_, _, ⟨⟩, hy⟩
    exact (hf s.offset hs).since hy hs

theorem lift {e : Except Violation α} (he : ∀ v, e = .error v → v.Since base) :
    Onward base (liftM e : Reader α) where
  takes {s t x} h _ := by
    obtain ⟨hok, rfl⟩ := lift_eq_ok.1 h
    exact ⟨[], rfl, rfl, fun _ => lift_eq_ok.2 ⟨hok, rfl⟩⟩
  since h _ := he _ (lift_eq_error.1 h)

/-! ## Single fields -/

theorem offset : Onward base Reader.offset where
  takes := by
    rintro s _ _ ⟨⟩ -
    exact ⟨[], rfl, rfl, fun _ => rfl⟩
  since := by rintro s v ⟨⟩

theorem fail {cause : Cause} {o : Nat} (ho : base ≤ o) :
    Onward base (fail cause o : Reader α) where
  takes := by rintro s t x ⟨⟩
  since := by
    rintro s _ ⟨⟩ -
    exact ⟨rfl, o, rfl, ho⟩

theorem next (missed : Nat) : Onward base (next missed) where
  takes {s t b} h _ := by
    obtain ⟨hrest, ht⟩ := Yields.next_eq_ok h
    refine ⟨[b], hrest, by rw [ht]; rfl, fun rest => ?_⟩
    rw [ht]
    rfl
  since {s v} h hs := by
    unfold Reader.next at h
    split at h
    · obtain ⟨⟩ := h
      exact ⟨rfl, s.offset, rfl, hs⟩
    · cases h

theorem byte : Onward base byte := next 8

theorem note (spelling : Spelling) : Onward base (note spelling) where
  takes := by
    rintro s _ _ ⟨⟩ -
    exact ⟨[], rfl, rfl, fun _ => rfl⟩
  since := by rintro s v ⟨⟩

theorem bytes (count : Nat) : Onward base (bytes count) where
  takes {s t run} h _ := by
    obtain ⟨hlength, hrest, ht⟩ := Yields.bytes_eq_ok h
    refine ⟨run, hrest, by rw [ht, hlength], fun rest => ?_⟩
    have hle : count ≤ (run ++ rest).length := by
      rw [List.length_append, hlength]
      exact Nat.le_add_right _ _
    rw [bytes_of_le hle, ht]
    simp only [← hlength, List.take_left, List.drop_left]
  since {s v} h hs := by
    rcases Nat.lt_or_ge s.rest.length count with hlt | hle
    · rw [bytes_of_lt hlt] at h
      obtain ⟨⟩ := h
      exact ⟨rfl, s.offset, rfl, hs⟩
    · rw [bytes_of_le hle] at h
      cases h

theorem withBytes (hr : Onward base r) : Onward base (withBytes r) where
  takes {s t p} h hs := by
    unfold Reader.withBytes at h
    split at h
    · cases h
    · rename_i x u hx
      obtain ⟨⟩ := h
      obtain ⟨used, hrest, hoffset, hmore⟩ := hr.takes hx hs
      have hrun : t.offset - s.offset = used.length := by omega
      refine ⟨used, hrest, hoffset, fun rest => ?_⟩
      simp only [Reader.withBytes, hmore rest, hrest, hrun, List.take_left]
  since {s v} h hs := by
    unfold Reader.withBytes at h
    split at h
    · rename_i hx
      obtain ⟨⟩ := h
      exact hr.since hx hs
    · cases h

/-- A number that is too long is blamed where it starts. -/
theorem groups {start : Nat} (hstart : base ≤ start) (left : Nat) :
    Onward base (groups start left) := by
  induction left with
  | zero => exact fail hstart
  | succ left ih =>
    refine byte.bind fun b => ?_
    split
    · exact .pure _
    · exact ih.bind fun _ => .pure _

theorem u30 : Onward base u30 :=
  offset_bind fun _ ho => (withBytes (groups ho _)).bind fun ⟨_, _⟩ =>
    (note _).bind fun _ => .pure _

theorem s24 : Onward base s24 := (bytes _).bind fun _ => .pure _

theorem replicate (hr : Onward base r) (count : Nat) : Onward base (replicate r count) := by
  induction count with
  | zero => exact .pure _
  | succ count ih => exact hr.bind fun _ => ih.bind fun _ => .pure _

end Onward

end Reader

open Reader (Onward Stable Located)

/-! ## Instructions -/

variable {base : Nat}

theorem Scope.onward_accept (scope : Scope) (t : Table) (index : Nat) {o : Nat} (ho : base ≤ o) :
    Onward base (scope.accept t index o) := by
  have hcheck (v : Violation) (h : scope.check t index (some ↑o) = .error v) : v.Since base := by
    obtain ⟨-, -, -, rfl⟩ := check_eq_error.1 h
    exact ⟨rfl, o, rfl, ho⟩
  unfold Scope.accept
  split
  · exact {
      takes := by
        rintro s _ _ ⟨⟩ -
        exact ⟨[], rfl, rfl, fun _ => rfl⟩
      since := by rintro s _ ⟨⟩ }
  · exact .lift hcheck
  · exact .lift hcheck

theorem Scope.onward_readIndex (scope : Scope) (t : Table) : Onward base (scope.readIndex t) :=
  .offset_bind fun _ ho => .bind .u30 fun n =>
    .bind (scope.onward_accept t n ho) fun _ => .pure _

theorem Operands.onward_read (scope : Scope) (os : List (String × Operand)) :
    Onward base (Operands.read scope os) := by
  induction os with
  | nil => exact .pure ()
  | cons p os ih =>
    obtain ⟨name, o⟩ := p
    refine .bind ?_ fun _ => .bind ih fun _ => .pure _
    cases o with
    | byte => exact .bind .byte fun _ => .pure _
    | number => exact .bind .u30 fun _ => .pure _
    | entry t => exact scope.onward_readIndex t

theorem Layout.onward_read (scope : Scope) (address : Nat) (l : Layout) :
    Onward base (l.read scope address) := by
  cases l with
  | fixed os => exact Operands.onward_read scope os
  | branch => exact .bind .s24 fun _ => .bind .offset fun _ => .pure _
  | switch =>
    have htarget : Onward base (readTarget address) := .bind .s24 fun _ => .pure _
    exact .bind htarget fun _ => .bind .u30 fun _ => .bind (.replicate htarget _) fun _ => .pure _

namespace Instruction

variable {w : Limits} {scope : Scope} {s t : Input} {i : Instruction} {v : Violation}

theorem onward_read (scope : Scope) : Onward base (read scope) := by
  refine .offset_bind fun o ho => .bind .byte fun code => ?_
  split
  · exact .fail ho
  · exact .bind (Layout.onward_read scope _ _) fun _ => .pure _

theorem offset_lt_read (h : read scope s = .ok (i, t)) : s.offset < t.offset := by
  obtain ⟨u, -, hu, hargs⟩ := read_eq_ok h
  have hstop := ((Layout.stable_read scope _ _).leaves hargs).stop.1
  rw [hu] at hstop
  exact hstop

/-- What is wrong with an instruction stands inside of it: the bytes in front of that could be
read. -/
theorem cut_of_read_error (h : read scope s = .error v) (hs : s.Within w) (hv : ¬ v.Truncated) :
    ∃ n, v = ⟨v.cause, some ↑(s.offset + n), none⟩ ∧ n < s.rest.length ∧
      ∃ u, read scope { s with rest := s.rest.take n } = .error u ∧ u.Truncated := by
  obtain ⟨hplace, o, ho, hle⟩ := (onward_read scope).since h (Nat.le_refl _)
  obtain ⟨o', ho', hlt⟩ := (located_read scope).before h hs hv
  obtain rfl : o' = o := Int.ofNat.inj (Option.some.inj (ho'.symm.trans ho))
  obtain ⟨n, rfl⟩ := Nat.exists_eq_add_of_le hle
  have hn : n < s.rest.length := by
    have hstop := hs.stop
    omega
  refine ⟨n, by rw [← ho, ← hplace], hn, ?_⟩
  have hwhole : Input.extend { s with rest := s.rest.take n } (s.rest.drop n) = s := by
    simp [Input.extend]
  cases hcut : read scope { s with rest := s.rest.take n } with
  | ok p =>
    have hsame := (stable_read scope).extend_ok hcut (s.rest.drop n)
    rw [hwhole, h] at hsame
    cases hsame
  | error u =>
    by_cases hu : u.Truncated
    · exact ⟨u, rfl, hu⟩
    · -- The same violation would be found at a byte that was cut off.
      have hsame := (stable_read scope).extend_error hcut hu (s.rest.drop n)
      rw [hwhole, h] at hsame
      obtain rfl := Except.error.inj hsame
      have hcutstop : s.offset + (s.rest.take n).length = s.offset + n := by
        rw [List.length_take_of_le (Nat.le_of_lt hn)]
      have hbound : s.offset + n ≤ w.kept := Nat.le_trans (Nat.le_of_lt hlt) w.stop_le
      obtain ⟨o', ho', hlt'⟩ := (located_read scope (w := ⟨s.offset + n, w.kept, hbound⟩)).before
        hcut ⟨hcutstop, hs.kept⟩ hu
      obtain rfl : o' = s.offset + n := Int.ofNat.inj (Option.some.inj (ho'.symm.trans ho))
      exact absurd hlt' (Nat.lt_irrefl _)

end Instruction

end ActionCode
