import ActionCode.Proofs.Reader.Yields

/-!
# Located violations

A violation that is no truncation is told at a byte of the data. A reader is located if all of
its violations are, and if the references that it keeps for later stand at bytes of the data
as well, since one of them may be blamed when its table is settled.
-/

namespace ActionCode

/-- The offset is that of a byte in front of `stop`. -/
def Violation.Before (stop : Nat) (v : Violation) : Prop :=
  ∃ o : Nat, v.offset = some ↑o ∧ o < stop

/-- Where the data ends, and the references kept for later at the latest. The data may be a part
of what these references come from. -/
structure Limits where
  stop : Nat
  kept : Nat
  stop_le : stop ≤ kept

/-- The limits of data of `stop` bytes that is no part of anything. -/
def Limits.whole (stop : Nat) : Limits := ⟨stop, stop, Nat.le_refl stop⟩

structure Input.Within (w : Limits) (s : Input) : Prop where
  stop : s.offset + s.rest.length = w.stop
  kept : ∀ p ∈ s.deferred, p.2.offset < w.kept

namespace Reader

structure Located {α : Type} (w : Limits) (r : Reader α) : Prop where
  within {s t : Input} {x : α} : r s = .ok (x, t) → s.Within w → t.Within w
  before {s : Input} {v : Violation} :
    r s = .error v → s.Within w → ¬ v.Truncated → v.Before w.stop

/-- As located as a record needs it, which tells a violation without an offset where it starts
itself. -/
structure Locatable {α : Type} (w : Limits) (r : Reader α) : Prop where
  within {s t : Input} {x : α} : r s = .ok (x, t) → s.Within w → t.Within w
  before {s : Input} {v : Violation} :
    r s = .error v → s.Within w → ¬ v.Truncated → (v.atOffset s.offset).Before w.stop

variable {α β : Type} {w : Limits} {r : Reader α} {f : α → Reader β} {s t : Input} {v : Violation}

/-! ## What is taken -/

theorem offset_lt_byte {b : UInt8} (h : byte s = .ok (b, t)) : s.offset < t.offset := by
  obtain ⟨-, ht⟩ := Yields.next_eq_ok h
  rw [ht]
  exact Nat.lt_succ_self _

theorem offset_lt_flags {skipped : Nat} {b : UInt8} (h : flags skipped s = .ok (b, t)) :
    s.offset < t.offset := by
  obtain ⟨_, u, hnext, h⟩ := bind_eq_ok.1 h
  obtain ⟨_, _, ⟨⟩, ⟨⟩⟩ := bind_eq_ok.1 h
  obtain ⟨-, hu⟩ := Yields.next_eq_ok hnext
  rw [hu]
  exact Nat.lt_succ_self _

theorem offset_lt_u30 {n : Nat} (h : u30 s = .ok (n, t)) : s.offset < t.offset := by
  obtain ⟨-, used, -, hlength, ht⟩ := Yields.u30_eq_ok h
  have hpos := Varint.length_encode_pos n
  rw [ht]
  exact Nat.lt_add_of_pos_right (Nat.lt_of_lt_of_le hpos hlength)

/-- A number is too long only where there are enough bytes for it. -/
theorem groups_eq_error {start left : Nat} (h : groups start left s = .error v)
    (hv : ¬ v.Truncated) : v.offset = some ↑start ∧ left ≤ s.rest.length := by
  induction left generalizing s with
  | zero =>
    obtain ⟨⟩ := h
    exact ⟨rfl, Nat.zero_le _⟩
  | succ left ih =>
    rcases bind_eq_error.1 h with hb | ⟨b, u, hb, h⟩
    · unfold byte Reader.next at hb
      split at hb
      · obtain ⟨⟩ := hb
        exact absurd rfl hv
      · cases hb
    · obtain ⟨hrest, -⟩ := Yields.next_eq_ok hb
      split at h
      · cases h
      · rcases bind_eq_error.1 h with h | ⟨_, _, _, ⟨⟩⟩
        obtain ⟨hoffset, hle⟩ := ih h
        rw [hrest]
        exact ⟨hoffset, Nat.succ_le_succ hle⟩

theorem u30_eq_error (h : u30 s = .error v) (hv : ¬ v.Truncated) :
    v.offset = some ↑s.offset ∧ 5 ≤ s.rest.length := by
  rcases bind_eq_error.1 h with ⟨⟨⟩⟩ | ⟨_, _, ⟨⟩, h⟩
  rcases bind_eq_error.1 h with h | ⟨_, _, _, h⟩
  · unfold withBytes at h
    split at h
    · rename_i hgroups
      obtain ⟨⟩ := h
      exact groups_eq_error hgroups hv
    · cases h
  · rcases bind_eq_error.1 h with ⟨⟨⟩⟩ | ⟨_, _, _, ⟨⟩⟩

namespace Located

/-! ## Chains -/

theorem pure (x : α) : Located w (pure x : Reader α) where
  within := by
    rintro s _ _ ⟨⟩ hs
    exact hs
  before := by rintro s v ⟨⟩

theorem bind (hr : Located w r) (hf : ∀ x, Located w (f x)) : Located w (r >>= f) where
  within h hs := by
    obtain ⟨x, t, hx, hy⟩ := bind_eq_ok.1 h
    exact (hf x).within hy (hr.within hx hs)
  before h hs hv := by
    rcases bind_eq_error.1 h with hx | ⟨x, t, hx, hy⟩
    · exact hr.before hx hs hv
    · exact (hf x).before hy (hr.within hx hs) hv

/-- What comes behind a field may blame the field, since that was there. -/
theorem offset_bind {f : Nat → α → Reader β} (hr : Located w r)
    (hf : ∀ s x t, r s = .ok (x, t) → t.offset ≤ w.stop → Located w (f s.offset x)) :
    Located w (Reader.offset >>= fun o => r >>= f o) where
  within {s u y} h hs := by
    obtain ⟨_, _, ⟨⟩, h⟩ := bind_eq_ok.1 h
    obtain ⟨x, t, hx, hy⟩ := bind_eq_ok.1 h
    have ht := hr.within hx hs
    exact (hf s x t hx (ht.stop ▸ Nat.le_add_right _ _)).within hy ht
  before {s v} h hs hv := by
    rcases bind_eq_error.1 h with ⟨⟨⟩⟩ | ⟨_, _, ⟨⟩, h⟩
    rcases bind_eq_error.1 h with hx | ⟨x, t, hx, hy⟩
    · exact hr.before hx hs hv
    · have ht := hr.within hx hs
      exact (hf s x t hx (ht.stop ▸ Nat.le_add_right _ _)).before hy ht hv

theorem lift {e : Except Violation α} (he : ∀ v, e = .error v → v.Before w.stop) :
    Located w (liftM e : Reader α) where
  within h hs := (lift_eq_ok.1 h).2 ▸ hs
  before h _ _ := he _ (lift_eq_error.1 h)

/-- What only fails at the end of the data and keeps nothing for later. -/
theorem of_stable (hr : Stable r) (hkept : ∀ s x t, r s = .ok (x, t) → t.deferred = s.deferred)
    (herror : ∀ s v, r s = .error v → v.Truncated) : Located w r where
  within {s t x} h hs :=
    { stop := (hr.leaves h).stop.2.trans hs.stop
      kept := fun p hp => hs.kept p (hkept s x t h ▸ hp) }
  before {s v} h _ hv := absurd (herror s v h) hv

/-! ## Single fields -/

theorem offset : Located w Reader.offset :=
  of_stable .offset (by rintro s _ _ ⟨⟩; rfl) (by rintro s _ ⟨⟩)

theorem fail {cause : Cause} {o : Nat} (ho : o < w.stop) :
    Located w (fail cause o : Reader α) where
  within := by rintro s t x ⟨⟩
  before := by
    rintro s _ ⟨⟩ - -
    exact ⟨o, rfl, ho⟩

theorem next (missed : Nat) : Located w (next missed) := by
  refine of_stable (.next missed) (fun s b t h => ?_) fun s v h => ?_
  · obtain ⟨-, ht⟩ := Yields.next_eq_ok h
    rw [ht]
  · unfold Reader.next at h
    split at h
    · obtain ⟨⟩ := h
      rfl
    · cases h

theorem byte : Located w byte := next 8

theorem note (spelling : Spelling) : Located w (note spelling) :=
  of_stable (.note spelling) (by rintro s _ _ ⟨⟩; rfl) (by rintro s _ ⟨⟩)

theorem flags (skipped : Nat) : Located w (flags skipped) :=
  (next _).bind fun _ => (note _).bind fun _ => .pure _

theorem bytes (count : Nat) : Located w (bytes count) := by
  refine of_stable (.bytes count) (fun s x t h => ?_) fun s v h => ?_
  · obtain ⟨-, -, ht⟩ := Yields.bytes_eq_ok h
    rw [ht]
  · rcases Nat.lt_or_ge s.rest.length count with hlt | hle
    · rw [bytes_of_lt hlt] at h
      obtain ⟨⟩ := h
      rfl
    · rw [bytes_of_le hle] at h
      cases h

theorem u30 : Located w u30 where
  within {s t n} h hs := by
    have hstop := (Stable.u30.leaves h).stop
    obtain ⟨-, used, -, -, ht⟩ := Yields.u30_eq_ok h
    exact ⟨hstop.2.trans hs.stop, fun p hp => hs.kept p (by rw [ht] at hp; exact hp)⟩
  before {s v} h hs hv := by
    obtain ⟨hoffset, hlength⟩ := u30_eq_error h hv
    have hstop := hs.stop
    exact ⟨s.offset, hoffset, by omega⟩

theorem s32 : Located w s32 := u30.bind fun _ => .pure _

theorem u16 : Located w u16 := (bytes _).bind fun _ => .pure _

theorem s24 : Located w s24 := (bytes _).bind fun _ => .pure _

theorem double : Located w double := (bytes _).bind fun _ => .pure _

/-! ## Lists and records -/

theorem replicate (hr : Located w r) (count : Nat) : Located w (replicate r count) := by
  induction count with
  | zero => exact .pure _
  | succ count ih => exact hr.bind fun _ => ih.bind fun _ => .pure _

theorem counted (hr : Located w r) : Located w (counted r) := u30.bind fun _ => hr.replicate _

theorem locatable (hr : Located w r) : Locatable w r where
  within := hr.within
  before h hs hv := by
    obtain ⟨o, ho, hlt⟩ := hr.before h hs hv
    exact ⟨o, by rw [Violation.atOffset, ho]; rfl, hlt⟩

/-- A record keeps no references of its own at first, and names those it keeps then. -/
theorem record (table : Table) (label : String) (hr : Locatable w r) :
    Located w (record table label r) where
  within {s t x} h hs := by
    unfold Reader.record at h
    split at h
    · cases h
    · rename_i u hx
      obtain ⟨⟩ := h
      have hu := hr.within hx ⟨hs.stop, by simp⟩
      refine ⟨hu.stop, fun p hp => ?_⟩
      rcases List.mem_append.1 hp with hp | hp
      · exact hs.kept p hp
      · obtain ⟨q, hq, rfl⟩ := List.mem_map.1 hp
        have hlt := hu.kept q hq
        dsimp only
        split
        · exact hlt
        · exact hlt
  before {s v} h hs hv := by
    unfold Reader.record at h
    split at h
    · rename_i u hx
      obtain ⟨⟩ := h
      have hu : ¬ u.Truncated := by
        simpa [Violation.Truncated, Violation.kind, Violation.inside, Violation.atOffset,
          apply_ite] using hv
      obtain ⟨o, ho, hlt⟩ := hr.before hx ⟨hs.stop, by simp⟩ hu
      refine ⟨o, ?_, hlt⟩
      unfold Violation.inside
      split
      · exact ho
      · exact ho
    · cases h

theorem records (table : Table) (label : String) (hr : Locatable w r) (first count : Nat) :
    Located w (records table label r first count) := by
  induction count generalizing first with
  | zero => exact .pure _
  | succ count ih => exact (record _ _ hr).bind fun _ => (ih _).bind fun _ => .pure _

/-- A reference that was kept for later is blamed where it stands. -/
theorem settle (table : Table) (entries : Nat) (hw : w.kept ≤ w.stop) :
    Located w (settle table entries) where
  within {s t x} h hs := by
    obtain ⟨-, rfl⟩ := settle_eq_ok.1 h
    exact ⟨hs.stop, fun p hp => hs.kept p (List.mem_filter.1 hp).1⟩
  before {s v} h hs _ := by
    unfold Reader.settle at h
    simp only [List.partition_eq_filter_filter] at h
    split at h
    · rename_i hfind
      obtain ⟨⟩ := h
      have hmem := (List.mem_filter.1 (List.mem_of_find?_eq_some hfind)).1
      exact ⟨_, rfl, Nat.lt_of_lt_of_le (hs.kept _ hmem) hw⟩
    · cases h

end Located

end Reader

end ActionCode
