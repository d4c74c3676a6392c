import ActionCode.Scope

/-!
# Outcomes

What it means for a chain of readers or writers to come to an end: every link did. These
equations take chains apart, so that no proof has to open the monads again.
-/

namespace ActionCode

-- ---------------------------------------------------------------------------
-- Writers
-- ---------------------------------------------------------------------------

namespace Outcome

variable {ε ε' α β : Type}

@[simp] theorem pure_eq_ok {x y : α} : (pure x : Except ε α) = .ok y ↔ x = y := by
  simp [pure, Except.pure]

/-- A chain comes to an end if its first link does and the rest does with its value. -/
theorem bind_eq_ok {x : Except ε α} {f : α → Except ε β} {y : β} :
    (x >>= f) = .ok y ↔ ∃ a, x = .ok a ∧ f a = .ok y := by
  cases x with
  | error e => simp [bind, Except.bind]
  | ok a => simp [bind, Except.bind]

theorem bind_eq_error {x : Except ε α} {f : α → Except ε β} {e : ε} :
    (x >>= f) = .error e ↔ x = .error e ∨ ∃ a, x = .ok a ∧ f a = .error e := by
  cases x with
  | error d => simp [bind, Except.bind]
  | ok a => simp [bind, Except.bind]

theorem mapError_eq_ok {x : Except ε α} {f : ε → ε'} {a : α} :
    x.mapError f = .ok a ↔ x = .ok a := by
  cases x with
  | error e => exact ⟨nofun, nofun⟩
  | ok b =>
    constructor
    · rintro ⟨⟩
      rfl
    · rintro ⟨⟩
      rfl

theorem map_eq_ok {x : Except ε α} {f : α → β} {y : β} :
    x.map f = .ok y ↔ ∃ a, x = .ok a ∧ f a = y := by
  cases x <;> simp [Except.map]

theorem exists_map_eq_ok {x : Except ε α} {f : α → β} :
    (∃ y, x.map f = .ok y) ↔ ∃ a, x = .ok a := by
  cases x <;> simp [Except.map]

theorem map_eq_error {x : Except ε α} {f : α → β} {e : ε} :
    x.map f = .error e ↔ x = .error e := by
  cases x <;> simp [Except.map]

/-- An outcome is compared by its value, for which equality is decidable more often. -/
theorem toOption_eq_some {x : Except ε α} {a : α} : x.toOption = some a ↔ x = .ok a := by
  cases x <;> simp [Except.toOption]

def failure? : Except ε α → Option ε
  | .error e => some e
  | .ok _ => none

theorem failure?_eq_some {x : Except ε α} {e : ε} : failure? x = some e ↔ x = .error e := by
  cases x <;> simp [failure?]

end Outcome

/-- The name of a record only shows in its violations. -/
theorem writeRecords_eq_ok {α : Type} {label : String} {write : α → Except Fault Bytes}
    {first : Nat} {xs : List α} {bytes : Bytes} :
    writeRecords label write first xs = .ok bytes ↔ writeEach write xs = .ok bytes := by
  induction xs generalizing first bytes with
  | nil => rfl
  | cons x xs ih =>
    simp only [writeRecords, writeEach, Outcome.bind_eq_ok, Outcome.mapError_eq_ok, ih]

theorem exists_writeEach {α : Type} {write : α → Except Fault Bytes} {xs : List α} :
    (∃ bytes, writeEach write xs = .ok bytes) ↔ ∀ x ∈ xs, ∃ bytes, write x = .ok bytes := by
  induction xs with
  | nil => simp [writeEach]
  | cons x xs ih =>
    rw [List.forall_mem_cons, ← ih]
    simp only [writeEach, Outcome.bind_eq_ok, Outcome.pure_eq_ok]
    constructor
    · rintro ⟨_, a, ha, b, hb, rfl⟩
      exact ⟨⟨a, ha⟩, b, hb⟩
    · rintro ⟨⟨a, ha⟩, b, hb⟩
      exact ⟨_, a, ha, b, hb, rfl⟩

-- ---------------------------------------------------------------------------
-- Readers
-- ---------------------------------------------------------------------------

namespace Reader

variable {α β : Type} {r : Reader α} {f : α → Reader β} {s t u : Input} {x : α} {y : β}
  {v : Violation}

@[simp] theorem pure_apply : (pure x : Reader α) s = .ok (x, s) := rfl

theorem bind_apply (h : r s = .ok (x, t)) : (r >>= f) s = f x t := by
  change (r s >>= fun p => f p.1 p.2) = f x t
  rw [h]
  rfl

theorem bind_error (h : r s = .error v) : (r >>= f) s = .error v := by
  change (r s >>= fun p => f p.1 p.2) = .error v
  rw [h]
  rfl

theorem bind_eq_ok :
    (r >>= f) s = .ok (y, u) ↔ ∃ x t, r s = .ok (x, t) ∧ f x t = .ok (y, u) := by
  cases h : r s with
  | error v => simp [bind_error h]
  | ok p =>
    obtain ⟨x, t⟩ := p
    rw [bind_apply h]
    simp only [Except.ok.injEq, Prod.mk.injEq]
    constructor
    · exact fun h => ⟨x, t, ⟨rfl, rfl⟩, h⟩
    · rintro ⟨_, _, ⟨rfl, rfl⟩, h⟩
      exact h

theorem bind_eq_error :
    (r >>= f) s = .error v ↔ r s = .error v ∨ ∃ x t, r s = .ok (x, t) ∧ f x t = .error v := by
  cases h : r s with
  | error w => simp [bind_error h]
  | ok p =>
    obtain ⟨x, t⟩ := p
    rw [bind_apply h]
    simp only [Except.ok.injEq, Prod.mk.injEq, reduceCtorEq, false_or]
    constructor
    · exact fun h => ⟨x, t, ⟨rfl, rfl⟩, h⟩
    · rintro ⟨_, _, ⟨rfl, rfl⟩, h⟩
      exact h

theorem lift_eq_ok {e : Except Violation α} :
    (liftM e : Reader α) s = .ok (x, t) ↔ e = .ok x ∧ s = t := by
  change (e >>= fun x => pure (x, s)) = .ok (x, t) ↔ _
  rw [Outcome.bind_eq_ok]
  constructor
  · rintro ⟨_, rfl, h⟩
    simpa using h
  · rintro ⟨rfl, rfl⟩
    exact ⟨x, rfl, rfl⟩

theorem lift_eq_error {e : Except Violation α} :
    (liftM e : Reader α) s = .error v ↔ e = .error v := by
  change (e >>= fun x => pure (x, s)) = .error v ↔ _
  cases e <;> simp [bind, Except.bind, pure, Except.pure]

/-- A run of bytes is read if there are enough of them. -/
theorem bytes_of_le {count : Nat} (h : count ≤ s.rest.length) :
    bytes count s = .ok (s.rest.take count,
      { s with rest := s.rest.drop count, offset := s.offset + count }) := by
  have hlen : ¬ (s.rest.take count).length < count := by
    rw [List.length_take]
    omega
  simp only [bytes, if_neg hlen]

theorem bytes_of_lt {count : Nat} (h : s.rest.length < count) :
    bytes count s = .error
      ⟨.truncatedInput (8 * (count - s.rest.length)), some s.offset, none⟩ := by
  have hlen : s.rest.take count = s.rest := List.take_of_length_le (Nat.le_of_lt h)
  simp only [bytes, hlen, if_pos h]

/-- A table is settled if none of the references into it is out of bounds; they are not kept
any longer. -/
theorem settle_eq_ok {table : Table} {entries : Nat} {t : Input} :
    settle table entries s = .ok ((), t) ↔
      (∀ p ∈ s.deferred, p.1 = table → Table.InBounds table.reserved entries p.2.index) ∧
        { s with deferred := s.deferred.filter fun p => ¬ p.1 = table } = t := by
  have hothers : s.deferred.filter (not ∘ fun p => decide (p.1 = table)) =
      s.deferred.filter fun p => ¬ p.1 = table := by
    simp [Function.comp_def]
  simp only [settle, List.partition_eq_filter_filter]
  split
  · rename_i hfind
    have hmem := List.mem_of_find?_eq_some hfind
    have hout := List.find?_some hfind
    simp only [List.mem_filter, decide_eq_true_eq] at hmem hout
    simp only [reduceCtorEq, false_iff, not_and]
    intro h
    exact absurd (h _ hmem.1 hmem.2) hout
  · rename_i hfind
    have hbounds : ∀ p ∈ s.deferred, p.1 = table →
        Table.InBounds table.reserved entries p.2.index := by
      simpa [List.find?_eq_none] using hfind
    simp only [Except.ok.injEq, Prod.mk.injEq, true_and, and_iff_right hbounds, hothers]

end Reader

end ActionCode
