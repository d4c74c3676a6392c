import ActionCode.Proofs.Reader.Yields
import ActionCode.Proofs.Stability

/-!
# What reading costs

Nothing is read for free: a reader costs at least the value that it gives if it takes so many bytes
for it. Bytes are taken once, so that the costs of a chain add up, and those of a list are the costs
of all that is in it, however many things were announced.
-/

namespace ActionCode

/-! ## Totals -/

/-- The weight of a list of things. -/
def total {α : Type} (weight : α → Nat) : List α → Nat
  | [] => 0
  | x :: xs => weight x + total weight xs

@[simp] theorem total_nil {α : Type} (weight : α → Nat) : total weight [] = 0 := rfl

@[simp] theorem total_cons {α : Type} (weight : α → Nat) (x : α) (xs : List α) :
    total weight (x :: xs) = weight x + total weight xs := rfl

@[simp] theorem total_one {α : Type} (xs : List α) : total (fun _ => 1) xs = xs.length := by
  induction xs with
  | nil => rfl
  | cons x xs ih => rw [total_cons, ih, List.length_cons, Nat.add_comm]

namespace Reader

/-- The bytes that are taken cover what the value costs, together with `paid` others. -/
def Costs {α : Type} (paid : Nat) (r : Reader α) (cost : α → Nat) : Prop :=
  ∀ ⦃s t : Input⦄ ⦃x : α⦄, r s = .ok (x, t) → s.offset + cost x ≤ t.offset + paid

namespace Costs

variable {α β : Type} {paid : Nat} {r : Reader α} {f : α → Reader β} {cost : α → Nat}
  {cost' : β → Nat}

/-! ## Chains -/

theorem of_stable (hr : Stable r) : Costs 0 r fun _ => 0 := fun _ _ _ h => (hr.leaves h).stop.1

theorem pure {x : α} (h : cost x ≤ paid) : Costs paid (pure x : Reader α) cost := by
  rintro s _ _ ⟨⟩
  exact Nat.add_le_add_left h _

/-- What comes first is paid for when the rest is read. -/
theorem bind (hr : Costs 0 r cost) (hf : ∀ x, Costs (paid + cost x) (f x) cost') :
    Costs paid (r >>= f) cost' := by
  intro s u y h
  obtain ⟨x, t, hx, hy⟩ := bind_eq_ok.1 h
  have hfirst := hr hx
  have hrest := hf x hy
  omega

/-- What was paid before is spent on a reader that does not take enough bytes itself. -/
theorem spend {spent : Nat} (hr : Costs spent r cost) (hspent : spent ≤ paid)
    (hf : ∀ x, Costs (paid - spent + cost x) (f x) cost') : Costs paid (r >>= f) cost' := by
  intro s u y h
  obtain ⟨x, t, hx, hy⟩ := bind_eq_ok.1 h
  have hfirst := hr hx
  have hrest := hf x hy
  omega

/-- A reader in front that need not pay for anything. -/
theorem after (hr : Stable r) (hf : ∀ x, Costs paid (f x) cost') : Costs paid (r >>= f) cost' :=
  bind (of_stable hr) hf

/-- A reader that pays for some of its value itself, and whose value may cost more than that. -/
theorem imp {cost₁ cost₂ : α → Nat} (hr : Costs 0 r cost₁) (h : ∀ x, cost₂ x ≤ paid + cost₁ x) :
    Costs paid r cost₂ := by
  intro s t x hx
  have hown := hr hx
  have hall := h x
  omega

theorem fail {cause : Cause} {o : Nat} : Costs paid (fail cause o : Reader α) cost := by
  rintro s t x ⟨⟩

/-! ## Single fields -/

theorem next (missed : Nat) : Costs 0 (next missed) fun _ => 1 := by
  intro s t b h
  unfold Reader.next at h
  split at h
  · cases h
  · obtain ⟨⟩ := h
    exact Nat.le_refl _

theorem byte : Costs 0 byte fun _ => 1 := next 8

theorem span (count : Nat) : Costs 0 (bytes count) fun _ => count := by
  intro s t run h
  obtain ⟨-, -, ht⟩ := Yields.bytes_eq_ok h
  rw [ht]
  exact Nat.le_refl _

theorem bytes (count : Nat) : Costs 0 (bytes count) List.length := by
  intro s t run h
  rw [(Yields.bytes_eq_ok h).1]
  exact span count h

theorem withBytes (hr : Costs 0 r cost) : Costs 0 (withBytes r) fun p => cost p.1 := by
  intro s t p h
  unfold Reader.withBytes at h
  split at h
  · cases h
  · rename_i hx
    obtain ⟨⟩ := h
    exact hr hx

theorem groups (start left : Nat) : Costs 0 (groups start left) fun _ => 1 := by
  cases left with
  | zero => exact fail
  | succ left =>
    refine bind byte fun b => ?_
    split
    · exact pure (Nat.le_refl _)
    · exact after (.groups _ _) fun _ => pure (Nat.le_refl _)

theorem u30 : Costs 0 u30 fun _ => 1 :=
  after .offset fun _ => bind (withBytes (groups _ _)) fun _ => after (.note _) fun _ =>
    pure (Nat.le_refl _)

theorem s24 : Costs 0 s24 fun _ => 3 := bind (span 3) fun _ => pure (Nat.le_refl _)

/-! ## Sequences and records -/

theorem replicate (hr : Costs 0 r cost) (count : Nat) :
    Costs 0 (replicate r count) (total cost) := by
  induction count with
  | zero => exact pure (Nat.le_refl _)
  | succ count ih => exact bind hr fun x => bind ih fun xs => pure (by simp)

/-- The number of things is taken as well. -/
theorem counted (hr : Costs 0 r cost) : Costs 0 (counted r) fun xs => 1 + total cost xs :=
  bind .u30 fun n => imp (replicate hr n) fun _ => by simp

/-- References that wait to be judged cost nothing more. -/
theorem record {table : Table} {label : String} (hr : Costs 0 r cost) :
    Costs 0 (record table label r) cost := by
  intro s t x h
  unfold Reader.record at h
  split at h
  · cases h
  · rename_i hx
    obtain ⟨⟩ := h
    have hcost := hr hx
    exact hcost

theorem records {table : Table} {label : String} (hr : Costs 0 r cost) (first count : Nat) :
    Costs 0 (records table label r first count) (total cost) := by
  induction count generalizing first with
  | zero => exact pure (Nat.le_refl _)
  | succ count ih => exact bind (record hr) fun x => bind (ih _) fun xs => pure (by simp)

end Costs

end Reader

theorem Scope.costs_readIndex (scope : Scope) (t : Table) :
    Reader.Costs 0 (scope.readIndex t) fun _ => 1 :=
  .after .offset fun _ => .bind .u30 fun _ => .after (scope.stable_accept _ _ _) fun _ =>
    .pure (Nat.le_refl _)

end ActionCode
