import ActionCode.Error

/-!
# Positions from either end

A position in a list is counted from the front, or, if it is negative, from the end. There is
an entry at a position or there is none, but the gap at a position is always found: one that
would lie outside of the list is moved to the nearer end.
-/

namespace ActionCode.Position

variable {α : Type}

/-- A position counted from the front. -/
def fromFront (length : Nat) (position : Int) : Int :=
  if position < 0 then position + length else position

-- ---------------------------------------------------------------------------
-- Entries
-- ---------------------------------------------------------------------------

/-- The entry at a position, with its number from the front. -/
def entryAt (xs : List α) (position : Int) : Except Refusal (Nat × α) :=
  match fromFront xs.length position with
  | .ofNat i =>
    match xs[i]? with
    | some x => .ok (i, x)
    | none => .error .noEntry
  | .negSucc _ => .error .noEntry

-- ---------------------------------------------------------------------------
-- Gaps
-- ---------------------------------------------------------------------------

/-- The number of entries in front of the gap at a position. -/
def gap (length : Nat) (position : Int) : Nat := min (fromFront length position).toNat length

/-- The entries between two gaps. -/
def slice (xs : List α) (start stop : Int) : List α :=
  (xs.take (gap xs.length stop)).drop (gap xs.length start)

theorem gap_natCast (length n : Nat) : gap length n = min n length := by
  simp [gap, fromFront, show ¬ (n : Int) < 0 by omega]

/-- From the front on, a slice is a part of so many entries. -/
theorem slice_natCast (xs : List α) (start width : Nat) :
    slice xs start (start + width) = (xs.drop start).take width := by
  rw [slice, gap_natCast, ← Int.natCast_add, gap_natCast, List.take_eq_take_min.symm,
    List.drop_take]
  rcases Nat.le_total start xs.length with h | h
  · rw [Nat.min_eq_left h, Nat.add_sub_cancel_left]
  · simp [Nat.min_eq_right h, List.drop_eq_nil_of_le h]

end ActionCode.Position
