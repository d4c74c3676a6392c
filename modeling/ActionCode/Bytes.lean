/-!
# Byte strings

Runs of bytes as lists, and the numbers that such a run stands for, lowest byte first.
-/

-- Powers of numbers are the built-in ones in every module.
attribute [default_instance 10001, instance (high)] instPowNat

namespace ActionCode

abbrev Bytes := List UInt8

namespace Bytes

/-- The number whose base-256 digits, lowest first, are the bytes. -/
def toNat : Bytes → Nat
  | [] => 0
  | b :: rest => b.toNat + 256 * toNat rest

/-- The lowest `count` base-256 digits of a number, lowest first. -/
def ofNat : Nat → Nat → Bytes
  | 0, _ => []
  | count + 1, n => n.toUInt8 :: ofNat count (n / 256)

/-- The number that a run of bytes stands for in two's complement, lowest byte first. -/
def toInt (bytes : Bytes) : Int :=
  let n := bytes.toNat
  if 2 * n < 256 ^ bytes.length then n else n - 256 ^ bytes.length

@[simp] theorem length_ofNat (count n : Nat) : (ofNat count n).length = count := by
  induction count generalizing n with
  | zero => rfl
  | succ count ih => simp [ofNat, ih]

theorem toNat_lt (bytes : Bytes) : bytes.toNat < 256 ^ bytes.length := by
  induction bytes with
  | nil => simp [toNat]
  | cons b rest ih =>
    have := b.toNat_lt
    simp only [toNat, List.length_cons, Nat.pow_succ]
    omega

/-- The lowest digits of a number stand for its remainder. -/
theorem toNat_ofNat (count n : Nat) : toNat (ofNat count n) = n % 256 ^ count := by
  induction count generalizing n with
  | zero => simp [ofNat, toNat, Nat.mod_one]
  | succ count ih =>
    simp only [ofNat, toNat, ih, Nat.pow_succ]
    rw [Nat.mul_comm (256 ^ count) 256, Nat.mod_mul]
    simp

end Bytes

end ActionCode
