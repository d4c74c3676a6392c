import ActionCode.Proofs.Outcome
import ActionCode.Varint

/-!
# Spellings

A number can be read from more bytes than its shortest form has, and a byte of flags can
have bits set that mean nothing. A spelling is canonical if it is the one that is written.
-/

namespace ActionCode

/-! ## Written numbers -/

theorem Bytes.toNat_toUInt8 {n : Nat} (h : n < 256) : n.toUInt8.toNat = n := by
  rw [Nat.toUInt8_eq, UInt8.toNat_ofNat', Nat.mod_eq_of_lt h]

/-- A run of bytes is made of the digits of the number that it stands for. -/
theorem Bytes.ofNat_toNat (bytes : Bytes) : Bytes.ofNat bytes.length bytes.toNat = bytes := by
  induction bytes with
  | nil => rfl
  | cons b rest ih =>
    have hlt := b.toNat_lt
    have hdiv : (b.toNat + 256 * Bytes.toNat rest) / 256 = Bytes.toNat rest := by omega
    have hbyte : (b.toNat + 256 * Bytes.toNat rest).toUInt8 = b := by
      apply UInt8.toNat.inj
      rw [Nat.toUInt8_eq, UInt8.toNat_ofNat']
      omega
    rw [List.length_cons, toNat, ofNat, hdiv, hbyte, ih]

/-- Half of the numbers of so many bytes stand for those below 0. -/
theorem Bytes.toInt_ofNat {count : Nat} {value : Int} (hlow : -256 ^ count ≤ 2 * value)
    (hhigh : 2 * value < 256 ^ count) :
    (Bytes.ofNat count (value % 256 ^ count).toNat).toInt = value := by
  have hpos : (0 : Int) < 256 ^ count := Int.pow_pos (by decide)
  have hcast : ((256 ^ count : Nat) : Int) = 256 ^ count := Int.natCast_pow 256 count
  have hlt := Int.emod_lt_of_pos value hpos
  have hnonneg := Int.emod_nonneg value (Int.ne_of_gt hpos)
  have hnat : (value % 256 ^ count).toNat % 256 ^ count = (value % 256 ^ count).toNat :=
    Nat.mod_eq_of_lt (by omega)
  simp only [Bytes.toInt, Bytes.toNat_ofNat, Bytes.length_ofNat, hnat]
  by_cases hneg : value < 0
  · have hvalue : value % 256 ^ count = value + 256 ^ count := by
      rw [← Int.add_emod_right]
      exact Int.emod_eq_of_lt (by omega) (by omega)
    rw [if_neg (by omega)]
    omega
  · have hvalue : value % 256 ^ count = value := Int.emod_eq_of_lt (by omega) (by omega)
    rw [if_pos (by omega)]
    omega

theorem Bytes.toUInt64_ofNat (bits : UInt64) :
    (Bytes.ofNat 8 bits.toNat).toNat.toUInt64 = bits := by
  have hlt : bits.toNat < 256 ^ 8 := bits.toNat_lt
  rw [Bytes.toNat_ofNat, Nat.mod_eq_of_lt hlt]
  exact UInt64.ofNat_toNat

namespace Varint

/-- What is left of a number of which 32 bits are kept. -/
def wrap (n : Int) : Int := n % 2 ^ 32

theorem wrap_of_lt {n : Int} (h : 0 ≤ n) (h' : n < 2 ^ 32) : wrap n = n :=
  Int.emod_eq_of_lt h h'

theorem wrap_nonneg (n : Int) : 0 ≤ wrap n := Int.emod_nonneg n (by decide)

theorem wrap_lt (n : Int) : wrap n < 2 ^ 32 := Int.emod_lt_of_pos n (by decide)

theorem natCast_toNat_wrap (n : Int) : ((wrap n).toNat : Int) = wrap n :=
  Int.toNat_of_nonneg (wrap_nonneg n)

theorem toNat_wrap_lt (n : Int) : (wrap n).toNat < 2 ^ 32 := by
  have h := wrap_lt n
  have h' := natCast_toNat_wrap n
  omega

theorem writeU30_eq_ok {value : Int} {bytes : Bytes} : writeU30 value = .ok bytes ↔
    (-2 ^ 31 ≤ value ∧ value ≤ 2 ^ 32 - 1) ∧ encode (wrap value).toNat = bytes := by
  unfold writeU30
  split
  · simp only [reduceCtorEq, false_iff]
    omega
  · simp only [Except.ok.injEq, wrap]
    constructor
    · exact fun h => ⟨by omega, h⟩
    · exact fun h => h.2

theorem writeS32_eq_ok {value : Int} {bytes : Bytes} : writeS32 value = .ok bytes ↔
    (-2 ^ 31 ≤ value ∧ value ≤ 2 ^ 31 - 1) ∧ encode (wrap value).toNat = bytes := by
  unfold writeS32
  split
  · simp only [reduceCtorEq, false_iff]
    omega
  · simp only [Except.ok.injEq, wrap]
    constructor
    · exact fun h => ⟨by omega, h⟩
    · exact fun h => h.2

theorem writeS24_eq_ok {value : Int} {bytes : Bytes} : writeS24 value = .ok bytes ↔
    (-2 ^ 23 ≤ value ∧ value ≤ 2 ^ 23 - 1) ∧
      Bytes.ofNat 3 (value % 2 ^ 24).toNat = bytes := by
  unfold writeS24
  split
  · simp only [reduceCtorEq, false_iff]
    omega
  · simp only [Except.ok.injEq]
    constructor
    · exact fun h => ⟨by omega, h⟩
    · exact fun h => h.2

theorem writeByte_eq_ok {value : Int} {bytes : Bytes} :
    writeByte value = .ok bytes ↔ ∃ b : UInt8, (b.toNat : Int) = value ∧ [b] = bytes := by
  unfold writeByte
  split
  · rename_i h
    have hbyte : (value.toNat.toUInt8.toNat : Int) = value := by
      rw [Bytes.toNat_toUInt8 (by omega)]
      omega
    simp only [Except.ok.injEq]
    constructor
    · exact fun hrun => ⟨_, hbyte, hrun⟩
    · rintro ⟨b, rfl, rfl⟩
      simp
  · rename_i h
    simp only [reduceCtorEq, false_iff, not_exists, not_and]
    rintro b rfl -
    have hlt := b.toNat_lt
    omega

theorem length_groups_le {more k n : Nat} (h : n < 128 ^ (k + 1)) :
    (groups more n).length ≤ k + 1 := by
  induction more generalizing k n with
  | zero => exact Nat.succ_le_succ (Nat.zero_le k)
  | succ more ih =>
    unfold groups
    split
    · exact Nat.succ_le_succ (Nat.zero_le k)
    · rename_i hge
      cases k with
      | zero => exact absurd h hge
      | succ k =>
        rw [Nat.pow_succ] at h
        exact Nat.succ_le_succ (ih (Nat.div_lt_of_lt_mul (by omega)))

theorem length_encode_pos (n : Nat) : 0 < (encode n).length := by
  unfold encode groups
  split
  · exact Nat.zero_lt_one
  · exact Nat.succ_pos _

/-- No form of a number is shorter than the one that is written. -/
theorem length_encode_le {n k : Nat} (hk : 0 < k) (h : n < 128 ^ k) :
    (encode n).length ≤ k := by
  obtain ⟨k, rfl⟩ := Nat.exists_eq_add_one_of_ne_zero (Nat.ne_of_gt hk)
  exact length_groups_le (Nat.lt_of_le_of_lt (Nat.mod_le n _) h)

end Varint

/-! ## Canonical spellings -/

namespace Spelling

/-- Written back, the field would have the same bytes. -/
def Canonical : Spelling → Prop
  | number value bytes | operand value bytes => bytes = Varint.encode value
  | flags reserved byte => byte.toNat < 2 ^ (8 - reserved)

/-- Written back, the field would have as many bytes. -/
def Unpadded : Spelling → Prop
  | number value bytes | operand value bytes => bytes.length = (Varint.encode value).length
  | flags _ _ => True

theorem Canonical.unpadded {sp : Spelling} (h : sp.Canonical) : sp.Unpadded := by
  cases sp with
  | number value bytes => exact congrArg List.length h
  | operand value bytes => exact congrArg List.length h
  | flags reserved byte => trivial

@[simp] theorem canonical_inCode {sp : Spelling} : sp.inCode.Canonical ↔ sp.Canonical := by
  cases sp <;> rfl

@[simp] theorem unpadded_inCode {sp : Spelling} : sp.inCode.Unpadded ↔ sp.Unpadded := by
  cases sp <;> rfl

instance decidableCanonical : (sp : Spelling) → Decidable sp.Canonical
  | number value bytes => inferInstanceAs (Decidable (bytes = Varint.encode value))
  | operand value bytes => inferInstanceAs (Decidable (bytes = Varint.encode value))
  | flags reserved byte => inferInstanceAs (Decidable (byte.toNat < 2 ^ (8 - reserved)))

end Spelling

end ActionCode
