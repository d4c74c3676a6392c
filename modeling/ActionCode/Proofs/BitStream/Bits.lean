import ActionCode.BitStream.Basic
import Mathlib.Data.Nat.Bitwise
import Mathlib.Tactic.Ring

/-!
# Bits of a buffer

A buffer is known by its length and by the bit at each position, and beyond its end all bits are
clear. So what an operation does to a buffer is told by the bits that are there afterwards, and
it does not matter whether they came one at a time or eight at a time.
-/

namespace ActionCode

/-! ## Runs laid over a list -/

section Overlay

variable {α : Type}

/-- A list with a run of elements laid over it, which may reach past its end. -/
def overlay (xs : List α) (start : Nat) (run : List α) : List α :=
  xs.take start ++ run ++ xs.drop (start + run.length)

theorem length_overlay {xs : List α} {start : Nat} (h : start ≤ xs.length) (run : List α) :
    (overlay xs start run).length = max xs.length (start + run.length) := by
  simp only [overlay, List.length_append, List.length_take, List.length_drop]
  omega

theorem getElem?_overlay {xs : List α} {start : Nat} (h : start ≤ xs.length) (run : List α)
    (i : Nat) :
    (overlay xs start run)[i]? =
      if start ≤ i ∧ i < start + run.length then run[i - start]? else xs[i]? := by
  simp only [overlay, List.getElem?_append, List.getElem?_take, List.getElem?_drop,
    List.length_append, List.length_take, Nat.min_eq_left h]
  by_cases hbefore : i < start
  · simp [hbefore, show i < start + run.length by omega, show ¬ start ≤ i by omega]
  · by_cases hwithin : i < start + run.length
    · simp [hbefore, hwithin, show start ≤ i by omega]
    · rw [if_neg hwithin, if_neg (by omega)]
      congr 1
      omega

/-- Two runs laid end to end are one run. -/
theorem overlay_append {xs : List α} {start : Nat} (h : start ≤ xs.length) (run more : List α) :
    overlay (overlay xs start run) (start + run.length) more = overlay xs start (run ++ more) := by
  have hlength := length_overlay h run
  apply List.ext_getElem?
  intro i
  rw [getElem?_overlay (by omega), getElem?_overlay h, getElem?_overlay h, List.getElem?_append,
    List.length_append]
  by_cases hmore : start + run.length ≤ i ∧ i < start + run.length + more.length
  · rw [if_pos hmore, if_pos (by omega), if_neg (by omega)]
    congr 1
    omega
  · rw [if_neg hmore]
    by_cases hrun : start ≤ i ∧ i < start + run.length
    · rw [if_pos hrun, if_pos (by omega), if_pos (by omega)]
    · rw [if_neg hrun, if_neg (by omega)]

/-- Behind the end, a run is added however far off it is to be laid. -/
theorem overlay_of_length_le {xs : List α} {start : Nat} (h : xs.length ≤ start)
    (run : List α) : overlay xs start run = xs ++ run := by
  rw [overlay, List.take_of_length_le h, List.drop_eq_nil_of_le (by omega), List.append_nil]

theorem overlay_append_beyond {xs : List α} {start : Nat} (h : xs.length ≤ start)
    (run more : List α) :
    overlay (overlay xs start run) (start + run.length) more = overlay xs start (run ++ more) := by
  have hstill : (xs ++ run).length ≤ start + run.length := by
    rw [List.length_append]
    omega
  rw [overlay_of_length_le h, overlay_of_length_le hstill, overlay_of_length_le h,
    List.append_assoc]

end Overlay

namespace BitStream

/-! ## Numbers and their bits -/

@[simp] theorem length_bitsOfNat (width n : Nat) : (bitsOfNat width n).length = width := by
  simp [bitsOfNat]

theorem getElem?_bitsOfNat (width n i : Nat) :
    (bitsOfNat width n)[i]? = if i < width then some (n.testBit (width - 1 - i)) else none := by
  by_cases h : i < width
  · simp [bitsOfNat, h]
  · simp [bitsOfNat, h]

theorem bitsOfNat_succ (width n : Nat) :
    bitsOfNat (width + 1) n = n.testBit width :: bitsOfNat width n := by
  simp [bitsOfNat, List.range_succ]

theorem natOfBits_cons (b : Bool) (bits : List Bool) :
    natOfBits (b :: bits) = 2 ^ bits.length * b.toNat + natOfBits bits := by
  have hfold (n : Nat) : bits.foldl (fun n b => 2 * n + b.toNat) n
      = 2 ^ bits.length * n + natOfBits bits := by
    induction bits generalizing n with
    | nil => simp [natOfBits]
    | cons c bits ih =>
      simp only [natOfBits, List.foldl_cons, List.length_cons, Nat.pow_succ]
      rw [ih, ih]
      ring
  simpa [natOfBits] using hfold b.toNat

theorem natOfBits_bitsOfNat (width n : Nat) : natOfBits (bitsOfNat width n) = n % 2 ^ width := by
  induction width with
  | zero => simp [bitsOfNat, natOfBits, Nat.mod_one]
  | succ width ih =>
    rw [bitsOfNat_succ, natOfBits_cons, ih, length_bitsOfNat, Nat.toNat_testBit, Nat.mod_pow_succ,
      Nat.add_comm]

/-! ## Bytes and their bits -/

/-- Eight bits to a byte, most significant first. -/
def bitsOfBytes (bytes : Bytes) : List Bool := bytes.flatMap fun b => bitsOfNat 8 b.toNat

/-- So many bytes from the front of a list of bits. -/
def bytesOfBits : (count : Nat) → List Bool → Bytes
  | 0, _ => []
  | count + 1, bits => (natOfBits (bits.take 8)).toUInt8 :: bytesOfBits count (bits.drop 8)

@[simp] theorem length_bitsOfBytes (bytes : Bytes) :
    (bitsOfBytes bytes).length = 8 * bytes.length := by
  simp [bitsOfBytes, List.map_const', Nat.mul_comm]

theorem bitsOfBytes_cons (b : UInt8) (bytes : Bytes) :
    bitsOfBytes (b :: bytes) = bitsOfNat 8 b.toNat ++ bitsOfBytes bytes := rfl

theorem byte_of_bits (b : UInt8) : (natOfBits (bitsOfNat 8 b.toNat)).toUInt8 = b := by
  rw [natOfBits_bitsOfNat, Nat.mod_eq_of_lt b.toNat_lt]
  simp

/-- The bytes of some bits followed by others. -/
theorem bytesOfBits_bitsOfBytes (bytes : Bytes) (rest : List Bool) :
    bytesOfBits bytes.length (bitsOfBytes bytes ++ rest) = bytes := by
  induction bytes with
  | nil => rfl
  | cons b bytes ih =>
    rw [bitsOfBytes_cons, List.append_assoc, List.length_cons, bytesOfBits,
      List.take_left' (length_bitsOfNat ..), List.drop_left' (length_bitsOfNat ..), ih,
      byte_of_bits]

/-! ## Bits of a buffer -/

/-- The bits of a buffer in a row. -/
theorem getElem?_bitsOfBytes (bytes : Bytes) (i : Nat) :
    (bitsOfBytes bytes)[i]?.getD false = bitAt bytes i := by
  induction bytes generalizing i with
  | nil => simp [bitsOfBytes, bitAt]
  | cons b bytes ih =>
    rw [bitsOfBytes_cons, List.getElem?_append, length_bitsOfNat]
    by_cases h : i < 8
    · rw [if_pos h, getElem?_bitsOfNat, if_pos h]
      simp [bitAt, Nat.div_eq_of_lt h, Nat.mod_eq_of_lt h]
    · rw [if_neg h, ih]
      simp only [bitAt, show i / 8 = (i - 8) / 8 + 1 by omega, List.getElem?_cons_succ,
        show i % 8 = (i - 8) % 8 by omega]

/-- The bits of a byte are those in its place in the buffer. -/
theorem bitsOfNat_byte {bytes : Bytes} {j : Nat} (h : j < bytes.length) :
    bitsOfNat 8 bytes[j].toNat = (List.range 8).map fun i => bitAt bytes (8 * j + i) := by
  apply List.ext_getElem
  · simp
  · intro i hi _
    rw [length_bitsOfNat] at hi
    simp [bitsOfNat, bitAt, show (8 * j + i) / 8 = j by omega, Nat.mod_eq_of_lt hi,
      List.getElem?_eq_getElem h]

/-- Whole bytes cut out of a buffer. -/
theorem bitAt_slice (bytes : Bytes) (start count i : Nat) :
    bitAt ((bytes.drop start).take count) i =
      if i < 8 * count then bitAt bytes (8 * start + i) else false := by
  simp only [bitAt, List.getElem?_take, List.getElem?_drop]
  by_cases h : i < 8 * count
  · rw [if_pos h, if_pos (by omega), show (8 * start + i) / 8 = start + i / 8 by omega,
      show (8 * start + i) % 8 = i % 8 by omega]
  · rw [if_neg h, if_neg (by omega)]

/-- A list of bits is known by its length and its bits. -/
theorem eq_of_getD {xs ys : List Bool} (hlength : xs.length = ys.length)
    (h : ∀ i : Nat, xs[i]?.getD false = ys[i]?.getD false) : xs = ys := by
  apply List.ext_getElem hlength
  intro i hx hy
  simpa [List.getElem?_eq_getElem hx, List.getElem?_eq_getElem hy] using h i

/-- A byte is known by its bits. -/
theorem eq_of_testBit {a b : UInt8}
    (h : ∀ i < 8, a.toNat.testBit i = b.toNat.testBit i) : a = b := by
  apply UInt8.toNat_inj.1
  apply Nat.eq_of_testBit_eq
  intro i
  by_cases hi : i < 8
  · exact h i hi
  · have hlarge : 2 ^ 8 ≤ 2 ^ i := Nat.pow_le_pow_right (by decide) (by omega)
    rw [Nat.testBit_lt_two_pow (a.toNat_lt.trans_le hlarge),
      Nat.testBit_lt_two_pow (b.toNat_lt.trans_le hlarge)]

/-- A buffer is known by its length and its bits. -/
theorem eq_of_bitAt {a b : Bytes} (hlength : a.length = b.length)
    (h : ∀ i, bitAt a i = bitAt b i) : a = b := by
  apply List.ext_getElem hlength
  intro j ha hb
  apply eq_of_testBit
  intro i hi
  have hbit := h (8 * j + (7 - i))
  simp only [bitAt, show (8 * j + (7 - i)) / 8 = j by omega,
    show 7 - (8 * j + (7 - i)) % 8 = i by omega, List.getElem?_eq_getElem ha,
    List.getElem?_eq_getElem hb] at hbit
  exact hbit

/-- The bits of a buffer after whole bytes were laid over it. -/
theorem bitAt_overlay {bytes : Bytes} {start : Nat} (h : start ≤ bytes.length) (data : Bytes)
    (i : Nat) :
    bitAt (overlay bytes start data) i =
      if 8 * start ≤ i ∧ i < 8 * start + 8 * data.length then bitAt data (i - 8 * start)
      else bitAt bytes i := by
  simp only [bitAt, getElem?_overlay h]
  by_cases hrun : 8 * start ≤ i ∧ i < 8 * start + 8 * data.length
  · rw [if_pos hrun, if_pos (by omega), show i / 8 - start = (i - 8 * start) / 8 by omega,
      show i % 8 = (i - 8 * start) % 8 by omega]
  · rw [if_neg hrun, if_neg (by omega)]

theorem testBit_complement (b : UInt8) {i : Nat} (h : i < 8) :
    (~~~b).toNat.testBit i = !b.toNat.testBit i := by
  have hb : b.toNat = b.toBitVec.toNat := rfl
  have hc : (~~~b).toNat = (~~~b.toBitVec).toNat := rfl
  rw [hb, hc, BitVec.testBit_toNat, BitVec.testBit_toNat, BitVec.getLsbD_not]
  simp [h]

/-- The mask of a bit, which is put in or taken out of a byte. -/
theorem testBit_masked (b : UInt8) (value : Bool) {i k : Nat} (hi : i < 8) (hk : k < 8) :
    let mask : UInt8 := (2 ^ k).toUInt8
    (if value then b ||| mask else b &&& ~~~mask).toNat.testBit i =
      if i = k then value else b.toNat.testBit i := by
  intro mask
  have hmask : mask.toNat.testBit i = decide (k = i) := by
    have hlt : 2 ^ k < 2 ^ 8 := Nat.pow_lt_pow_right (by decide) hk
    have hnat : mask.toNat = 2 ^ k := by
      simp only [mask, Nat.toUInt8, UInt8.toNat_ofNat']
      exact Nat.mod_eq_of_lt hlt
    rw [hnat, Nat.testBit_two_pow]
  cases value with
  | true =>
    rw [if_pos rfl, UInt8.toNat_or, Nat.testBit_or, hmask]
    by_cases h : i = k
    · simp [h]
    · simp [h, show k ≠ i from fun e => h e.symm]
  | false =>
    rw [if_neg (by decide), UInt8.toNat_and, Nat.testBit_and, testBit_complement mask hi, hmask]
    by_cases h : i = k
    · simp [h]
    · simp [h, show k ≠ i from fun e => h e.symm]

theorem length_setBit (bytes : Bytes) (position : Nat) (value : Bool) :
    (setBit bytes position value).length = max bytes.length (position / 8 + 1) := by
  simp only [setBit, List.length_modify, List.length_append, List.length_replicate]
  omega

/-- The zeros that a buffer is filled up with are there already, as far as its bits go. -/
theorem bitAt_filled (bytes : Bytes) (count i : Nat) :
    bitAt (bytes ++ List.replicate count 0) i = bitAt bytes i := by
  simp only [bitAt, List.getElem?_append, List.getElem?_replicate]
  by_cases h : i / 8 < bytes.length
  · rw [if_pos h]
  · rw [if_neg h, List.getElem?_eq_none (by omega)]
    by_cases hzero : i / 8 - bytes.length < count
    · simp [hzero]
    · simp [hzero]

/-- Putting a bit changes that bit and no other. -/
theorem bitAt_setBit (bytes : Bytes) (position : Nat) (value : Bool) (i : Nat) :
    bitAt (setBit bytes position value) i = if i = position then value else bitAt bytes i := by
  have hfilled := bitAt_filled bytes (position / 8 + 1 - bytes.length) i
  have hlength : position / 8
      < (bytes ++ List.replicate (position / 8 + 1 - bytes.length) (0 : UInt8)).length := by
    simp only [List.length_append, List.length_replicate]
    omega
  rw [← hfilled]
  simp only [bitAt, setBit, List.getElem?_modify]
  by_cases hbyte : position / 8 = i / 8
  · rw [← hbyte, List.getElem?_eq_getElem hlength]
    simp only [Option.map_eq_map, Option.map_some, if_true]
    rw [testBit_masked _ _ (by omega) (by omega)]
    by_cases hi : i = position
    · simp [hi]
    · rw [if_neg (by omega), if_neg hi]
  · rw [if_neg (show i ≠ position by rintro rfl; exact hbyte rfl)]
    simp [hbyte]

end BitStream

end ActionCode
