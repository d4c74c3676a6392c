import ActionCode.BitStream.Format
import ActionCode.Proofs.BitStream.Tape
import ActionCode.Proofs.Reader.Reads

/-!
# Numbers in context

A variable-length number is known by the first of its bytes whose top bit is clear. If there is
one among the first five, the number is the sum of the groups of seven bits up to it, whatever
stands around them. Of all its spellings, the one that is written is the shortest, and the least
of those that are as short.
-/

namespace ActionCode

/-! ## Groups of seven bits -/

namespace Varint

/-- The top bit is clear: no more bytes belong to the number. -/
def ends (b : UInt8) : Bool := b.toNat < 128

/-- The number of bytes in front of the first one that ends a number. -/
def lead (bytes : Bytes) : Nat := bytes.findIdx ends

/-- The lower seven bits of each byte, those of the first moved up by `shift` and those of every
other byte by seven more than the last ones, added up. -/
def sumFrom : (shift : Nat) → Bytes → Nat
  | _, [] => 0
  | shift, b :: rest => (b.toNat % 128) <<< shift + sumFrom (shift + 7) rest

def sum (bytes : Bytes) : Nat := sumFrom 0 bytes

theorem ends_eq_true {b : UInt8} : ends b = true ↔ b.toNat < 128 := by
  simp [ends]

theorem ends_eq_false {b : UInt8} : ends b = false ↔ 128 ≤ b.toNat := by
  simp [ends]

theorem sumFrom_eq (shift : Nat) (bytes : Bytes) : sumFrom shift bytes = 2 ^ shift * sum bytes := by
  induction bytes generalizing shift with
  | nil => rfl
  | cons b bytes ih =>
    rw [sum, sumFrom, sumFrom, ih (shift + 7), ih (0 + 7), Nat.shiftLeft_eq, Nat.shiftLeft_zero]
    ring

theorem sum_cons (b : UInt8) (bytes : Bytes) :
    sum (b :: bytes) = b.toNat % 128 + 128 * sum bytes := by
  rw [sum, sumFrom, sumFrom_eq, Nat.shiftLeft_zero]

theorem sum_lt (bytes : Bytes) : sum bytes < 128 ^ bytes.length := by
  induction bytes with
  | nil => exact Nat.zero_lt_one
  | cons b bytes ih =>
    rw [sum_cons, List.length_cons, Nat.pow_succ]
    omega

theorem sum_append (bytes more : Bytes) :
    sum (bytes ++ more) = sum bytes + 128 ^ bytes.length * sum more := by
  induction bytes with
  | nil => simp [sum, sumFrom]
  | cons b bytes ih =>
    rw [List.cons_append, sum_cons, sum_cons, ih, List.length_cons]
    ring

end Varint

namespace Reader

open Varint (ends lead sum)

/-- What comes of reading groups of seven bits, by the number of bytes in front of the one that
ends them. -/
theorem groups_run (start left : Nat) (s : Input) :
    groups start left s =
      if left ≤ lead s.rest then .error { cause := .overlong, offset := some ↑start }
      else if lead s.rest < s.rest.length then
        .ok (sum (s.rest.take (lead s.rest + 1)), { s with
          rest := s.rest.drop (lead s.rest + 1)
          offset := s.offset + (lead s.rest + 1) })
      else .error {
        cause := .truncatedInput 8, offset := some ↑(s.offset + s.rest.length) } := by
  induction left generalizing s with
  | zero => rfl
  | succ left ih =>
    obtain ⟨rest, offset, deferred, spellings⟩ := s
    cases rest with
    | nil => rfl
    | cons b rest =>
      have hbyte : byte ⟨b :: rest, offset, deferred, spellings⟩ =
          .ok (b, ⟨rest, offset + 1, deferred, spellings⟩) := rfl
      rw [groups, bind_apply hbyte, lead, List.findIdx_cons]
      cases hb : ends b with
      | true =>
        have hlt := Varint.ends_eq_true.1 hb
        simp [hlt, Nat.mod_eq_of_lt hlt, sum, Varint.sumFrom]
      | false =>
        have hge := Varint.ends_eq_false.1 hb
        have hrest := ih ⟨rest, offset + 1, deferred, spellings⟩
        rw [if_neg (by omega), ← lead]
        simp only [cond_false, Nat.add_le_add_iff_right, List.length_cons, Nat.add_lt_add_iff_right]
        by_cases hlong : left ≤ lead rest
        · rw [if_pos hlong] at hrest ⊢
          exact bind_error hrest
        · rw [if_neg hlong] at hrest ⊢
          by_cases hthere : lead rest < rest.length
          · rw [if_pos hthere] at hrest ⊢
            rw [bind_apply hrest, List.take_succ_cons, Varint.sum_cons]
            simp [Nat.add_assoc, Nat.add_comm 1]
          · rw [if_neg hthere] at hrest ⊢
            rw [bind_error hrest]
            simp [Nat.add_assoc, Nat.add_comm 1]

/-- The same for a whole number, of at most five bytes. -/
theorem u30_run (s : Input) :
    u30 s =
      if 5 ≤ lead s.rest then .error { cause := .overlong, offset := some ↑s.offset }
      else if lead s.rest < s.rest.length then
        .ok (sum (s.rest.take (lead s.rest + 1)) % 2 ^ 32, { s with
          rest := s.rest.drop (lead s.rest + 1)
          offset := s.offset + (lead s.rest + 1)
          spellings := .number (sum (s.rest.take (lead s.rest + 1)) % 2 ^ 32)
            (s.rest.take (lead s.rest + 1)) :: s.spellings })
      else .error {
        cause := .truncatedInput 8, offset := some ↑(s.offset + s.rest.length) } := by
  have hgroups := groups_run s.offset 5 s
  have hoffset : Reader.offset s = .ok (s.offset, s) := rfl
  rw [u30, bind_apply hoffset]
  by_cases hlong : 5 ≤ lead s.rest
  · rw [if_pos hlong] at hgroups ⊢
    exact bind_error (by rw [withBytes, hgroups])
  · rw [if_neg hlong] at hgroups ⊢
    by_cases hthere : lead s.rest < s.rest.length
    · rw [if_pos hthere] at hgroups ⊢
      rw [bind_apply (by rw [withBytes, hgroups])]
      simp only [Nat.add_sub_cancel_left]
      rfl
    · rw [if_neg hthere] at hgroups ⊢
      exact bind_error (by rw [withBytes, hgroups])

end Reader

namespace Varint

/-! ## Windows -/

/-- A window of five bytes shows as much of the data as the number can take. -/
theorem readU30_run (data : Bytes) (c : Nat) :
    readU30 data c =
      if 5 ≤ lead (data.drop c) then .error { cause := .overlong, offset := some ↑c }
      else if lead (data.drop c) < (data.drop c).length then
        .ok (sum ((data.drop c).take (lead (data.drop c) + 1)) % 2 ^ 32,
          ↑(c + (lead (data.drop c) + 1)))
      else .error {
        cause := .truncatedInput 8, offset := some ↑(c + (data.drop c).length) } := by
  have hslice : Position.slice data c (c + (5 : Nat)) = (data.drop c).take 5 :=
    Position.slice_natCast data c 5
  have hread := Reader.u30_run (.ofBytes ((data.drop c).take 5))
  generalize data.drop c = w at hslice hread ⊢
  have hlead : lead (w.take 5) = min 5 (lead w) := List.findIdx_take
  simp only [Input.ofBytes, hlead, List.length_take] at hread
  rw [readU30, window, hslice, Input.ofBytes, hread]
  by_cases hlong : 5 ≤ lead w
  · rw [if_pos (by omega), if_pos hlong]
    simp [Violation.rebase]
  · rw [if_neg (by omega), if_neg hlong]
    by_cases hthere : lead w < w.length
    · rw [if_pos (by omega), if_pos hthere, Nat.min_eq_right (by omega), List.take_take,
        Nat.min_eq_left (by omega)]
      simp
    · have hlength : lead w ≤ w.length := List.findIdx_le_length
      rw [if_neg (by omega), if_neg hthere, Nat.min_eq_right (by omega)]
      simp [Violation.rebase, Int.add_comm]

variable {w : Bytes} {k : Nat}

theorem le_lead_iff : k ≤ lead w ↔ k ≤ w.length ∧ ∀ b ∈ w.take k, 128 ≤ b.toNat := by
  have hlead : lead (w.take k) = min k (lead w) := List.findIdx_take
  have hlength : lead w ≤ w.length := List.findIdx_le_length
  have hall : lead (w.take k) = (w.take k).length ↔ ∀ b ∈ w.take k, ends b = false :=
    List.findIdx_eq_length
  simp only [ends_eq_false, hlead, List.length_take] at hall
  rw [← hall]
  omega

theorem lead_eq_length : lead w = w.length ↔ ∀ b ∈ w, 128 ≤ b.toNat := by
  simp only [← ends_eq_false]
  exact List.findIdx_eq_length

theorem ends_of_lead (h : lead w < w.length) : ends w[lead w] = true := List.findIdx_getElem

/-- The first five bytes all ask for more. -/
def Overlong (w : Bytes) : Prop := 5 ≤ w.length ∧ ∀ b ∈ w.take 5, 128 ≤ b.toNat

/-- There are fewer than five bytes, and all of them ask for more. -/
def CutOff (w : Bytes) : Prop := w.length < 5 ∧ ∀ b ∈ w, 128 ≤ b.toNat

theorem overlong_iff : Overlong w ↔ 5 ≤ lead w := le_lead_iff.symm

theorem cutOff_iff : CutOff w ↔ lead w < 5 ∧ w.length ≤ lead w := by
  have hlength : lead w ≤ w.length := List.findIdx_le_length
  rw [CutOff, ← lead_eq_length]
  omega

variable {data : Bytes} {c : Nat}

theorem readU30_overlong_iff :
    readU30 data c = .error { cause := .overlong, offset := some ↑c } ↔
      Overlong (data.drop c) := by
  rw [readU30_run, overlong_iff]
  by_cases hlong : 5 ≤ lead (data.drop c)
  · simp [hlong]
  · rw [if_neg hlong]
    split
    · simp [hlong]
    · simp [hlong]

/-- The data is blamed at its end. -/
theorem readU30_cutOff_iff (hc : c ≤ data.length) :
    readU30 data c = .error { cause := .truncatedInput 8, offset := some ↑data.length } ↔
      CutOff (data.drop c) := by
  have hend : c + (data.drop c).length = data.length := by
    rw [List.length_drop]
    omega
  rw [readU30_run, cutOff_iff, hend]
  by_cases hlong : 5 ≤ lead (data.drop c)
  · simp [hlong]
  · rw [if_neg hlong]
    by_cases hthere : lead (data.drop c) < (data.drop c).length
    · rw [if_pos hthere]
      exact iff_of_false (by simp) (by omega)
    · rw [if_neg hthere]
      exact iff_of_true rfl ⟨by omega, by omega⟩

theorem exists_readU30 (hlong : ¬ Overlong (data.drop c)) (hcut : ¬ CutOff (data.drop c)) :
    ∃ k b, k < 5 ∧ (data.drop c)[k]? = some b ∧ b.toNat < 128 ∧
      (∀ x ∈ (data.drop c).take k, 128 ≤ x.toNat) ∧
      readU30 data c = .ok (sum ((data.drop c).take (k + 1)) % 2 ^ 32, ↑(c + (k + 1))) := by
  rw [overlong_iff] at hlong
  rw [cutOff_iff] at hcut
  have hthere : lead (data.drop c) < (data.drop c).length := by omega
  have hends : (data.drop c)[lead (data.drop c)].toNat < 128 :=
    ends_eq_true.1 (ends_of_lead hthere)
  rw [readU30_run, if_neg hlong, if_pos hthere]
  exact ⟨_, _, by omega, List.getElem?_eq_getElem hthere, hends,
    (le_lead_iff.1 (Nat.le_refl _)).2, rfl⟩

/-! ## Spellings of one number -/

/-- All of the data is read as the number. -/
def Spells (data : Bytes) (n : Nat) : Prop := readU30 data 0 = .ok (n, ↑data.length)

/-- The last byte ends a number, and none before it does. -/
def Whole (bytes : Bytes) : Prop := lead bytes + 1 = bytes.length

variable {a b run : Bytes} {n : Nat}

theorem whole_cons {x : UInt8} : Whole (x :: a) ↔ if ends x then a = [] else Whole a := by
  rw [Whole, lead, List.findIdx_cons, List.length_cons, Nat.add_right_cancel_iff]
  cases ends x with
  | true => exact eq_comm.trans List.length_eq_zero_iff
  | false => rfl

theorem not_whole_nil : ¬ Whole [] := nofun

theorem Spells.sum_eq (h : Spells a n) : Whole a ∧ a.length ≤ 5 ∧ sum a % 2 ^ 32 = n := by
  have hrun := readU30_run a 0
  rw [Spells] at h
  rw [Nat.cast_zero, h, List.drop_zero] at hrun
  unfold Whole
  split at hrun
  · cases hrun
  · split at hrun
    · simp only [Except.ok.injEq, Prod.mk.injEq] at hrun
      obtain ⟨hsum, hlength⟩ := hrun
      rw [List.take_of_length_le (by omega)] at hsum
      exact ⟨by omega, by omega, hsum.symm⟩
    · cases hrun

/-- Of spellings of one length, each has a sum of its own. -/
theorem Whole.eq_of_sum (ha : Whole a) (hb : Whole b) (hlength : b.length = a.length)
    (h : sum b = sum a) : b = a := by
  induction a generalizing b with
  | nil => exact absurd ha not_whole_nil
  | cons x a ih =>
    cases b with
    | nil => cases hlength
    | cons y b =>
      rw [sum_cons, sum_cons] at h
      rw [List.length_cons, List.length_cons, Nat.add_right_cancel_iff] at hlength
      rw [whole_cons] at ha hb
      have hlow : y.toNat % 128 = x.toNat % 128 := by omega
      have hhigh : sum b = sum a := by omega
      have hx := x.toNat_lt
      have hy := y.toNat_lt
      cases hxe : ends x with
      | true =>
        rw [if_pos hxe] at ha
        rw [ha, List.length_nil, List.length_eq_zero_iff] at hlength
        cases hye : ends y with
        | true =>
          rw [ends_eq_true] at hxe hye
          rw [ha, hlength, UInt8.toNat.inj (show y.toNat = x.toNat by omega)]
        | false =>
          rw [if_neg (by simp [hye]), hlength] at hb
          exact absurd hb not_whole_nil
      | false =>
        rw [if_neg (by simp [hxe])] at ha
        cases hye : ends y with
        | true =>
          rw [if_pos hye] at hb
          rw [hb, List.length_nil, eq_comm, List.length_eq_zero_iff] at hlength
          exact absurd (hlength ▸ ha) not_whole_nil
        | false =>
          rw [if_neg (by simp [hye])] at hb
          rw [ends_eq_false] at hxe hye
          rw [ih ha hb hlength hhigh, UInt8.toNat.inj (show y.toNat = x.toNat by omega)]

theorem sum_groups (more : Nat) (h : n < 128 ^ (more + 1)) : sum (groups more n) = n := by
  induction more generalizing n with
  | zero =>
    rw [groups, sum_cons, Bytes.toNat_toUInt8 (by omega)]
    exact Nat.mod_eq_of_lt h
  | succ more ih =>
    rw [groups]
    split
    · rename_i hlt
      rw [sum_cons, Bytes.toNat_toUInt8 (by omega)]
      exact Nat.mod_eq_of_lt hlt
    · rw [Nat.pow_succ] at h
      rw [sum_cons, Bytes.toNat_toUInt8 (by omega), ih (Nat.div_lt_of_lt_mul (by omega))]
      omega

/-- The seven bits of the last byte stand above those of all others. -/
theorem Whole.exists_sum_eq (h : Whole a) :
    ∃ low < 128 ^ lead a, sum a = low + 128 ^ lead a * (a.getLastD 0).toNat := by
  have hne : a ≠ [] := fun hnil => not_whole_nil (hnil ▸ h)
  rw [Whole] at h
  have hends : ends (a.getLast hne) = true := by
    have hlead := ends_of_lead (show lead a < a.length by omega)
    rw [List.getLast_eq_getElem]
    simpa only [← h, Nat.add_sub_cancel] using hlead
  have hlt := ends_eq_true.1 hends
  have hlength : a.dropLast.length = lead a := by
    rw [List.length_dropLast]
    omega
  have hsum : sum a = sum a.dropLast + 128 ^ lead a * (a.getLast hne).toNat := by
    have hsplit := sum_append a.dropLast [a.getLast hne]
    rwa [List.dropLast_concat_getLast, sum_cons, Nat.mod_eq_of_lt hlt, hlength] at hsplit
  refine ⟨sum a.dropLast, hlength ▸ sum_lt a.dropLast, ?_⟩
  rw [hsum, List.getLastD_eq_getLast?, List.getLast?_eq_some_getLast hne]
  rfl

/-- Of two spellings as long as each other, the one without bits that are lost ends in less. -/
theorem Whole.getLastD_lt (ha : Whole a) (hb : Whole b) (hfive : a.length ≤ 5)
    (hlength : b.length = a.length) (hlow : sum a < 2 ^ 32) (h : sum b % 2 ^ 32 = sum a)
    (hne : b ≠ a) : a.getLastD 0 < b.getLastD 0 := by
  have hlost : sum a + 2 ^ 32 ≤ sum b := by
    have hsum : sum b ≠ sum a := fun heq => hne (ha.eq_of_sum hb hlength heq)
    omega
  obtain ⟨lowA, -, hsumA⟩ := ha.exists_sum_eq
  obtain ⟨lowB, hlowB, hsumB⟩ := hb.exists_sum_eq
  rw [Whole] at ha hb
  rw [show lead b = lead a by omega] at hlowB hsumB
  have hpow : 128 ^ lead a ≤ 128 ^ 4 := Nat.pow_le_pow_right (by decide) (by omega)
  rw [UInt8.lt_iff_toNat_lt]
  by_contra hle
  have hhigh := Nat.mul_le_mul_left (128 ^ lead a) (Nat.not_lt.1 hle)
  omega

/-! ## The spelling that is written -/

/-- A number is read from where it was written, whatever stands around it. -/
theorem readU30_written {value : Int} (h : writeU30 value = .ok run) (p q : Bytes) :
    readU30 (p ++ run ++ q) p.length =
      .ok ((wrap value).toNat, ↑(p.length + run.length)) := by
  have hfive : run.length ≤ 5 := by
    obtain ⟨-, rfl⟩ := writeU30_eq_ok.1 h
    have hlt := toNat_wrap_lt value
    exact length_encode_le (by decide) (by omega)
  have hslice : Position.slice (p ++ run ++ q) p.length (p.length + (5 : Nat)) =
      run ++ q.take (5 - run.length) := by
    rw [Position.slice_natCast, List.append_assoc, List.drop_left, List.take_append,
      List.take_of_length_le hfive]
  obtain ⟨t, hread, -, hoffset, -⟩ := Reader.Reads.u30 (W := .unknown) h
    (.ofBytes (run ++ q.take (5 - run.length))) _ rfl rfl Input.admitted_ofBytes
  rw [readU30, window, hslice, hread]
  simp only [hoffset, Input.ofBytes, Nat.zero_add, Int.natCast_add]

theorem writeU30_natCast (hn : n < 2 ^ 32) : writeU30 n = .ok (encode n) := by
  rw [writeU30_eq_ok, wrap_of_lt (by omega) (by omega)]
  exact ⟨by omega, rfl⟩

theorem readU30_encode (hn : n < 2 ^ 32) (p q : Bytes) :
    readU30 (p ++ encode n ++ q) p.length = .ok (n, ↑(p.length + (encode n).length)) := by
  have hread := readU30_written (writeU30_natCast hn) p q
  rwa [wrap_of_lt (by omega) (by omega), Int.toNat_natCast] at hread

theorem spells_encode (hn : n < 2 ^ 32) : Spells (encode n) n := by
  have hread := readU30_encode hn [] []
  rwa [List.nil_append, List.append_nil, List.length_nil, Nat.zero_add] at hread

theorem sum_encode (hn : n < 2 ^ 32) : sum (encode n) = n := by
  rw [encode, Nat.mod_eq_of_lt hn]
  exact sum_groups 4 (by omega)

/-- No spelling is shorter than the one that is written. -/
theorem Spells.length_encode_le (h : Spells b n) : (encode n).length ≤ b.length := by
  obtain ⟨hwhole, -, hsum⟩ := h.sum_eq
  have hlt := sum_lt b
  rw [Whole] at hwhole
  exact Varint.length_encode_le (by omega) (by omega)

/-- A spelling as long as the one that is written is that one, or ends in a greater byte. -/
theorem Spells.encode_getLastD_lt (h : Spells b n) (hlength : b.length = (encode n).length)
    (hne : b ≠ encode n) : (encode n).getLastD 0 < b.getLastD 0 := by
  obtain ⟨hb, -, hsum⟩ := h.sum_eq
  have hn : n < 2 ^ 32 := by omega
  obtain ⟨ha, hfive, -⟩ := (spells_encode hn).sum_eq
  have hencode := sum_encode hn
  exact ha.getLastD_lt hb hfive hlength (by omega) (by omega) hne

end Varint

/-! ## Numbers in a stream -/

namespace BitStream

variable {s : BitStream}

/-- At a byte boundary, the groups of a number go to the buffer one by one. -/
theorem writeGroups_run_aligned {more n : Nat} (h : s.aligned) (hn : n < 128 ^ (more + 1)) :
    (Format.writeGroups more n).run.run s = (.ok (), s.laid (Varint.groups more n)) := by
  induction more generalizing s n with
  | zero => exact writeByte_run_aligned h (by omega)
  | succ more ih =>
    rw [Format.writeGroups, Varint.groups]
    split
    · exact writeByte_run_aligned h (by omega)
    · rw [Nat.pow_succ] at hn
      rw [run_bind_ok (writeByte_run_aligned h (by omega)),
        ih (laid_aligned h _) (Nat.div_lt_of_lt_mul (by omega)), laid_append h]
      rfl

/-- The two writers of numbers agree. -/
theorem write_u32_run_aligned (h : s.aligned) {value : Int} {run : Bytes}
    (hrun : Varint.writeU30 value = .ok run) :
    (Format.write { shape := .u32 } (.int value)).run.run s = (writeBytes run).run.run s := by
  obtain ⟨hrange, rfl⟩ := Varint.writeU30_eq_ok.1 hrun
  have hlt := Varint.toNat_wrap_lt value
  have hwrite : Format.write { shape := .u32 } (.int value) =
      Format.writeGroups 4 (Varint.wrap value).toNat := by
    simp only [Format.write, Format.writeNumber]
    exact if_neg (by omega)
  rw [hwrite, writeBytes_run_aligned h, writeGroups_run_aligned h (by omega), Varint.encode,
    Nat.mod_eq_of_lt hlt]

end BitStream

namespace Varint

/-! ## Numbers one after the other -/

variable {data : Bytes} {c : Nat}

theorem lt_of_readU30 {n : Nat} {stop : Int}
    (h : readU30 data c = .ok (n, stop)) : c < stop := by
  rw [readU30_run] at h
  split at h
  · cases h
  · split at h
    · simp only [Except.ok.injEq, Prod.mk.injEq] at h
      omega
    · cases h

/-- All numbers from a place in data up to its end. -/
def walk (data : Bytes) (cursor : Nat) : Except Violation (List Nat) :=
  if cursor < data.length then
    match _h : readU30 data cursor with
    | .error v => .error v
    | .ok (n, stop) => (walk data stop.toNat).map (n :: ·)
  else .ok []
termination_by data.length - cursor
decreasing_by
  have hstop := lt_of_readU30 _h
  omega

theorem walk_length (data : Bytes) : walk data data.length = .ok [] := by
  rw [walk, if_neg (Nat.lt_irrefl _)]

theorem walk_next {n stop : Nat} (hc : c < data.length)
    (h : readU30 data c = .ok (n, stop)) : walk data c = (walk data stop).map (n :: ·) := by
  rw [walk, if_pos hc]
  split
  · rename_i hread
    cases h.symm.trans hread
  · rename_i hread
    cases h.symm.trans hread
    rfl

/-- What is found on the way are the numbers that were written. -/
theorem walk_writeEach (p : Bytes) {values : List Nat} (hvalues : ∀ v ∈ values, v < 2 ^ 32)
    {run : Bytes} (h : writeEach writeU30 (values.map Int.ofNat) = .ok run) :
    walk (p ++ run) p.length = .ok values := by
  induction values generalizing p run with
  | nil =>
    cases h
    rw [List.append_nil, walk_length]
  | cons v values ih =>
    simp only [List.map_cons, writeEach, Outcome.bind_eq_ok, Outcome.pure_eq_ok] at h
    obtain ⟨head, hhead, tail, htail, rfl⟩ := h
    have hv : v < 2 ^ 32 := hvalues v List.mem_cons_self
    obtain rfl : encode v = head := Except.ok.inj ((writeU30_natCast hv).symm.trans hhead)
    have hpos := length_encode_pos v
    have hrest := ih (p ++ encode v) (fun v hv => hvalues v (List.mem_cons_of_mem _ hv)) htail
    rw [← List.append_assoc, walk_next ?_ (readU30_encode hv p tail), ← List.length_append, hrest]
    · rfl
    · simp only [List.length_append]
      omega

/-! ## Main result -/

/-- A number of 32 bits is read back wherever it was written, from the shortest of its spellings
and the least of those that are as short, which is also what a stream takes for it. Where numbers
are read, only overlong and cut off ones are refused, and a run of numbers is walked to its
end. -/
theorem readU30_writeU30 :
    (∀ v : Nat, v < 2 ^ 32 → ∃ run, writeU30 v = .ok run ∧
      (∀ p q, readU30 (p ++ run ++ q) p.length = .ok (v, ↑(p.length + run.length))) ∧
      (∀ other, Spells other v → run.length ≤ other.length ∧
        (other.length = run.length → other ≠ run → run.getLastD 0 < other.getLastD 0)) ∧
      ∀ s : BitStream, s.aligned →
        (Format.write { shape := .u32 } (.int v)).run.run s =
          (BitStream.writeBytes run).run.run s) ∧
    (∀ (data : Bytes) (c : Nat), c ≤ data.length →
      (readU30 data c = .error { cause := .overlong, offset := some ↑c } ↔
        Overlong (data.drop c)) ∧
      (readU30 data c = .error { cause := .truncatedInput 8, offset := some ↑data.length } ↔
        CutOff (data.drop c)) ∧
      (¬ Overlong (data.drop c) → ¬ CutOff (data.drop c) →
        ∃ k b, k < 5 ∧ (data.drop c)[k]? = some b ∧ b.toNat < 128 ∧
          (∀ x ∈ (data.drop c).take k, 128 ≤ x.toNat) ∧
          readU30 data c = .ok (sum ((data.drop c).take (k + 1)) % 2 ^ 32, ↑(c + (k + 1))))) ∧
    ∀ (p : Bytes) (values : List Nat), (∀ v ∈ values, v < 2 ^ 32) →
      ∃ run, writeEach writeU30 (values.map Int.ofNat) = .ok run ∧
        walk (p ++ run) p.length = .ok values := by
  refine ⟨?written, fun data c hc =>
    ⟨readU30_overlong_iff, readU30_cutOff_iff hc, exists_readU30⟩, ?walked⟩
  case written =>
    intro v hv
    refine ⟨encode v, writeU30_natCast hv, ?_, ?_, ?_⟩
    · exact readU30_encode hv
    · exact fun other h => ⟨h.length_encode_le, h.encode_getLastD_lt⟩
    · exact fun s hs => BitStream.write_u32_run_aligned hs (writeU30_natCast hv)
  case walked =>
    intro p values hvalues
    obtain ⟨run, hrun⟩ : ∃ run, writeEach writeU30 (values.map Int.ofNat) = .ok run := by
      refine exists_writeEach.2 fun v hv => ?_
      obtain ⟨n, hn, rfl⟩ := List.mem_map.1 hv
      exact ⟨_, writeU30_natCast (hvalues n hn)⟩
    exact ⟨run, hrun, walk_writeEach p hvalues hrun⟩

/-- The lowest number of five bytes, whose last byte has room for more bits than are kept. -/
theorem readU30_writeU30_five :
    readU30 [0xFF, 0x80, 0x80, 0x80, 0x80, 0x01, 0x80] 1 = .ok (2 ^ 28, 6) ∧
    Spells [0x80, 0x80, 0x80, 0x80, 0x11] (2 ^ 28) ∧ (0x01 : UInt8) < 0x11 ∧
    ((Format.write { shape := .u32 } (.int (2 ^ 28))).run.run {}).2.bytes =
      [0x80, 0x80, 0x80, 0x80, 0x01] ∧
    readU30 [0xFF, 0x80, 0x80, 0x80, 0x80, 0x80] 1 =
      .error { cause := .overlong, offset := some 1 } ∧
    readU30 [0xFF, 0x80, 0x80] 1 = .error { cause := .truncatedInput 8, offset := some 3 } ∧
    walk [0xFF, 0x80, 0x80, 0x80, 0x80, 0x01, 0x07] 1 = .ok [2 ^ 28, 7] := by
  obtain ⟨hwritten, hread, hwalked⟩ := readU30_writeU30
  obtain ⟨run, hrun, hback, hleast, hstream⟩ := hwritten (2 ^ 28) (by decide)
  obtain rfl : [0x80, 0x80, 0x80, 0x80, 0x01] = run := Except.ok.inj hrun
  have hother : Spells [0x80, 0x80, 0x80, 0x80, 0x11] (2 ^ 28) := rfl
  refine ⟨hback [0xFF] [0x80], hother, (hleast _ hother).2 rfl (by decide), ?_, ?_, ?_, ?_⟩
  · exact congrArg (fun r => r.2.bytes) (hstream {} rfl)
  · exact (hread [0xFF, 0x80, 0x80, 0x80, 0x80, 0x80] 1 (by decide)).1.2 (by
      constructor
      all_goals decide +kernel)
  · exact (hread [0xFF, 0x80, 0x80] 1 (by decide)).2.1.2 (by
      constructor
      all_goals decide +kernel)
  · obtain ⟨run, hrun, hwalk⟩ := hwalked [0xFF] [2 ^ 28, 7] (by decide)
    obtain rfl : [0x80, 0x80, 0x80, 0x80, 0x01, 0x07] = run := Except.ok.inj hrun
    exact hwalk

end Varint

end ActionCode
