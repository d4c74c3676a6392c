import ActionCode.Proofs.BitStream.Formats
import ActionCode.Proofs.BitStream.Windows

/-!
# Signed numbers at a byte boundary

A signed number has two writers: one makes bytes of it, and the other lays it as a field over a
stream. For numbers of three bytes they agree on every number there is. For variable-length
numbers they agree but on the numbers that only 32 bits without a sign have room for: the field
takes them for the negative numbers of the same bits, where the other writer refuses them.
-/

namespace ActionCode

namespace Format

open BitStream

/-- A variable-length number in two's complement. -/
def s32 : Format := { shape := .s32 }

example : ofName "S32" none none = .ok s32 := by decide

variable {f : Format} {s : BitStream} {n : Int} {run : Bytes}

/-! ## Two writers of one number -/

/-- Where `n` is written at the cursor, `m` is read. -/
def ReadsAs (f : Format) (s : BitStream) (n m : Int) : Prop :=
  ∀ t, (f.write (.int n)).run.run s = (.ok (), t) →
    (seek s.position .start >>= fun _ => f.read).run.run t = (.ok (.int m), t)

/-- At the cursor, the format writes the bytes that `encode` makes of the number, or the two refuse
it, each for a reason of its own, and the stream is what it was. The number is read back unless the
bytes leave a gap in the buffer. -/
structure Agrees (f : Format) (encode : Int → Except Fault Bytes)
    (encoder field : Int → Refusal) (s : BitStream) (n : Int) : Prop where
  same :
    (∃ run, encode n = .ok run ∧
      (f.write (.int n)).run.run s = (writeBytes run).run.run s) ∨
    encode n = .error (.refusal (encoder n)) ∧
      (f.write (.int n)).run.run s = (.error (.refusal (field n)), s)
  back : s.Abuts → f.ReadsAs s n n

section

variable {encode : Int → Except Fault Bytes} {encoder field : Int → Refusal} {m : Int}

/-- Bytes that carry `m` are read as `m`, for whatever number they were written. -/
theorem ReadsAs.of_carries (haligned : s.aligned) (hcarries : f.CarriesBytes (.int m) run)
    (hwrite : (f.write (.int n)).run.run s = (writeBytes run).run.run s) (hs : s.Abuts) :
    f.ReadsAs s n m := by
  intro t ht
  rw [hwrite, writeBytes_run_aligned haligned] at ht
  obtain ⟨⟩ := ht
  rw [run_bind_ok (seek_run (s.laid run) s.position .start)]
  exact hcarries.read _ (lays_laid hs haligned run).shows

theorem Agrees.of_carries (haligned : s.aligned) (hencode : encode n = .ok run)
    (hwrite : (f.write (.int n)).run.run s = (writeBytes run).run.run s)
    (hcarries : f.CarriesBytes (.int n) run) : f.Agrees encode encoder field s n where
  same := .inl ⟨run, hencode, hwrite⟩
  back := .of_carries haligned hcarries hwrite

theorem Agrees.of_refuses (hencode : encode n = .error (.refusal (encoder n)))
    (hrefuses : f.Refuses (.int n) (field n)) : f.Agrees encode encoder field s n where
  same := .inr ⟨hencode, by rw [hrefuses.write_eq]; rfl⟩
  back _ t ht := by
    rw [hrefuses.write_eq] at ht
    cases ht

end

/-! ## Variable-length numbers -/

/-- The field takes all numbers of 32 bits, with or without a sign. -/
theorem s32_write_run (haligned : s.aligned) (hlow : -2 ^ 31 ≤ n) (hhigh : n < 2 ^ 32) :
    (s32.write (.int n)).run.run s =
      (writeBytes (Varint.encode (Varint.wrap n).toNat)).run.run s :=
  write_u32_run_aligned haligned (Varint.writeU30_eq_ok.2 ⟨by omega, rfl⟩)

theorem writeS32_refuses (hn : ¬ (-2 ^ 31 ≤ n ∧ n < 2 ^ 31)) :
    Varint.writeS32 n = .error (.refusal (.signed32 n)) := by
  unfold Varint.writeS32
  rw [if_pos (by omega)]

theorem s32_agrees (haligned : s.aligned) (hn : ¬ (2 ^ 31 ≤ n ∧ n < 2 ^ 32)) :
    s32.Agrees Varint.writeS32 .signed32 .varint s n := by
  by_cases hrange : -2 ^ 31 ≤ n ∧ n < 2 ^ 31
  · obtain ⟨hlow, hhigh⟩ := hrange
    exact .of_carries haligned (Varint.writeS32_eq_ok.2 ⟨by omega, rfl⟩)
      (s32_write_run haligned hlow (by omega)) (carries_s32 rfl hlow hhigh)
  · exact .of_refuses (writeS32_refuses hrange) (.varint (.inr rfl) (by omega))

/-- From the middle of 32 bits on, a number is written as the one that is lower by all of them. -/
theorem s32_wraps (haligned : s.aligned) (hlow : 2 ^ 31 ≤ n) (hhigh : n < 2 ^ 32) :
    ∃ run, Varint.writeS32 (n - 2 ^ 32) = .ok run ∧
      (s32.write (.int n)).run.run s = (writeBytes run).run.run s ∧
      (s.Abuts → s32.ReadsAs s n (n - 2 ^ 32)) := by
  have hwrap : Varint.wrap (n - 2 ^ 32) = Varint.wrap n := Int.sub_emod_right n (2 ^ 32)
  have hwrite := s32_write_run haligned (show -2 ^ 31 ≤ n by omega) hhigh
  have hcarries : s32.CarriesBytes (.int (n - 2 ^ 32)) _ := carries_s32 rfl (by omega) (by omega)
  rw [← hwrap] at hwrite
  exact ⟨_, Varint.writeS32_eq_ok.2 ⟨by omega, rfl⟩, hwrite, .of_carries haligned hcarries hwrite⟩

theorem s32_agrees_iff (haligned : s.aligned) :
    s32.Agrees Varint.writeS32 .signed32 .varint s n ↔ ¬ (2 ^ 31 ≤ n ∧ n < 2 ^ 32) := by
  refine ⟨fun h hn => ?_, s32_agrees haligned⟩
  -- One refuses the number and the other writes it.
  rcases h.same with ⟨run, hencode, -⟩ | ⟨-, hwrite⟩
  · rw [writeS32_refuses (by omega)] at hencode
    cases hencode
  · rw [s32_write_run haligned (by omega) hn.2, writeBytes_run_aligned haligned] at hwrite
    cases hwrite

/-! ## Numbers of three bytes -/

theorem si24_write_eq (hlow : -2 ^ 23 ≤ n) (hhigh : n < 2 ^ 23) :
    si24.write (.int n) = writeBytes (Bytes.ofNat 3 (n % 2 ^ 24).toNat) := by
  have hwhole : si24.writeWhole true n = _ := writeWhole_eq (n := 3) rfl true n
  refine hwhole.trans (if_pos ⟨?_, ?_⟩)
  · simpa using hlow
  · simp only [if_true]
    omega

theorem si24_agrees (haligned : s.aligned) :
    si24.Agrees Varint.writeS24 .signed24 (.wholeBytes · 3) s n := by
  by_cases hrange : -2 ^ 23 ≤ n ∧ n < 2 ^ 23
  · obtain ⟨hlow, hhigh⟩ := hrange
    exact .of_carries haligned (Varint.writeS24_eq_ok.2 ⟨by omega, rfl⟩)
      (by rw [si24_write_eq hlow hhigh]) (carries_signedByte (n := 3) rfl rfl hlow hhigh)
  · refine .of_refuses ?_ (.signedByte (n := 3) rfl rfl hrange)
    unfold Varint.writeS24
    rw [if_pos (by omega)]

/-- Bytes that are laid over the buffer stand there from the byte of the cursor on. -/
theorem drop_laid (haligned : s.aligned) (hs : s.Abuts) (run : Bytes) :
    ∃ rest, (s.laid run).bytes.drop (s.position / 8) = run ++ rest := by
  have habuts := hs haligned
  have hlength : (s.bytes.take (s.position / 8)).length = s.position / 8 := by
    rw [List.length_take]
    omega
  refine ⟨s.bytes.drop (s.position / 8 + run.length), ?_⟩
  rw [laid, overlay, List.append_assoc, List.drop_left' hlength]

/-- The window finds them as well. -/
theorem readS24_of_si24 (haligned : s.aligned) (hs : s.Abuts) (hrun : Varint.writeS24 n = .ok run) :
    Varint.readS24 (s.laid run).bytes ↑(s.position / 8) = .ok (n, ↑(s.position / 8 + 3)) := by
  obtain ⟨rest, hrest⟩ := drop_laid haligned hs run
  have hthree : run.length = 3 := by
    obtain ⟨-, rfl⟩ := Varint.writeS24_eq_ok.1 hrun
    exact Bytes.length_ofNat 3 _
  obtain ⟨t, hread, -, hoffset, -⟩ := Reader.Reads.s24 (W := .unknown) hrun
    ⟨run ++ rest, s.position / 8, [], []⟩ rest rfl rfl nofun
  rw [Varint.readS24_eq, hrest, hread, ← hthree, ← hoffset]
  rfl

/-! ## Main result -/

/-- At a byte boundary, the two writers of variable-length numbers agree but for the numbers from
the middle of 32 bits up to their end, which one refuses and the other writes as the negative
numbers of the same bits, for which they are then taken. The two writers of three bytes always
agree, and what they write is read through a window as well. Reading back is for bytes that leave
no gap in the buffer. -/
theorem signed_writers_agree_iff (haligned : s.aligned) (n : Int) :
    (s32.Agrees Varint.writeS32 .signed32 .varint s n ↔ ¬ (2 ^ 31 ≤ n ∧ n < 2 ^ 32)) ∧
    (2 ^ 31 ≤ n → n < 2 ^ 32 →
      Varint.writeS32 n = .error (.refusal (.signed32 n)) ∧
      ∃ run, Varint.writeS32 (n - 2 ^ 32) = .ok run ∧
        (s32.write (.int n)).run.run s = (writeBytes run).run.run s ∧
        (s.Abuts → s32.ReadsAs s n (n - 2 ^ 32))) ∧
    si24.Agrees Varint.writeS24 .signed24 (.wholeBytes · 3) s n ∧
    ∀ run, Varint.writeS24 n = .ok run → s.Abuts →
      Varint.readS24 (s.laid run).bytes ↑(s.position / 8) = .ok (n, ↑(s.position / 8 + 3)) := by
  refine ⟨s32_agrees_iff haligned, fun hlow hhigh => ⟨?_, s32_wraps haligned hlow hhigh⟩,
    si24_agrees haligned, fun run hrun hs => readS24_of_si24 haligned hs hrun⟩
  exact writeS32_refuses (by omega)

/-- Over the last byte of two, both write the lowest number of 32 bits, but the one behind the
highest only the field, which is read as that lowest number; -5 is written by both in three
bytes. -/
theorem signed_writers_agree_iff_overwritten :
    let s : BitStream := { bytes := [0xAA, 0xBB], size := 16, position := 8 }
    let t := s.laid [0x80, 0x80, 0x80, 0x80, 0x08]
    s.aligned = true ∧ s.Abuts ∧
    s32.Agrees Varint.writeS32 .signed32 .varint s (-0x80000000) ∧
    ¬ s32.Agrees Varint.writeS32 .signed32 .varint s 0x80000000 ∧
    Varint.writeS32 0x80000000 = .error (.refusal (.signed32 0x80000000)) ∧
    (s32.write (.int 0x80000000)).run.run s = (.ok (), t) ∧
    (seek s.position .start >>= fun _ => s32.read).run.run t = (.ok (.int (-0x80000000)), t) ∧
    si24.Agrees Varint.writeS24 .signed24 (.wholeBytes · 3) s (-5) ∧
    Varint.readS24 (s.laid [0xFB, 0xFF, 0xFF]).bytes 1 = .ok (-5, 4) := by
  intro s t
  have haligned : s.aligned = true := by decide
  have hs : s.Abuts := fun _ => by decide
  obtain ⟨hlowest, -, -, -⟩ := signed_writers_agree_iff haligned (-0x80000000)
  obtain ⟨hbehind, hwraps, -, -⟩ := signed_writers_agree_iff haligned 0x80000000
  obtain ⟨-, -, hthree, hwindow⟩ := signed_writers_agree_iff haligned (-5)
  have hagrees := hlowest.2 (by decide)
  have hdiffers := fun h => hbehind.1 h (by decide)
  obtain ⟨hrefused, run, hrun, hwrite, hback⟩ := hwraps (by decide) (by decide)
  obtain rfl : [0x80, 0x80, 0x80, 0x80, 0x08] = run := Except.ok.inj hrun
  rw [writeBytes_run_aligned haligned] at hwrite
  have hread := hwindow [0xFB, 0xFF, 0xFF] rfl hs
  rw [show s.position / 8 = 1 by decide] at hread
  exact ⟨haligned, hs, hagrees, hdiffers, hrefused, hwrite, hback hs t hwrite, hthree, hread⟩

/-- The lowest number that the two writers of variable-length numbers disagree about is given back
with the other sign. -/
theorem s32_takes_unsigned :
    Varint.writeS32 0x80000000 = .error (.refusal (.signed32 0x80000000)) ∧
    (s32.write (.int 0x80000000)).run.run {} =
      (.ok (), laid {} [0x80, 0x80, 0x80, 0x80, 0x08]) ∧
    (seek 0 .start >>= fun _ => s32.read).run.run (laid {} [0x80, 0x80, 0x80, 0x80, 0x08]) =
      (.ok (.int (-0x80000000)), laid {} [0x80, 0x80, 0x80, 0x80, 0x08]) ∧
    ¬ ∀ s : BitStream, s.aligned → ∀ n,
      s32.Agrees Varint.writeS32 .signed32 .varint s n ∧
        si24.Agrees Varint.writeS24 .signed24 (.wholeBytes · 3) s n := by
  refine ⟨rfl, rfl, rfl, fun hall => ?_⟩
  obtain ⟨hagrees, -⟩ := hall {} rfl 0x80000000
  rcases hagrees.same with ⟨run, hrun, -⟩ | ⟨-, hwrite⟩
  · cases hrun
  · cases hwrite

end Format

end ActionCode
