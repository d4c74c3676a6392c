import ActionCode.Proofs.BitStream.Fields

/-!
# Values in their fields

A field of a stream is written at any cursor and read back from there, whatever its width, its
sign and the order of its bytes. What stands in front of it and behind it stays, and a value that
the field cannot hold leaves all of the stream as it was. The one exception is a run of bytes at a
byte boundary that the buffer does not reach: it is put at the end of the buffer, so that it is not
where it is looked for.
-/

namespace ActionCode

namespace Format

open BitStream

variable {f : Format} {v : Value}

/-! ## Values that fit -/

/-- A field of the format holds the value, in so many bits. -/
inductive Fits (f : Format) : Value → (width : Nat) → Prop
  | unsignedBits {n : Nat} {value : Int} : f.shape = .unsignedBits → f.length = some ↑n →
      0 ≤ value → value < 2 ^ n → Fits f (.int value) n
  | byte {n : Nat} {value : Int} : f.shape = .byte → f.wholeBytes = n →
      0 ≤ value → value < 256 ^ n → Fits f (.int value) (8 * n)
  | signedByte {n : Nat} {value : Int} : f.shape = .signedByte → f.wholeBytes = n →
      -(256 ^ n / 2) ≤ value → value < 256 ^ n / 2 → Fits f (.int value) (8 * n)
  | byteString {data : Bytes} : f.shape = .byteString → f.length = some ↑data.length →
      Fits f (.bytes data) (8 * data.length)
  | u32 {value : Int} : f.shape = .u32 → 0 ≤ value → value < 2 ^ 32 →
      Fits f (.int value) (8 * (Varint.encode value.toNat).length)
  | s32 {value : Int} : f.shape = .s32 → -2 ^ 31 ≤ value → value < 2 ^ 31 →
      Fits f (.int value) (8 * (Varint.encode (value % 2 ^ 32).toNat).length)
  | double {order : ByteOrder} (bits : UInt64) : f.shape = .float → f.length = some 64 →
      f.order = some order → order ≠ .unknown → Fits f (.double bits) 64

/-- A field of the format cannot hold the value, for the reason given. -/
inductive Refuses (f : Format) : Value → Refusal → Prop
  | unsignedBits {n : Nat} {value : Int} : f.shape = .unsignedBits → f.length = some ↑n →
      ¬ (0 ≤ value ∧ value < 2 ^ n) → Refuses f (.int value) (.bitField n value)
  | byte {n : Nat} {value : Int} : f.shape = .byte → f.wholeBytes = n →
      ¬ (0 ≤ value ∧ value < 256 ^ n) → Refuses f (.int value) (.wholeBytes value n)
  | signedByte {n : Nat} {value : Int} : f.shape = .signedByte → f.wholeBytes = n →
      ¬ (-(256 ^ n / 2) ≤ value ∧ value < 256 ^ n / 2) →
      Refuses f (.int value) (.wholeBytes value n)
  | byteString {n : Int} {data : Bytes} : f.shape = .byteString → f.length = some n →
      data.length ≠ n → Refuses f (.bytes data) (.byteString data n)
  | varint {value : Int} : f.shape = .u32 ∨ f.shape = .s32 →
      ¬ (-2 ^ 31 ≤ value ∧ value < 2 ^ 32) → Refuses f (.int value) (.varint value)

/-! ## Runs that carry a value -/

/-- The bits are what is written for the value, and the value is what is read from them. -/
structure CarriesBits (f : Format) (v : Value) (run : List Bool) : Prop where
  write : ∀ s : BitStream, s.position ≤ s.size → s.Writes (f.write v) run
  read : ∀ s : BitStream, s.Shows run → s.Gives f.read v run.length

/-- The same for bytes, which must not leave a gap. At a byte boundary they are laid over the
buffer. -/
structure CarriesBytes (f : Format) (v : Value) (data : Bytes) : Prop where
  write : ∀ s : BitStream, s.Abuts → s.position ≤ s.size → s.Writes (f.write v) (bitsOfBytes data)
  laid : ∀ s : BitStream, s.aligned = true → (f.write v).run.run s = (.ok (), s.laid data)
  read : ∀ s : BitStream, s.Shows (bitsOfBytes data) → s.Gives f.read v (8 * data.length)

theorem carries_bytes {data : Bytes} (value : Bytes → Op Value)
    (hwrite : f.write v = writeBytes data)
    (hread : f.read = readBytes data.length >>= value) (hvalue : value data = pure v) :
    f.CarriesBytes v data where
  write s hs hcursor := hwrite ▸ writes_bytes hs hcursor data
  laid s haligned := hwrite ▸ writeBytes_run_aligned haligned data
  read s h := by
    have hbytes := gives_bytes h
    unfold Gives
    rw [hread, run_bind_ok hbytes, hvalue]
    rfl

theorem gives_readU32 {s : BitStream} {n : Nat} (hn : n < 2 ^ 32)
    (h : s.Shows (bitsOfBytes (Varint.groups 4 n))) :
    s.Gives readU32 n (8 * (Varint.groups 4 n).length) := by
  have hgroups : s.Gives (readGroups (s.position / 8) 5) n _ := gives_groups (by omega) h
  have hcut := hgroups.map (· % 2 ^ 32)
  rw [Nat.mod_eq_of_lt hn] at hcut
  unfold Gives readU32
  rw [run_get_bind]
  exact hcut

theorem carries_groups {n : Nat} (value : Nat → Value) (hn : n < 2 ^ 32)
    (hwrite : f.write v = writeGroups 4 n)
    (hread : f.read = readU32 >>= fun x => pure (value x)) (hvalue : value n = v) :
    f.CarriesBytes v (Varint.encode n) := by
  rw [Varint.encode, Nat.mod_eq_of_lt hn]
  constructor
  case write =>
    intro s hs hcursor
    exact hwrite ▸ writes_groups hs hcursor (by omega)
  case laid =>
    intro s haligned
    exact hwrite ▸ writeGroups_run_aligned haligned (by omega)
  case read =>
    intro s h
    rw [hread, ← hvalue]
    exact (gives_readU32 hn h).map value

/-! ## Whole bytes -/

@[simp] theorem length_arrange (little : Bool) (bytes : Bytes) :
    (arrange little bytes).length = bytes.length := by
  cases little
  · exact List.length_reverse
  · rfl

@[simp] theorem arrange_arrange (little : Bool) (bytes : Bytes) :
    arrange little (arrange little bytes) = bytes := by
  cases little
  · exact List.reverse_reverse bytes
  · rfl

theorem wholeBytes_ne_zero (f : Format) : f.wholeBytes ≠ 0 := by
  unfold wholeBytes
  split
  · decide
  · decide
  · rename_i n hne _
    rintro rfl
    exact hne rfl

/-- The numbers of whole bytes, from the lowest one that they have room for. -/
theorem writeWhole_eq {n : Nat} (hwhole : f.wholeBytes = n) (signed : Bool) (value : Int) :
    f.writeWhole signed value =
      if (if signed then -(256 ^ n / 2) else 0) ≤ value ∧
          value < (if signed then -(256 ^ n / 2) else 0) + 256 ^ n then
        writeBytes (arrange f.little (Bytes.ofNat n (value % 256 ^ n).toNat))
      else throw (.refusal (.wholeBytes value n)) := by
  rw [writeWhole, hwhole, if_neg (by omega)]
  rfl

/-- The numbers of whole bytes are halved by 0, as there is at least one byte. -/
theorem two_mul_half {n : Nat} (hwhole : f.wholeBytes = n) :
    2 * ((256 : Int) ^ n / 2) = 256 ^ n := by
  have hn : n ≠ 0 := fun h => f.wholeBytes_ne_zero (by rw [hwhole, h]; rfl)
  obtain ⟨n, rfl⟩ := Nat.exists_eq_succ_of_ne_zero hn
  rw [Int.pow_succ]
  omega

theorem readWhole_eq {n : Nat} (hwhole : f.wholeBytes = n) (value : Int) :
    f.readWhole = readBytes (arrange f.little (Bytes.ofNat n (value % 256 ^ n).toNat)).length >>=
      fun x => pure (arrange f.little x) := by
  rw [readWhole, hwhole, length_arrange, Bytes.length_ofNat]

/-! ## Each format -/

theorem carries_unsignedBits {n : Nat} {value : Int} (hshape : f.shape = .unsignedBits)
    (hlength : f.length = some ↑n) (hlow : 0 ≤ value) (hhigh : value < 2 ^ n) :
    f.CarriesBits (.int value) (bitsOfNat n value.toNat) := by
  have hpow : ((2 ^ n : Nat) : Int) = 2 ^ n := Int.natCast_pow 2 n
  have hvalue : Value.int (natOfBits (bitsOfNat n value.toNat)) = .int value := by
    rw [natOfBits_bitsOfNat, Nat.mod_eq_of_lt (by omega), Int.toNat_of_nonneg hlow]
  refine ⟨fun s hcursor => ?write, fun s h => ?read⟩
  case write =>
    simp only [write, hshape, hlength, writeNumber, writeBitField, Int.toNat_natCast]
    rw [if_neg (by omega), if_neg (by omega), if_pos hhigh]
    exact writes_bits hcursor _
  case read =>
    have hbits := (gives_bits h).map fun x => Value.int (natOfBits x)
    rw [hvalue, length_bitsOfNat] at hbits
    simp only [read, hshape, hlength, length_bitsOfNat]
    exact hbits

theorem carries_byte {n : Nat} {value : Int} (hshape : f.shape = .byte)
    (hwhole : f.wholeBytes = n) (hlow : 0 ≤ value) (hhigh : value < 256 ^ n) :
    f.CarriesBytes (.int value)
      (arrange f.little (Bytes.ofNat n (value % 256 ^ n).toNat)) := by
  have hpow : ((256 ^ n : Nat) : Int) = 256 ^ n := Int.natCast_pow 256 n
  refine carries_bytes (fun x => pure (.int (arrange f.little x).toNat)) ?_ ?_ ?_
  · simp only [write, hshape, writeNumber, writeWhole_eq hwhole]
    exact if_pos ⟨hlow, by simpa using hhigh⟩
  · simp only [read, hshape, readWhole_eq hwhole value, bind_assoc, pure_bind]
  · rw [arrange_arrange, Bytes.toNat_ofNat, Int.emod_eq_of_lt hlow hhigh,
      Nat.mod_eq_of_lt (by omega), Int.toNat_of_nonneg hlow]

theorem carries_signedByte {n : Nat} {value : Int} (hshape : f.shape = .signedByte)
    (hwhole : f.wholeBytes = n) (hlow : -(256 ^ n / 2) ≤ value) (hhigh : value < 256 ^ n / 2) :
    f.CarriesBytes (.int value)
      (arrange f.little (Bytes.ofNat n (value % 256 ^ n).toNat)) := by
  have hhalf := two_mul_half hwhole
  refine carries_bytes (fun x => pure (.int (arrange f.little x).toInt)) ?_ ?_ ?_
  · simp only [write, hshape, writeNumber, writeWhole_eq hwhole]
    exact if_pos ⟨hlow, by simp only [if_true]; omega⟩
  · simp only [read, hshape, readWhole_eq hwhole value, bind_assoc, pure_bind]
  · rw [arrange_arrange, Bytes.toInt_ofNat (by omega) (by omega)]

theorem carries_byteString {data : Bytes} (hshape : f.shape = .byteString)
    (hlength : f.length = some ↑data.length) : f.CarriesBytes (.bytes data) data := by
  refine carries_bytes (fun x => pure (.bytes x)) ?_ ?_ rfl
  · simp only [write, hshape, writeByteString, hlength, if_true]
  · simp only [read, hshape, hlength]

theorem carries_u32 {value : Int} (hshape : f.shape = .u32) (hlow : 0 ≤ value)
    (hhigh : value < 2 ^ 32) :
    f.CarriesBytes (.int value) (Varint.encode value.toNat) := by
  refine carries_groups (fun n => .int n) (by omega) ?_ ?_ ?_
  · simp only [write, hshape, writeNumber, writeU32]
    rw [if_neg (by omega), Int.emod_eq_of_lt hlow hhigh]
  · simp only [read, hshape]
  · rw [Int.toNat_of_nonneg hlow]

theorem carries_s32 {value : Int} (hshape : f.shape = .s32) (hlow : -2 ^ 31 ≤ value)
    (hhigh : value < 2 ^ 31) :
    f.CarriesBytes (.int value) (Varint.encode (value % 2 ^ 32).toNat) := by
  refine carries_groups (fun n => .int (if n < 2 ^ 31 then n else n - 2 ^ 32))
    (by omega) ?_ ?_ ?_
  · simp only [write, hshape, writeNumber, writeU32]
    rw [if_neg (by omega)]
  · simp only [read, hshape]
  · congr 1
    split <;> omega

theorem exists_littleFloat {order : ByteOrder} (horder : f.order = some order)
    (hknown : order ≠ .unknown) : ∃ little, f.littleFloat = .ok little := by
  unfold littleFloat
  rw [horder]
  cases order with
  | little => exact ⟨_, rfl⟩
  | big => exact ⟨_, rfl⟩
  | machine => exact ⟨_, rfl⟩
  | unknown => exact absurd rfl hknown

theorem carries_double {order : ByteOrder} {little : Bool} (bits : UInt64)
    (hshape : f.shape = .float) (hlength : f.length = some 64) (horder : f.order = some order)
    (hlittle : f.littleFloat = .ok little) :
    f.CarriesBytes (.double bits) (arrange little (Bytes.ofNat 8 bits.toNat)) := by
  have hbytes : f.floatBytes = .ok 8 := by
    unfold floatBytes
    rw [hlength, horder]
    rfl
  have height : (arrange little (Bytes.ofNat 8 bits.toNat)).length = 8 := by simp
  refine carries_bytes (fun x => if x.length < 8 then throw (.refusal (.absentValue .doubles))
    else pure (.double (arrange little x).toNat.toUInt64)) ?_ ?_ ?_
  · have hdata : f.floatToBytes bits = .ok (arrange little (Bytes.ofNat 8 bits.toNat)) := by
      unfold floatToBytes
      rw [hbytes, hlittle]
      rfl
    simp only [write, hshape, writeFloat, hdata]
  · rw [height]
    simp only [read, hshape, readFloat, hbytes, hlittle, bind_assoc]
    congr 1
    funext x
    split
    · rfl
    · rfl
  · rw [if_neg (by omega), arrange_arrange, Bytes.toUInt64_ofNat]

/-- All but a field of bits is carried by bytes. -/
theorem Fits.carries {width : Nat} (h : f.Fits v width) :
    (f.shape = .unsignedBits ∧ ∃ run, run.length = width ∧ f.CarriesBits v run) ∨
      f.shape ≠ .unsignedBits ∧ ∃ data, 8 * data.length = width ∧ f.CarriesBytes v data := by
  cases h with
  | unsignedBits hshape hlength hlow hhigh =>
    exact .inl ⟨hshape, _, length_bitsOfNat .., carries_unsignedBits hshape hlength hlow hhigh⟩
  | byte hshape hwhole hlow hhigh =>
    exact .inr ⟨by simp [hshape], _, by simp, carries_byte hshape hwhole hlow hhigh⟩
  | signedByte hshape hwhole hlow hhigh =>
    exact .inr ⟨by simp [hshape], _, by simp, carries_signedByte hshape hwhole hlow hhigh⟩
  | byteString hshape hlength =>
    exact .inr ⟨by simp [hshape], _, rfl, carries_byteString hshape hlength⟩
  | u32 hshape hlow hhigh =>
    exact .inr ⟨by simp [hshape], _, rfl, carries_u32 hshape hlow hhigh⟩
  | s32 hshape hlow hhigh =>
    exact .inr ⟨by simp [hshape], _, rfl, carries_s32 hshape hlow hhigh⟩
  | double bits hshape hlength horder hknown =>
    obtain ⟨little, hlittle⟩ := exists_littleFloat horder hknown
    exact .inr ⟨by simp [hshape], _, by simp, carries_double bits hshape hlength horder hlittle⟩

theorem Refuses.write_eq {r : Refusal} (h : f.Refuses v r) : f.write v = throw (.refusal r) := by
  cases h with
  | @unsignedBits n value hshape hlength hout =>
    simp only [write, hshape, hlength, writeNumber, writeBitField, Int.toNat_natCast]
    by_cases hneg : value < 0
    · rw [if_pos hneg]
    · rw [if_neg hneg, if_neg (by omega), if_neg fun h => hout ⟨by omega, h⟩]
  | byte hshape hwhole hout =>
    simp only [write, hshape, writeNumber, writeWhole_eq hwhole]
    exact if_neg (by simpa using hout)
  | @signedByte n value hshape hwhole hout =>
    have hhalf := two_mul_half hwhole
    simp only [write, hshape, writeNumber, writeWhole_eq hwhole, if_true]
    exact if_neg fun h => hout ⟨h.1, by omega⟩
  | byteString hshape hlength hne =>
    simp only [write, hshape, writeByteString, hlength]
    exact if_neg hne
  | varint hshape hout =>
    rcases hshape with hshape | hshape
    · simp only [write, hshape, writeNumber, writeU32]
      exact if_pos (by omega)
    · simp only [write, hshape, writeNumber, writeU32]
      exact if_pos (by omega)

/-! ## There and back -/

variable {s t : BitStream} {width : Nat}

/-- The value is written over the bits from the cursor on and over no others, and is read back when
the cursor is put back, which leaves it where the writing had left it. -/
def RoundTrips (f : Format) (s : BitStream) (v : Value) (width : Nat) : Prop :=
  ∃ run t, run.length = width ∧ (f.write v).run.run s = (.ok (), t) ∧ s.Lays run t ∧
    (seek s.position .start >>= fun _ => f.read).run.run t = (.ok v, t)

theorem RoundTrips.of_writes {run : List Bool} (hwrites : s.Writes (f.write v) run)
    (hread : ∀ t : BitStream, t.Shows run → t.Gives f.read v run.length) :
    f.RoundTrips s v run.length := by
  obtain ⟨t, hwrite, hlays⟩ := hwrites
  have hback : f.read.run.run { t with position := s.position } = _ := hread _ hlays.shows
  rw [show s.position + run.length = t.position from hlays.position.symm] at hback
  exact ⟨run, t, rfl, hwrite, hlays, (run_bind_ok (seek_run t s.position .start) _).trans hback⟩

theorem CarriesBytes.roundTrips {data : Bytes} (h : f.CarriesBytes v data)
    (hwrites : s.Writes (f.write v) (bitsOfBytes data)) :
    f.RoundTrips s v (8 * data.length) := by
  have hback := RoundTrips.of_writes hwrites fun t ht => by
    rw [length_bitsOfBytes]
    exact h.read t ht
  rwa [length_bitsOfBytes] at hback

/-- On a stream without gaps, every value that fits makes its way there and back. -/
theorem write_seek_read (hs : s.Abuts) (hcursor : s.position ≤ s.size) (hfits : f.Fits v width) :
    f.RoundTrips s v width := by
  rcases hfits.carries with ⟨-, run, rfl, hcarries⟩ | ⟨-, data, rfl, hcarries⟩
  · exact .of_writes (hcarries.write s hcursor) hcarries.read
  · exact hcarries.roundTrips (hcarries.write s hs hcursor)

/-! ## Gaps -/

theorem not_abuts_iff : ¬ s.Abuts ↔ s.aligned = true ∧ 8 * s.bytes.length < s.position := by
  rw [Abuts, Classical.not_imp, Nat.not_le]

/-- Beyond the end of the buffer, bytes are put at its end. -/
theorem bytes_laid_of_not_abuts (hs : ¬ s.Abuts) (data : Bytes) :
    (s.laid data).bytes = s.bytes ++ data := by
  obtain ⟨-, hgap⟩ := not_abuts_iff.1 hs
  exact overlay_of_length_le (by omega) data

theorem laid_nil (hcursor : s.position ≤ s.size) : s.laid [] = s := by
  simp [laid, overlay, Nat.max_eq_left hcursor]

/-- Where bytes leave a gap, the buffer ends before the run does. -/
theorem CarriesBytes.roundTrips_iff {data : Bytes} (h : f.CarriesBytes v data) (hs : ¬ s.Abuts)
    (hcursor : s.position ≤ s.size) : f.RoundTrips s v (8 * data.length) ↔ data = [] := by
  obtain ⟨haligned, hgap⟩ := not_abuts_iff.1 hs
  have hlaid := h.laid s haligned
  constructor
  · rintro ⟨run, t, hlength, hwrite, hlays, -⟩
    obtain ⟨-, rfl⟩ := Prod.mk.inj (hlaid.symm.trans hwrite)
    by_contra hne
    have hpos := List.length_pos_iff.2 hne
    have hstored := hlays.stored (List.ne_nil_of_length_pos (by omega))
    rw [hlays.position, bytes_laid_of_not_abuts hs, List.length_append] at hstored
    omega
  · rintro rfl
    rw [laid_nil hcursor] at hlaid
    exact h.roundTrips ⟨s, hlaid, .nil hcursor⟩

/-! ## Main result -/

/-- Wherever the cursor stands on a stream, a value that fits is written over the bits from there
on and over no others, and is read back when the cursor is put back, which leaves it where the
writing had left it. This is so but for bytes at a byte boundary that the buffer does not reach,
which are put at the end of the buffer although the stream counts them from the cursor on. A value
that does not fit is refused, and the stream is what it was. -/
theorem write_seek_read_iff (s : BitStream) (f : Format) (v : Value) :
    (s.position ≤ s.size → ∀ width, f.Fits v width →
      (f.RoundTrips s v width ↔ s.Abuts ∨ f.shape = .unsignedBits ∨ width = 0) ∧
      (¬ s.Abuts → f.shape ≠ .unsignedBits → ∃ data t, 8 * data.length = width ∧
        (f.write v).run.run s = (.ok (), t) ∧ t.bytes = s.bytes ++ data ∧
        t.size = max s.size (s.position + width) ∧ t.position = s.position + width)) ∧
    ∀ r, f.Refuses v r → (f.write v).run.run s = (.error (.refusal r), s) := by
  refine ⟨fun hcursor width hfits => ?fits, fun r hrefuses => ?refuses⟩
  case fits =>
    rcases hfits.carries with ⟨hshape, run, rfl, hcarries⟩ | ⟨hshape, data, rfl, hcarries⟩
    · have htrip := RoundTrips.of_writes (hcarries.write s hcursor) hcarries.read
      exact ⟨⟨fun _ => .inr (.inl hshape), fun _ => htrip⟩, fun _ hne => absurd hshape hne⟩
    · refine ⟨?_, fun hs _ => ?_⟩
      · by_cases hs : s.Abuts
        · exact ⟨fun _ => .inl hs, fun _ => write_seek_read hs hcursor hfits⟩
        · rw [hcarries.roundTrips_iff hs hcursor]
          simp [hs, hshape]
      · obtain ⟨haligned, -⟩ := not_abuts_iff.1 hs
        exact ⟨data, _, rfl, hcarries.laid s haligned, bytes_laid_of_not_abuts hs data, rfl, rfl⟩
  case refuses =>
    rw [hrefuses.write_eq]
    rfl

/-- A negative number in the middle of three bytes, and one that two bytes do not hold. Where a
byte would leave a gap, it does not make its way there and back, but eight bits do. -/
theorem write_seek_read_iff_unaligned :
    let f : Format := { shape := .signedByte, length := some 2, order := some .little }
    let s : BitStream := { bytes := [0xaa, 0xaa, 0xaa], size := 24, position := 3 }
    let t : BitStream := { bytes := [0xbf, 0xdf, 0xea], size := 24, position := 19 }
    let gap : BitStream := { bytes := [0xff], size := 24, position := 16 }
    s.position ≤ s.size ∧ f.Fits (.int (-2)) 16 ∧ f.RoundTrips s (.int (-2)) 16 ∧
      (f.write (.int (-2))).run.run s = (.ok (), t) ∧
      f.Refuses (.int 32768) (.wholeBytes 32768 2) ∧
      (f.write (.int 32768)).run.run s = (.error (.refusal (.wholeBytes 32768 2)), s) ∧
      gap.position ≤ gap.size ∧ ¬ gap.Abuts ∧
      ¬ RoundTrips { shape := .byte, length := some 1 } gap (.int 5) 8 ∧
      RoundTrips { shape := .unsignedBits, length := some 8 } gap (.int 5) 8 := by
  intro f s t gap
  have hcursor : s.position ≤ s.size := by decide
  have hreachable : Reachable s :=
    .perform (.seek 3 .start) (.start (.bytes [0xaa, 0xaa, 0xaa])) (by decide : (0 : Int) ≤ 3)
  have hfits : f.Fits (.int (-2)) 16 := .signedByte (n := 2) rfl rfl (by decide) (by decide)
  have hrefuses : f.Refuses (.int 32768) (.wholeBytes 32768 2) :=
    .signedByte rfl rfl (by decide)
  have hround := ((write_seek_read_iff s f (.int (-2))).1 hcursor 16 hfits).1.2
    (.inl (hreachable.abuts hcursor))
  have ht : ((f.write (.int (-2))).run.run s).2 = t := by decide +kernel
  have hwrite : (f.write (.int (-2))).run.run s = (.ok (), t) := by
    obtain ⟨run, t', -, hwrite, -⟩ := hround
    rw [← ht, hwrite]
  have hgap : gap.position ≤ gap.size := by decide
  have hleft : ¬ gap.Abuts := not_abuts_iff.2 (by decide)
  have hbyte := ((write_seek_read_iff gap { shape := .byte, length := some 1 } (.int 5)).1 hgap 8
    (.byte (n := 1) rfl rfl (by decide) (by decide))).1
  have hbits := ((write_seek_read_iff gap { shape := .unsignedBits, length := some 8 }
    (.int 5)).1 hgap 8 (.unsignedBits rfl rfl (by decide) (by decide))).1
  exact ⟨hcursor, hfits, hround, hwrite, hrefuses,
    (write_seek_read_iff s f (.int 32768)).2 _ hrefuses, hgap, hleft,
    fun h => by simpa [hleft] using hbyte.1 h, hbits.2 (.inr (.inl rfl))⟩

/-- After a byte was written at the second byte boundary of an empty stream, another one that is
written there is put at the first one, and nothing is read back. -/
theorem not_forall_roundTrips :
    let f : Format := { shape := .byte, length := some 1 }
    let gap : BitStream := { bytes := [0xff], size := 24, position := 16 }
    let t : BitStream := { bytes := [0xff, 0x05], size := 24, position := 24 }
    (do seek 16 .start; writeByte 0xff; seek 16 .start : Op Unit).run.run {} = (.ok (), gap) ∧
      f.Fits (.int 5) 8 ∧ (f.write (.int 5)).run.run gap = (.ok (), t) ∧
      (seek 16 .start >>= fun _ => f.read).run.run t = (.ok (.int 0), t) ∧
      ¬ ∀ (s : BitStream) (f : Format) (v : Value) (width : Nat), s.position ≤ s.size →
        f.Fits v width → f.RoundTrips s v width := by
  refine ⟨rfl, .byte (n := 1) rfl rfl (by decide) (by decide), rfl, rfl, fun hall => ?_⟩
  have hround := hall { bytes := [0xff], size := 24, position := 16 }
    { shape := .byte, length := some 1 } (.int 5) 8 (by decide)
    (.byte (n := 1) rfl rfl (by decide) (by decide))
  obtain ⟨run, t, -, hwrite, -, hback⟩ := hround
  obtain ⟨⟩ := hwrite
  cases hback

end Format

end ActionCode
