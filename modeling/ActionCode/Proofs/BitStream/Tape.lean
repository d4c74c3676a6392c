import ActionCode.Proofs.BitStream.Bits

/-!
# Streams as tapes

A tape is a list of bits with a cursor. What an operation does to a stream is told by what it does
to the tape that the stream holds, and there is only one stream that holds a tape: a packed one,
in which the bits behind the last are clear. So two operations that come to the same on the tape
come to the same on the stream, byte for byte.
-/

namespace ActionCode

/-- Bits in a row, and a place among them. -/
structure Tape where
  bits : List Bool := []
  cursor : Nat := 0

namespace Tape

/-- Lays bits over those after the cursor, and adds those that reach past the end. -/
def put (t : Tape) (run : List Bool) : Tape :=
  { bits := overlay t.bits t.cursor run, cursor := t.cursor + run.length }

/-- The next bits, if there are so many. -/
def take (t : Tape) (count : Nat) : Option (List Bool × Tape) :=
  if t.cursor + count ≤ t.bits.length then
    some ((t.bits.drop t.cursor).take count, { t with cursor := t.cursor + count })
  else none

theorem put_nil (t : Tape) : t.put [] = t := by
  simp [put, overlay]

theorem put_append {t : Tape} (h : t.cursor ≤ t.bits.length) (run more : List Bool) :
    (t.put run).put more = t.put (run ++ more) := by
  simp [put, overlay_append h, Nat.add_assoc]

/-- A run is taken in two parts. -/
theorem take_add (t : Tape) (count more : Nat) :
    t.take (count + more) =
      (t.take count).bind fun p => (p.2.take more).map fun q => (p.1 ++ q.1, q.2) := by
  by_cases hcount : t.cursor + count ≤ t.bits.length
  · by_cases h : t.cursor + (count + more) ≤ t.bits.length
    · simp [take, hcount, h, Nat.add_assoc, List.take_add]
    · simp [take, hcount, h, Nat.add_assoc]
  · simp [take, hcount, show ¬ t.cursor + (count + more) ≤ t.bits.length by omega]

theorem length_of_take {t t' : Tape} {count : Nat} {bits : List Bool}
    (h : t.take count = some (bits, t')) : bits.length = count := by
  simp only [take] at h
  split at h
  · obtain ⟨rfl, -⟩ := h
    simp only [List.length_take, List.length_drop]
    omega
  · cases h

end Tape

namespace BitStream

variable {α β : Type} {s s' : BitStream} {t t' : Tape}

theorem aligned_iff : s.aligned ↔ s.position % 8 = 0 := by
  simp [aligned]

/-! ## The tape that a stream holds -/

/-- The stream has the bits of the tape in as few bytes as they take, and no others. -/
structure Holds (s : BitStream) (t : Tape) : Prop where
  /-- Behind the last bit of the tape the buffer is clear. -/
  bit : ∀ i, bitAt s.bytes i = t.bits[i]?.getD false
  size : s.size = t.bits.length
  position : s.position = t.cursor
  within : t.cursor ≤ t.bits.length
  packed : s.bytes.length = (s.size + 7) / 8

namespace Holds

/-- A tape is held by one stream only. -/
theorem unique (h : s.Holds t) (h' : s'.Holds t) : s = s' := by
  have hsize : s.size = s'.size := h.size.trans h'.size.symm
  have hbytes : s.bytes = s'.bytes := by
    apply eq_of_bitAt
    · rw [h.packed, h'.packed, hsize]
    · intro i
      rw [h.bit, h'.bit]
  have hposition : s.position = s'.position := h.position.trans h'.position.symm
  cases s
  cases s'
  simp_all

theorem toBits (h : s.Holds t) : s.toBits = t.bits := by
  apply List.ext_getElem
  · simp [BitStream.toBits, h.size]
  · intro i _ hi
    simp [BitStream.toBits, h.bit, List.getElem?_eq_getElem hi]

theorem text (h : s.Holds t) :
    s.text = String.ofList (t.bits.map fun b => if b then '1' else '0') := by
  rw [BitStream.text, h.toBits]

theorem clear (h : s.Holds t) {i : Nat} (hi : s.size ≤ i) : bitAt s.bytes i = false := by
  rw [h.bit, List.getElem?_eq_none (by have := h.size; omega)]
  rfl

theorem moved (h : s.Holds t) {n : Nat} (hn : n ≤ t.bits.length) :
    ({ s with position := n } : BitStream).Holds { t with cursor := n } where
  bit := h.bit
  size := h.size
  position := rfl
  within := hn
  packed := h.packed

/-- A buffer with a run of bits put in place holds the tape with that run laid over it. -/
theorem put (h : s.Holds t) (bytes : Bytes) (run : List Bool)
    (hbit : ∀ i, bitAt bytes i =
      if s.position ≤ i ∧ i < s.position + run.length then run[i - s.position]?.getD false
      else bitAt s.bytes i)
    (hlength : bytes.length = (max s.size (s.position + run.length) + 7) / 8) :
    ({ bytes, size := max s.size (s.position + run.length),
       position := s.position + run.length } : BitStream).Holds (t.put run) where
  bit i := by
    rw [hbit, h.position, Tape.put, getElem?_overlay h.within, h.bit]
    split <;> rfl
  size := by rw [h.size, h.position, Tape.put, length_overlay h.within]
  position := by rw [h.position, Tape.put]
  within := by
    simp only [Tape.put, length_overlay h.within]
    omega
  packed := hlength

/-- The bits from the cursor on are the next ones of the tape. -/
theorem next_bits (h : s.Holds t) {count : Nat} (hcount : t.cursor + count ≤ t.bits.length) :
    (List.range count).map (fun i => bitAt s.bytes (s.position + i))
      = (t.bits.drop t.cursor).take count := by
  apply List.ext_getElem
  · simp only [List.length_map, List.length_range, List.length_take, List.length_drop]
    omega
  · intro i hi _
    simp only [List.length_map, List.length_range] at hi
    have hbit : t.cursor + i < t.bits.length := by omega
    simp [h.bit, h.position, List.getElem?_eq_getElem hbit]

theorem length_slice (h : s.Holds t) (haligned : s.aligned) {count : Nat}
    (hcount : t.cursor + 8 * count ≤ t.bits.length) :
    ((s.bytes.drop (s.position / 8)).take count).length = count := by
  have hboundary := aligned_iff.1 haligned
  have hposition := h.position
  have hsize := h.size
  have hpacked := h.packed
  rw [List.length_take, List.length_drop]
  omega

/-- Whole bytes at a byte boundary are the next bits of the tape. -/
theorem aligned_bits (h : s.Holds t) (haligned : s.aligned) (count : Nat)
    (hcount : t.cursor + 8 * count ≤ t.bits.length) :
    (t.bits.drop t.cursor).take (8 * count) =
      bitsOfBytes ((s.bytes.drop (s.position / 8)).take count) := by
  have hboundary := aligned_iff.1 haligned
  have hposition := h.position
  apply eq_of_getD
  · rw [length_bitsOfBytes, h.length_slice haligned hcount, List.length_take, List.length_drop]
    omega
  · intro i
    rw [getElem?_bitsOfBytes, bitAt_slice, List.getElem?_take, List.getElem?_drop]
    by_cases hi : i < 8 * count
    · rw [if_pos hi, if_pos hi, h.bit, show 8 * (s.position / 8) + i = t.cursor + i by omega]
    · rw [if_neg hi, if_neg hi]
      rfl

end Holds

theorem holds_ofBytes (data : Bytes) : (ofBytes data).Holds { bits := bitsOfBytes data } where
  bit i := (getElem?_bitsOfBytes data i).symm
  size := (length_bitsOfBytes data).symm
  position := rfl
  within := Nat.zero_le _
  packed := by
    simp only [ofBytes]
    omega

/-! ## Runs of operations -/

theorem run_bind_ok {op : Op α} {a : α} (h : op.run.run s = (.ok a, s')) (f : α → Op β) :
    (op >>= f).run.run s = (f a).run.run s' := by
  have hrun : op.run.run s = pure (.ok a, s') := h
  simp only [ExceptT.run_bind, StateT.run_bind, hrun, pure_bind]

theorem run_bind_error {op : Op α} {e : Fault} (h : op.run.run s = (.error e, s'))
    (f : α → Op β) : (op >>= f).run.run s = (.error e, s') := by
  have hrun : op.run.run s = pure (.error e, s') := h
  simp only [ExceptT.run_bind, StateT.run_bind, hrun, pure_bind]
  rfl

theorem run_get_bind (f : BitStream → Op β) (s : BitStream) :
    (get >>= f).run.run s = (f s).run.run s := rfl

/-- On this stream the operation comes to what came out on the tape, or fails where nothing
did. -/
inductive Follows (s : BitStream) (op : Op α) : Option (α × Tape) → Prop
  | done {a : α} {s' : BitStream} {t : Tape} :
      op.run.run s = (.ok a, s') → s'.Holds t → Follows s op (some (a, t))
  | failed {e : Fault} {s' : BitStream} : op.run.run s = (.error e, s') → Follows s op none

namespace Follows

theorem pure (h : s.Holds t) (a : α) : s.Follows (pure a) (some (a, t)) := .done rfl h

theorem after {op : Op α} {f : α → Op β} {a : α} {r : Option (β × Tape)}
    (hop : op.run.run s = (.ok a, s')) (h : s'.Follows (f a) r) : s.Follows (op >>= f) r := by
  cases h with
  | done hf ht => exact .done ((run_bind_ok hop f).trans hf) ht
  | failed hf => exact .failed ((run_bind_ok hop f).trans hf)

theorem bind {op : Op α} {f : α → Op β} {r : Option (α × Tape)}
    {q : α → Tape → Option (β × Tape)} (h : s.Follows op r)
    (hf : ∀ a s' t, Holds s' t → Follows s' (f a) (q a t)) :
    s.Follows (op >>= f) (r.bind fun p => q p.1 p.2) := by
  cases h with
  | done hop ht => exact .after hop (hf _ _ _ ht)
  | failed hop => exact .failed (run_bind_error hop f)

/-- What came out on the tape settles what comes out on the stream, and what stream is left. -/
theorem run_eq_ok {op : Op α} {r : Option (α × Tape)} (h : s.Follows op r) {a : α} :
    op.run.run s = (.ok a, s') ↔ ∃ t, r = some (a, t) ∧ s'.Holds t := by
  cases h with
  | done hop ht =>
    constructor
    · intro hrun
      cases hop.symm.trans hrun
      exact ⟨_, rfl, ht⟩
    · rintro ⟨t, ⟨⟩, ht'⟩
      rw [hop, ht.unique ht']
  | failed hop =>
    constructor
    · intro hrun
      cases hop.symm.trans hrun
    · rintro ⟨t, ⟨⟩, -⟩

theorem map {op : Op α} {r : Option (α × Tape)} (h : s.Follows op r) (f : α → β) :
    s.Follows (op >>= fun a => Pure.pure (f a)) (r.map fun p => (f p.1, p.2)) := by
  cases h with
  | done hop ht => exact .after hop (.pure ht _)
  | failed hop => exact .failed (run_bind_error hop _)

end Follows

/-! ## Writing -/

theorem writeBit_follows (h : s.Holds t) (value : Bool) :
    s.Follows (writeBit value) (some ((), t.put [value])) := by
  have hpacked := h.packed
  have hsize := h.size
  have hposition := h.position
  have hwithin := h.within
  refine .done rfl (h.put (setBit s.bytes s.position value) [value] ?_ ?_)
  · intro i
    rw [bitAt_setBit]
    by_cases hi : i = s.position
    · simp [hi]
    · rw [if_neg hi, if_neg (by simp only [List.length_singleton]; omega)]
  · rw [length_setBit]
    simp only [List.length_singleton]
    omega

/-- Bits written one by one come to the run that they make. -/
theorem writeBits_follows (h : s.Holds t) (bits : List Bool) :
    s.Follows (writeBits bits) (some ((), t.put bits)) := by
  induction bits generalizing s t with
  | nil => simpa [writeBits, t.put_nil] using Follows.pure h ()
  | cons b bits ih =>
    -- The tape that comes out is the one with the rest laid behind the first bit.
    cases writeBit_follows h b with
    | done hop ht =>
      have hrest := ih ht
      rw [Tape.put_append h.within] at hrest
      exact .after hop hrest

/-- Bytes laid over the buffer at a byte boundary come to the run of their bits. -/
theorem overwrite_follows (h : s.Holds t) (haligned : s.aligned) (data : Bytes) :
    s.Follows (overwrite data) (some ((), t.put (bitsOfBytes data))) := by
  have hpacked := h.packed
  have hsize := h.size
  have hposition := h.position
  have hwithin := h.within
  have hboundary := aligned_iff.1 haligned
  have hstart : s.position / 8 ≤ s.bytes.length := by omega
  have hput := h.put (overlay s.bytes (s.position / 8) data) (bitsOfBytes data)
    (by
      intro i
      rw [bitAt_overlay hstart, length_bitsOfBytes, getElem?_bitsOfBytes,
        show 8 * (s.position / 8) = s.position by omega])
    (by
      rw [length_overlay hstart, length_bitsOfBytes]
      omega)
  -- The tape counts the run in bits, the stream counts it in bytes.
  rw [length_bitsOfBytes] at hput
  exact .done rfl hput

/-- Where the cursor stands does not matter to what bytes come to. -/
theorem writeBytes_follows (h : s.Holds t) (data : Bytes) :
    s.Follows (writeBytes data) (some ((), t.put (bitsOfBytes data))) := by
  unfold writeBytes
  refine .after rfl ?_
  by_cases haligned : s.aligned
  · rw [if_pos haligned]
    exact overwrite_follows h haligned data
  · rw [if_neg haligned]
    exact writeBits_follows h _

theorem writeByte_follows (h : s.Holds t) {value : Int} (hlow : -256 ≤ value)
    (hhigh : value < 256) :
    s.Follows (writeByte value) (some ((), t.put (bitsOfNat 8 (value % 256).toNat))) := by
  have hvalue : (if value < 0 then value + 256 else value) = value % 256 := by
    split <;> omega
  unfold writeByte
  refine .after rfl ?_
  simp only [hvalue]
  by_cases haligned : s.aligned
  · have hbyte : (value % 256).toNat.toUInt8.toNat = (value % 256).toNat := by
      simp only [Nat.toUInt8, UInt8.toNat_ofNat']
      omega
    have hbits : bitsOfBytes [(value % 256).toNat.toUInt8] = bitsOfNat 8 (value % 256).toNat := by
      simp [bitsOfBytes, hbyte]
    rw [if_pos haligned, if_pos (by omega), ← hbits]
    exact overwrite_follows h haligned _
  · rw [if_neg haligned, Int.emod_emod_of_dvd _ (dvd_refl 256)]
    exact writeBits_follows h _

/-! ## Bytes laid over the buffer -/

/-- The stream with bytes laid over its buffer from the byte of the cursor on. -/
def laid (s : BitStream) (data : Bytes) : BitStream where
  bytes := overlay s.bytes (s.position / 8) data
  size := max s.size (s.position + 8 * data.length)
  position := s.position + 8 * data.length

theorem overwrite_run (s : BitStream) (data : Bytes) :
    (overwrite data).run.run s = (.ok (), s.laid data) := rfl

theorem laid_aligned (h : s.aligned) (data : Bytes) : (s.laid data).aligned := by
  rw [aligned_iff] at h ⊢
  simp only [laid]
  omega

theorem laid_append (h : s.aligned) (data more : Bytes) :
    (s.laid data).laid more = s.laid (data ++ more) := by
  have hboundary := aligned_iff.1 h
  have hstart : (s.position + 8 * data.length) / 8 = s.position / 8 + data.length := by omega
  simp only [laid, hstart, List.length_append, mk.injEq]
  refine ⟨?_, by omega, by omega⟩
  rcases Nat.le_total (s.position / 8) s.bytes.length with hwithin | hbeyond
  · exact overlay_append hwithin data more
  · exact overlay_append_beyond hbeyond data more

theorem writeBytes_run_aligned (h : s.aligned) (data : Bytes) :
    (writeBytes data).run.run s = (.ok (), s.laid data) := by
  rw [writeBytes, run_get_bind, if_pos h, overwrite_run]

theorem writeByte_run_aligned (h : s.aligned) {n : Nat} (hn : n < 256) :
    (writeByte n).run.run s = (.ok (), s.laid [n.toUInt8]) := by
  rw [writeByte, run_get_bind, if_pos h]
  simp only [if_neg (show ¬ (n : Int) < 0 by omega)]
  rw [if_pos (by omega), Int.toNat_natCast, overwrite_run]

/-! ## Reading -/

theorem ensure_ok {count : Int} (h : s.position + count ≤ s.size) :
    (ensure count).run.run s = (.ok (), s) := by
  unfold ensure
  rw [run_get_bind, if_neg (by omega)]
  rfl

theorem ensure_error {count : Int} (h : s.size < s.position + count) :
    ∃ e, (ensure count).run.run s = (.error e, s) := by
  unfold ensure
  rw [run_get_bind, if_pos (by omega)]
  exact ⟨_, rfl⟩

/-- What is done once so many bits are sure to be there takes them, and nothing is done before. -/
theorem ensure_follows (h : s.Holds t) {count : Int} (width : Nat) (hwidth : count = width)
    {f : Unit → Op α} (value : List Bool → α)
    (hf : t.cursor + width ≤ t.bits.length → (f ()).run.run s =
      (.ok (value ((t.bits.drop t.cursor).take width)),
        { s with position := s.position + width })) :
    s.Follows (ensure count >>= f) ((t.take width).map fun p => (value p.1, p.2)) := by
  have hsize := h.size
  have hposition := h.position
  by_cases hleft : t.cursor + width ≤ t.bits.length
  · have hrun := hf hleft
    rw [hposition] at hrun
    rw [Tape.take, if_pos hleft]
    exact .done ((run_bind_ok (ensure_ok (by omega)) f).trans hrun) (h.moved hleft)
  · obtain ⟨e, he⟩ := ensure_error (s := s) (show s.size < s.position + count by omega)
    rw [Tape.take, if_neg hleft]
    exact .failed (run_bind_error he f)

/-- All bits that count are in the buffer. -/
def Filled (s : BitStream) : Prop := s.size ≤ 8 * s.bytes.length

/-- The buffer has all of the next `count` bits. -/
def Stored (s : BitStream) (count : Nat) : Prop :=
  0 < count → s.position + count ≤ 8 * s.bytes.length

theorem Filled.stored (h : s.Filled) {count : Nat} (hcount : s.position + count ≤ s.size) :
    s.Stored count := fun _ => hcount.trans h

theorem Holds.filled (h : s.Holds t) : s.Filled := by
  have hpacked := h.packed
  unfold Filled
  omega

theorem byteAt_run {place : Nat} {b : UInt8} (h : s.bytes[place]? = some b) :
    (byteAt place).run.run s = (.ok b, s) := by
  unfold byteAt
  rw [run_get_bind, h]
  rfl

/-- The byte of a bit is where the bit is. -/
theorem exists_byte {place : Nat} (h : place < 8 * s.bytes.length) :
    ∃ b, s.bytes[place / 8]? = some b := ⟨_, List.getElem?_eq_getElem (by omega)⟩

theorem readBit_run (h : s.position + 1 ≤ s.size) (hstored : s.Stored 1) :
    readBit.run.run s =
      (.ok (bitAt s.bytes s.position), { s with position := s.position + 1 }) := by
  obtain ⟨b, hb⟩ := exists_byte (hstored Nat.one_pos)
  unfold readBit
  rw [run_bind_ok (ensure_ok (by omega)), run_get_bind, run_bind_ok (byteAt_run hb), bitAt, hb]
  rfl

theorem readBit_follows (h : s.Holds t) :
    s.Follows readBit ((t.take 1).map fun p => (p.1.headD false, p.2)) := by
  unfold readBit
  refine ensure_follows h 1 rfl (fun bits => bits.headD false) fun hleft => ?_
  have hstored : s.Stored 1 := h.filled.stored (by rw [h.position, h.size]; exact hleft)
  obtain ⟨b, hb⟩ := exists_byte (hstored Nat.one_pos)
  rw [run_get_bind, run_bind_ok (byteAt_run hb), ← h.next_bits hleft]
  simp only [List.range_one, List.map_singleton, List.headD_cons, Nat.add_zero, bitAt, hb]
  rfl

/-- So many bits one after the other, where there are so many. -/
theorem replicate_readBit_run {count : Nat} (h : s.position + count ≤ s.size)
    (hstored : s.Stored count) :
    (replicate readBit count).run.run s =
      (.ok ((List.range count).map fun i => bitAt s.bytes (s.position + i)),
        { s with position := s.position + count }) := by
  induction count generalizing s with
  | zero => rfl
  | succ count ih =>
    have hall := hstored (Nat.succ_pos _)
    have hrest := ih (s := { s with position := s.position + 1 }) (by dsimp only; omega)
      fun _ => by dsimp only; omega
    unfold replicate
    rw [run_bind_ok (readBit_run (by omega) fun _ => by omega), run_bind_ok hrest]
    simp only [List.range_succ_eq_map, List.map_cons, List.map_map, Nat.add_zero,
      Function.comp_def, Nat.add_assoc, Nat.succ_eq_add_one, Nat.add_comm 1]
    rfl

theorem readBits_run (count : Nat) (h : s.position + count ≤ s.size) (hstored : s.Stored count) :
    (readBits count).run.run s =
      (.ok ((List.range count).map fun i => bitAt s.bytes (s.position + i)),
        { s with position := s.position + count }) := by
  unfold readBits
  rw [run_bind_ok (ensure_ok (by omega)), Int.toNat_natCast, replicate_readBit_run h hstored]

theorem readBits_follows (h : s.Holds t) (count : Nat) :
    s.Follows (readBits count) (t.take count) := by
  have hread : s.Follows (readBits count) ((t.take count).map fun p => (p.1, p.2)) := by
    unfold readBits
    refine ensure_follows h count rfl (fun bits => bits) fun hleft => ?_
    have hroom : s.position + count ≤ s.size := by rw [h.position, h.size]; exact hleft
    rw [Int.toNat_natCast, replicate_readBit_run hroom (h.filled.stored hroom),
      h.next_bits hleft]
  rwa [Option.map_id'] at hread

theorem readByte_run_aligned {b : UInt8} (haligned : s.aligned) (h : s.position + 8 ≤ s.size)
    (hb : s.bytes[s.position / 8]? = some b) :
    readByte.run.run s = (.ok b, { s with position := s.position + 8 }) := by
  unfold readByte
  rw [run_get_bind, if_pos haligned, run_bind_ok (ensure_ok (by omega))]
  exact byteAt_run (s := { s with position := s.position + 8 }) hb

/-- A byte is made of the next eight bits, at a byte boundary and elsewhere. -/
theorem readByte_follows (h : s.Holds t) :
    s.Follows readByte ((t.take 8).map fun p => ((natOfBits p.1).toUInt8, p.2)) := by
  unfold readByte
  refine .after rfl ?_
  by_cases haligned : s.aligned
  · rw [if_pos haligned]
    refine ensure_follows h 8 rfl (fun bits => (natOfBits bits).toUInt8) fun hleft => ?_
    have hbyte : s.position / 8 < s.bytes.length := by
      have hsize := h.size
      have hposition := h.position
      have hpacked := h.packed
      omega
    have hbits := h.aligned_bits haligned 1 hleft
    rw [List.drop_eq_getElem_cons hbyte, List.take_succ_cons, List.take_zero, bitsOfBytes,
      List.flatMap_singleton] at hbits
    rw [hbits, byte_of_bits]
    exact byteAt_run (s := { s with position := s.position + 8 })
      (List.getElem?_eq_getElem hbyte)
  · rw [if_neg haligned]
    exact (readBits_follows h 8).map fun bits => (natOfBits bits).toUInt8

/-- A byte and the bytes after it, taken one after the other and all at once. -/
theorem take_byte_cons (t : Tape) (count : Nat) :
    (((t.take 8).map fun p => ((natOfBits p.1).toUInt8, p.2)).bind fun p =>
        ((p.2.take (8 * count)).map fun q => (bytesOfBits count q.1, q.2)).map fun q =>
          (p.1 :: q.1, q.2))
      = (t.take (8 * (count + 1))).map fun p => (bytesOfBits (count + 1) p.1, p.2) := by
  rw [show 8 * (count + 1) = 8 + 8 * count by omega, Tape.take_add]
  cases hfirst : t.take 8 with
  | none => rfl
  | some p =>
    have hlength := Tape.length_of_take hfirst
    simp only [Option.map_some, Option.bind_some, Option.map_map]
    congr 1
    funext q
    simp [bytesOfBits, List.take_left' hlength, List.drop_left' hlength]

/-- Bytes read one by one are cut out of the bits that they take together. -/
theorem replicate_readByte_follows (h : s.Holds t) (count : Nat) :
    s.Follows (replicate readByte count)
      ((t.take (8 * count)).map fun p => (bytesOfBits count p.1, p.2)) := by
  induction count generalizing s t with
  | zero =>
    have hnone : (t.take (8 * 0)).map (fun p => (bytesOfBits 0 p.1, p.2)) = some ([], t) := by
      simp [Tape.take, h.within, bytesOfBits]
    rw [hnone]
    exact .pure h []
  | succ count ih =>
    rw [← take_byte_cons]
    exact (readByte_follows h).bind fun b _ _ ht => (ih ht).map (b :: ·)

theorem readBytes_run_aligned (count : Nat) (haligned : s.aligned)
    (h : s.position + 8 * count ≤ s.size) :
    (readBytes count).run.run s =
      (.ok ((s.bytes.drop (s.position / 8)).take count),
        { s with position := s.position + 8 * count }) := by
  have hmoved : ((s.position : Int) + 8 * count).toNat = s.position + 8 * count := by omega
  unfold readBytes
  rw [run_get_bind, if_pos haligned, run_bind_ok (ensure_ok (by omega)), Int.toNat_natCast,
    hmoved]
  rfl

theorem readBytes_follows (h : s.Holds t) (count : Nat) :
    s.Follows (readBytes count)
      ((t.take (8 * count)).map fun p => (bytesOfBits count p.1, p.2)) := by
  unfold readBytes
  refine .after rfl ?_
  by_cases haligned : s.aligned
  · rw [if_pos haligned]
    refine ensure_follows h (8 * count) (by omega) (bytesOfBits count) fun hleft => ?_
    have hmoved : ((s.position : Int) + 8 * count).toNat = s.position + 8 * count := by omega
    have hdata := bytesOfBits_bitsOfBytes ((s.bytes.drop (s.position / 8)).take count) []
    rw [h.length_slice haligned hleft, List.append_nil,
      ← h.aligned_bits haligned count hleft] at hdata
    rw [hdata, Int.toNat_natCast, hmoved]
    rfl
  · rw [if_neg haligned, Int.toNat_natCast]
    exact replicate_readByte_follows h count

/-! ## The whole stream -/

/-- The bits of a text are written to an empty stream. -/
theorem holds_ofBits (bits : List Bool) : (ofBits bits).Holds { bits } := by
  have hempty : (ofBytes []).Holds {} := holds_ofBytes []
  have hwritten := writeBits_follows hempty bits
  unfold ofBits
  cases hwritten with
  | done hrun ht =>
    have hrun' : ((writeBits bits).run).run {} = (.ok (), _) := hrun
    have hmoved := ht.moved (Nat.zero_le _)
    rw [hrun']
    simpa [Tape.put, overlay] using hmoved

/-- What is read from the start and put together is the value of `toBytes`. -/
theorem Filled.serialize_run (h : s.Filled) : serialize.run.run s = (.ok s.toBytes, s) := by
  have hwhole := readBytes_run_aligned (s := { s with position := 0 }) (s.size / 8) rfl
    (by dsimp only; omega)
  have hleft := readBits_run (s := { s with position := 8 * (s.size / 8) }) (s.size % 8)
    (by dsimp only; omega) fun _ => by
      unfold Filled at h
      dsimp only
      omega
  simp only [Nat.zero_div, List.drop_zero, Nat.zero_add] at hwhole
  have hrewind : rewind.run.run s = (.ok (), { s with position := 0 }) := rfl
  -- The reads start at the front and do not look at where the cursor was.
  unfold serialize toBytes
  rw [run_get_bind, run_bind_ok hrewind, run_bind_ok hwhole]
  by_cases hnone : s.size % 8 = 0
  · rw [if_pos hnone, if_pos hnone]
    simp only [List.append_nil, pure_bind]
    rfl
  · rw [if_neg hnone, if_neg hnone, run_bind_ok hleft]
    rfl

/-- The last bits, filled up with zeros, are the last byte of the buffer. -/
theorem Holds.last_byte (h : s.Holds t) (hlast : s.size / 8 < s.bytes.length) :
    (List.range (s.size % 8)).map (fun i => bitAt s.bytes (8 * (s.size / 8) + i))
        ++ List.replicate (8 - s.size % 8) false
      = bitsOfNat 8 s.bytes[s.size / 8].toNat := by
  rw [bitsOfNat_byte hlast]
  apply List.ext_getElem
  · simp only [List.length_append, List.length_map, List.length_range, List.length_replicate]
    omega
  · intro i _ _
    rw [List.getElem_append]
    split
    · simp
    · rename_i hi
      simp only [List.length_map, List.length_range] at hi
      simp [h.clear (i := 8 * (s.size / 8) + i) (by omega)]

/-- A packed stream has its buffer for a value. -/
theorem Holds.toBytes (h : s.Holds t) : s.toBytes = s.bytes := by
  have hpacked := h.packed
  unfold BitStream.toBytes
  by_cases hleft : s.size % 8 = 0
  · rw [if_pos hleft]
    exact List.take_of_length_le (by omega)
  · have hlast : s.size / 8 < s.bytes.length := by omega
    rw [if_neg hleft]
    simp only [h.last_byte hlast, byte_of_bits]
    rw [← List.take_succ_eq_append_getElem hlast]
    exact List.take_of_length_le (by omega)

theorem Holds.serialize (h : s.Holds t) : serialize.run.run s = (.ok s.bytes, s) := by
  rw [h.filled.serialize_run, h.toBytes]

end BitStream

end ActionCode
