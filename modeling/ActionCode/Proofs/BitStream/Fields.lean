import ActionCode.Proofs.BitStream.Atomic
import ActionCode.Proofs.Numbers

/-!
# Fields of a stream

Writing a field lays a run of bits over the stream from the cursor on and touches no others,
wherever the cursor stands. Reading it looks at these bits alone, so what was laid is given back
once the cursor is where it was.
-/

namespace ActionCode

namespace BitStream

variable {α : Type} {s t u : BitStream} {run more : List Bool} {data : Bytes} {b : UInt8}

theorem bitsOfBytes_singleton_append :
    bitsOfBytes (b :: data) = bitsOfBytes [b] ++ bitsOfBytes data := by
  rw [bitsOfBytes, ← List.singleton_append, List.flatMap_append]
  rfl

/-- On a stream without gaps, the next bytes can be written from anywhere within. -/
theorem Reachable.abuts (h : Reachable s) (hcursor : s.position ≤ s.size) : s.Abuts :=
  fun _ => hcursor.trans h.filled

/-! ## Runs that are laid -/

/-- `t` is `s` with a run of bits laid over those from the cursor on. -/
structure Lays (s : BitStream) (run : List Bool) (t : BitStream) : Prop where
  bit : ∀ i, bitAt t.bytes i =
    if s.position ≤ i ∧ i < s.position + run.length then run[i - s.position]?.getD false
    else bitAt s.bytes i
  size : t.size = max s.size (s.position + run.length)
  position : t.position = s.position + run.length
  /-- The buffer holds all of the run, and does not shrink. -/
  stored : run ≠ [] → t.position ≤ 8 * t.bytes.length
  grown : s.bytes.length ≤ t.bytes.length

namespace Lays

theorem within (h : s.Lays run t) : t.position ≤ t.size := by
  rw [h.position, h.size]
  exact Nat.le_max_right _ _

/-- The next bytes can be written behind the run. -/
theorem abuts (h : s.Lays run t) (hs : s.Abuts) : t.Abuts := by
  intro haligned
  cases run with
  | nil =>
    have hposition : t.position = s.position := h.position
    have hbefore := hs (by rwa [aligned, ← hposition])
    have hgrown := h.grown
    omega
  | cons _ _ => exact h.stored (List.cons_ne_nil _ _)

theorem nil (hcursor : s.position ≤ s.size) : s.Lays [] s where
  bit i := by rw [if_neg (by simp only [List.length_nil]; omega)]
  size := by simp only [List.length_nil]; omega
  position := rfl
  stored h := absurd rfl h
  grown := Nat.le_refl _

theorem append (h : s.Lays run t) (g : t.Lays more u) : s.Lays (run ++ more) u where
  bit i := by
    have hposition := h.position
    rw [g.bit, h.bit, List.length_append, List.getElem?_append]
    by_cases hmore : t.position ≤ i ∧ i < t.position + more.length
    · rw [if_pos hmore, if_pos (by omega), if_neg (by omega),
        show i - t.position = i - s.position - run.length by omega]
    · rw [if_neg hmore]
      by_cases hrun : s.position ≤ i ∧ i < s.position + run.length
      · rw [if_pos hrun, if_pos (by omega), if_pos (by omega)]
      · rw [if_neg hrun, if_neg (by omega)]
  size := by
    rw [g.size, h.size, h.position, List.length_append]
    omega
  position := by rw [g.position, h.position, List.length_append, Nat.add_assoc]
  stored hne := by
    cases more with
    | nil =>
      have hposition : u.position = t.position := g.position
      have hstored := h.stored (by simpa using hne)
      have hgrown := g.grown
      omega
    | cons _ _ => exact g.stored (List.cons_ne_nil _ _)
  grown := Nat.le_trans h.grown g.grown

end Lays

/-- The operation succeeds and lays a run. -/
def Writes (s : BitStream) (op : Op Unit) (run : List Bool) : Prop :=
  ∃ t, op.run.run s = (.ok (), t) ∧ s.Lays run t

/-- One operation after another lays one run behind another. -/
theorem Writes.bind {op : Op Unit} {f : Unit → Op Unit} (hs : s.Abuts) (h : s.Writes op run)
    (hf : ∀ t : BitStream, t.Abuts → t.position ≤ t.size → t.Writes (f ()) more) :
    s.Writes (op >>= f) (run ++ more) := by
  obtain ⟨t, hop, hlays⟩ := h
  obtain ⟨u, hrest, hmore⟩ := hf t (hlays.abuts hs) hlays.within
  exact ⟨u, (run_bind_ok hop f).trans hrest, hlays.append hmore⟩

theorem writes_bit (s : BitStream) (value : Bool) : s.Writes (writeBit value) [value] := by
  have hlength := length_setBit s.bytes s.position value
  refine ⟨_, rfl, ?bit, rfl, rfl, fun _ => ?stored, ?grown⟩
  case bit =>
    intro i
    rw [bitAt_setBit]
    by_cases hi : i = s.position
    · simp [hi]
    · rw [if_neg hi, if_neg (by simp only [List.length_singleton]; omega)]
  case stored =>
    dsimp only
    omega
  case grown =>
    dsimp only
    omega

/-- At a byte boundary, the bytes are put over those of the buffer. -/
theorem lays_laid (hs : s.Abuts) (haligned : s.aligned = true) (data : Bytes) :
    s.Lays (bitsOfBytes data) (s.laid data) := by
  have hboundary := aligned_iff.1 haligned
  have habuts := hs haligned
  have hstart : s.position / 8 ≤ s.bytes.length := by omega
  have hlength := length_overlay hstart data
  constructor
  case bit =>
    intro i
    have hbit := bitAt_overlay hstart data i
    rw [show 8 * (s.position / 8) = s.position by omega] at hbit
    rw [length_bitsOfBytes, getElem?_bitsOfBytes]
    exact hbit
  case size =>
    rw [length_bitsOfBytes]
    rfl
  case position =>
    rw [length_bitsOfBytes]
    rfl
  case stored =>
    intro _
    simp only [laid]
    omega
  case grown =>
    simp only [laid]
    omega

/-- Bits fill the gap that they would leave. -/
theorem writes_bits (hcursor : s.position ≤ s.size) (bits : List Bool) :
    s.Writes (writeBits bits) bits := by
  induction bits generalizing s with
  | nil => exact ⟨s, rfl, .nil hcursor⟩
  | cons b bits ih =>
    obtain ⟨t, hop, hlays⟩ := writes_bit s b
    obtain ⟨u, hrest, hmore⟩ := ih hlays.within
    exact ⟨u, (run_bind_ok hop _).trans hrest, hlays.append hmore⟩

section

variable (hs : s.Abuts) (hcursor : s.position ≤ s.size)

include hs hcursor

theorem writes_bytes (data : Bytes) : s.Writes (writeBytes data) (bitsOfBytes data) := by
  by_cases haligned : s.aligned
  · exact ⟨_, writeBytes_run_aligned haligned data, lays_laid hs haligned data⟩
  · obtain ⟨t, hrun, hlays⟩ := writes_bits hcursor (bitsOfBytes data)
    refine ⟨t, ?_, hlays⟩
    unfold writeBytes
    rw [run_get_bind, if_neg haligned]
    exact hrun

theorem writes_byte {n : Nat} (hn : n < 256) :
    s.Writes (writeByte n) (bitsOfBytes [n.toUInt8]) := by
  by_cases haligned : s.aligned
  · exact ⟨_, writeByte_run_aligned haligned hn, lays_laid hs haligned _⟩
  · have hbits : bitsOfBytes [n.toUInt8] = bitsOfNat 8 ((n : Int) % 256).toNat := by
      rw [bitsOfBytes, List.flatMap_singleton, Bytes.toNat_toUInt8 hn]
      congr 1
      omega
    obtain ⟨t, hrun, hlays⟩ := writes_bits hcursor (bitsOfNat 8 ((n : Int) % 256).toNat)
    refine ⟨t, ?_, hbits ▸ hlays⟩
    unfold writeByte
    rw [run_get_bind, if_neg haligned]
    simp only [if_neg (show ¬ (n : Int) < 0 by omega)]
    exact hrun

theorem writes_groups {more n : Nat} (hn : n < 128 ^ (more + 1)) :
    s.Writes (Format.writeGroups more n) (bitsOfBytes (Varint.groups more n)) := by
  induction more generalizing s n with
  | zero => exact writes_byte hs hcursor (by omega)
  | succ more ih =>
    rw [Format.writeGroups, Varint.groups]
    split
    · exact writes_byte hs hcursor (by omega)
    · rw [Nat.pow_succ] at hn
      rw [bitsOfBytes_singleton_append]
      exact (writes_byte hs hcursor (by omega)).bind hs fun t ht htcursor =>
        ih ht htcursor (Nat.div_lt_of_lt_mul (by omega))

end

/-! ## Runs that are read -/

/-- A run of bits stands at the cursor. -/
structure Shows (s : BitStream) (run : List Bool) : Prop where
  bit : ∀ i < run.length, bitAt s.bytes (s.position + i) = run[i]?.getD false
  room : s.position + run.length ≤ s.size
  stored : s.Stored run.length

/-- What was laid is there when the cursor is put back. -/
theorem Lays.shows (h : s.Lays run t) : Shows { t with position := s.position } run where
  bit i hi := by
    rw [h.bit, if_pos ⟨Nat.le_add_right _ _, Nat.add_lt_add_left hi _⟩, Nat.add_sub_cancel_left]
  room := by
    rw [h.size]
    exact Nat.le_max_right _ _
  stored hpos := h.position ▸ h.stored (List.ne_nil_of_length_pos hpos)

namespace Shows

theorem front (h : s.Shows (run ++ more)) : s.Shows run where
  bit i hi := by
    rw [h.bit i (by rw [List.length_append]; omega), List.getElem?_append_left hi]
  room := by
    have hroom := h.room
    rw [List.length_append] at hroom
    omega
  stored hpos := by
    have hstored := h.stored
    rw [Stored, List.length_append] at hstored
    omega

theorem behind (h : s.Shows (run ++ more)) :
    Shows { s with position := s.position + run.length } more where
  bit i hi := by
    have hbit := h.bit (run.length + i) (by rw [List.length_append]; omega)
    rwa [List.getElem?_append_right (Nat.le_add_right _ _), Nat.add_sub_cancel_left,
      ← Nat.add_assoc] at hbit
  room := by
    have hroom := h.room
    rw [List.length_append] at hroom
    dsimp only
    omega
  stored hpos := by
    have hstored := h.stored
    rw [Stored, List.length_append] at hstored
    dsimp only
    omega

/-- The first byte of a run, and those behind it. -/
theorem cons (h : s.Shows (bitsOfBytes (b :: data))) :
    s.Shows (bitsOfBytes [b]) ∧
      Shows { s with position := s.position + 8 } (bitsOfBytes data) := by
  rw [bitsOfBytes_singleton_append] at h
  have hbehind := h.behind
  rw [length_bitsOfBytes] at hbehind
  exact ⟨h.front, hbehind⟩

/-- At a byte boundary, the bytes of a run are those of the buffer. -/
theorem slice (h : s.Shows (bitsOfBytes data)) (haligned : s.aligned = true) :
    (s.bytes.drop (s.position / 8)).take data.length = data := by
  have hboundary := aligned_iff.1 haligned
  apply eq_of_bitAt
  · cases data with
    | nil => rfl
    | cons b data =>
      have hstored := h.stored
      rw [Stored, length_bitsOfBytes, List.length_cons] at hstored
      rw [List.length_take, List.length_drop, List.length_cons]
      omega
  · intro i
    rw [bitAt_slice, ← getElem?_bitsOfBytes data]
    by_cases hi : i < 8 * data.length
    · rw [if_pos hi, ← h.bit i (by rwa [length_bitsOfBytes]),
        show 8 * (s.position / 8) = s.position by omega]
    · rw [if_neg hi, List.getElem?_eq_none (by rw [length_bitsOfBytes]; omega)]
      rfl

end Shows

/-- The operation gives a value and moves the cursor over it. -/
def Gives (s : BitStream) (op : Op α) (a : α) (width : Nat) : Prop :=
  op.run.run s = (.ok a, { s with position := s.position + width })

theorem Gives.bind {β : Type} {op : Op α} {f : α → Op β} {a : α} {c : β} {width more : Nat}
    (h : s.Gives op a width)
    (hf : Gives { s with position := s.position + width } (f a) c more) :
    s.Gives (op >>= f) c (width + more) := by
  unfold Gives
  rw [run_bind_ok h, ← Nat.add_assoc]
  exact hf

theorem Gives.map {β : Type} {op : Op α} {a : α} {width : Nat} (h : s.Gives op a width)
    (f : α → β) : s.Gives (op >>= fun x => pure (f x)) (f a) width :=
  run_bind_ok h _

theorem gives_bits (h : s.Shows run) : s.Gives (readBits run.length) run run.length := by
  refine (readBits_run run.length h.room h.stored).trans ?_
  congr 2
  apply List.ext_getElem
  · simp
  · intro i hi hrun
    simp [h.bit i hrun, List.getElem?_eq_getElem hrun]

theorem gives_byte (h : s.Shows (bitsOfBytes [b])) : s.Gives readByte b 8 := by
  by_cases haligned : s.aligned
  · have hslice := h.slice haligned
    have hroom := h.room
    simp only [length_bitsOfBytes, List.length_singleton] at hroom
    have hbyte : s.bytes[s.position / 8]? = some b := by
      have hhead := congrArg (·[0]?) hslice
      simpa using hhead
    exact readByte_run_aligned haligned hroom hbyte
  · have hbits : bitsOfBytes [b] = bitsOfNat 8 b.toNat := List.flatMap_singleton ..
    rw [hbits] at h
    have hread := gives_bits h
    rw [length_bitsOfNat] at hread
    unfold Gives readByte
    rw [run_get_bind, if_neg haligned]
    exact (hread.map fun bits => (natOfBits bits).toUInt8).trans (by rw [byte_of_bits])

theorem gives_replicate (h : s.Shows (bitsOfBytes data)) :
    s.Gives (replicate readByte data.length) data (8 * data.length) := by
  induction data generalizing s with
  | nil => rfl
  | cons b data ih =>
    obtain ⟨hbyte, hrest⟩ := h.cons
    have hlater := (ih hrest).map (b :: ·)
    rw [List.length_cons, Nat.mul_succ, Nat.add_comm (8 * _)]
    exact Gives.bind (gives_byte hbyte) hlater

theorem gives_bytes (h : s.Shows (bitsOfBytes data)) :
    s.Gives (readBytes data.length) data (8 * data.length) := by
  by_cases haligned : s.aligned
  · have hroom := h.room
    rw [length_bitsOfBytes] at hroom
    have hread := readBytes_run_aligned data.length haligned hroom
    rwa [h.slice haligned] at hread
  · exact (readBytes_unaligned (Bool.eq_false_iff.2 haligned) data.length).trans (gives_replicate h)

/-- A byte whose top bit is clear ends the number. -/
theorem gives_last_group {start left n : Nat} (hn : n < 128)
    (h : s.Shows (bitsOfBytes [n.toUInt8])) : s.Gives (Format.readGroups start (left + 1)) n 8 := by
  refine (run_bind_ok (gives_byte h) _).trans ?_
  rw [Bytes.toNat_toUInt8 (by omega), if_pos hn]
  rfl

theorem gives_groups {start more n : Nat} (hn : n < 128 ^ (more + 1))
    (h : s.Shows (bitsOfBytes (Varint.groups more n))) :
    s.Gives (Format.readGroups start (more + 1)) n (8 * (Varint.groups more n).length) := by
  induction more generalizing s n with
  | zero => exact gives_last_group hn h
  | succ more ih =>
    rw [Varint.groups] at h ⊢
    by_cases hlast : n < 128
    · rw [if_pos hlast] at h ⊢
      exact gives_last_group hlast h
    · rw [if_neg hlast] at h ⊢
      rw [Nat.pow_succ] at hn
      obtain ⟨hbyte, hrest⟩ := h.cons
      have hhigh := ih (Nat.div_lt_of_lt_mul (by omega)) hrest
      have hsum := hhigh.map fun high => (n % 128 + 128) % 128 + 128 * high
      rw [show (n % 128 + 128) % 128 + 128 * (n / 128) = n by omega] at hsum
      rw [List.length_cons, Nat.mul_succ, Nat.add_comm (8 * _)]
      refine (gives_byte hbyte).bind ?_
      rw [Bytes.toNat_toUInt8 (by omega), if_neg (by omega)]
      exact hsum

end BitStream

end ActionCode
