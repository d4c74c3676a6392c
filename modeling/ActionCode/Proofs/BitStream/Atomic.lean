import ActionCode.BitStream.Format
import ActionCode.Proofs.BitStream.Session

/-!
# Reads that do all or nothing

A read should move the cursor over what it gives, or fail and leave the stream as it was. On
streams without gaps there are two reads that do neither: away from a byte boundary, a run of
bytes that is cut off has taken those that are there, and beyond the end, a byte string without a
length goes back to the last whole byte.
-/

namespace ActionCode

/-- The number of bits that a value was read from. -/
def Format.Value.width : Format.Value → Nat
  | .bit _ => 1
  | .bits values => values.length
  | .bytes data => 8 * data.length
  | .int _ | .double _ => 0

namespace BitStream

/-! ## Reads -/

inductive Read
  | bit
  | bits (count : Int)
  | byte
  | bytes (count : Nat)
  /-- A byte string of so many bytes, or of all that are left. -/
  | string (length : Option Nat)
  deriving DecidableEq

def Read.perform : Read → Op Format.Value
  | .bit => return .bit (← readBit)
  | .bits count => return .bits (← readBits count)
  | .byte => return .bytes [← readByte]
  | .bytes count => return .bytes (← readBytes count)
  | .string length => Format.read { shape := .byteString, length := length.map Int.ofNat }

variable {α β : Type} {s : BitStream}

/-- The failure to read `count` more bits. -/
def short (s : BitStream) (count : Int) : Fault :=
  .violation {
    cause := .truncatedInput (s.position + count - s.size), offset := some ↑(s.position / 8) }

/-- The cursor moves over what is read, or the data is too short and nothing changes. -/
def AllOrNothing (s : BitStream) (op : Op α) (width : α → Nat) : Prop :=
  (∃ a, op.run.run s = (.ok a, { s with position := s.position + width a })) ∨
    ∃ count, op.run.run s = (.error (s.short count), s)

/-- A run of bytes away from a byte boundary, some of which are there and some not. -/
def Read.Torn (s : BitStream) : Read → Prop
  | .bytes count | .string (some count) =>
    s.aligned = false ∧ s.position + 8 ≤ s.size ∧ s.size < s.position + 8 * count
  | .bit | .bits _ | .byte | .string none => False

/-- A byte string of what is left at a byte boundary beyond the end. -/
def Read.Rewinds (s : BitStream) : Read → Prop
  | .string none => s.aligned = true ∧ s.size < s.position
  | .bit | .bits _ | .byte | .bytes _ | .string (some _) => False

/-! ## Streams without gaps -/

/-- Bytes at the cursor would be written on to the end of the buffer or over it. -/
def Abuts (s : BitStream) : Prop := s.aligned = true → s.position ≤ 8 * s.bytes.length

/-- The cursor is moved to a place that there is, and writing leaves no gap. -/
def Command.Allowed (s : BitStream) : Command → Prop
  | .seek offset origin => 0 ≤ origin.target s.size s.position offset
  | .writeByte _ | .writeBytes _ => s.Abuts
  | .writeBit _ | .writeBits _ | .readBit | .readBits _ | .readByte | .readBytes _ | .rewind => True

/-- What comes of a stream by commands and by writing formats, whether they succeed or not, if no
bytes are written at a byte boundary beyond the end of the buffer. -/
inductive Reachable : BitStream → Prop
  | start (source : Source) : Reachable source.stream
  | perform {s : BitStream} (c : Command) :
      Reachable s → c.Allowed s → Reachable (c.perform.run.run s).2
  | write {s : BitStream} (f : Format) (value : Format.Value) :
      Reachable s → s.Abuts → Reachable ((f.write value).run.run s).2

/-! ## What is kept -/

section

variable {P : BitStream → Prop}

/-- What holds after one operation, and is kept by the next, holds after both. -/
theorem kept_bind {op : Op α} {f : α → Op β} (hop : P (op.run.run s).2)
    (hf : ∀ a s', P s' → P ((f a).run.run s').2) : P ((op >>= f).run.run s).2 := by
  cases hrun : op.run.run s with
  | mk result s' =>
    rw [hrun] at hop
    cases result with
    | ok a =>
      rw [run_bind_ok hrun]
      exact hf a s' hop
    | error e =>
      rw [run_bind_error hrun]
      exact hop

theorem kept_replicate {op : Op α} (hop : ∀ s, P s → P (op.run.run s).2) (h : P s) (count : Nat) :
    P ((replicate op count).run.run s).2 := by
  induction count generalizing s with
  | zero => exact h
  | succ count ih => exact kept_bind (hop s h) fun a s' h' => kept_bind (ih h') fun _ _ h'' => h''

theorem kept_ensure (h : P s) (count : Int) : P ((ensure count).run.run s).2 := by
  unfold ensure
  rw [run_get_bind]
  split
  · exact h
  · exact h

theorem kept_byteAt (h : P s) (place : Nat) : P ((byteAt place).run.run s).2 := by
  unfold byteAt
  rw [run_get_bind]
  split
  · exact h
  · exact h

end

theorem Filled.readBit (h : s.Filled) : (readBit.run.run s).2.Filled := by
  refine kept_bind (kept_ensure h 1) fun _ _ h' => ?_
  rw [run_get_bind]
  exact kept_bind (kept_byteAt h' _) fun _ _ _ => h'

theorem Filled.readBits (h : s.Filled) (count : Int) : ((readBits count).run.run s).2.Filled :=
  kept_bind (kept_ensure h count) fun _ _ h' => kept_replicate (fun _ => Filled.readBit) h' _

theorem Filled.readByte (h : s.Filled) : (readByte.run.run s).2.Filled := by
  unfold BitStream.readByte
  rw [run_get_bind]
  split
  · exact kept_bind (kept_ensure h 8) fun _ _ _ =>
      kept_bind (P := Filled) h fun _ _ h' => kept_byteAt h' _
  · exact kept_bind (h.readBits 8) fun _ _ h' => h'

theorem Filled.readBytes (h : s.Filled) (count : Int) :
    ((readBytes count).run.run s).2.Filled := by
  unfold BitStream.readBytes
  rw [run_get_bind]
  split
  · exact kept_bind (kept_ensure h _) fun _ _ _ => h
  · exact kept_replicate (fun _ => Filled.readByte) h _

theorem Filled.writeBit (h : s.Filled) (value : Bool) :
    ((writeBit value).run.run s).2.Filled := by
  have hlength := length_setBit s.bytes s.position value
  change max s.size (s.position + 1) ≤ 8 * (setBit s.bytes s.position value).length
  unfold Filled at h
  omega

theorem Filled.writeBits (h : s.Filled) (bits : List Bool) :
    ((writeBits bits).run.run s).2.Filled := by
  induction bits generalizing s with
  | nil => exact h
  | cons b bits ih => exact kept_bind (h.writeBit b) fun _ _ => ih

/-- All bits that count are in the buffer, and bytes would be written on to its end or over it. -/
structure Ready (s : BitStream) : Prop where
  filled : s.Filled
  abuts : s.Abuts

namespace Ready

theorem writeBit (h : s.Ready) (value : Bool) : ((writeBit value).run.run s).2.Ready where
  filled := h.filled.writeBit value
  abuts := by
    intro _
    have hlength := length_setBit s.bytes s.position value
    change s.position + 1 ≤ 8 * (setBit s.bytes s.position value).length
    omega

theorem writeBits (h : s.Ready) (bits : List Bool) : ((writeBits bits).run.run s).2.Ready := by
  induction bits generalizing s with
  | nil => exact h
  | cons b bits ih => exact kept_bind (h.writeBit b) fun _ _ => ih

theorem laid (h : s.Ready) (haligned : s.aligned = true) (data : Bytes) : (s.laid data).Ready := by
  have hfilled := h.filled
  have habuts := h.abuts haligned
  have hlength := length_overlay (show s.position / 8 ≤ s.bytes.length by omega) data
  have hboundary := aligned_iff.1 haligned
  unfold Filled at hfilled
  constructor
  · simp only [Filled, BitStream.laid]
    omega
  · intro _
    simp only [BitStream.laid]
    omega

theorem writeByte (h : s.Ready) (value : Int) : ((writeByte value).run.run s).2.Ready := by
  unfold BitStream.writeByte
  rw [run_get_bind]
  dsimp only
  generalize (if value < 0 then value + 256 else value) = value
  by_cases haligned : s.aligned
  · rw [if_pos haligned]
    split
    · exact h.laid haligned _
    · exact h
  · rw [if_neg haligned]
    exact h.writeBits _

theorem writeBytes (h : s.Ready) (data : Bytes) : ((writeBytes data).run.run s).2.Ready := by
  unfold BitStream.writeBytes
  rw [run_get_bind]
  split
  · rename_i haligned
    exact h.laid haligned _
  · exact h.writeBits _

theorem writeGroups (h : s.Ready) (more n : Nat) :
    ((Format.writeGroups more n).run.run s).2.Ready := by
  induction more generalizing s n with
  | zero => exact h.writeByte n
  | succ more ih =>
    unfold Format.writeGroups
    split
    · exact h.writeByte n
    · exact kept_bind (h.writeByte _) fun _ _ h' => ih h' _

theorem writeNumber (h : s.Ready) {write : Int → Op Unit}
    (hwrite : ∀ n, ((write n).run.run s).2.Ready) (value : Format.Value) :
    ((Format.writeNumber write value).run.run s).2.Ready := by
  cases value with
  | bit value => exact hwrite _
  | int value => exact hwrite _
  | bits _ => exact h
  | bytes _ => exact h
  | double _ => exact h

theorem writeBitField (h : s.Ready) (width value : Int) :
    ((Format.writeBitField width value).run.run s).2.Ready := by
  unfold Format.writeBitField
  split_ifs
  · exact h
  · exact h
  · exact h.writeBits _
  · exact h

theorem writeWhole (h : s.Ready) (f : Format) (signed : Bool) (value : Int) :
    ((f.writeWhole signed value).run.run s).2.Ready := by
  unfold Format.writeWhole
  dsimp only
  generalize (if signed then -(256 ^ f.wholeBytes.toNat / 2) else 0 : Int) = low
  split_ifs
  · exact h
  · exact h.writeBytes _
  · exact h

theorem writeByteString (h : s.Ready) (f : Format) (value : Format.Value) :
    ((f.writeByteString value).run.run s).2.Ready := by
  cases value with
  | bytes data =>
    unfold Format.writeByteString
    dsimp only
    split
    · exact h.writeBytes _
    · split
      · exact h.writeBytes _
      · exact h
  | bit _ => exact h
  | int _ => exact h
  | bits _ => exact h
  | double _ => exact h

theorem writeU32 (h : s.Ready) (value : Int) : ((Format.writeU32 value).run.run s).2.Ready := by
  unfold Format.writeU32
  split
  · exact h
  · exact h.writeGroups _ _

theorem writeFloat (h : s.Ready) (f : Format) (value : Format.Value) :
    ((f.writeFloat value).run.run s).2.Ready := by
  unfold Format.writeFloat
  split
  · split
    · exact h
    · exact h.writeBytes _
  all_goals
    split
    · exact h
    · exact h

/-- Every format is written by writing bits or bytes, or nothing is written. -/
theorem write (h : s.Ready) (f : Format) (value : Format.Value) :
    ((f.write value).run.run s).2.Ready := by
  unfold Format.write
  cases hshape : f.shape with
  | bit => exact h.writeNumber (fun n => h.writeBit _) value
  | zero => exact h.writeBits _
  | one => exact h.writeBits _
  | unsignedBits =>
    dsimp only
    split
    · exact h
    · exact h.writeNumber (fun n => h.writeBitField _ n) value
  | byte => exact h.writeNumber (fun n => h.writeWhole f false n) value
  | signedByte => exact h.writeNumber (fun n => h.writeWhole f true n) value
  | byteString => exact h.writeByteString f value
  | u32 => exact h.writeNumber (fun n => h.writeU32 n) value
  | s32 => exact h.writeNumber (fun n => h.writeU32 n) value
  | float => exact h.writeFloat f value

end Ready

/-- A command that is allowed leaves all bits that count in the buffer. -/
theorem Filled.perform (h : s.Filled) {c : Command} (hc : c.Allowed s) :
    (c.perform.run.run s).2.Filled := by
  cases c with
  | writeBit value => exact kept_bind (h.writeBit value) fun _ _ h' => h'
  | writeBits bits => exact kept_bind (h.writeBits bits) fun _ _ h' => h'
  | writeByte value => exact kept_bind (Ready.writeByte ⟨h, hc⟩ value).filled fun _ _ h' => h'
  | writeBytes data => exact kept_bind (Ready.writeBytes ⟨h, hc⟩ data).filled fun _ _ h' => h'
  | readBit => exact kept_bind h.readBit fun _ _ h' => h'
  | readBits count => exact kept_bind (h.readBits count) fun _ _ h' => h'
  | readByte => exact kept_bind h.readByte fun _ _ h' => h'
  | readBytes count => exact kept_bind (h.readBytes count) fun _ _ h' => h'
  | rewind => exact h
  | seek offset origin =>
    unfold Command.perform
    rw [run_bind_ok (seek_run s offset origin)]
    exact h

theorem Reachable.filled (h : Reachable s) : s.Filled := by
  induction h with
  | start source =>
    have hpacked := source.holds.packed
    unfold Filled
    omega
  | perform c _ hc ih => exact ih.perform hc
  | write f value _ habuts ih => exact (Ready.write ⟨ih, habuts⟩ f value).filled

/-! ## Single reads -/

theorem ensure_short {count : Int} (h : s.size < s.position + count) :
    (ensure count).run.run s = (.error (s.short count), s) := by
  unfold ensure
  rw [run_get_bind, if_pos (by omega)]
  rfl

theorem AllOrNothing.of_ok {op : Op α} {width : α → Nat} {a : α} {n : Nat}
    (hrun : op.run.run s = (.ok a, { s with position := s.position + n })) (hn : width a = n) :
    s.AllOrNothing op width :=
  .inl ⟨a, hn ▸ hrun⟩

theorem AllOrNothing.map {op : Op α} {width : α → Nat} {width' : β → Nat} {f : α → β}
    (h : s.AllOrNothing op width) (hwidth : ∀ a, width' (f a) = width a) :
    s.AllOrNothing (op >>= fun a => pure (f a)) width' := by
  rcases h with ⟨a, hrun⟩ | ⟨count, hrun⟩
  · refine .inl ⟨f a, ?_⟩
    rw [run_bind_ok hrun, hwidth]
    rfl
  · exact .inr ⟨count, run_bind_error hrun _⟩

/-- What reads only once it is sure of all its bits leaves nothing half done. -/
theorem AllOrNothing.of_ensure {count : Int} {f : Unit → Op α} {width : α → Nat}
    (hf : s.position + count ≤ s.size → s.AllOrNothing (f ()) width) :
    s.AllOrNothing (ensure count >>= f) width := by
  by_cases hleft : s.position + count ≤ s.size
  · unfold AllOrNothing
    rw [run_bind_ok (ensure_ok hleft)]
    exact hf hleft
  · exact .inr ⟨count, run_bind_error (ensure_short (by omega)) f⟩

section

variable (hfilled : s.Filled)

include hfilled

theorem allOrNothing_readBit : s.AllOrNothing readBit fun _ => 1 := by
  by_cases hleft : s.position + 1 ≤ s.size
  · exact .of_ok (readBit_run hleft (hfilled.stored hleft)) rfl
  · exact .inr ⟨1, run_bind_error (ensure_short (by omega)) _⟩

theorem allOrNothing_readBits (count : Int) : s.AllOrNothing (readBits count) List.length := by
  refine .of_ensure fun hleft => ?_
  cases count with
  | ofNat count =>
    have hroom : s.position + count ≤ s.size := Int.ofNat_le.1 hleft
    exact .of_ok (replicate_readBit_run hroom (hfilled.stored hroom)) (by simp)
  | negSucc _ => exact .of_ok (a := []) rfl rfl

theorem readByte_ok (h : s.position + 8 ≤ s.size) :
    ∃ b, readByte.run.run s = (.ok b, { s with position := s.position + 8 }) := by
  have hstored := hfilled.stored h (by decide)
  by_cases haligned : s.aligned
  · have hin : s.position < 8 * s.bytes.length := by omega
    obtain ⟨b, hb⟩ := exists_byte hin
    exact ⟨b, readByte_run_aligned haligned h hb⟩
  · unfold readByte
    rw [run_get_bind, if_neg haligned]
    exact ⟨_, run_bind_ok (readBits_run 8 h fun _ => hstored) _⟩

end

theorem readByte_short (h : s.size < s.position + 8) :
    readByte.run.run s = (.error (s.short 8), s) := by
  have hshort : (ensure 8).run.run s = (.error (s.short 8), s) := ensure_short (by omega)
  unfold readByte
  rw [run_get_bind]
  split
  · exact run_bind_error hshort _
  · exact run_bind_error (run_bind_error hshort _) _

theorem allOrNothing_readByte (hfilled : s.Filled) : s.AllOrNothing readByte fun _ => 8 := by
  by_cases hleft : s.position + 8 ≤ s.size
  · exact .inl (readByte_ok hfilled hleft)
  · exact .inr ⟨8, readByte_short (by omega)⟩

/-! ## Runs of bytes -/

/-- At a byte boundary, a run of bytes is there as a whole or not at all. -/
theorem allOrNothing_readBytes_aligned (hfilled : s.Filled) (haligned : s.aligned) (count : Nat) :
    s.AllOrNothing (readBytes count) fun data => 8 * data.length := by
  by_cases hleft : s.position + 8 * count ≤ s.size
  · refine .of_ok (readBytes_run_aligned count haligned hleft) ?_
    have hboundary := aligned_iff.1 haligned
    unfold Filled at hfilled
    rw [List.length_take, List.length_drop]
    omega
  · refine .inr ⟨8 * count, ?_⟩
    unfold readBytes
    rw [run_get_bind, if_pos haligned, run_bind_error (ensure_short (by omega))]

theorem replicate_readByte_ok (hfilled : s.Filled) {count : Nat}
    (h : 0 < count → s.position + 8 * count ≤ s.size) :
    ∃ data, data.length = count ∧ (replicate readByte count).run.run s =
      (.ok data, { s with position := s.position + 8 * count }) := by
  induction count generalizing s with
  | zero => exact ⟨[], rfl, rfl⟩
  | succ count ih =>
    have hfits := h (Nat.succ_pos _)
    obtain ⟨b, hb⟩ := readByte_ok hfilled (by omega)
    obtain ⟨data, hlength, hdata⟩ := ih (s := { s with position := s.position + 8 }) hfilled
      (by dsimp only; omega)
    refine ⟨b :: data, by rw [List.length_cons, hlength], ?_⟩
    unfold replicate
    rw [run_bind_ok hb, run_bind_ok hdata]
    simp only [Nat.add_assoc, Nat.mul_add, Nat.add_comm 8]
    rfl

/-- The stream after the bytes that are left have been read. -/
def drained (s : BitStream) : BitStream :=
  { s with position := s.position + 8 * ((s.size - s.position) / 8) }

theorem drained_eq_self (h : s.size < s.position + 8) : s.drained = s := by
  simp only [drained, show (s.size - s.position) / 8 = 0 by omega]
  rfl

theorem drained_next (h : s.position + 8 ≤ s.size) :
    drained { s with position := s.position + 8 } = s.drained := by
  simp only [drained, mk.injEq]
  exact ⟨trivial, trivial, by omega⟩

/-- A run that is cut off fails at its first byte that is not there, after those before it. -/
theorem replicate_readByte_short (hfilled : s.Filled) {count : Nat} (hcount : 0 < count)
    (h : s.size < s.position + 8 * count) :
    (replicate readByte count).run.run s = (.error (s.drained.short 8), s.drained) := by
  induction count generalizing s with
  | zero => cases hcount
  | succ count ih =>
    unfold replicate
    by_cases hfirst : s.position + 8 ≤ s.size
    · obtain ⟨b, hb⟩ := readByte_ok hfilled hfirst
      have hrest := ih (s := { s with position := s.position + 8 }) hfilled (by omega)
        (by dsimp only; omega)
      rw [drained_next hfirst] at hrest
      rw [run_bind_ok hb, run_bind_error hrest]
    · rw [drained_eq_self (by omega), run_bind_error (readByte_short (by omega))]

theorem readBytes_unaligned (h : s.aligned = false) (count : Int) :
    (readBytes count).run.run s = (replicate readByte count.toNat).run.run s := by
  unfold readBytes
  rw [run_get_bind, if_neg (by simp [h])]

/-- Elsewhere, all bytes of the run must be there, or not even the first one. -/
theorem allOrNothing_readBytes_unaligned (hfilled : s.Filled) (h : s.aligned = false) {count : Int}
    (hwhole : s.position + 8 ≤ s.size → s.position + 8 * count.toNat ≤ s.size) :
    s.AllOrNothing (readBytes count) fun data => 8 * data.length := by
  by_cases hfits : 0 < count.toNat → s.position + 8 * count.toNat ≤ s.size
  · obtain ⟨data, hlength, hdata⟩ := replicate_readByte_ok hfilled hfits
    exact .of_ok ((readBytes_unaligned h count).trans hdata) (congrArg (8 * ·) hlength)
  · have hrun : (replicate readByte count.toNat).run.run s =
        (.error (s.drained.short 8), s.drained) :=
      replicate_readByte_short hfilled (by omega) (by omega)
    rw [drained_eq_self (by omega)] at hrun
    exact .inr ⟨8, (readBytes_unaligned h count).trans hrun⟩

/-! ## All reads -/

namespace Read

variable {r : Read}

theorem Torn.room (h : r.Torn s) : s.position + 8 ≤ s.size := by
  cases r with
  | bit => cases h
  | bits count => cases h
  | byte => cases h
  | bytes count => exact h.2.1
  | string length =>
    cases length with
    | some count => exact h.2.1
    | none => cases h

theorem Rewinds.beyond (h : r.Rewinds s) : s.size < s.position := by
  cases r with
  | bit => cases h
  | bits count => cases h
  | byte => cases h
  | bytes count => cases h
  | string length =>
    cases length with
    | some count => cases h
    | none => exact h.2

theorem run_of_torn (hfilled : s.Filled) (h : r.Torn s) :
    r.perform.run.run s = (.error (s.drained.short 8), s.drained) := by
  have hbytes (count : Nat) (ht : (bytes count).Torn s) :
      (readBytes count).run.run s = (.error (s.drained.short 8), s.drained) := by
    obtain ⟨hunaligned, hsome, hmissing⟩ := ht
    rw [readBytes_unaligned hunaligned]
    exact replicate_readByte_short hfilled (by omega) (by omega)
  cases r with
  | bit => cases h
  | bits count => cases h
  | byte => cases h
  | bytes count => exact run_bind_error (hbytes count h) _
  | string length =>
    cases length with
    | none => cases h
    | some count => exact run_bind_error (hbytes count h) _

theorem run_of_rewinds (h : r.Rewinds s) :
    r.perform.run.run s = (.ok (.bytes []), { s with position := 8 * (s.size / 8) }) := by
  cases r with
  | bit => cases h
  | bits count => cases h
  | byte => cases h
  | bytes count => cases h
  | string length =>
    cases length with
    | some count => cases h
    | none =>
      obtain ⟨haligned, hbeyond⟩ := h
      have hboundary := aligned_iff.1 haligned
      have hcount : s.available / 8 = s.size / 8 - s.position / 8 := by
        unfold available
        omega
      have hnone : (s.available / 8).toNat = 0 := by omega
      have htarget : (s.position + 8 * (s.available / 8)).toNat = 8 * (s.size / 8) := by omega
      have hread : (readBytes (s.available / 8)).run.run s =
          (.ok [], { s with position := 8 * (s.size / 8) }) := by
        unfold readBytes
        rw [run_get_bind, if_pos haligned, run_bind_ok (ensure_ok (by omega)), hnone, htarget]
        rfl
      exact run_bind_ok hread _

theorem not_allOrNothing_of_torn (hfilled : s.Filled) (h : r.Torn s) :
    ¬ s.AllOrNothing r.perform Format.Value.width := by
  have hroom := h.room
  have hrun := run_of_torn hfilled h
  rintro (⟨value, hall⟩ | ⟨count, hall⟩)
  · cases hall.symm.trans hrun
  · have hposition : s.position = s.drained.position :=
      congrArg position (Prod.mk.inj (hall.symm.trans hrun)).2
    simp only [drained] at hposition
    omega

theorem not_allOrNothing_of_rewinds (h : r.Rewinds s) :
    ¬ s.AllOrNothing r.perform Format.Value.width := by
  have hbeyond := h.beyond
  have hrun := run_of_rewinds h
  rintro (⟨value, hall⟩ | ⟨count, hall⟩)
  · have hposition : s.position + value.width = 8 * (s.size / 8) :=
      congrArg position (Prod.mk.inj (hall.symm.trans hrun)).2
    omega
  · cases hall.symm.trans hrun

theorem allOrNothing (hfilled : s.Filled) (htorn : ¬ r.Torn s) (hrewinds : ¬ r.Rewinds s) :
    s.AllOrNothing r.perform Format.Value.width := by
  have hbytes (count : Nat) (ht : ¬ (bytes count).Torn s) :
      s.AllOrNothing (readBytes count) fun data => 8 * data.length := by
    cases haligned : s.aligned with
    | true => exact allOrNothing_readBytes_aligned hfilled haligned count
    | false =>
      refine allOrNothing_readBytes_unaligned hfilled haligned fun hsome => ?_
      by_contra hmissing
      exact ht ⟨haligned, hsome, by omega⟩
  cases r with
  | bit => exact (allOrNothing_readBit hfilled).map fun _ => rfl
  | bits count => exact (allOrNothing_readBits hfilled count).map fun _ => rfl
  | byte => exact (allOrNothing_readByte hfilled).map fun _ => rfl
  | bytes count => exact (hbytes count htorn).map fun _ => rfl
  | string length =>
    cases length with
    | some count => exact (hbytes count htorn).map fun _ => rfl
    | none =>
      have hrest : s.AllOrNothing (readBytes (s.available / 8)) fun data => 8 * data.length := by
        cases haligned : s.aligned with
        | true =>
          have hwithin : s.position ≤ s.size := by
            by_contra hbeyond
            exact hrewinds ⟨haligned, by omega⟩
          have hcount : s.available / 8 = ↑((s.size - s.position) / 8) := by
            unfold available
            omega
          rw [hcount]
          exact allOrNothing_readBytes_aligned hfilled haligned _
        | false =>
          refine allOrNothing_readBytes_unaligned hfilled haligned fun _ => ?_
          unfold available
          omega
      exact hrest.map fun _ => rfl

end Read

/-- A read of a stream without gaps moves the cursor over what it gives, or fails and leaves the
stream as it was, but for two: a run of bytes that is torn has taken the bytes that are left, and a
byte string of what is left goes back to the last whole byte. -/
theorem allOrNothing_iff (h : Reachable s) (r : Read) :
    (s.AllOrNothing r.perform Format.Value.width ↔ ¬ r.Torn s ∧ ¬ r.Rewinds s) ∧
    (r.Torn s → r.perform.run.run s = (.error (s.drained.short 8), s.drained)) ∧
    (r.Rewinds s →
      r.perform.run.run s = (.ok (.bytes []), { s with position := 8 * (s.size / 8) })) := by
  refine ⟨⟨fun hall => ?_, fun hneither => ?_⟩, Read.run_of_torn h.filled, Read.run_of_rewinds⟩
  · exact ⟨fun htorn => Read.not_allOrNothing_of_torn h.filled htorn hall,
      fun hrewinds => Read.not_allOrNothing_of_rewinds hrewinds hall⟩
  · exact Read.allOrNothing h.filled hneither.1 hneither.2

/-- The second of two bytes that are read one bit off ends a bit too late, and from beyond the end
of one byte the cursor comes back to its end. -/
theorem allOrNothing_iff_exceptions :
    let cut : BitStream := { bytes := [0xFF, 0xFF], size := 16, position := 1 }
    let past : BitStream := { bytes := [0xFF], size := 8, position := 24 }
    (Reachable cut ∧ ¬ cut.AllOrNothing (Read.bytes 2).perform Format.Value.width ∧
      (Read.bytes 2).perform.run.run cut = (.error (.violation {
        cause := .truncatedInput 1, offset := some 1 }), { cut with position := 9 })) ∧
    Reachable past ∧ ¬ past.AllOrNothing (Read.string none).perform Format.Value.width ∧
      (Read.string none).perform.run.run past = (.ok (.bytes []), { past with position := 8 }) := by
  intro cut past
  have hcut : Reachable cut :=
    .perform (.seek 1 .start) (.start (.bytes [0xFF, 0xFF])) (show (0 : Int) ≤ 1 by decide)
  have hpast : Reachable past :=
    .perform (.seek 24 .start) (.start (.bytes [0xFF])) (show (0 : Int) ≤ 24 by decide)
  have htorn : (Read.bytes 2).Torn cut := by
    refine ⟨?_, ?_, ?_⟩
    all_goals decide
  have hrewinds : (Read.string none).Rewinds past := by
    refine ⟨?_, ?_⟩
    all_goals decide
  obtain ⟨hiff, hrun, -⟩ := allOrNothing_iff hcut (.bytes 2)
  obtain ⟨hiff', -, hrun'⟩ := allOrNothing_iff hpast (.string none)
  exact ⟨⟨hcut, fun hall => (hiff.1 hall).1 htorn, by simpa [cut, drained, short] using hrun htorn⟩,
    hpast, fun hall => (hiff'.1 hall).2 hrewinds, by simpa [past] using hrun' hrewinds⟩

/-- Not every read of every stream without gaps does all or nothing. -/
theorem not_forall_allOrNothing :
    ¬ ∀ s, Reachable s → ∀ r : Read, s.AllOrNothing r.perform Format.Value.width := by
  intro hall
  have hcut : Reachable { bytes := [0xFF, 0xFF], size := 16, position := 1 } :=
    .perform (.seek 1 .start) (.start (.bytes [0xFF, 0xFF])) (show (0 : Int) ≤ 1 by decide)
  refine Read.not_allOrNothing_of_torn hcut.filled ?_ (hall _ hcut (.bytes 2))
  refine ⟨?_, ?_, ?_⟩
  all_goals decide

end BitStream

end ActionCode
