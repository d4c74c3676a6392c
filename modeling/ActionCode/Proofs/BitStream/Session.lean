import ActionCode.Proofs.BitStream.Tape

/-!
# Sessions on a stream

Any sequence of writes, reads and moves of the cursor gives the same answers on a stream as on the
tape that it holds, and can be carried out on the one where it can on the other.
-/

namespace ActionCode

namespace BitStream

/-! ## Commands -/

inductive Command
  | writeBit (value : Bool)
  | writeBits (bits : List Bool)
  | writeByte (value : Int)
  | writeBytes (data : Bytes)
  | readBit
  | readBits (count : Nat)
  | readByte
  | readBytes (count : Nat)
  | rewind
  | seek (offset : Int) (origin : SeekFrom)
  deriving DecidableEq

inductive Answer
  | done
  | bit (value : Bool)
  | bits (values : List Bool)
  | byte (value : UInt8)
  | bytes (data : Bytes)
  deriving DecidableEq

/-- The place that an offset leads to. -/
def SeekFrom.target (origin : SeekFrom) (length cursor : Nat) (offset : Int) : Int :=
  match origin with
  | .start => offset
  | .cursor => cursor + offset
  | .stop => length - offset

/-- What a command asks for: a value that is a byte, counted from 256 down if it is negative, or
a place on the stream. -/
def Command.Admitted (length cursor : Nat) : Command → Prop
  | .writeByte value => -256 ≤ value ∧ value ≤ 255
  | .seek offset origin =>
    0 ≤ origin.target length cursor offset ∧ origin.target length cursor offset ≤ length
  | .writeBit _ | .writeBits _ | .writeBytes _ | .readBit | .readBits _ | .readByte
  | .readBytes _ | .rewind => True

instance (length cursor : Nat) : (c : Command) → Decidable (c.Admitted length cursor)
  | .writeByte value => inferInstanceAs (Decidable (-256 ≤ value ∧ value ≤ 255))
  | .seek offset origin => inferInstanceAs (Decidable
      (0 ≤ origin.target length cursor offset ∧ origin.target length cursor offset ≤ length))
  | .writeBit _ | .writeBits _ | .writeBytes _ | .readBit | .readBits _ | .readByte
  | .readBytes _ | .rewind => inferInstanceAs (Decidable True)

/-- A command as an operation of the stream. -/
def Command.perform : Command → Op Answer
  | .writeBit value => do BitStream.writeBit value; return .done
  | .writeBits bits => do BitStream.writeBits bits; return .done
  | .writeByte value => do BitStream.writeByte value; return .done
  | .writeBytes data => do BitStream.writeBytes data; return .done
  | .readBit => return .bit (← BitStream.readBit)
  | .readBits count => return .bits (← BitStream.readBits count)
  | .readByte => return .byte (← BitStream.readByte)
  | .readBytes count => return .bytes (← BitStream.readBytes count)
  | .rewind => do BitStream.rewind; return .done
  | .seek offset origin => do BitStream.seek offset origin; return .done

/-- A command carried out on a stream, if it is admitted there and succeeds. -/
def step (c : Command) (s : BitStream) : Option (Answer × BitStream) :=
  if c.Admitted s.size s.position then
    match c.perform.run.run s with
    | (.ok answer, s') => some (answer, s')
    | (.error _, _) => none
  else none

end BitStream

open BitStream (Command Answer)

namespace Tape

/-- A command on a tape: bits are laid over those at the cursor or taken from there, and a byte is
eight of them. -/
def perform (t : Tape) : Command → Option (Answer × Tape)
  | .writeBit value => some (.done, t.put [value])
  | .writeBits bits => some (.done, t.put bits)
  | .writeByte value => some (.done, t.put (BitStream.bitsOfNat 8 (value % 256).toNat))
  | .writeBytes data => some (.done, t.put (BitStream.bitsOfBytes data))
  | .readBit => (t.take 1).map fun p => (.bit (p.1.headD false), p.2)
  | .readBits count => (t.take count).map fun p => (.bits p.1, p.2)
  | .readByte => (t.take 8).map fun p => (.byte (BitStream.natOfBits p.1).toUInt8, p.2)
  | .readBytes count =>
    (t.take (8 * count)).map fun p => (.bytes (BitStream.bytesOfBits count p.1), p.2)
  | .rewind => some (.done, { t with cursor := 0 })
  | .seek offset origin =>
    some (.done, { t with cursor := (origin.target t.bits.length t.cursor offset).toNat })

def step (c : Command) (t : Tape) : Option (Answer × Tape) :=
  if c.Admitted t.bits.length t.cursor then t.perform c else none

end Tape

/-- Commands carried out one after the other, with the answer of each. -/
def play {σ : Type} (step : Command → σ → Option (Answer × σ)) :
    List Command → σ → Option (List Answer × σ)
  | [], s => some ([], s)
  | c :: rest, s =>
    (step c s).bind fun p => (play step rest p.2).map fun q => (p.1 :: q.1, q.2)

namespace BitStream

variable {s : BitStream} {t : Tape}

/-! ## Agreement -/

/-- The same answers, and a stream that holds the tape. -/
def Agree {α : Type} (p : α × BitStream) (q : α × Tape) : Prop := p.1 = q.1 ∧ p.2.Holds q.2

theorem seek_run (s : BitStream) (offset : Int) (origin : SeekFrom) :
    (seek offset origin).run.run s =
      (.ok (), { s with position := (origin.target s.size s.position offset).toNat }) := by
  cases origin <;> rfl

/-- An admitted command does to a stream what it does to the tape that the stream holds. -/
theorem perform_follows (h : s.Holds t) {c : Command} (hc : c.Admitted t.bits.length t.cursor) :
    s.Follows c.perform (t.perform c) := by
  cases c with
  | writeBit value => exact (writeBit_follows h value).map fun _ => Answer.done
  | writeBits bits => exact (writeBits_follows h bits).map fun _ => Answer.done
  | writeByte value =>
    obtain ⟨hlow, hhigh⟩ := hc
    exact (writeByte_follows h hlow (by omega)).map fun _ => Answer.done
  | writeBytes data => exact (writeBytes_follows h data).map fun _ => Answer.done
  | readBit =>
    have hread := (readBit_follows h).map Answer.bit
    rwa [Option.map_map] at hread
  | readBits count => exact (readBits_follows h count).map Answer.bits
  | readByte =>
    have hread := (readByte_follows h).map Answer.byte
    rwa [Option.map_map] at hread
  | readBytes count =>
    have hread := (readBytes_follows h count).map Answer.bytes
    rwa [Option.map_map] at hread
  | rewind => exact .after rfl (.pure (h.moved (Nat.zero_le _)) _)
  | seek offset origin =>
    obtain ⟨-, hhigh⟩ := hc
    have hrun := seek_run s offset origin
    have htarget : origin.target s.size s.position offset
        = origin.target t.bits.length t.cursor offset := by rw [h.size, h.position]
    rw [htarget] at hrun
    exact .after hrun (.pure (h.moved (by omega)) _)

theorem step_agrees (h : s.Holds t) (c : Command) : Option.Rel Agree (step c s) (t.step c) := by
  unfold step Tape.step
  rw [h.size, h.position]
  by_cases hc : c.Admitted t.bits.length t.cursor
  · rw [if_pos hc, if_pos hc]
    have hfollows := perform_follows h hc
    generalize t.perform c = outcome at hfollows
    cases hfollows with
    | done hrun ht =>
      rw [hrun]
      exact .some ⟨rfl, ht⟩
    | failed hrun =>
      rw [hrun]
      exact .none
  · rw [if_neg hc, if_neg hc]
    exact .none

section

variable {α α' β β' : Type} {R : α → β → Prop} {Q : α' → β' → Prop} {x : Option α} {y : Option β}

theorem rel_bind {f : α → Option α'} {g : β → Option β'} (h : Option.Rel R x y)
    (hf : ∀ a b, R a b → Option.Rel Q (f a) (g b)) : Option.Rel Q (x.bind f) (y.bind g) := by
  cases h with
  | some hab => exact hf _ _ hab
  | none => exact .none

theorem rel_map {f : α → α'} {g : β → β'} (h : Option.Rel R x y)
    (hf : ∀ a b, R a b → Q (f a) (g b)) : Option.Rel Q (x.map f) (y.map g) := by
  cases h with
  | some hab => exact .some (hf _ _ hab)
  | none => exact .none

end

/-- A session on a stream is one on the tape that it holds. -/
theorem play_agrees (h : s.Holds t) (commands : List Command) :
    Option.Rel Agree (play step commands s) (play Tape.step commands t) := by
  induction commands generalizing s t with
  | nil => exact .some ⟨rfl, h⟩
  | cons c commands ih =>
    refine rel_bind (step_agrees h c) fun p q hstep => ?_
    obtain ⟨hanswer, hholds⟩ := hstep
    exact rel_map (ih hholds) fun _ _ hrest => ⟨by rw [hanswer, hrest.1], hrest.2⟩

/-! ## Two ways to move bytes -/

/-- Bytes written as bytes and bytes written bit by bit leave the same stream. -/
theorem writeBytes_bitwise (h : s.Holds t) (data : Bytes) :
    (writeBytes data).run.run s = (writeBits (bitsOfBytes data)).run.run s := by
  cases writeBytes_follows h data with
  | done hbytes ht =>
    cases writeBits_follows h (bitsOfBytes data) with
    | done hbits ht' => rw [hbytes, hbits, ht.unique ht']

/-- Bytes read as bytes are the bits that would have been read. -/
theorem readBytes_bitwise (h : s.Holds t) (count : Nat) (data : Bytes) (s' : BitStream) :
    (readBytes count).run.run s = (.ok data, s') ↔
      ∃ bits, (readBits ↑(8 * count)).run.run s = (.ok bits, s') ∧
        bytesOfBits count bits = data := by
  rw [(readBytes_follows h count).run_eq_ok]
  simp only [(readBits_follows h (8 * count)).run_eq_ok, Option.map_eq_some_iff, Prod.mk.injEq]
  constructor
  · rintro ⟨t', ⟨p, htake, rfl, rfl⟩, ht'⟩
    exact ⟨p.1, ⟨p.2, htake, ht'⟩, rfl⟩
  · rintro ⟨bits, ⟨t', htake, ht'⟩, rfl⟩
    exact ⟨t', ⟨_, htake, rfl, rfl⟩, ht'⟩

/-! ## Sessions -/

/-- What a stream is made from. -/
inductive Source
  | text (characters : String)
  | bytes (data : Bytes)
  deriving DecidableEq

def Source.stream : Source → BitStream
  | .text characters => ofText characters
  | .bytes data => ofBytes data

/-- The ones and zeros of a text, or eight bits for each byte. -/
def Source.bits : Source → List Bool
  | .text characters => characters.toList.filterMap fun c =>
      if c = '1' then some true else if c = '0' then some false else none
  | .bytes data => bitsOfBytes data

theorem Source.holds (source : Source) : source.stream.Holds { bits := source.bits } := by
  cases source with
  | text characters => exact holds_ofBits _
  | bytes data => exact holds_ofBytes data

/-- Whatever is done to a stream comes to the same on the list of its bits, and can be done to
the one if it can be done to the other. The buffer has no more bytes than the bits need and clear
bits behind the last, and is what the stream serializes to. -/
theorem plays_as_tape (source : Source) (commands : List Command) :
    (∀ answers t, play Tape.step commands { bits := source.bits } = some (answers, t) →
      ∃ s, play step commands source.stream = some (answers, s)) ∧
    ∀ answers s, play step commands source.stream = some (answers, s) →
      ∃ t, play Tape.step commands { bits := source.bits } = some (answers, t) ∧
        s.text = String.ofList (t.bits.map fun b => if b then '1' else '0') ∧
        s.size = t.bits.length ∧ s.position = t.cursor ∧
        s.bytes.length = (s.size + 7) / 8 ∧ (∀ i, s.size ≤ i → bitAt s.bytes i = false) ∧
        serialize.run.run s = (.ok s.bytes, s) ∧
        (∀ data, (writeBytes data).run.run s = (writeBits (bitsOfBytes data)).run.run s) ∧
        ∀ (count : Nat) data s', (readBytes count).run.run s = (.ok data, s') ↔
          ∃ bits, (readBits ↑(8 * count)).run.run s = (.ok bits, s') ∧
            bytesOfBits count bits = data := by
  have hplay := play_agrees source.holds commands
  constructor
  · intro answers t ht
    rw [ht] at hplay
    generalize play step commands source.stream = outcome at hplay
    cases hplay with
    | some hagree =>
      obtain ⟨rfl, -⟩ := hagree
      exact ⟨_, rfl⟩
  · intro answers s hs
    rw [hs] at hplay
    generalize play Tape.step commands { bits := source.bits } = outcome at hplay
    cases hplay with
    | some hagree =>
      obtain ⟨rfl, hholds⟩ := hagree
      exact ⟨_, rfl, hholds.text, hholds.size, hholds.position, hholds.packed,
        fun _ => hholds.clear, hholds.serialize, writeBytes_bitwise hholds,
        readBytes_bitwise hholds⟩

/-- A byte laid over the end of three bits, read back from another boundary, and followed by one
that is given as a negative number. -/
theorem plays_as_tape_unaligned :
    let source := Source.text "101"
    let commands : List Command := [.seek 1 .start, .writeBytes [0xab], .rewind, .readByte,
      .readBits 1, .seek (-8) .cursor, .seek 0 .stop, .writeByte (-1)]
    let answers : List Answer :=
      [.done, .done, .done, .byte 0xd5, .bits [true], .done, .done, .done]
    let s : BitStream := { bytes := [0xd5, 0xff, 0x80], size := 17, position := 17 }
    play step commands source.stream = some (answers, s) ∧
      (∃ t, play Tape.step commands { bits := source.bits } = some (answers, t) ∧
        s.size = t.bits.length) ∧
      serialize.run.run s = (.ok s.bytes, s) := by
  intro source commands answers s
  have hplay : play step commands source.stream = some (answers, s) := by decide +kernel
  obtain ⟨t, htape, -, hsize, -, -, -, hserialize, -⟩ :=
    (plays_as_tape source commands).2 answers s hplay
  exact ⟨hplay, ⟨t, htape, hsize⟩, hserialize⟩

end BitStream

end ActionCode
