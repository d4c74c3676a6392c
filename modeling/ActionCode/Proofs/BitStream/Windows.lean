import ActionCode.Proofs.BitStream.Atomic
import ActionCode.Proofs.Numbers

/-!
# Numbers through a window

A stream whose cursor stands at a byte boundary reads what the readers read that take bytes off
the front of their input, and fails as they fail. So a number that is read through a window, which
shows only as many bytes as the number can take, comes out as it does from a stream of all of the
data: no byte that it needs is hidden, and data that ends too early ends in the window as well.
-/

namespace ActionCode

namespace BitStream

variable {α β γ δ : Type} {s : BitStream} {i j : Input}

/-! ## Streams and readers -/

/-- The cursor stands at a byte of the stream, and the input is what is left from there on. -/
structure Meets (s : BitStream) (i : Input) : Prop where
  rest : s.bytes.drop i.offset = i.rest
  position : s.position = 8 * i.offset
  size : s.size = 8 * s.bytes.length
  within : i.offset ≤ s.bytes.length

namespace Meets

/-- A stream of data meets what is left of the data from any of its bytes on. -/
theorem ofBytes {data : Bytes} {c : Nat} (hc : c ≤ data.length) :
    Meets { BitStream.ofBytes data with position := 8 * c } ⟨data.drop c, c, [], []⟩ :=
  ⟨rfl, rfl, rfl, hc⟩

theorem aligned (h : s.Meets i) : s.aligned = true := by
  rw [aligned_iff, h.position, Nat.mul_mod_right]

theorem start (h : s.Meets i) : s.position / 8 = i.offset := by
  have hposition := h.position
  omega

/-- The stream has as many bits left as the input has bytes. -/
theorem left (h : s.Meets i) : s.size = s.position + 8 * i.rest.length := by
  have hwithin := h.within
  rw [h.size, h.position, ← h.rest, List.length_drop]
  omega

/-- They still meet when both have moved over so many bytes. -/
theorem moved (h : s.Meets i) {n : Nat} (hn : n ≤ i.rest.length)
    (hrest : j.rest = i.rest.drop n) (hoffset : j.offset = i.offset + n) :
    Meets { s with position := s.position + 8 * n } j where
  rest := by rw [hrest, hoffset, ← h.rest, List.drop_drop]
  position := by
    have hposition := h.position
    dsimp only
    omega
  size := h.size
  within := by
    have hwithin := h.within
    rw [← h.rest, List.length_drop] at hn
    dsimp only
    omega

theorem noted (h : s.Meets i) (sp : Spelling) :
    s.Meets { i with spellings := sp :: i.spellings } :=
  ⟨h.rest, h.position, h.size, h.within⟩

/-- Both blame the data at the same place for the same bits. -/
theorem short_eq (h : s.Meets i) (count : Int) :
    s.short count = .violation {
      cause := .truncatedInput (count - 8 * i.rest.length), offset := some ↑i.offset } := by
  have hbits : (s.position : Int) + count - s.size = count - 8 * i.rest.length := by
    rw [h.left]
    omega
  rw [short, h.start, hbits]

end Meets

/-- On a stream that meets the input, the operation does what the reader does: it succeeds with
the same value and meets what is left of the input, or fails with the same violation. -/
structure Tracks (op : Op β) (value : α → β) (r : Reader α) : Prop where
  ok {s : BitStream} {i j : Input} {x : α} :
    s.Meets i → r i = .ok (x, j) → ∃ t, op.run.run s = (.ok (value x), t) ∧ t.Meets j
  error {s : BitStream} {i : Input} {v : Violation} :
    s.Meets i → r i = .error v → ∃ t, op.run.run s = (.error (.violation v), t)

namespace Tracks

open Reader (bind_eq_ok bind_eq_error)

variable {op : Op β} {r : Reader α} {value : α → β}

/-! ## Chains -/

theorem pure {x : α} {y : β} (hvalue : y = value x) :
    Tracks (pure y) value (pure x : Reader α) where
  ok {s i j z} h hx := by
    obtain ⟨⟩ := hx
    exact ⟨s, hvalue ▸ rfl, h⟩
  error _ hx := nomatch hx

theorem bind {f : β → Op δ} {g : α → Reader γ} {value' : γ → δ} (hr : Tracks op value r)
    (hf : ∀ x, Tracks (f (value x)) value' (g x)) : Tracks (op >>= f) value' (r >>= g) where
  ok h hz := by
    obtain ⟨x, k, hx, hy⟩ := bind_eq_ok.1 hz
    obtain ⟨t, hop, ht⟩ := hr.ok h hx
    rw [run_bind_ok hop]
    exact (hf x).ok ht hy
  error h hz := by
    rcases bind_eq_error.1 hz with hx | ⟨x, k, hx, hy⟩
    · obtain ⟨t, hop⟩ := hr.error h hx
      exact ⟨t, run_bind_error hop f⟩
    · obtain ⟨t, hop, ht⟩ := hr.ok h hx
      rw [run_bind_ok hop]
      exact (hf x).error ht hy

theorem map (hr : Tracks op value r) (f : β → δ) :
    Tracks (op >>= fun y => Pure.pure (f y)) (fun x => f (value x)) r where
  ok h hx := by
    obtain ⟨t, hop, ht⟩ := hr.ok h hx
    exact ⟨t, run_bind_ok hop _, ht⟩
  error h hx := by
    obtain ⟨t, hop⟩ := hr.error h hx
    exact ⟨t, run_bind_error hop _⟩

/-- Both know where they are. -/
theorem offset {f : Nat → Op β} {g : Nat → Reader α} (hf : ∀ o, Tracks (f o) value (g o)) :
    Tracks (get >>= fun s => f (s.position / 8)) value (Reader.offset >>= g) where
  ok {s i j x} h hx := by
    rw [run_get_bind, h.start]
    exact (hf i.offset).ok h hx
  error {s i v} h hx := by
    rw [run_get_bind, h.start]
    exact (hf i.offset).error h hx

/-! ## Single fields -/

theorem fail {cause : Cause} {o : Nat} :
    Tracks (throw (.violation { cause, offset := some ↑o })) value (Reader.fail cause o) where
  ok _ hx := nomatch hx
  error {s i v} _ hx := by
    obtain ⟨⟩ := hx
    exact ⟨s, rfl⟩

/-- The stream takes no notes. -/
theorem note {sp : Spelling} (hr : Tracks op value r) :
    Tracks op value (Reader.note sp >>= fun _ => r) where
  ok h hx := hr.ok (h.noted sp) hx
  error h hx := hr.error (h.noted sp) hx

theorem withBytes (hr : Tracks op value r) :
    Tracks op (fun p => value p.1) (Reader.withBytes r) where
  ok h hx := by
    unfold Reader.withBytes at hx
    split at hx
    · cases hx
    · rename_i hr'
      obtain ⟨⟩ := hx
      exact hr.ok h hr'
  error h hx := by
    unfold Reader.withBytes at hx
    split at hx
    · rename_i hr'
      obtain ⟨⟩ := hx
      exact hr.error h hr'
    · cases hx

theorem readByte : Tracks readByte id Reader.byte where
  ok {s i j b} h hb := by
    cases hrest : i.rest with
    | nil => simp [Reader.byte, Reader.next, hrest] at hb
    | cons c rest =>
      simp only [Reader.byte, Reader.next, hrest, Except.ok.injEq, Prod.mk.injEq] at hb
      obtain ⟨rfl, rfl⟩ := hb
      have hleft := h.left
      have hbyte : s.bytes[s.position / 8]? = some c := by
        rw [h.start, ← List.head?_drop, h.rest, hrest, List.head?_cons]
      have hmoved := h.moved (n := 1) (j := { i with rest := rest, offset := i.offset + 1 })
        (by simp [hrest]) (by simp [hrest]) rfl
      rw [hrest, List.length_cons] at hleft
      exact ⟨_, readByte_run_aligned h.aligned (by omega) hbyte, hmoved⟩
  error {s i v} h hv := by
    cases hrest : i.rest with
    | nil =>
      simp only [Reader.byte, Reader.next, hrest, Except.error.injEq] at hv
      have hleft := h.left
      rw [hrest, List.length_nil] at hleft
      rw [readByte_short (by omega), h.short_eq, hrest, ← hv]
      exact ⟨s, rfl⟩
    | cons c rest => simp [Reader.byte, Reader.next, hrest] at hv

theorem readBytes (count : Nat) : Tracks (readBytes count) id (Reader.bytes count) where
  ok {s i j data} h hdata := by
    have hleft := h.left
    by_cases hcount : count ≤ i.rest.length
    · rw [Reader.bytes_of_le hcount] at hdata
      obtain ⟨⟩ := hdata
      refine ⟨_, ?_, h.moved hcount rfl rfl⟩
      rw [readBytes_run_aligned count h.aligned (by omega), h.start, h.rest]
      rfl
    · rw [Reader.bytes_of_lt (by omega)] at hdata
      cases hdata
  error {s i v} h hv := by
    have hleft := h.left
    by_cases hcount : count ≤ i.rest.length
    · rw [Reader.bytes_of_le hcount] at hv
      cases hv
    · rw [Reader.bytes_of_lt (by omega)] at hv
      obtain ⟨⟩ := hv
      refine ⟨s, ?_⟩
      unfold BitStream.readBytes
      rw [run_get_bind, if_pos h.aligned, run_bind_error (ensure_short (by omega)), h.short_eq,
        show (8 * (count : Int) - 8 * i.rest.length) = 8 * (count - i.rest.length) by omega]

/-! ## Numbers -/

theorem readGroups (start left : Nat) :
    Tracks (Format.readGroups start left) id (Reader.groups start left) := by
  induction left with
  | zero => exact .fail
  | succ left ih =>
    refine readByte.bind fun b => ?_
    rw [id]
    split
    · exact .pure rfl
    · exact ih.bind fun _ => .pure rfl

theorem readU32 : Tracks Format.readU32 id Reader.u30 :=
  .offset (f := fun o => Format.readGroups o 5 >>= fun n => Pure.pure (n % 2 ^ 32)) fun o =>
    (readGroups o 5).withBytes.bind fun _ => .note (.pure rfl)

end Tracks

end BitStream

/-! ## Reading from a place in data -/

namespace Format

open BitStream

/-- A variable-length number of which only 30 bits are used. -/
def u30 : Format := { shape := .u32 }

/-- A number of three bytes in two's complement, with its lowest byte first. -/
def si24 : Format :=
  { shape := .signedByte, length := some 3, order := some .little, ownName := some "SI24" }

example : ofName "U30" none none = .ok u30 ∧ ofName "SI24" none none = .ok si24 := by decide

/-- What the format reads from a byte of data on, and the bit behind it. -/
def readAt (f : Format) (data : Bytes) (cursor : Nat) : Except Fault (Value × Int) :=
  let p := (seek ↑(8 * cursor) .start >>= fun _ => f.read).run.run (.ofBytes data)
  p.1.map fun value => (value, ↑p.2.position)

theorem tracks_u30 : Tracks u30.read (fun n : Nat => .int n) Reader.u30 :=
  Tracks.readU32.map fun n : Nat => Value.int n

theorem tracks_si24 : Tracks si24.read .int Reader.s24 := by
  have hread : si24.read = readBytes ↑(3 : Nat) >>= fun data => pure (.int data.toInt) := by
    simp only [read, si24, readWhole, wholeBytes, little, arrange, decide_true, if_true,
      bind_assoc, pure_bind]
    rfl
  rw [hread]
  exact (Tracks.readBytes 3).bind fun _ => .pure rfl

/-- A stream of all of the data gives what the reader gives of the data that is left. -/
theorem readAt_of_tracks {α : Type} {f : Format} {r : Reader α} {value : α → Value} {data : Bytes}
    {c : Nat} (h : Tracks f.read value r) (hc : c ≤ data.length) :
    f.readAt data c = ((r ⟨data.drop c, c, [], []⟩).map fun p =>
      (value p.1, 8 * (p.2.offset : Int))).mapError .violation := by
  have hmeets := Meets.ofBytes hc
  have hseek := seek_run (.ofBytes data) (8 * c : Nat) .start
  rw [SeekFrom.target, Int.toNat_natCast] at hseek
  unfold readAt
  rw [run_bind_ok hseek]
  cases hr : r ⟨data.drop c, c, [], []⟩ with
  | error v =>
    obtain ⟨t, hrun⟩ := h.error hmeets hr
    rw [hrun]
    rfl
  | ok p =>
    obtain ⟨t, hrun, ht⟩ := h.ok hmeets hr
    rw [hrun, Except.map, ht.position]
    rfl

end Format

namespace Varint

/-! ## Windows -/

theorem readU30_eq (data : Bytes) (c : Nat) :
    readU30 data c =
      (Reader.u30 ⟨data.drop c, c, [], []⟩).map fun p => (p.1, (p.2.offset : Int)) := by
  rw [readU30_run, Reader.u30_run]
  split
  · rfl
  · split
    · rfl
    · rfl

theorem readS24_eq (data : Bytes) (c : Nat) :
    readS24 data c =
      (Reader.s24 ⟨data.drop c, c, [], []⟩).map fun p => (p.1, (p.2.offset : Int)) := by
  have hslice : Position.slice data c (c + (3 : Nat)) = (data.drop c).take 3 :=
    Position.slice_natCast data c 3
  rw [readS24, window, hslice, Input.ofBytes, Reader.s24]
  generalize data.drop c = w
  -- A window that is too short shows all that is left, so the same bits are missing.
  by_cases hthree : 3 ≤ w.length
  · rw [Reader.bind_apply (Reader.bytes_of_le (by simpa using hthree)),
      Reader.bind_apply (Reader.bytes_of_le hthree)]
    simp [Except.map, List.take_take]
  · rw [Reader.bind_error (Reader.bytes_of_lt (by simpa using hthree)),
      Reader.bind_error (Reader.bytes_of_lt (by simpa using hthree)),
      List.take_of_length_le (by omega)]
    simp [Except.map, Violation.rebase]

/-! ## Main result -/

/-- From every place in data, a number that is read through a window is the one that a stream of
all of the data gives there, with the same place behind it, and where the one fails the other does,
with the same violation at the same offset. -/
theorem windows_eq_readAt (data : Bytes) {c : Nat} (hc : c ≤ data.length) :
    Format.u30.readAt data c =
      ((readU30 data c).map fun p => (.int p.1, 8 * p.2)).mapError .violation ∧
    Format.si24.readAt data c =
      ((readS24 data c).map fun p => (.int p.1, 8 * p.2)).mapError .violation := by
  rw [readU30_eq, readS24_eq, Format.readAt_of_tracks Format.tracks_u30 hc,
    Format.readAt_of_tracks Format.tracks_si24 hc]
  constructor
  · cases Reader.u30 ⟨data.drop c, c, [], []⟩ with
    | error v => rfl
    | ok p => rfl
  · cases Reader.s24 ⟨data.drop c, c, [], []⟩ with
    | error v => rfl
    | ok p => rfl

/-- A number of two bytes and one of three, then five bytes that all ask for more and two that
end too early. -/
theorem windows_eq_readAt_mixed :
    let data : Bytes := [0x05, 0xAC, 0x02, 0xFB, 0xFF, 0xFF, 0x80, 0x80]
    3 ≤ data.length ∧ 6 ≤ data.length ∧
    readU30 data 1 = .ok (300, 3) ∧ Format.u30.readAt data 1 = .ok (.int 300, 24) ∧
    readS24 data 3 = .ok (-5, 6) ∧ Format.si24.readAt data 3 = .ok (.int (-5), 48) ∧
    Format.u30.readAt data 3 =
      .error (.violation { cause := .overlong, offset := some 3 }) ∧
    Format.u30.readAt data 6 =
      .error (.violation { cause := .truncatedInput 8, offset := some 8 }) ∧
    Format.si24.readAt data 6 =
      .error (.violation { cause := .truncatedInput 8, offset := some 6 }) := by
  intro data
  have hthree : 3 ≤ data.length := by decide
  have hsix : 6 ≤ data.length := by decide
  obtain ⟨hfirst, -⟩ := windows_eq_readAt data (show 1 ≤ data.length by decide)
  obtain ⟨hlong, hsecond⟩ := windows_eq_readAt data hthree
  obtain ⟨hcut, hcut'⟩ := windows_eq_readAt data hsix
  exact ⟨hthree, hsix, rfl, hfirst, rfl, hsecond, hlong, hcut, hcut'⟩

end Varint

end ActionCode
