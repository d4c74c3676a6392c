import ActionCode.Proofs.Reader.Reads
import ActionCode.Proofs.Reader.Stable

/-!
# Writing what was read

`Yields C A later r P` says what can be written for a value that `r` has read: some bytes that
stand in the relation `P` to it. They are never more than were read, as many if no field was
padded, and the same if all fields were canonical. This needs the references that were kept for
later to be ones that `A` admits, and the spellings that were found to be as `C` asks; no
references are kept but those into the tables `later`.
-/

namespace ActionCode

/-- Only the operands of code must take no more bytes than they need. -/
def Spelling.Compact : Spelling → Prop
  | operand value bytes => bytes.length = (Varint.encode value).length
  | number _ _ | flags _ _ => True

theorem Spelling.Unpadded.compact {sp : Spelling} (h : sp.Unpadded) : sp.Compact := by
  cases sp with
  | number value bytes => trivial
  | operand value bytes => exact h
  | flags reserved byte => trivial

instance Spelling.decidableCompact : (sp : Spelling) → Decidable sp.Compact
  | operand value bytes => inferInstanceAs (Decidable (bytes.length = (Varint.encode value).length))
  | number _ _ | flags _ _ => inferInstanceAs (Decidable True)

theorem Spelling.compact_inCode {sp : Spelling} : sp.inCode.Compact ↔ sp.Unpadded := by
  cases sp <;> rfl

namespace Input

variable {C : Spelling → Prop} {A : Scope} {later : List Table} {s t u : Input}
  {P Q : Bytes → Prop} {F : Spelling → Prop} {run : Bytes}

/-- What was read so far can be written, as far as it is not to be judged any more. -/
structure Sound (C : Spelling → Prop) (A : Scope) (s : Input) : Prop where
  admitted : s.Admitted A
  spelled : s.Spelled C

theorem Spelled.mono (h : t.Spelled F) (hst : s.spellings <:+ t.spellings) : s.Spelled F :=
  fun sp hsp => h sp (hst.subset hsp)

/-- Between `s` and `t` stands what would be written as `run`, up to padding. -/
structure Rewrites (s : Input) (run : Bytes) (t : Input) : Prop where
  short : s.offset + run.length ≤ t.offset
  offset : t.Spelled Spelling.Unpadded → t.offset = s.offset + run.length
  rest : t.Spelled Spelling.Canonical → s.rest = run ++ t.rest

theorem Rewrites.trans {run' : Bytes} (h : s.Rewrites run t) (g : t.Rewrites run' u)
    (htu : t.spellings <:+ u.spellings) : s.Rewrites (run ++ run') u where
  short := by
    rw [List.length_append, ← Nat.add_assoc]
    exact Nat.le_trans (Nat.add_le_add_right h.short _) g.short
  offset hu := by
    rw [g.offset hu, h.offset (hu.mono htu), List.length_append, Nat.add_assoc]
  rest hu := by
    rw [h.rest (hu.mono htu), g.rest hu, List.append_assoc]

/-- Between `s` and `t` stands something for which `P` can be written. -/
structure Spans (C : Spelling → Prop) (A : Scope) (later : List Table) (s t : Input)
    (P : Bytes → Prop) : Prop where
  leaves : s.Leaves t
  noted : s.spellings <:+ t.spellings
  kept : ∀ p ∈ t.deferred, p.1 ∈ later ∨ ∃ q ∈ s.deferred, q.1 = p.1
  sound : t.Sound C A → s.Sound C A
  written : t.Sound C A → ∃ run, P run ∧ s.Rewrites run t

namespace Spans

theorem trans (h : Spans C A later s t P) (g : Spans C A later t u Q) :
    Spans C A later s u fun run => ∃ a, P a ∧ ∃ b, Q b ∧ a ++ b = run where
  leaves := h.leaves.trans g.leaves
  noted := h.noted.trans g.noted
  kept p hp := by
    rcases g.kept p hp with hlater | ⟨q, hq, hqp⟩
    · exact .inl hlater
    · rw [← hqp]
      exact h.kept q hq
  sound hu := h.sound (g.sound hu)
  written hu := by
    obtain ⟨b, hb, hwritten'⟩ := g.written hu
    obtain ⟨a, ha, hwritten⟩ := h.written (g.sound hu)
    exact ⟨a ++ b, ⟨a, ha, b, hb, rfl⟩, hwritten.trans hwritten' g.noted⟩

/-- What is written for `P` may give way to something as long that is the same unless a field
was not canonical. -/
theorem replace (h : Spans C A later s t P) (hPQ : ∀ run, P run → ∃ run', Q run' ∧
    run'.length = run.length ∧ (t.Spelled Spelling.Canonical → run' = run)) :
    Spans C A later s t Q where
  leaves := h.leaves
  noted := h.noted
  kept := h.kept
  sound := h.sound
  written ht := by
    obtain ⟨run, hrun, hwritten⟩ := h.written ht
    obtain ⟨run', hrun', hlength, hsame⟩ := hPQ run hrun
    exact ⟨run', hrun', hlength ▸ hwritten.short, fun hu => hlength ▸ hwritten.offset hu,
      fun hc => hsame hc ▸ hwritten.rest hc⟩

theorem imp (h : Spans C A later s t P) (hPQ : ∀ run, P run → Q run) : Spans C A later s t Q :=
  h.replace fun run hrun => ⟨run, hPQ run hrun, rfl, fun _ => rfl⟩

/-- Without padding, it is known where what is written ends. -/
theorem located (h : Spans C A later s t P) : Spans C A later s t fun run =>
    P run ∧ (t.Spelled Spelling.Unpadded → t.offset = s.offset + run.length) :=
  { h with
    written := fun ht => by
      obtain ⟨run, hrun, hwritten⟩ := h.written ht
      exact ⟨run, ⟨hrun, hwritten.offset⟩, hwritten⟩ }

/-- Where nothing was kept before and nothing is left for later, nothing is kept. -/
theorem admitted (h : Spans C A [] s t P) (hs : s.deferred = []) : t.Admitted A := by
  intro p hp
  rcases h.kept p hp with hlater | ⟨q, hq, -⟩
  · cases hlater
  · rw [hs] at hq
    cases hq

/-- Nothing is noted and nothing kept. -/
theorem of_same (hP : P run) (hrest : s.rest = run ++ t.rest)
    (hoffset : t.offset = s.offset + run.length) (hdeferred : t.deferred = s.deferred)
    (hspellings : t.spellings = s.spellings) : Spans C A later s t P where
  leaves := ⟨run, hrest, hoffset⟩
  noted := hspellings ▸ List.suffix_refl _
  kept p hp := .inr ⟨p, hdeferred ▸ hp, rfl⟩
  sound ht := ⟨fun p hp => ht.admitted p (hdeferred ▸ hp),
    fun sp hsp => ht.spelled sp (hspellings ▸ hsp)⟩
  written _ := ⟨run, hP, Nat.le_of_eq hoffset.symm, fun _ => hoffset, fun _ => hrest⟩

end Spans

end Input

namespace Reader

variable {α β : Type} {C : Spelling → Prop} {A : Scope} {later : List Table} {r : Reader α}
  {f : α → Reader β} {P : α → Bytes → Prop} {Q : α → β → Bytes → Prop} {s t : Input}

def Yields (C : Spelling → Prop) (A : Scope) (later : List Table) (r : Reader α)
    (P : α → Bytes → Prop) : Prop :=
  ∀ s x t, r s = .ok (x, t) → s.Spans C A later t (P x)

namespace Yields

/-! ## Chains -/

theorem pure (x : α) : Yields C A later (pure x) fun y run => x = y ∧ [] = run := by
  rintro s _ _ ⟨⟩
  exact .of_same ⟨rfl, rfl⟩ rfl rfl rfl rfl

theorem bind (hr : Yields C A later r P) (hf : ∀ x, Yields C A later (f x) (Q x)) :
    Yields C A later (r >>= f) fun y run => ∃ x a, P x a ∧ ∃ b, Q x y b ∧ a ++ b = run := by
  intro s y u h
  obtain ⟨x, t, hx, hy⟩ := bind_eq_ok.1 h
  apply ((hr s x t hx).trans (hf x t y u hy)).imp
  intro run hpost
  rcases hpost with ⟨a, ha, b, hb, rfl⟩
  exact ⟨x, a, ha, b, hb, rfl⟩

/-- The last link of a chain, whose value is only put into place. -/
theorem ret (hr : Yields C A later r P) (g : α → β) :
    Yields C A later (r >>= fun x => Pure.pure (g x)) fun y run => ∃ x, P x run ∧ g x = y := by
  intro s y u h
  obtain ⟨x, t, hx, hy⟩ := bind_eq_ok.1 h
  simp only [pure_apply, Except.ok.injEq, Prod.mk.injEq] at hy
  obtain ⟨rfl, rfl⟩ := hy
  exact (hr s x t hx).imp fun run hrun => ⟨x, hrun, rfl⟩

theorem imp {Q : α → Bytes → Prop} (hr : Yields C A later r P) (h : ∀ x run, P x run → Q x run) :
    Yields C A later r Q :=
  fun s x t hx => (hr s x t hx).imp (h x)

theorem offset_bind {P : β → Bytes → Prop} {f : Nat → Reader β}
    (hf : ∀ o, Yields C A later (f o) P) : Yields C A later (Reader.offset >>= f) P := by
  intro s y u h
  obtain ⟨_, _, ⟨⟩, hy⟩ := bind_eq_ok.1 h
  exact hf s.offset s y u hy

theorem fail {cause : Cause} {o : Nat} : Yields C A later (Reader.fail cause o) P := by
  rintro s x t ⟨⟩

theorem lift {e : Except Violation α} :
    Yields C A later (liftM e) fun x run => e = .ok x ∧ [] = run := by
  intro s x t h
  obtain ⟨he, rfl⟩ := lift_eq_ok.1 h
  exact .of_same ⟨he, rfl⟩ rfl rfl rfl rfl

/-! ## Single fields -/

theorem next_eq_ok {missed : Nat} {b : UInt8} (h : next missed s = .ok (b, t)) :
    s.rest = b :: t.rest ∧ t = { s with rest := t.rest, offset := s.offset + 1 } := by
  unfold Reader.next at h
  split at h
  · simp at h
  · rename_i hrest
    simp only [Except.ok.injEq, Prod.mk.injEq] at h
    obtain ⟨rfl, rfl⟩ := h
    exact ⟨hrest, rfl⟩

theorem byte : Yields C A later byte fun b run => [b] = run := by
  intro s b t h
  obtain ⟨hrest, ht⟩ := next_eq_ok h
  rw [ht]
  exact .of_same rfl hrest rfl rfl rfl

theorem bytes_eq_ok {count : Nat} {x : Bytes} (h : Reader.bytes count s = .ok (x, t)) :
    x.length = count ∧ s.rest = x ++ t.rest ∧
      t = { s with rest := t.rest, offset := s.offset + count } := by
  rcases Nat.lt_or_ge s.rest.length count with hlt | hle
  · simp [bytes_of_lt hlt] at h
  · simp only [bytes_of_le hle, Except.ok.injEq, Prod.mk.injEq] at h
    obtain ⟨rfl, rfl⟩ := h
    exact ⟨List.length_take_of_le hle, (List.take_append_drop _ _).symm, rfl⟩

theorem bytes (count : Nat) :
    Yields C A later (bytes count) fun x run => x = run ∧ x.length = count := by
  intro s x t h
  obtain ⟨hlength, hrest, ht⟩ := bytes_eq_ok h
  rw [ht]
  exact .of_same ⟨rfl, hlength⟩ hrest (by rw [hlength]) rfl rfl

/-- The bits that have no meaning are written as zeros. -/
theorem flags (skipped : Nat) : Yields C A later (flags skipped)
    fun b run => [(b.toNat % 2 ^ (8 - skipped)).toUInt8] = run := by
  intro s b t h
  obtain ⟨_, s', hnext, h⟩ := bind_eq_ok.1 h
  obtain ⟨_, _, ⟨⟩, ⟨⟩⟩ := bind_eq_ok.1 h
  obtain ⟨hrest, hs'⟩ := next_eq_ok hnext
  rw [hs']
  exact {
    leaves := ⟨[b], hrest, rfl⟩
    noted := List.suffix_cons _ _
    kept := fun p hp => .inr ⟨p, hp, rfl⟩
    sound := fun ht => ⟨ht.admitted, ht.spelled.mono (List.suffix_cons _ _)⟩
    written := fun ht => ⟨_, rfl, Nat.le_refl _, fun _ => rfl, fun hcanon => by
      have hb : b.toNat < 2 ^ (8 - skipped) := hcanon (.flags skipped b) List.mem_cons_self
      rw [Nat.mod_eq_of_lt hb, hrest]
      simp⟩ }

/-! ## Numbers -/

/-- Every byte adds seven bits. -/
theorem groups_eq_ok {start left n : Nat} (h : groups start left s = .ok (n, t)) :
    ∃ used, s.rest = used ++ t.rest ∧
      t = { s with rest := t.rest, offset := s.offset + used.length } ∧
      0 < used.length ∧ n < 128 ^ used.length := by
  induction left generalizing s n with
  | zero => simp [groups, Reader.fail] at h
  | succ left ih =>
    obtain ⟨b, s', hb, h⟩ := bind_eq_ok.1 h
    obtain ⟨hrest, hs'⟩ := next_eq_ok hb
    split at h
    · rename_i hlt
      simp only [pure_apply, Except.ok.injEq, Prod.mk.injEq] at h
      obtain ⟨rfl, rfl⟩ := h
      exact ⟨[b], hrest, hs', Nat.zero_lt_one, hlt⟩
    · obtain ⟨high, t', hhigh, h⟩ := bind_eq_ok.1 h
      simp only [pure_apply, Except.ok.injEq, Prod.mk.injEq] at h
      obtain ⟨rfl, rfl⟩ := h
      obtain ⟨used, hrest', ht', -, hhigh⟩ := ih hhigh
      refine ⟨b :: used, by rw [hrest, hrest', List.cons_append], ?_, Nat.succ_pos _, ?_⟩
      · rw [ht', hs', List.length_cons, Nat.add_assoc, Nat.add_comm 1]
      · rw [List.length_cons, Nat.pow_succ]
        omega

theorem u30_eq_ok {n : Nat} (h : u30 s = .ok (n, t)) : n < 2 ^ 32 ∧
    ∃ used, s.rest = used ++ t.rest ∧ (Varint.encode n).length ≤ used.length ∧ t = {
      rest := t.rest, offset := s.offset + used.length, deferred := s.deferred,
      spellings := .number n used :: s.spellings } := by
  obtain ⟨_, _, ⟨⟩, h⟩ := bind_eq_ok.1 h
  obtain ⟨⟨m, used⟩, s', hgroups, h⟩ := bind_eq_ok.1 h
  obtain ⟨_, _, ⟨⟩, ⟨⟩⟩ := bind_eq_ok.1 h
  simp only [withBytes] at hgroups
  split at hgroups
  · simp at hgroups
  · rename_i m u hm
    simp only [Except.ok.injEq, Prod.mk.injEq] at hgroups
    obtain ⟨⟨rfl, rfl⟩, rfl⟩ := hgroups
    obtain ⟨used, hrest, hu, hpos, hlt⟩ := groups_eq_ok hm
    have htake : s.rest.take (u.offset - s.offset) = used := by
      rw [hu, hrest]
      simp
    have hshort := Varint.length_encode_le hpos (Nat.lt_of_le_of_lt (Nat.mod_le _ (2 ^ 32)) hlt)
    refine ⟨Nat.mod_lt _ (by decide), used, hrest, hshort, ?_⟩
    rw [htake, hu]

theorem u30 : Yields C A later u30 fun n run =>
    Varint.writeU30 n = .ok run ∧ Varint.wrap n = n := by
  intro s n t h
  obtain ⟨hn, used, hrest, hshort, ht⟩ := u30_eq_ok h
  have hwrap : Varint.wrap n = n := Varint.wrap_of_lt (by omega) (by omega)
  have hwritten : Varint.writeU30 n = .ok (Varint.encode n) := by
    rw [Varint.writeU30_eq_ok, hwrap, Int.toNat_natCast]
    exact ⟨by omega, rfl⟩
  have hmem : .number n used ∈ t.spellings := by
    rw [ht]
    exact List.mem_cons_self
  have hsuffix : s.spellings <:+ t.spellings := by
    rw [ht]
    exact List.suffix_cons _ _
  have hdeferred : t.deferred = s.deferred := by rw [ht]
  have hoffset : t.offset = s.offset + used.length := by rw [ht]
  exact {
    leaves := ⟨used, hrest, hoffset⟩
    noted := hsuffix
    kept := fun p hp => .inr ⟨p, hdeferred ▸ hp, rfl⟩
    sound := fun h => ⟨fun p hp => h.admitted p (hdeferred ▸ hp), h.spelled.mono hsuffix⟩
    written := fun _ => ⟨_, ⟨hwritten, hwrap⟩, hoffset ▸ Nat.add_le_add_left hshort _,
      fun hunpadded => by rw [hoffset, hunpadded _ hmem],
      fun hcanon => by rw [hrest, hcanon _ hmem]⟩ }

theorem number : Yields C A later (do return Int.ofNat (← Reader.u30)) fun value run =>
    Varint.writeU30 value = .ok run ∧ Varint.wrap value = value := by
  apply (u30.ret Int.ofNat).imp
  intro _ run hpost
  rcases hpost with ⟨n, hn, rfl⟩
  exact hn

theorem s32 : Yields C A later s32 fun value run => Varint.writeS32 value = .ok run := by
  apply (u30.ret fun n => if n < 2 ^ 31 then (n : Int) else n - 2 ^ 32).imp
  intro _ run hpost
  rcases hpost with ⟨n, ⟨hn, hwrap⟩, rfl⟩
  obtain ⟨hrange, rfl⟩ := Varint.writeU30_eq_ok.1 hn
  have hsame : Varint.wrap (if n < 2 ^ 31 then (n : Int) else n - 2 ^ 32) = Varint.wrap n := by
    unfold Varint.wrap
    split <;> omega
  rw [Varint.writeS32_eq_ok, hsame]
  refine ⟨?_, rfl⟩
  split <;> omega

theorem u16 : Yields C A later u16 fun n run => n < 2 ^ 16 ∧ Bytes.ofNat 2 n = run := by
  apply ((bytes 2).ret Bytes.toNat).imp
  intro _ run hpost
  rcases hpost with ⟨x, ⟨rfl, hlength⟩, rfl⟩
  have hlt := x.toNat_lt
  rw [hlength] at hlt
  exact ⟨hlt, hlength ▸ x.ofNat_toNat⟩

theorem s24 : Yields C A later s24 fun value run => Varint.writeS24 value = .ok run := by
  apply ((bytes 3).ret Bytes.toInt).imp
  intro _ run hpost
  rcases hpost with ⟨x, ⟨rfl, hlength⟩, rfl⟩
  have hlt := x.toNat_lt
  have hback := x.ofNat_toNat
  rw [hlength] at hlt hback
  have hmod : (x.toInt % 2 ^ 24).toNat = x.toNat := by
    simp only [Bytes.toInt, hlength]
    split <;> omega
  rw [Varint.writeS24_eq_ok, hmod]
  refine ⟨?_, hback⟩
  simp only [Bytes.toInt, hlength]
  split <;> omega

theorem double : Yields C A later double fun bits run => Bytes.ofNat 8 bits.toNat = run := by
  apply ((bytes 8).ret fun run => run.toNat.toUInt64).imp
  intro _ run hpost
  rcases hpost with ⟨x, ⟨rfl, hlength⟩, rfl⟩
  have hlt : x.toNat < 2 ^ 64 := Nat.lt_of_lt_of_eq x.toNat_lt (congrArg (256 ^ ·) hlength)
  have hback := x.ofNat_toNat
  rw [hlength] at hback
  rw [Nat.toUInt64_eq, UInt64.toNat_ofNat', Nat.mod_eq_of_lt hlt]
  exact hback

/-! ## Sequences and records -/

theorem replicate {write : α → Except Fault Bytes} {F : α → Prop}
    (hr : Yields C A later r fun x run => write x = .ok run ∧ F x) (count : Nat) :
    Yields C A later (replicate r count) fun xs run =>
      xs.length = count ∧ writeEach write xs = .ok run ∧ ∀ x ∈ xs, F x := by
  induction count with
  | zero =>
    apply (pure []).imp
    intro _ run hpost
    rcases hpost with ⟨rfl, rfl⟩
    exact ⟨rfl, rfl, by simp⟩
  | succ count ih =>
    apply (hr.bind fun x => ih.ret (x :: ·)).imp
    intro _ _ hpost
    rcases hpost with ⟨x, a, ⟨ha, hx⟩, b, ⟨xs, ⟨hlength, hb, hxs⟩, rfl⟩, rfl⟩
    refine ⟨by rw [List.length_cons, hlength], ?_, List.forall_mem_cons.2 ⟨hx, hxs⟩⟩
    simp only [writeEach, Outcome.bind_eq_ok, Outcome.pure_eq_ok]
    exact ⟨a, ha, b, hb, rfl⟩

theorem counted {write : α → Except Fault Bytes} {F : α → Prop}
    (hr : Yields C A later r fun x run => write x = .ok run ∧ F x) :
    Yields C A later (counted r) fun xs run =>
      writeCounted write xs = .ok run ∧ ∀ x ∈ xs, F x := by
  apply (u30.bind fun count => hr.replicate count).imp
  intro xs _ hpost
  rcases hpost with ⟨count, a, ⟨ha, -⟩, b, ⟨rfl, hb, hxs⟩, rfl⟩
  simp only [writeCounted, Outcome.bind_eq_ok, Outcome.pure_eq_ok]
  exact ⟨⟨a, ha, b, hb, rfl⟩, hxs⟩

/-- A record starts without references of its own and keeps those of before. -/
theorem record {table : Table} {label : String} (hr : Yields C A later r P) :
    Yields C A later (record table label r) P := by
  intro s x u h
  unfold Reader.record at h
  split at h
  · simp at h
  · rename_i x' t hx
    simp only [Except.ok.injEq, Prod.mk.injEq] at h
    obtain ⟨rfl, rfl⟩ := h
    have hspans := hr _ x' t hx
    have hinner {A : Scope} (h : Input.Sound C A { t with
        deferred := s.deferred ++ t.deferred.map fun p =>
          (p.1, if p.1 = table then p.2.inside label else p.2) }) : t.Sound C A := by
      refine ⟨fun p hp => ?_, h.spelled⟩
      have hp' := h.admitted _ (List.mem_append_right _ (List.mem_map_of_mem hp))
      dsimp only at hp'
      split at hp'
      · exact hp'
      · exact hp'
    exact {
      leaves := hspans.leaves
      noted := hspans.noted
      kept := fun p hp => by
        rcases List.mem_append.1 hp with hp | hp
        · exact .inr ⟨p, hp, rfl⟩
        · obtain ⟨q, hq, rfl⟩ := List.mem_map.1 hp
          rcases hspans.kept q hq with hlater | ⟨_, hnone, -⟩
          · exact .inl hlater
          · simp at hnone
      sound := fun h => ⟨fun p hp => h.admitted p (List.mem_append_left _ hp),
        (hspans.sound (hinner h)).spelled⟩
      written := fun h => by
        obtain ⟨run, hrun, hshort, hoffset, hrest⟩ := hspans.written (hinner h)
        exact ⟨run, hrun, hshort, hoffset, hrest⟩ }

theorem records {write : α → Except Fault Bytes} {F : α → Prop} {table : Table}
    {label : String} (hr : Yields C A later r fun x run => write x = .ok run ∧ F x)
    (first count : Nat) :
    Yields C A later (records table label r first count) fun xs run =>
      xs.length = count ∧ writeEach write xs = .ok run ∧ ∀ x ∈ xs, F x := by
  induction count generalizing first with
  | zero =>
    apply (pure []).imp
    intro _ run hpost
    rcases hpost with ⟨rfl, rfl⟩
    exact ⟨rfl, rfl, by simp⟩
  | succ count ih =>
    apply (hr.record.bind fun x => (ih (first + 1)).ret (x :: ·)).imp
    intro _ _ hpost
    rcases hpost with ⟨x, a, ⟨ha, hx⟩, b, ⟨xs, ⟨hlength, hb, hxs⟩, rfl⟩, rfl⟩
    refine ⟨by rw [List.length_cons, hlength], ?_, List.forall_mem_cons.2 ⟨hx, hxs⟩⟩
    simp only [writeEach, Outcome.bind_eq_ok, Outcome.pure_eq_ok]
    exact ⟨a, ha, b, hb, rfl⟩

end Yields

end Reader

/-! ## References -/

namespace Scope

/-- What `W` judges, `R` judges in the same way or leaves to `A`, for the tables `later`. -/
structure Mirrors (R W A : Scope) (later tables : List Table) : Prop where
  same : ∀ t ∈ tables, R.extent t = W.extent t ∨ R.extent t = .unfinished
  leaves : R.LeavesTo W A
  later : ∀ t, R.extent t = .unfinished → t ∈ later

variable {R W A : Scope} {later tables : List Table} {t : Table}

theorem Mirrors.mono {tables' : List Table} (h : R.Mirrors W A later tables)
    (hsub : tables' ⊆ tables) : R.Mirrors W A later tables' :=
  { h with same := fun t ht => h.same t (hsub ht) }

/-- Of the scope for writing, only the tables that are referred to matter. -/
theorem Mirrors.congr {W' : Scope} (h : R.Mirrors W A later tables)
    (hsame : ∀ t ∈ tables, W'.extent t = W.extent t) : R.Mirrors W' W' later tables where
  same t ht := hsame t ht ▸ h.same t ht
  leaves := .refl R W'
  later := h.later

/-- A table that nothing is left of is judged at once. -/
theorem Mirrors.now (h : R.Mirrors W A later tables) (ht : t ∈ tables) (hnow : t ∉ later) :
    R.extent t = W.extent t :=
  (h.same t ht).resolve_right fun hlater => hnow (h.later t hlater)

end Scope

namespace Reader.Yields

variable {C : Spelling → Prop} {R W A : Scope} {later tables : List Table} {t : Table}

theorem accept {index o : Nat} (h : R.Mirrors W A later tables) (ht : t ∈ tables) :
    Yields C A later (R.accept t index o) fun _ run => W.Admits t index ∧ [] = run := by
  -- What is judged at once is judged as the writer does.
  have hjudged (hnow : R.extent t ≠ .unfinished) :
      Yields C A later (liftM (R.check t index (some o)) : Reader Unit) fun _ run =>
        W.Admits t index ∧ [] = run := by
    apply lift.imp
    intro _ run hpost
    rcases hpost with ⟨hcheck, rfl⟩
    refine ⟨fun count hcount => ?_, rfl⟩
    rcases h.same t ht with hsame | hlater
    · exact Scope.check_eq_ok.1 hcheck count (hsame.trans hcount)
    · exact absurd hlater hnow
  unfold Scope.accept
  cases hextent : R.extent t with
  | unknown => exact hjudged (by simp [hextent])
  | entries count => exact hjudged (by simp [hextent])
  | unfinished =>
    rintro s _ _ ⟨⟩
    exact {
      leaves := .refl _
      noted := List.suffix_refl _
      kept := fun p hp => by
        rcases List.mem_append.1 hp with hp | hp
        · exact .inr ⟨p, hp, rfl⟩
        · obtain rfl := List.mem_singleton.1 hp
          exact .inl (h.later t hextent)
      sound := fun hu => ⟨fun p hp => hu.admitted p (List.mem_append_left _ hp), hu.spelled⟩
      written := fun hu => by
        have hadmits := hu.admitted _ (List.mem_append_right _ List.mem_cons_self)
        have hW : W.Admits t index :=
          fun count hcount => hadmits count ((h.leaves t hextent).trans hcount)
        exact ⟨[], ⟨hW, rfl⟩, Nat.le_refl _, fun _ => rfl, fun _ => rfl⟩ }

theorem index (h : R.Mirrors W A later tables) (ht : t ∈ tables) :
    Yields C A later (R.readIndex t) fun i run =>
      W.writeIndex i = .ok run ∧ Varint.wrap i.val = i.val := by
  refine imp (r := R.readIndex t) (offset_bind fun o => u30.bind fun n =>
    (accept h ht).bind fun _ => pure (Index.mk n)) ?_
  intro _ _ hpost
  rcases hpost with ⟨n, a, ⟨ha, hn⟩, _, ⟨_, _, ⟨hadmits, rfl⟩, _, ⟨rfl, rfl⟩, rfl⟩, rfl⟩
  rw [List.append_nil, List.append_nil, Scope.writeIndex_eq_ok]
  exact ⟨⟨hadmits, ha⟩, hn⟩

end Reader.Yields

/-- Once a table is settled, nothing is kept of it. -/
theorem Input.Spans.settle {C : Spelling → Prop} {A : Scope} {later : List Table} {s t u : Input}
    {P : Bytes → Prop} {table : Table} {entries : Nat} (h : Spans C A (table :: later) s t P)
    (hsettle : Reader.settle table entries t = .ok ((), u))
    (hA : A.extent table = .entries entries) : Spans C A later s u P := by
  obtain ⟨hbounds, rfl⟩ := Reader.settle_eq_ok.1 hsettle
  have hsound (hu : Sound C A { t with deferred := t.deferred.filter fun p => ¬ p.1 = table }) :
      t.Sound C A := by
    refine ⟨fun p hp => ?_, hu.spelled⟩
    by_cases htable : p.1 = table
    · intro count hcount
      rw [htable, hA] at hcount
      obtain ⟨⟩ := hcount
      rw [htable]
      exact hbounds p hp htable
    · exact hu.admitted p (List.mem_filter.2 ⟨hp, by simpa using htable⟩)
  exact {
    leaves := h.leaves
    noted := h.noted
    kept := fun p hp => by
      obtain ⟨hp, htable⟩ := List.mem_filter.1 hp
      rcases h.kept p hp with hlater | hold
      · rcases List.mem_cons.1 hlater with heq | hlater
        · simp [heq] at htable
        · exact .inl hlater
      · exact .inr hold
    sound := fun hu => h.sound (hsound hu)
    written := fun hu => by
      obtain ⟨run, hrun, hshort, hoffset, hrest⟩ := h.written (hsound hu)
      exact ⟨run, hrun, hshort, hoffset, hrest⟩ }

end ActionCode
