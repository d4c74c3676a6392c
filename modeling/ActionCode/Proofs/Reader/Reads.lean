import ActionCode.Proofs.Spelling

/-!
# Reading what was written

`Reads W offset r run x` says that `r` takes exactly `run` off the front of the input for
the value `x`, whatever comes after them. On the way it keeps no reference that the scope `W`
would not admit, and meets no spelling that is not canonical. Chains and lists of such readings
are put together from their links.
-/

namespace ActionCode

/-! ## What is kept while reading -/

/-- A position that is in bounds, as far as the extent of its table is known. -/
def Scope.Admits (scope : Scope) (t : Table) (index : Int) : Prop :=
  ∀ count, scope.extent t = .entries count → Table.InBounds t.reserved count index

theorem Scope.admits_unknown {t : Table} {index : Int} : Scope.unknown.Admits t index := by
  rintro count ⟨⟩

/-- The extent of a table is known. -/
def Scope.Knows (scope : Scope) (t : Table) : Prop := ∃ count, scope.extent t = .entries count

namespace Input

/-- All references kept for later are ones that the scope admits. -/
def Admitted (W : Scope) (s : Input) : Prop := ∀ p ∈ s.deferred, W.Admits p.1 p.2.index

/-- All spellings found so far satisfy `P`. -/
def Spelled (P : Spelling → Prop) (s : Input) : Prop := ∀ sp ∈ s.spellings, P sp

theorem admitted_ofBytes {W : Scope} {data : Bytes} : (ofBytes data).Admitted W := by
  simp [Admitted, ofBytes]

theorem spelled_ofBytes {P : Spelling → Prop} {data : Bytes} : (ofBytes data).Spelled P := by
  simp [Spelled, ofBytes]

end Input

namespace Reader

variable {α β γ : Type} {W : Scope} {offset : Nat} {r : Reader α} {f : α → Reader β}
  {run run' : Bytes} {x : α} {y : β}

def Reads (W : Scope) (offset : Nat) (r : Reader α) (run : Bytes) (x : α) : Prop :=
  ∀ s rest, s.rest = run ++ rest → s.offset = offset → s.Admitted W →
    ∃ t, r s = .ok (x, t) ∧ t.rest = rest ∧ t.offset = offset + run.length ∧ t.Admitted W ∧
      (s.Spelled Spelling.Canonical → t.Spelled Spelling.Canonical)

namespace Reads

/-! ## Chains -/

theorem pure (x : α) : Reads W offset (pure x) [] x := by
  intro s rest hrest hoffset hs
  exact ⟨s, rfl, hrest, by simpa using hoffset, hs, id⟩

theorem bind (hr : Reads W offset r run x)
    (hf : Reads W (offset + run.length) (f x) run' y) :
    Reads W offset (r >>= f) (run ++ run') y := by
  intro s rest hrest hoffset hs
  rw [List.append_assoc] at hrest
  obtain ⟨t, hx, htrest, htoffset, ht, hcanon⟩ := hr s _ hrest hoffset hs
  obtain ⟨u, hy, hurest, huoffset, hu, hcanon'⟩ := hf t _ htrest htoffset ht
  refine ⟨u, ?_, hurest, ?_, hu, hcanon' ∘ hcanon⟩
  · rw [bind_apply hx, hy]
  · rw [huoffset, List.length_append, Nat.add_assoc]

/-- A link after which no more bytes are taken. -/
theorem bind_nil (hr : Reads W offset r run x) (hf : Reads W (offset + run.length) (f x) [] y) :
    Reads W offset (r >>= f) run y := by
  simpa using hr.bind hf

/-- The last link of a chain, whose value is only put into place. -/
theorem ret (hr : Reads W offset r run x) (g : α → β) :
    Reads W offset (r >>= fun x => Pure.pure (g x)) run (g x) :=
  hr.bind_nil (pure (g x))

/-- The offset is known where the reading starts. -/
theorem offset_bind {f : Nat → Reader β} (hf : Reads W offset (f offset) run y) :
    Reads W offset (Reader.offset >>= f) run y := by
  intro s rest hrest hoffset hs
  obtain ⟨t, ht⟩ := hf s rest hrest hoffset hs
  refine ⟨t, ?_, ht.2⟩
  have ho : Reader.offset s = .ok (offset, s) := by simp [Reader.offset, hoffset]
  rw [bind_apply ho, ht.1]

/-- A verdict that is given without reading. -/
theorem lift {e : Except Violation α} (he : e = .ok x) : Reads W offset (liftM e) [] x := by
  intro s rest hrest hoffset hs
  exact ⟨s, lift_eq_ok.2 ⟨he, rfl⟩, hrest, by simpa using hoffset, hs, id⟩

/-- All of the data is read, and every field of it was found as it is written. -/
theorem ofBytes (hr : Reads W 0 r run x) : ∃ t, r (.ofBytes run) = .ok (x, t) ∧
    t.rest = [] ∧ t.offset = run.length ∧ t.Spelled Spelling.Canonical := by
  obtain ⟨t, hx, hrest, hoffset, -, hcanon⟩ :=
    hr (.ofBytes run) [] (List.append_nil run).symm rfl Input.admitted_ofBytes
  exact ⟨t, hx, hrest, by omega, hcanon Input.spelled_ofBytes⟩

/-! ## Single fields -/

theorem next (missed : Nat) (b : UInt8) : Reads W offset (next missed) [b] b := by
  intro s rest hrest hoffset hs
  simp only [List.cons_append, List.nil_append] at hrest
  exact ⟨{ s with rest := rest, offset := s.offset + 1 }, by simp [Reader.next, hrest], rfl,
    by simp [hoffset], hs, id⟩

theorem byte (b : UInt8) : Reads W offset byte [b] b := next 8 b

theorem bytes {count : Nat} (h : run.length = count) :
    Reads W offset (bytes count) run run := by
  intro s rest hrest hoffset hs
  have hle : count ≤ s.rest.length := by
    rw [hrest, List.length_append]
    omega
  refine ⟨{ s with rest := s.rest.drop count, offset := s.offset + count }, ?_, ?_, ?_, hs, id⟩
  · rw [bytes_of_le hle, hrest, ← h, List.take_left]
  · simp [hrest, ← h]
  · simp [hoffset, h]

theorem note (sp : Spelling) (h : sp.Canonical) : Reads W offset (note sp) [] () := by
  intro s rest hrest hoffset hs
  refine ⟨{ s with spellings := sp :: s.spellings }, rfl, hrest, by simpa using hoffset, hs, ?_⟩
  intro hcanon sp' hmem
  rcases List.mem_cons.1 hmem with rfl | hmem
  · exact h
  · exact hcanon sp' hmem

theorem withBytes (hr : Reads W offset r run x) :
    Reads W offset (withBytes r) run (x, run) := by
  intro s rest hrest hoffset hs
  obtain ⟨t, hx, ht⟩ := hr s rest hrest hoffset hs
  refine ⟨t, ?_, ht⟩
  have hlen : t.offset - s.offset = run.length := by omega
  simp [Reader.withBytes, hx, hlen, hrest]

theorem flags (skipped : Nat) {b : UInt8} (h : b.toNat < 2 ^ (8 - skipped)) :
    Reads W offset (flags skipped) [b] b :=
  (next _ b).bind_nil ((note (.flags skipped b) h).bind_nil (pure b))

/-! ## Numbers -/

theorem groups (start more : Nat) {n : Nat} (h : n < 2 ^ (7 * (more + 1))) :
    Reads W offset (groups start (more + 1)) (Varint.groups more n) n := by
  induction more generalizing offset n with
  | zero =>
    have hn : n < 128 := by omega
    apply (byte n.toUInt8).bind_nil
    rw [Bytes.toNat_toUInt8 (by omega : n < 256), if_pos hn]
    exact pure n
  | succ more ih =>
    by_cases hn : n < 128
    · rw [Varint.groups, if_pos hn]
      apply (byte n.toUInt8).bind_nil
      rw [Bytes.toNat_toUInt8 (by omega : n < 256), if_pos hn]
      exact pure n
    · have hhigh : n / 128 < 2 ^ (7 * (more + 1)) := by
        rw [Nat.div_lt_iff_lt_mul (by decide)]
        calc n < 2 ^ (7 * (more + 1 + 1)) := h
          _ = 2 ^ (7 * (more + 1)) * 128 := by rw [Nat.mul_add 7 (more + 1), Nat.pow_add]
      rw [Varint.groups, if_neg hn]
      apply (byte (n % 128 + 128).toUInt8).bind
      rw [Bytes.toNat_toUInt8 (by omega : n % 128 + 128 < 256), if_neg (by omega)]
      have hsum : (n % 128 + 128) % 128 + 128 * (n / 128) = n := by omega
      have htail : Reads W (offset + 1) (Reader.groups start (more + 1)) _ _ := ih hhigh
      have hread := htail.ret fun high => (n % 128 + 128) % 128 + 128 * high
      rwa [hsum] at hread

theorem u30 {value : Int} (h : Varint.writeU30 value = .ok run) :
    Reads W offset u30 run (Varint.wrap value).toNat := by
  obtain ⟨-, rfl⟩ := Varint.writeU30_eq_ok.1 h
  have hlt := Varint.toNat_wrap_lt value
  generalize (Varint.wrap value).toNat = n at hlt
  have hmod : n % 2 ^ 32 = n := Nat.mod_eq_of_lt hlt
  have hn : n < 2 ^ (7 * (4 + 1)) := by omega
  refine offset_bind (.bind_nil (.withBytes (x := n) ?_) ?_)
  · rw [Varint.encode, hmod]
    exact groups _ 4 hn
  · simp only [hmod]
    exact (note (.number n _) rfl).bind_nil (pure n)

theorem number {value : Int} (h : Varint.writeU30 value = .ok run) :
    Reads W offset (do return Int.ofNat (← Reader.u30)) run (Varint.wrap value) := by
  have hread := ret (u30 h : Reads W offset Reader.u30 run _) Int.ofNat
  rwa [Int.ofNat_eq_natCast, Varint.natCast_toNat_wrap] at hread

theorem s32 {value : Int} (h : Varint.writeS32 value = .ok run) :
    Reads W offset s32 run value := by
  obtain ⟨⟨hlow, hhigh⟩, hrun⟩ := Varint.writeS32_eq_ok.1 h
  have hu30 : Varint.writeU30 value = .ok run :=
    Varint.writeU30_eq_ok.2 ⟨⟨hlow, by omega⟩, hrun⟩
  have hvalue : (if (Varint.wrap value).toNat < 2 ^ 31 then ((Varint.wrap value).toNat : Int)
      else (Varint.wrap value).toNat - 2 ^ 32) = value := by
    have hcast := Varint.natCast_toNat_wrap value
    unfold Varint.wrap at hcast ⊢
    split <;> omega
  have hread : Reads W offset Reader.s32 run _ := (u30 hu30).ret _
  rwa [hvalue] at hread

theorem u16 {n : Nat} (h : n < 2 ^ 16) : Reads W offset u16 (Bytes.ofNat 2 n) n := by
  have hread : Reads W offset Reader.u16 _ _ := (bytes (Bytes.length_ofNat 2 n)).ret _
  rwa [Bytes.toNat_ofNat, Nat.mod_eq_of_lt (by omega)] at hread

theorem s24 {value : Int} (h : Varint.writeS24 value = .ok run) :
    Reads W offset s24 run value := by
  unfold Varint.writeS24 at h
  split at h
  · simp at h
  · simp only [Except.ok.injEq] at h
    subst h
    have hread : Reads W offset Reader.s24 _ _ :=
      (bytes (Bytes.length_ofNat 3 (value % 2 ^ 24).toNat)).ret _
    have hvalue : Bytes.toInt (Bytes.ofNat 3 (value % 2 ^ 24).toNat) = value :=
      Bytes.toInt_ofNat (by omega) (by omega)
    rwa [hvalue] at hread

theorem double (bits : UInt64) :
    Reads W offset double (Bytes.ofNat 8 bits.toNat) bits := by
  have hread : Reads W offset Reader.double _ _ :=
    (bytes (Bytes.length_ofNat 8 bits.toNat)).ret _
  rwa [Bytes.toUInt64_ofNat] at hread

/-- The number of things in a list. -/
theorem count {n : Nat} (h : Varint.writeU30 n = .ok run) : Reads W offset Reader.u30 run n := by
  have hread : Reads W offset Reader.u30 run _ := u30 h
  obtain ⟨hrange, -⟩ := Varint.writeU30_eq_ok.1 h
  rwa [Varint.wrap_of_lt (by omega) (by omega), Int.toNat_natCast] at hread

/-! ## Sequences and records -/

theorem replicate {write : β → Except Fault Bytes} (norm : β → α) {xs : List β}
    (hr : ∀ x ∈ xs, ∀ offset run, write x = .ok run → Reads W offset r run (norm x))
    (h : writeEach write xs = .ok run) :
    Reads W offset (replicate r xs.length) run (xs.map norm) := by
  induction xs generalizing offset run with
  | nil =>
    simp only [writeEach, Except.ok.injEq] at h
    subst h
    exact pure []
  | cons x xs ih =>
    simp only [writeEach, Outcome.bind_eq_ok, Outcome.pure_eq_ok] at h
    obtain ⟨head, hhead, tail, htail, rfl⟩ := h
    have hrest : Reads W (offset + head.length) (Reader.replicate r xs.length) tail _ :=
      ih (fun x hx => hr x (List.mem_cons_of_mem _ hx)) htail
    exact (hr x List.mem_cons_self offset head hhead).bind (hrest.ret _)

theorem counted {write : β → Except Fault Bytes} (norm : β → α) {xs : List β}
    (hr : ∀ x ∈ xs, ∀ offset run, write x = .ok run → Reads W offset r run (norm x))
    (h : writeCounted write xs = .ok run) :
    Reads W offset (counted r) run (xs.map norm) := by
  simp only [writeCounted, Outcome.bind_eq_ok, Outcome.pure_eq_ok] at h
  obtain ⟨number, hnumber, each, heach, rfl⟩ := h
  exact (count hnumber).bind (replicate norm hr heach)

/-- Labels do not change which positions are admitted. -/
theorem record {table : Table} {label : String} (hr : Reads W offset r run x) :
    Reads W offset (record table label r) run x := by
  intro s rest hrest hoffset hs
  obtain ⟨t, hx, htrest, htoffset, ht, hcanon⟩ :=
    hr { s with deferred := [] } rest hrest hoffset (by simp [Input.Admitted])
  have hrun : Reader.record table label r s = .ok (x, { t with
      deferred := s.deferred ++
        t.deferred.map fun p => (p.1, if p.1 = table then p.2.inside label else p.2) }) := by
    simp only [Reader.record, hx]
  refine ⟨_, hrun, htrest, htoffset, ?_, hcanon⟩
  intro p hp
  rcases List.mem_append.1 hp with hp | hp
  · exact hs p hp
  · obtain ⟨q, hq, rfl⟩ := List.mem_map.1 hp
    have hadmits := ht q hq
    dsimp only
    split
    · exact hadmits
    · exact hadmits

theorem records {write : β → Except Fault Bytes} (norm : β → α) {xs : List β} {table : Table}
    {label : String} {first : Nat}
    (hr : ∀ x ∈ xs, ∀ offset run, write x = .ok run → Reads W offset r run (norm x))
    (h : writeEach write xs = .ok run) :
    Reads W offset (records table label r first xs.length) run (xs.map norm) := by
  induction xs generalizing offset run first with
  | nil =>
    simp only [writeEach, Except.ok.injEq] at h
    subst h
    exact pure []
  | cons x xs ih =>
    simp only [writeEach, Outcome.bind_eq_ok, Outcome.pure_eq_ok] at h
    obtain ⟨head, hhead, tail, htail, rfl⟩ := h
    have hrest : Reads W (offset + head.length)
        (Reader.records table label r (first + 1) xs.length) tail _ :=
      ih (fun x hx => hr x (List.mem_cons_of_mem _ hx)) htail
    exact (record (hr x List.mem_cons_self offset head hhead)).bind (hrest.ret _)

end Reads

end Reader

/-! ## References -/

namespace Scope

variable {R W : Scope} {t : Table} {offset : Nat} {run : Bytes} {index : Int}

theorem check_eq_ok {o : Option Int} : W.check t index o = .ok () ↔ W.Admits t index := by
  unfold check Admits
  split
  · rename_i count hcount
    rw [hcount]
    by_cases hin : Table.InBounds t.reserved count index
    · rw [if_pos hin]
      refine ⟨?_, fun _ => rfl⟩
      rintro - _ ⟨⟩
      exact hin
    · rw [if_neg hin]
      exact ⟨fun h => by simp at h, fun h => absurd (h count rfl) hin⟩
  · rename_i hextent
    simp [hextent]
  · rename_i hextent
    simp [hextent]

theorem check_eq_error {o : Option Int} {v : Violation} : W.check t index o = .error v ↔
    ∃ count, W.extent t = .entries count ∧ ¬ Table.InBounds t.reserved count index ∧
      v = ⟨.danglingReference t index count, o, none⟩ := by
  unfold check
  split
  · rename_i count hcount
    by_cases hin : Table.InBounds t.reserved count index
    · simp [hcount, hin]
    · simp [hcount, hin, eq_comm]
  · rename_i hextent
    simp [hextent]
  · rename_i hextent
    simp [hextent]

theorem writeIndex_eq_ok {i : Index t} : W.writeIndex i = .ok run ↔
    W.Admits t i.val ∧ Varint.writeU30 i.val = .ok run := by
  unfold writeIndex
  rw [← check_eq_ok (o := none)]
  split
  · rename_i v hv
    simp [hv]
  · rename_i hok
    simp [hok]

/-- The extents that `R` knows, `W` knows as well. -/
def Within (R W : Scope) : Prop :=
  ∀ t count, R.extent t = .entries count → W.extent t = .entries count

/-- The references that `R` leaves for later mean the same to `A` as to `W`. -/
def LeavesTo (R W A : Scope) : Prop :=
  ∀ t, R.extent t = .unfinished → A.extent t = W.extent t

theorem LeavesTo.refl (R W : Scope) : R.LeavesTo W W := fun _ _ => rfl

/-- A table that is known on both sides leaves nothing for later. -/
theorem LeavesTo.set {count : Nat} (R W : Scope) :
    (R.set t (.entries count)).LeavesTo (W.set t (.entries count)) W := by
  intro u hu
  simp only [Scope.set] at hu ⊢
  split at hu
  · cases hu
  · rename_i hne
    rw [if_neg hne]

def KnowsAll (W : Scope) (tables : List Table) : Prop := ∀ t ∈ tables, W.Knows t

theorem Within.refl (W : Scope) : W.Within W := fun _ _ => id

theorem Within.unknown (W : Scope) : Scope.unknown.Within W := by
  intro t count h
  simp [Scope.unknown] at h

theorem Within.set {e : Extent} (h : R.Within W)
    (he : ∀ count, e = .entries count → W.extent t = .entries count) : (R.set t e).Within W := by
  intro u count hu
  simp only [Scope.set] at hu
  split at hu
  · rename_i heq
    exact heq ▸ he count hu
  · exact h u count hu

theorem Within.set_set {e : Extent} (h : R.Within W) : (R.set t e).Within (W.set t e) := by
  intro u count hu
  simp only [Scope.set] at hu ⊢
  split at hu
  · rename_i heq
    rw [if_pos heq, hu]
  · rename_i hne
    rw [if_neg hne, h u count hu]

theorem KnowsAll.set {tables : List Table} {count : Nat} (h : W.KnowsAll tables) :
    (W.set t (.entries count)).KnowsAll (t :: tables) := by
  intro u hu
  by_cases heq : u = t
  · exact ⟨count, by simp [Scope.set, heq]⟩
  · obtain ⟨n, hn⟩ := h u (List.mem_of_ne_of_mem heq hu)
    exact ⟨n, by simp [Scope.set, heq, hn]⟩

/-- A position that is written in bounds of a known table loses no bits. -/
theorem wrap_of_writeIndex {i : Index t} (hW : W.Knows t) (h : W.writeIndex i = .ok run) :
    Varint.wrap i.val = i.val := by
  obtain ⟨hadmits, hwritten⟩ := writeIndex_eq_ok.1 h
  obtain ⟨count, hcount⟩ := hW
  obtain ⟨hrange, -⟩ := Varint.writeU30_eq_ok.1 hwritten
  obtain ⟨hpos, -⟩ := hadmits count hcount
  exact Varint.wrap_of_lt hpos (by omega)

end Scope

namespace Reader.Reads

variable {R W : Scope} {t : Table} {offset : Nat} {run : Bytes}

theorem settle {entries : Nat} (h : W.extent t = .entries entries) :
    Reads W offset (settle t entries) [] () := by
  intro s rest hrest hoffset hs
  have hbounds : ∀ p ∈ s.deferred, p.1 = t → Table.InBounds t.reserved entries p.2.index := by
    rintro ⟨_, d⟩ hmem rfl
    exact hs _ hmem entries h
  refine ⟨_, settle_eq_ok.2 ⟨hbounds, rfl⟩, hrest, by simpa using hoffset, ?_, id⟩
  intro p hp
  exact hs p (List.mem_filter.1 hp).1

theorem accept {A : Scope} {index o : Nat} (hR : R.Within W) (hA : R.LeavesTo W A)
    (h : W.Admits t index) : Reads A offset (R.accept t index o) [] () := by
  unfold Scope.accept
  split
  · rename_i hlater
    intro s rest hrest hoffset hs
    refine ⟨_, rfl, hrest, by simpa using hoffset, ?_, id⟩
    intro p hp
    rcases List.mem_append.1 hp with hp | hp
    · exact hs p hp
    · obtain rfl := List.mem_singleton.1 hp
      exact fun count hcount => h count (hA t hlater ▸ hcount)
  · exact lift (Scope.check_eq_ok.2 fun count hcount => h count (hR t count hcount))
  · exact lift (Scope.check_eq_ok.2 fun count hcount => h count (hR t count hcount))

/-- A position that may lose bits, since nothing bounds it. -/
theorem wrapped {A : Scope} {i : Index t} (hR : R.Within W) (hA : R.LeavesTo W A)
    (h : W.writeIndex i = .ok run) :
    Reads A offset (R.readIndex t) run ⟨Varint.wrap i.val⟩ := by
  obtain ⟨hadmits, hwritten⟩ := Scope.writeIndex_eq_ok.1 h
  have hcast := Varint.natCast_toNat_wrap i.val
  have hstill : W.Admits t (Varint.wrap i.val).toNat := by
    intro count hcount
    rw [hcast, Scope.wrap_of_writeIndex ⟨count, hcount⟩ h]
    exact hadmits count hcount
  rw [← hcast]
  exact offset_bind ((u30 hwritten).bind_nil ((accept hR hA hstill).ret _))

theorem index {i : Index t} (hR : R.Within W) (hW : W.Knows t)
    (hi : W.writeIndex i = .ok run) : Reads W offset (R.readIndex t) run i := by
  have hread : Reads W offset (R.readIndex t) run _ := wrapped hR (.refl R W) hi
  rwa [Scope.wrap_of_writeIndex hW hi] at hread

end Reader.Reads

end ActionCode
