import Mathlib.Data.List.Nodup
import ActionCode.Body
import ActionCode.Constant.Constants
import ActionCode.Pool

/-!
# Interning

A register that is only added to remembers the first place of each of its entries. So a pool that is
filled by adding and interning gives a value the least position that it has, and positions that
were handed out stay what they are. Where the entries have no hash, values can be added all the
same, but neither interned nor looked for.
-/

namespace ActionCode

/-! ## Registers that are only added to -/

namespace Register

variable {α : Type} {r : Register α} {v : α} {i : Nat}

/-- A value stands at a place, and at no place before it. -/
def FirstAt (r : Register α) (v : α) (i : Nat) : Prop :=
  r.entries[i]? = some v ∧ ∀ j < i, r.entries[j]? ≠ some v

/-- Every entry is remembered by its first place, and nothing else is. -/
structure Faithful (r : Register α) : Prop where
  first : ∀ m ∈ r.memories, r.FirstAt m.value m.position
  remembered : ∀ v ∈ r.entries, ∃ m ∈ r.memories, m.value = v

theorem faithful_empty : Faithful ({} : Register α) where
  first := by simp
  remembered := by simp

theorem FirstAt.mem (h : r.FirstAt v i) : v ∈ r.entries := List.mem_of_getElem? h.1

theorem FirstAt.unique {j : Nat} (h : r.FirstAt v i) (h' : r.FirstAt v j) : i = j := by
  rcases Nat.lt_trichotomy i j with hlt | heq | hgt
  · exact absurd h.1 (h'.2 i hlt)
  · exact heq
  · exact absurd h'.1 (h.2 j hgt)

variable [DecidableEq α]

/-- What stands first at a place still does when more entries follow. -/
theorem FirstAt.add (h : r.FirstAt v i) (w : α) : (r.add w).FirstAt v i := by
  have hlt : i < r.entries.length := List.getElem?_eq_some_iff.1 h.1 |>.1
  refine ⟨?_, fun j hj => ?_⟩
  · rw [Register.add, List.getElem?_append_left hlt]
    exact h.1
  · rw [Register.add, List.getElem?_append_left (by omega)]
    exact h.2 j hj

namespace Faithful

theorem firstAt_of_find? (h : r.Faithful) (hfind : r.find? v = some i) : r.FirstAt v i := by
  obtain ⟨m, hm, rfl⟩ := Option.map_eq_some_iff.1 hfind
  have hvalue : m.value = v := by
    have hmatch := List.find?_some hm
    simp only [decide_eq_true_eq] at hmatch
    exact hmatch.1
  exact hvalue ▸ h.first m (List.mem_of_find?_eq_some hm)

theorem exists_find? (h : r.Faithful) (hv : v ∈ r.entries) : ∃ i, r.find? v = some i := by
  obtain ⟨m, hm, rfl⟩ := h.remembered v hv
  have hsome : (r.memories.find? fun m' =>
      m'.value = m.value ∧ (m'.held → r.entries[m'.position]? = some m.value)).isSome := by
    rw [List.find?_isSome]
    exact ⟨m, hm, decide_eq_true ⟨rfl, fun _ => (h.first m hm).1⟩⟩
  obtain ⟨m', hm'⟩ := Option.isSome_iff_exists.1 hsome
  exact ⟨m'.position, by rw [find?, hm']; rfl⟩

/-- A value is found at its first place. -/
theorem find?_eq_some (h : r.Faithful) : r.find? v = some i ↔ r.FirstAt v i := by
  refine ⟨h.firstAt_of_find?, fun hfirst => ?_⟩
  obtain ⟨j, hj⟩ := h.exists_find? hfirst.mem
  rw [hj, (h.firstAt_of_find? hj).unique hfirst]

theorem find?_eq_none (h : r.Faithful) : r.find? v = none ↔ v ∉ r.entries := by
  refine ⟨fun hnone hv => ?_, fun hv => ?_⟩
  · obtain ⟨i, hi⟩ := h.exists_find? hv
    cases hnone.symm.trans hi
  · cases hfind : r.find? v with
    | none => rfl
    | some i => exact absurd (h.firstAt_of_find? hfind).mem hv

theorem contains_iff (h : r.Faithful) : r.contains v = true ↔ v ∈ r.entries := by
  rw [contains, Option.isSome_iff_ne_none, ne_eq, h.find?_eq_none, Decidable.not_not]

/-- A known value keeps its place, a new one is remembered by the place that it gets. -/
theorem add (h : r.Faithful) (v : α) : (r.add v).Faithful := by
  have hmemories : (r.add v).memories =
      if v ∈ r.entries then r.memories else r.memories ++ [⟨v, r.entries.length, true⟩] := by
    simp only [Register.add, h.contains_iff]
  by_cases hv : v ∈ r.entries
  · rw [if_pos hv] at hmemories
    constructor
    · rw [hmemories]
      exact fun m hm => (h.first m hm).add v
    · intro w hw
      rw [hmemories]
      rcases List.mem_append.1 hw with hw | hw
      · exact h.remembered w hw
      · exact List.mem_singleton.1 hw ▸ h.remembered v hv
  · rw [if_neg hv] at hmemories
    constructor
    · intro m hm
      rw [hmemories] at hm
      rcases List.mem_append.1 hm with hm | hm
      · exact (h.first m hm).add v
      · obtain rfl := List.mem_singleton.1 hm
        refine ⟨List.getElem?_concat_length, fun j hj hbefore => hv ?_⟩
        rw [Register.add, List.getElem?_append_left hj] at hbefore
        exact List.mem_of_getElem? hbefore
    · intro w hw
      rw [hmemories]
      rcases List.mem_append.1 hw with hw | hw
      · obtain ⟨m, hm, hvalue⟩ := h.remembered w hw
        exact ⟨m, List.mem_append_left _ hm, hvalue⟩
      · exact ⟨_, List.mem_append_right _ List.mem_cons_self, (List.mem_singleton.1 hw).symm⟩

theorem intern_of_firstAt (h : r.Faithful) (hfirst : r.FirstAt v i) : r.intern v = (r, i) := by
  rw [intern, h.find?_eq_some.2 hfirst]

theorem intern_of_notMem (h : r.Faithful) (hv : v ∉ r.entries) :
    r.intern v = (r.add v, r.entries.length) := by
  rw [intern, h.find?_eq_none.2 hv]

end Faithful

end Register

/-! ## Pools that go on -/

namespace Pool

section

variable {α : Type} {p q last : Pool α} {e : α} {j : Nat}

/-- Every position from the first entry to the last one resolves to the entry there. -/
theorem valueAt_entry (h : p.entries[j]? = some e) : p.valueAt ↑(j + p.base) = .ok (some e) := by
  have hlt : j < p.entries.length := (List.getElem?_eq_some_iff.1 h).1
  have hbounds : p.InBounds ↑(j + p.base) := by
    simp only [InBounds, Table.InBounds, base]
    split <;> omega
  have hentry : ¬ (p.reserved = true ∧ (↑(j + p.base) : Int) = 0) := by
    rintro ⟨hreserved, hzero⟩
    simp only [base, hreserved, if_true] at hzero
    omega
  have hplace : ((↑(j + p.base) : Int) - p.base).toNat = j := by omega
  simp only [valueAt, checkIndex, if_pos hbounds, if_neg hentry, hplace, h]

/-- The same pool with more entries at its end. -/
structure Continues (p q : Pool α) : Prop where
  table : q.table = p.table
  reserved : q.reserved = p.reserved
  entries : p.entries <+: q.entries

namespace Continues

theorem refl (p : Pool α) : p.Continues p := ⟨rfl, rfl, List.prefix_rfl⟩

theorem trans (h : p.Continues q) (h' : q.Continues last) : p.Continues last :=
  ⟨h'.table.trans h.table, h'.reserved.trans h.reserved, h.entries.trans h'.entries⟩

theorem base_eq (h : p.Continues q) : q.base = p.base := by
  rw [base, base, h.reserved]

theorem getElem? (h : p.Continues q) (he : p.entries[j]? = some e) :
    q.entries[j]? = some e := by
  obtain ⟨more, hmore⟩ := h.entries
  have hlt : j < p.entries.length := (List.getElem?_eq_some_iff.1 he).1
  rw [← hmore, List.getElem?_append_left hlt, he]

theorem add [DecidableEq α] (p : Pool α) (e : α) :
    p.Continues { p with register := p.register.add e } :=
  ⟨rfl, rfl, List.prefix_append _ _⟩

end Continues

end

/-! ## Values that are present -/

variable {α κ : Type} [DecidableEq α] {p q : Pool (Option α)} {v : α} {i j : Nat}

theorem addOptional_some (p : Pool (Option α)) (v : α) :
    p.addOptional (some v) = (.ok p.length, p.put (some v)) := by
  rw [addOptional, Table.ensureKey_some]

theorem entries_put (p : Pool (Option α)) (e : Option α) :
    (p.put e).entries = p.entries ++ [e] := by
  obtain ⟨register, hentries, hput⟩ := p.put_eq e
  rw [hput]
  exact hentries

theorem length_put (p : Pool (Option α)) (e : Option α) : (p.put e).length = p.length + 1 := by
  have hbase : (p.put e).base = p.base := by
    obtain ⟨register, -, hput⟩ := p.put_eq e
    rw [hput]
    rfl
  rw [length, length, hbase, entries_put, List.length_append, List.length_singleton,
    Nat.add_right_comm]

section Hashed

variable (hashed : p.table.hashed = true)

include hashed

theorem put_of_hashed (value : Option α) :
    p.put value = { p with register := p.register.add value } := by
  rw [put, Table.hashes, hashed]
  rfl

theorem internOptional_of_hashed (v : α) :
    p.internOptional (some v) =
      .ok ({ p with register := (p.register.intern (some v)).1 },
        (p.register.intern (some v)).2 + p.base) := by
  rw [internOptional, Table.ensureHash_some, if_pos hashed, if_neg (by simp)]
  rfl

theorem containsOptional_of_hashed (v : α) :
    p.containsOptional (some v) = .ok (p.register.contains (some v)) := by
  rw [containsOptional, Table.ensureHash_some, if_pos hashed]
  rfl

theorem internOptional_of_firstAt (h : p.register.Faithful)
    (hfirst : p.register.FirstAt (some v) j) :
    p.internOptional (some v) = .ok (p, j + p.base) := by
  rw [internOptional_of_hashed hashed, h.intern_of_firstAt hfirst]

theorem internOptional_of_notMem (h : p.register.Faithful) (hv : some v ∉ p.entries) :
    p.internOptional (some v) = .ok (p.put (some v), p.length) := by
  rw [internOptional_of_hashed hashed, put_of_hashed hashed, h.intern_of_notMem hv]
  rfl

end Hashed

/-! ## Requests -/

/-- A value that is to be added or to be interned. -/
inductive Request (α : Type)
  | add (value : α)
  | intern (value : α)
  deriving DecidableEq

def Request.value : Request α → α
  | .add value | .intern value => value

def Request.isAdd : Request α → Bool
  | .add _ => true
  | .intern _ => false

/-- What becomes of a pool by a request, and the position that is handed out. -/
def serve (p : Pool (Option α)) : Request α → Except Refusal (Pool (Option α) × Nat)
  | .add value =>
    match p.addOptional (some value) with
    | (.ok position, q) => .ok (q, position)
    | (.error r, _) => .error r
  | .intern value => p.internOptional (some value)

/-- The same for requests one after the other. -/
def serveAll (p : Pool (Option α)) : List (Request α) →
    Except Refusal (Pool (Option α) × List Nat)
  | [] => .ok (p, [])
  | r :: rest => do
    let (q, position) ← p.serve r
    let (last, positions) ← q.serveAll rest
    return (last, position :: positions)

theorem serve_add (p : Pool (Option α)) (v : α) :
    p.serve (.add v) = .ok (p.put (some v), p.length) := by
  rw [serve, addOptional_some]

theorem serveAll_cons {r : Request α} {rest : List (Request α)} {last : Pool (Option α)}
    {positions : List Nat} (hserve : p.serve r = .ok (q, i))
    (hrest : q.serveAll rest = .ok (last, positions)) :
    p.serveAll (r :: rest) = .ok (last, i :: positions) := by
  rw [serveAll, hserve]
  simp only [bind, Except.bind, hrest]
  rfl

/-- What a request leaves behind: a register that is still faithful, and the value at the
position that is handed out. -/
structure Serves (p : Pool (Option α)) (r : Request α) (q : Pool (Option α)) (j : Nat) :
    Prop where
  serve : p.serve r = .ok (q, j + p.base)
  faithful : q.register.Faithful
  continues : p.Continues q
  entry : q.entries[j]? = some (some r.value)
  /-- Interning adds nothing twice. -/
  nodup : r = .intern r.value → p.entries.Nodup → q.entries.Nodup

theorem exists_serves (hashed : p.table.hashed = true) (h : p.register.Faithful)
    (r : Request α) : ∃ q j, p.Serves r q j := by
  have hput (v : α) : p.put (some v) = _ := put_of_hashed hashed (some v)
  have hfaithful (v : α) : (p.put (some v)).register.Faithful := hput v ▸ h.add _
  have hcontinues (v : α) : p.Continues (p.put (some v)) := hput v ▸ .add p _
  have hlast (v : α) : (p.put (some v)).entries[p.entries.length]? = some (some v) := by
    rw [hput]
    exact List.getElem?_concat_length
  cases r with
  | add v =>
    exact ⟨_, p.entries.length, serve_add p v, hfaithful v, hcontinues v, hlast v,
      fun hr => by cases hr⟩
  | intern v =>
    by_cases hv : some v ∈ p.entries
    · obtain ⟨j, hj⟩ := h.exists_find? hv
      have hfirst := h.firstAt_of_find? hj
      exact ⟨p, j, internOptional_of_firstAt hashed h hfirst, h, .refl p, hfirst.1, fun _ => id⟩
    · refine ⟨_, p.entries.length, internOptional_of_notMem hashed h hv, hfaithful v,
        hcontinues v, hlast v, ?_⟩
      intro _ hnodup
      rw [hput]
      refine List.nodup_append.2 ⟨hnodup, List.nodup_singleton _, ?_⟩
      rintro e he _ hlast rfl
      exact hv (List.mem_singleton.1 hlast ▸ he)

/-! ## Requests one after the other -/

/-- What any number of requests leave behind. -/
structure ServesAll (p : Pool (Option α)) (requests : List (Request α)) (q : Pool (Option α))
    (positions : List Nat) : Prop where
  serveAll : p.serveAll requests = .ok (q, positions)
  faithful : q.register.Faithful
  continues : p.Continues q
  length : positions.length = requests.length
  entry : ∀ (k : Nat) (r : Request α) i, requests[k]? = some r → positions[k]? = some i →
    ∃ j, i = j + p.base ∧ q.entries[j]? = some (some r.value)
  nodup : (∀ r ∈ requests, r = .intern r.value) → p.entries.Nodup → q.entries.Nodup

theorem exists_servesAll (hashed : p.table.hashed = true) (h : p.register.Faithful)
    (requests : List (Request α)) : ∃ q positions, p.ServesAll requests q positions := by
  induction requests generalizing p with
  | nil => exact ⟨p, [], rfl, h, .refl p, rfl, by simp, fun _ => id⟩
  | cons r rest ih =>
    obtain ⟨q, j, hstep⟩ := exists_serves hashed h r
    obtain ⟨last, positions, hrest⟩ := ih (hstep.continues.table ▸ hashed) hstep.faithful
    refine ⟨last, (j + p.base) :: positions, serveAll_cons hstep.serve hrest.serveAll,
      hrest.faithful, hstep.continues.trans hrest.continues, congrArg (· + 1) hrest.length, ?_, ?_⟩
    · intro k r' i hr hi
      cases k with
      | zero =>
        cases hr
        cases hi
        exact ⟨j, rfl, hrest.continues.getElem? hstep.entry⟩
      | succ k =>
        rw [← hstep.continues.base_eq]
        exact hrest.entry k r' i hr hi
    · intro hall hnodup
      exact hrest.nodup (fun r hr => hall r (List.mem_cons_of_mem _ hr))
        (hstep.nodup (hall r List.mem_cons_self) hnodup)

/-! ## Keys -/

/-- The entry number `j` is a value with the key `k`. -/
def KeyAt (p : Pool (Option α)) (key : α → κ) (j : Nat) (k : κ) : Prop :=
  ∃ w, p.entries[j]? = some (some w) ∧ key w = k

/-- How a pool answers to values, which it tells apart by their keys. -/
structure Answers (p : Pool (Option α)) (key : α → κ) : Prop where
  added : ∀ v, ∃ q, p.addOptional (some v) = (.ok p.length, q) ∧ q.entries = p.entries ++ [some v]
  found : ∀ v, (∃ j, p.KeyAt key j (key v)) →
    ∃ i, p.internOptional (some v) = .ok (p, i + p.base) ∧ p.KeyAt key i (key v) ∧
      ∀ j < i, ¬ p.KeyAt key j (key v)
  missing : ∀ v, (¬ ∃ j, p.KeyAt key j (key v)) →
    ∃ q, p.internOptional (some v) = .ok (q, p.length) ∧ q.entries = p.entries ++ [some v]
  contained : ∀ v, ∃ b, p.containsOptional (some v) = .ok b ∧
    (b = true ↔ ∃ j, p.KeyAt key j (key v))
  resolved : ∀ v, ∃ q i w, p.internOptional (some v) = .ok (q, i) ∧
    q.valueAt ↑i = .ok (some (some w)) ∧ key w = key v

variable {key : α → κ}

omit [DecidableEq α] in
/-- Where the key tells all values apart, a value has its key to itself. -/
theorem keyAt_iff (hkey : Function.Injective key) :
    p.KeyAt key j (key v) ↔ p.entries[j]? = some (some v) := by
  constructor
  · rintro ⟨w, hw, heq⟩
    rw [hw, hkey heq]
  · exact fun h => ⟨v, h, rfl⟩

omit [DecidableEq α] in
theorem exists_keyAt_iff (hkey : Function.Injective key) :
    (∃ j, p.KeyAt key j (key v)) ↔ some v ∈ p.entries := by
  simp only [keyAt_iff hkey, List.mem_iff_getElem?]

theorem answers_of_faithful (hkey : Function.Injective key) (hashed : p.table.hashed = true)
    (h : p.register.Faithful) : p.Answers key where
  added v := ⟨_, addOptional_some p v, entries_put p _⟩
  found v hv := by
    obtain ⟨i, hi⟩ := h.exists_find? ((exists_keyAt_iff hkey).1 hv)
    have hfirst := h.firstAt_of_find? hi
    refine ⟨i, internOptional_of_firstAt hashed h hfirst, (keyAt_iff hkey).2 hfirst.1,
      fun j hj => ?_⟩
    rw [keyAt_iff hkey]
    exact hfirst.2 j hj
  missing v hv := by
    rw [exists_keyAt_iff hkey] at hv
    exact ⟨_, internOptional_of_notMem hashed h hv, entries_put p _⟩
  contained v := by
    refine ⟨_, containsOptional_of_hashed hashed v, ?_⟩
    rw [exists_keyAt_iff hkey]
    exact h.contains_iff
  resolved v := by
    obtain ⟨q, j, hstep⟩ := exists_serves hashed h (.intern v)
    refine ⟨q, j + p.base, v, hstep.serve, ?_, rfl⟩
    rw [← hstep.continues.base_eq]
    exact valueAt_entry hstep.entry

/-- The bytes of a double tell it from every other one. -/
theorem writeDouble_injective : Function.Injective writeDouble := by
  intro a b h
  have ha : Bytes.toNat (Bytes.ofNat 8 a.toNat) = a.toNat := by
    rw [Bytes.toNat_ofNat]
    exact Nat.mod_eq_of_lt a.toNat_lt
  have hb : Bytes.toNat (Bytes.ofNat 8 b.toNat) = b.toNat := by
    rw [Bytes.toNat_ofNat]
    exact Nat.mod_eq_of_lt b.toNat_lt
  apply UInt64.toNat.inj
  rw [← ha, ← hb, Except.ok.inj h]

/-- What comes of requests to an empty pool `p`, with the positions that are handed out. -/
structure Interns (p : Pool (Option α)) (key : α → κ) (requests : List (Request α))
    (q : Pool (Option α)) (positions : List Nat) : Prop where
  served : p.serveAll requests = .ok (q, positions)
  answers : q.Answers key
  length : positions.length = requests.length
  resolved : ∀ (k : Nat) (r : Request α) (i : Nat), requests[k]? = some r →
    positions[k]? = some i → ∃ w, q.valueAt i = .ok (some (some w)) ∧ key w = key r.value
  /-- A position keeps what it resolves to. -/
  lasting : ∀ later last more, q.serveAll later = .ok (last, more) →
    ∀ i ∈ positions, last.valueAt ↑i = q.valueAt i
  /-- Interning alone adds no key twice. -/
  nodup : (∀ r ∈ requests, r = .intern r.value) → (q.entries.map (Option.map key)).Nodup
  /-- Where position 0 is set aside, it stands for what is absent and for nothing else. -/
  absent : p.reserved = true → q.internOptional none = .ok (q, 0) ∧
    ∀ i ∈ positions, 1 ≤ i ∧ i ≤ q.entries.length

theorem exists_interns (hkey : Function.Injective key) (hp : p.register = {})
    (hashed : p.table.hashed = true) (requests : List (Request α)) :
    ∃ q positions, p.Interns key requests q positions := by
  have hempty : p.register.Faithful := hp ▸ Register.faithful_empty
  obtain ⟨q, positions, hrun⟩ := exists_servesAll hashed hempty requests
  have hashed' : q.table.hashed = true := hrun.continues.table ▸ hashed
  have hbase := hrun.continues.base_eq
  have hentry : ∀ i ∈ positions, ∃ j e, i = j + p.base ∧ q.entries[j]? = some e := by
    intro i hi
    obtain ⟨k, hk⟩ := List.mem_iff_getElem?.1 hi
    have hlt : k < requests.length := hrun.length ▸ (List.getElem?_eq_some_iff.1 hk).1
    obtain ⟨j, hij, hj⟩ := hrun.entry k _ i (List.getElem?_eq_getElem hlt) hk
    exact ⟨j, _, hij, hj⟩
  refine ⟨q, positions, hrun.serveAll, answers_of_faithful hkey hashed' hrun.faithful,
    hrun.length, ?resolved, ?lasting, ?nodup, ?absent⟩
  case resolved =>
    intro k r i hr hi
    obtain ⟨j, rfl, hj⟩ := hrun.entry k r i hr hi
    exact ⟨r.value, hbase ▸ valueAt_entry hj, rfl⟩
  case lasting =>
    intro later last more hlater i hi
    obtain ⟨last', more', hrest⟩ := exists_servesAll hashed' hrun.faithful later
    cases hlater.symm.trans hrest.serveAll
    obtain ⟨j, e, rfl, hj⟩ := hentry i hi
    rw [← hbase, valueAt_entry hj, ← hrest.continues.base_eq,
      valueAt_entry (hrest.continues.getElem? hj)]
  case nodup =>
    intro hall
    have hnone : p.entries.Nodup := by
      rw [entries, hp]
      exact List.nodup_nil
    exact (hrun.nodup hall hnone).map (Option.map_injective hkey)
  case absent =>
    intro hreserved
    have hq : q.reserved = true := hrun.continues.reserved.trans hreserved
    refine ⟨by simp [internOptional, hq], fun i hi => ?_⟩
    obtain ⟨j, e, rfl, hj⟩ := hentry i hi
    have hlt : j < q.entries.length := (List.getElem?_eq_some_iff.1 hj).1
    simp only [base, hreserved, if_true]
    omega

/-! ## Values without a hash -/

/-- How a pool answers to values without a hash: it takes them, and looks for none. -/
structure Declines (p : Pool (Option α)) : Prop where
  added : ∀ v, ∃ q, p.addOptional (some v) = (.ok p.length, q) ∧
    q.entries = p.entries ++ [some v] ∧ q.register.memories = p.register.memories
  interned : ∀ v, p.internOptional (some v) = .error .unhashable
  contained : ∀ v, p.containsOptional (some v) = .error .unhashable

/-- The pool with values at its end that are not remembered. -/
def appended (p : Pool (Option α)) (values : List α) : Pool (Option α) :=
  { p with register := { p.register with entries := p.entries ++ values.map some } }

omit [DecidableEq α] in
theorem appended_appended (p : Pool (Option α)) (values more : List α) :
    (p.appended values).appended more = p.appended (values ++ more) := by
  simp [appended, entries]

section Unhashed

variable (unhashed : p.table.hashed = false)

include unhashed

theorem put_of_unhashed (v : α) : p.put (some v) = p.appended [v] := by
  rw [put, Table.hashes_some, unhashed]
  rfl

theorem internOptional_of_unhashed (v : α) : p.internOptional (some v) = .error .unhashable := by
  rw [internOptional, Table.ensureHash_some, unhashed, if_neg (by simp)]
  rfl

theorem declines_of_unhashed : p.Declines where
  added v := ⟨_, addOptional_some p v, entries_put p _, by rw [put_of_unhashed unhashed]; rfl⟩
  interned := internOptional_of_unhashed unhashed
  contained v := by
    rw [containsOptional, Table.ensureHash_some, unhashed]
    rfl

/-- Requests are served up to the first one that is not to add something. -/
theorem serveAll_of_unhashed (requests : List (Request α)) :
    p.serveAll requests =
      if requests.all Request.isAdd then
        .ok (p.appended (requests.map Request.value), List.range' p.length requests.length)
      else .error .unhashable := by
  induction requests generalizing p with
  | nil => simp [serveAll, appended, entries]
  | cons r rest ih =>
    cases r with
    | intern v =>
      rw [serveAll, serve, internOptional_of_unhashed unhashed]
      rfl
    | add v =>
      have hserve : p.serve (.add v) = .ok (p.appended [v], p.length) := by
        rw [serve_add, put_of_unhashed unhashed]
      have hlength : (p.appended [v]).length = p.length + 1 := by
        rw [← put_of_unhashed unhashed, length_put]
      have hrest := ih (p := p.appended [v]) unhashed
      rw [appended_appended, hlength] at hrest
      by_cases hadds : rest.all Request.isAdd
      · rw [if_pos hadds] at hrest
        rw [serveAll_cons hserve hrest, if_pos (by simpa [Request.isAdd] using hadds)]
        rfl
      · rw [if_neg hadds] at hrest
        rw [serveAll, hserve, if_neg (by simpa [Request.isAdd] using hadds)]
        simp only [bind, Except.bind, hrest]

end Unhashed

/-! ## Main result -/

/-- A pool that was filled by adding and interning goes on to give a value the least position of
its key, or the next one, and positions that were handed out keep what they resolve to. This is so
if the entries of its table have a hash. If they have none, values can be added, but the first
request to intern one is refused, and so is looking for one. -/
theorem serveAll_answers (hkey : Function.Injective key) (hp : p.register = {})
    (requests : List (Request α)) :
    (p.table.hashed = true → ∃ q positions, p.Interns key requests q positions) ∧
    (p.table.hashed = false →
      p.serveAll requests = (if requests.all Request.isAdd then
        .ok (p.appended (requests.map Request.value), List.range' p.length requests.length)
        else .error .unhashable) ∧
      ∀ q positions, p.serveAll requests = .ok (q, positions) → q.Declines) := by
  refine ⟨fun hashed => exists_interns hkey hp hashed requests, fun unhashed => ?_⟩
  have hrun := serveAll_of_unhashed unhashed requests
  refine ⟨hrun, fun q positions hserve => declines_of_unhashed ?_⟩
  rw [hrun] at hserve
  split at hserve
  · obtain ⟨⟩ := hserve
    exact unhashed
  · cases hserve

/-- Zero, the negative zero and a number that is none have places of their own, and are found there
after zero was added once more. The same body has two places, and is looked for at neither. -/
theorem serveAll_answers_doubles :
    let p : Pool (Option UInt64) := { table := .doubles, reserved := true }
    let requests : List (Request UInt64) := [.intern 0, .intern 0x8000000000000000,
      .intern 0x7FF8000000000000, .add 0, .intern 0x7FF8000000000000, .intern 0]
    let b : Pool (Option Body) := { table := .bodies, reserved := false }
    p.register = {} ∧ p.table.hashed = true ∧
      (∃ q, p.serveAll requests = .ok (q, [1, 2, 3, 4, 3, 1]) ∧ q.Answers writeDouble ∧
        q.internOptional none = .ok (q, 0)) ∧
      b.register = {} ∧ b.table.hashed = false ∧
      ∃ q, b.serveAll [.add {}, .add {}] = .ok (q, [0, 1]) ∧ q.Declines := by
  intro p requests b
  obtain ⟨q, positions, hinterns⟩ :=
    (serveAll_answers writeDouble_injective (p := p) rfl requests).1 rfl
  have hrun := hinterns.served
  have hpositions : (p.serveAll requests).toOption.map (·.2) = some [1, 2, 3, 4, 3, 1] := by
    decide
  rw [hrun] at hpositions
  obtain rfl : positions = [1, 2, 3, 4, 3, 1] := Option.some.inj hpositions
  obtain ⟨hbodies, hdeclines⟩ :=
    (serveAll_answers Function.injective_id (p := b) rfl [.add {}, .add {}]).2 rfl
  exact ⟨rfl, rfl, ⟨q, hrun, hinterns.answers, (hinterns.absent rfl).1⟩, rfl, rfl, _, hbodies,
    hdeclines _ _ hbodies⟩

/-- A method body is added to the table of bodies, but not interned or looked for there. So not
every request to an empty pool is served. -/
theorem not_forall_interns :
    let b : Pool (Option Body) := { table := .bodies, reserved := false }
    b.register = {} ∧ b.addOptional (some {}) = (.ok 0, b.put (some {})) ∧
      b.internOptional (some {}) = .error .unhashable ∧
      b.containsOptional (some {}) = .error .unhashable ∧
      ¬ ∀ p : Pool (Option Body), p.register = {} → ∀ requests : List (Request Body),
        ∃ q positions, p.Interns id requests q positions := by
  intro b
  refine ⟨rfl, rfl, rfl, rfl, fun hall => ?_⟩
  obtain ⟨q, positions, hinterns⟩ := hall b rfl [.intern {}]
  cases hinterns.served

end Pool

end ActionCode
