import Mathlib.Data.List.Find
import ActionCode.Proofs.Interning
import ActionCode.Proofs.Outcome

/-!
# Interning after removals

What a register remembers of a value is the place at which it was first put, and no removal takes
that back. So a value that was removed is still found where it stood, although there may be nothing
any more, or something else. Only while it stands there is it what its position resolves to.
-/

namespace ActionCode

/-! ## Registers that entries are removed from -/

namespace Register

variable {α : Type} {r s : Register α} {v w : α}

/-- Entries that were not removed stand where they are remembered. -/
def Sound (r : Register α) : Prop :=
  ∀ m ∈ r.memories, m.held = true → r.entries[m.position]? = some m.value

theorem sound_empty : Sound ({} : Register α) := by simp [Sound]

/-- More entries do not move the ones that are there. -/
theorem Sound.append (h : r.Sound) (v : α) : (r.append v).Sound := by
  intro m hm hheld
  have hentry := h m hm hheld
  have hlt : m.position < r.entries.length := (List.getElem?_eq_some_iff.1 hentry).1
  rw [Register.append, List.getElem?_append_left hlt]
  exact hentry

variable [DecidableEq α]

/-- It does not matter what the entries are by now: a value is found where it was remembered. -/
theorem Sound.find?_eq (h : r.Sound) (v : α) :
    r.find? v = (r.memories.find? fun m => m.value = v).map (·.position) := by
  unfold find?
  congr 1
  refine List.find?_congr fun m hm => ?_
  rw [decide_eq_decide, and_iff_left_iff_imp]
  rintro rfl hheld
  exact h m hm hheld

theorem Sound.find?_append (h : r.Sound) (v w : α) :
    (r.append v).find? w = r.find? w := by
  rw [(h.append v).find?_eq, h.find?_eq]
  rfl

theorem Sound.add (h : r.Sound) (v : α) : (r.add v).Sound := by
  have hkept := h.append v
  unfold Register.add
  split
  · exact hkept
  · intro m hm hheld
    rcases List.mem_append.1 hm with hm | hm
    · exact hkept m hm hheld
    · obtain rfl := List.mem_singleton.1 hm
      exact List.getElem?_concat_length

/-- A value that is added is remembered by its place, unless it is remembered already. -/
theorem Sound.find?_add (h : r.Sound) (v w : α) :
    (r.add v).find? w = (r.find? w).or (if v = w then some r.entries.length else none) := by
  rw [(h.add v).find?_eq]
  by_cases hfound : r.contains v = true
  · obtain ⟨i, hi⟩ := Option.isSome_iff_exists.1 hfound
    rw [Register.add, if_pos hfound, ← h.find?_eq]
    split
    · rename_i heq
      rw [← heq, hi]
      rfl
    · rw [Option.or_none]
  · rw [Register.add, if_neg hfound, List.find?_append, Option.map_or, ← h.find?_eq,
      List.find?_singleton]
    split
    · rename_i heq
      rw [if_pos (of_decide_eq_true heq)]
      rfl
    · rename_i hne
      rw [if_neg fun heq => hne (decide_eq_true heq)]
      rfl

/-- A memory of the last entry is kept without the entry, all others are kept as they are. -/
theorem Sound.memories_pop? (h : r.Sound) (hpop : r.pop? = some (v, s)) :
    s.entries = r.entries.dropLast ∧ s.memories = r.memories.map fun m =>
      if m.held ∧ m.position = r.entries.length - 1 then { m with held := false } else m := by
  unfold pop? at hpop
  split at hpop
  · cases hpop
  · rename_i last hlast
    obtain ⟨⟩ := hpop
    refine ⟨rfl, ?_⟩
    rw [← List.filterMap_eq_map]
    refine List.filterMap_congr fun m hm => ?_
    dsimp only [Function.comp_apply]
    split
    · rename_i hmatch
      have hvalue : m.value = v := by
        have hentry := h m hm hmatch.1
        rw [hmatch.2, ← List.getLast?_eq_getElem?, hlast] at hentry
        exact (Option.some.inj hentry).symm
      rw [if_pos hvalue]
    · rfl

theorem Sound.pop? (h : r.Sound) (hpop : r.pop? = some (v, s)) : s.Sound := by
  obtain ⟨hentries, hmemories⟩ := h.memories_pop? hpop
  intro m hm hheld
  rw [hmemories] at hm
  obtain ⟨m', hm', rfl⟩ := List.mem_map.1 hm
  split at hheld
  · cases hheld
  · rename_i hother
    rw [if_neg hother]
    have hentry := h m' hm' hheld
    have hlt : m'.position < r.entries.length := (List.getElem?_eq_some_iff.1 hentry).1
    have hne : m'.position ≠ r.entries.length - 1 := fun heq => hother ⟨hheld, heq⟩
    rw [hentries, List.getElem?_dropLast, if_pos (by omega)]
    exact hentry

/-- A removal does not change what is found. -/
theorem Sound.find?_pop? (h : r.Sound) (hpop : r.pop? = some (v, s)) (w : α) :
    s.find? w = r.find? w := by
  rw [(h.pop? hpop).find?_eq, h.find?_eq, (h.memories_pop? hpop).2, List.find?_map, Option.map_map]
  have hsame (m : Memory α) :
      (if m.held ∧ m.position = r.entries.length - 1 then { m with held := false } else m).value
        = m.value := by
    split
    · rfl
    · rfl
  simp only [Function.comp_def, hsame]
  congr 1
  funext m
  split
  · rfl
  · rfl

end Register

/-! ## Pools that are filled and emptied -/

namespace Pool

variable {α : Type} [DecidableEq α] {p q : Pool (Option α)} {v : α}

/-- What is done to a pool. -/
inductive Change (α : Type)
  | add (value : Option α)
  | intern (value : Option α)
  | pop
  deriving DecidableEq

/-- What becomes of a pool, whether the change is refused or not. -/
def change (p : Pool (Option α)) : Change α → Pool (Option α)
  | .add value => (p.addOptional value).2
  | .intern value =>
    match p.internOptional value with
    | .ok (q, _) => q
    | .error _ => p
  | .pop =>
    match p.pop with
    | .ok (_, q) => q
    | .error _ => p

def changeAll (p : Pool (Option α)) (changes : List (Change α)) : Pool (Option α) :=
  changes.foldl change p

/-- The place of an entry when it was put at the end for the first time. -/
def firstPlace (entry : Option α) : (p : Pool (Option α)) → List (Change α) → Option Nat
  | _, [] => none
  | p, c :: rest =>
    if (p.change c).entries = p.entries ++ [entry] then some p.entries.length
    else firstPlace entry (p.change c) rest

/-- Interning leaves a pool as it is, or interns in its register. -/
theorem of_internOptional {value : Option α} {i : Nat} (h : p.internOptional value = .ok (q, i)) :
    q = p ∨ q = { p with register := (p.register.intern value).1 } := by
  unfold internOptional at h
  split at h
  · obtain ⟨⟩ := h
    exact .inl rfl
  · obtain ⟨_, -, hq⟩ := Outcome.bind_eq_ok.1 h
    exact .inr (congrArg Prod.fst (Outcome.pure_eq_ok.1 hq)).symm

/-- A change has to do with the entries of a pool and with what is remembered of them. -/
theorem change_eq (p : Pool (Option α)) (c : Change α) :
    ∃ register, p.change c = { p with register } := by
  cases c with
  | add value =>
    rw [change, addOptional]
    split
    · obtain ⟨register, -, hput⟩ := p.put_eq value
      exact ⟨register, hput⟩
    · exact ⟨_, rfl⟩
  | intern value =>
    rw [change]
    split
    · rename_i q i hintern
      rcases of_internOptional hintern with rfl | rfl
      · exact ⟨_, rfl⟩
      · exact ⟨_, rfl⟩
    · exact ⟨_, rfl⟩
  | pop =>
    rw [change, Pool.pop]
    cases p.register.pop? with
    | none => exact ⟨_, rfl⟩
    | some last => exact ⟨_, rfl⟩

theorem changeAll_eq (p : Pool (Option α)) (changes : List (Change α)) :
    ∃ register, p.changeAll changes = { p with register } := by
  induction changes generalizing p with
  | nil => exact ⟨_, rfl⟩
  | cons c rest ih =>
    obtain ⟨register, hchange⟩ := p.change_eq c
    obtain ⟨last, hrest⟩ := ih (p.change c)
    refine ⟨last, hrest.trans ?_⟩
    rw [hchange]

/-- What one change leaves behind if the entries have a hash: a register that is still sound, and
that finds a value where it found it before, or at the end if it was put there now. -/
structure Steps (p q : Pool (Option α)) : Prop where
  sound : q.register.Sound
  found : ∀ v : α, q.register.find? (some v) = (p.register.find? (some v)).or
    (if q.entries = p.entries ++ [some v] then some p.entries.length else none)

namespace Steps

theorem same (h : p.register.Sound) : p.Steps p where
  sound := h
  found v := by simp

theorem add (h : p.register.Sound) (value : Option α) :
    p.Steps { p with register := p.register.add value } where
  sound := h.add value
  found v := by
    rw [h.find?_add]
    simp [Register.add, entries]

/-- What is refused may have been appended without being remembered. -/
theorem append (h : p.register.Sound) :
    p.Steps { p with register := p.register.append none } where
  sound := h.append none
  found v := by
    have hfound := h.find?_append none (some v)
    simpa [entries, Register.append] using hfound

theorem addOptional (hashed : p.table.hashed = true) (h : p.register.Sound) (value : Option α) :
    p.Steps (p.addOptional value).2 := by
  unfold Pool.addOptional Table.ensureKey
  by_cases hrefused : p.table = .doubles ∧ value.isNone
  · obtain rfl := Option.isNone_iff_eq_none.1 hrefused.2
    rw [if_pos hrefused]
    exact append h
  · rw [if_neg hrefused, put_of_hashed hashed]
    exact add h value

theorem internOptional {value : Option α} {i : Nat} (h : p.register.Sound)
    (hintern : p.internOptional value = .ok (q, i)) : p.Steps q := by
  rcases of_internOptional hintern with rfl | rfl
  · exact same h
  · unfold Register.intern
    cases p.register.find? value with
    | some position => exact same h
    | none => exact add h value

theorem pop {entry : Option α} (h : p.register.Sound) (hpop : p.pop = .ok (entry, q)) :
    p.Steps q := by
  unfold Pool.pop at hpop
  split at hpop
  · cases hpop
  · rename_i last register hlast
    obtain ⟨⟩ := hpop
    refine ⟨h.pop? hlast, fun v => ?_⟩
    have hshort : register.entries ≠ p.entries ++ [some v] := by
      intro heq
      have hlength := congrArg List.length heq
      rw [(h.memories_pop? hlast).1, List.length_dropLast, List.length_append,
        List.length_singleton, entries] at hlength
      omega
    rw [h.find?_pop? hlast, entries, if_neg hshort, Option.or_none]

end Steps

theorem steps_change (hashed : p.table.hashed = true) (h : p.register.Sound) (c : Change α) :
    p.Steps (p.change c) := by
  cases c with
  | add value => exact .addOptional hashed h value
  | intern value =>
    rw [change]
    split
    · rename_i hintern
      exact .internOptional h hintern
    · exact .same h
  | pop =>
    rw [change]
    split
    · rename_i hpop
      exact .pop h hpop
    · exact .same h

/-- What many changes leave behind, one after another. -/
theorem changeAll_found (hashed : p.table.hashed = true) (h : p.register.Sound)
    (changes : List (Change α)) (v : α) :
    (p.changeAll changes).register.find? (some v) =
      (p.register.find? (some v)).or (firstPlace (some v) p changes) := by
  induction changes generalizing p with
  | nil => exact (Option.or_none).symm
  | cons c rest ih =>
    have hstep := steps_change hashed h c
    obtain ⟨register, hchange⟩ := p.change_eq c
    have hrest := ih (p := p.change c) (by rw [hchange]; exact hashed) hstep.sound
    have hrun : p.changeAll (c :: rest) = (p.change c).changeAll rest := rfl
    rw [hrun, hrest, hstep.found, Option.or_assoc, firstPlace]
    split
    · rfl
    · rfl

omit [DecidableEq α] in
/-- A position behind the reserved one resolves to an entry if the entry is there. -/
theorem valueAt_eq_entry_iff {e : Option α} {j : Nat} :
    p.InBounds ↑(j + p.base) ∧ p.valueAt ↑(j + p.base) = .ok (some e) ↔
      p.entries[j]? = some e := by
  constructor
  · rintro ⟨hbounds, hvalue⟩
    have hlt : j < p.entries.length := by
      have hupper := hbounds.2
      unfold base at hupper
      split at hupper <;> omega
    rw [valueAt_entry (List.getElem?_eq_getElem hlt)] at hvalue
    rw [List.getElem?_eq_getElem hlt, Option.some.inj (Except.ok.inj hvalue)]
  · intro hentry
    have hlt : j < p.entries.length := (List.getElem?_eq_some_iff.1 hentry).1
    refine ⟨?_, valueAt_entry hentry⟩
    simp only [InBounds, Table.InBounds, base]
    split <;> omega

/-! ## Main result -/

/-- A value is interned at the place where it was first put, whatever was removed since, or else at
the end. So it is what its position resolves to exactly if it stands at that place. A value without
a hash is given no position. -/
theorem internOptional_resolves_iff (hp : p.register = {}) (changes : List (Change α)) (v : α) :
    let q := p.changeAll changes
    (p.table.hashed = true → ∃ r i, q.internOptional (some v) = .ok (r, i) ∧
      i = (firstPlace (some v) p changes).getD q.entries.length + p.base ∧
      ((r.InBounds i ∧ r.valueAt i = .ok (some (some v))) ↔
        ∀ j, firstPlace (some v) p changes = some j → q.entries[j]? = some (some v))) ∧
    (p.table.hashed = false → q.internOptional (some v) = .error .unhashable) := by
  intro q
  obtain ⟨register, hq⟩ : ∃ register, q = { p with register } := p.changeAll_eq changes
  have htable : q.table = p.table := by rw [hq]
  have hbase : q.base = p.base := by rw [hq]; rfl
  refine ⟨fun hashed => ?_, fun unhashed => internOptional_of_unhashed (htable ▸ unhashed) v⟩
  have hempty : p.register.Sound := hp ▸ Register.sound_empty
  have hfound := changeAll_found hashed hempty changes v
  have hnone : p.register.find? (some v) = none := by rw [hp]; rfl
  rw [hnone, Option.none_or] at hfound
  rw [internOptional_of_hashed (htable ▸ hashed), Register.intern, hfound, ← hbase]
  cases firstPlace (some v) p changes with
  | none =>
    have hlast : ({ q with register := q.register.add (some v) } : Pool (Option α)).entries[
        q.entries.length]? = some (some v) := List.getElem?_concat_length
    exact ⟨_, _, rfl, rfl, fun _ => by simp, fun _ => valueAt_eq_entry_iff.2 hlast⟩
  | some j =>
    refine ⟨q, j + q.base, rfl, rfl, valueAt_eq_entry_iff.trans ?_⟩
    simp

/-- A number that was removed and put back at the same place, before an absent one was. -/
theorem internOptional_resolves_iff_again :
    let p : Pool (Option Int) := { table := .ints, reserved := true }
    let changes : List (Change Int) :=
      [.add (some 7), .intern (some 8), .pop, .add (some 8), .add none, .pop]
    p.register = {} ∧ ∃ r, (p.changeAll changes).internOptional (some 8) = .ok (r, 2) ∧
      r.InBounds 2 ∧ r.valueAt 2 = .ok (some (some 8)) := by
  intro p changes
  obtain ⟨r, i, hintern, hi, hresolves⟩ :=
    (internOptional_resolves_iff (p := p) rfl changes 8).1 rfl
  have hfirst : firstPlace (some 8) p changes = some 1 := by decide
  rw [hfirst] at hi hresolves
  obtain rfl : i = 2 := hi
  refine ⟨rfl, r, hintern, hresolves.2 ?_⟩
  rintro _ ⟨⟩
  decide

/-- A number that was removed is found at a position without an entry. When other entries were added
since, there is another number at that position, even if the first one was added again. -/
theorem internOptional_after_pop :
    let p : Pool (Option Int) := { table := .ints, reserved := true }
    let emptied := p.changeAll [.intern (some 5), .pop]
    let refilled := p.changeAll [.add (some 5), .pop, .add (some 6), .add (some 5)]
    emptied.internOptional (some 5) = .ok (emptied, 1) ∧ ¬ emptied.InBounds 1 ∧
      refilled.internOptional (some 5) = .ok (refilled, 1) ∧
      refilled.valueAt 1 = .ok (some (some 6)) :=
  ⟨rfl, by decide, rfl, rfl⟩

end Pool

end ActionCode
