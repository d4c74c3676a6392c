import Mathlib.Data.List.DropRight
import ActionCode.Pool
import ActionCode.Proofs.Numbers
import ActionCode.Proofs.Outcome

/-!
# References that wait

A reference that is read while a pool is open waits for the pool to close. However the pool is filled
in between, and whichever records are named around the references, closing it comes to the same as
judging all of them by the pool as it is then: the first one out of bounds is blamed, with the names
that it was given since it was read. Afterwards nothing waits, whatever came of it.
-/

namespace ActionCode

/-! ## Places -/

/-- The names in a place that is known. -/
def Place.names : Place → List String
  | none | some "" => []
  | some text => [text]

/-- A place inside of records that are named one after another, the innermost one first. -/
def Place.under (labels : List String) (own : Place) : Place :=
  if labels = [] then own else some (", ".intercalate (labels.reverse ++ own.names))

theorem Place.within_eq (label : String) (own : Place) :
    Place.within label own = some (", ".intercalate (label :: own.names)) := by
  unfold within names
  split <;> simp

theorem Place.names_within {label : String} (h : label ≠ "") (own : Place) :
    (Place.within label own).names = [", ".intercalate (label :: own.names)] := by
  have hne : ", ".intercalate (label :: own.names) ≠ "" := by
    unfold names
    split <;> simp [h]
  rw [within_eq]
  unfold names
  split
  · rename_i hnone
    cases hnone
  · rename_i hempty
    exact absurd (Option.some.inj hempty) hne
  · rename_i htext
    rw [Option.some.inj htext]

theorem intercalate_append_intercalate (s : String) (xs : List String) {ys : List String}
    (h : ys ≠ []) : s.intercalate (xs ++ [s.intercalate ys]) = s.intercalate (xs ++ ys) := by
  induction xs with
  | nil => simp
  | cons x xs ih =>
    rw [List.cons_append, String.intercalate_cons_of_ne_nil (by simp), ih, List.cons_append,
      String.intercalate_cons_of_ne_nil (by simp [h])]

/-- The first name is put around the place itself, and all later ones around that. -/
theorem Place.under_cons {label : String} (h : label ≠ "") (labels : List String) (own : Place) :
    own.under (label :: labels) = (Place.within label own).under labels := by
  rw [under, if_neg (List.cons_ne_nil _ _), List.reverse_cons, List.append_assoc,
    List.singleton_append, under]
  split
  · rename_i hnil
    rw [hnil, within_eq]
    rfl
  · rw [names_within h, intercalate_append_intercalate _ _ (List.cons_ne_nil _ _)]

/-- A reference inside of records that are named one after another, the innermost one first. -/
def Deferred.under (labels : List String) (d : Deferred) : Deferred :=
  { d with place := d.place.under labels }

theorem Deferred.under_nil (d : Deferred) : d.under [] = d := rfl

theorem Deferred.under_cons {label : String} (h : label ≠ "") (labels : List String)
    (d : Deferred) : d.under (label :: labels) = (d.inside label).under labels := by
  rw [under, under, Place.under_cons h]
  rfl

namespace Pool

/-! ## Calls -/

/-- What a pool is asked to do while a table is read. -/
inductive Call (α : Type)
  | open
  | read (data : Bytes) (cursor : Nat) (place : Place)
  | add (value : Option α)
  | mark
  /-- Names the record around the references that have this number or a later one. -/
  | label (first : Nat) (text : String)
  | close
  deriving DecidableEq

variable {α : Type} [DecidableEq α] {p q : Pool (Option α)} {calls : List (Call α)}

/-- What becomes of a pool, whether the call succeeds or not. -/
def call (p : Pool (Option α)) : Call α → Pool (Option α)
  | .open => p.opened
  | .read data cursor place =>
    match p.readIndex data cursor place with
    | .ok (_, q) => q
    | .error _ => p
  | .add value => (p.addOptional value).2
  | .mark => p
  | .label first text => p.labelPending first text
  | .close => p.close.1

def callAll (p : Pool (Option α)) (calls : List (Call α)) : Pool (Option α) := calls.foldl call p

/-! ## What calls amount to -/

omit [DecidableEq α] in
/-- The number at byte `cursor` of the data. -/
def numberAt (data : Bytes) (cursor : Nat) : Except Violation Nat := do
  let input ← Input.startingAt data cursor
  return (← Reader.u30 input).1

def Call.isClose : Call α → Bool
  | .close => true
  | .open | .read _ _ _ | .add _ | .mark | .label _ _ => false

/-- The calls after the last one that closes the pool. -/
def sinceClose (calls : List (Call α)) : List (Call α) := calls.rtakeWhile fun c => !c.isClose

def Call.value? : Call α → Option (Option α)
  | .add value => some value
  | .open | .read _ _ _ | .mark | .label _ _ | .close => none

/-- The name that a call gives to the reference with a number. -/
def Call.label? (number : Nat) : Call α → Option String
  | .label first text => if first ≤ number then some text else none
  | .open | .read _ _ _ | .add _ | .mark | .close => none

/-- The reference that begins to wait: there is one if the pool is open and a number is read. -/
def waits? (isOpen : Bool) (data : Bytes) (cursor : Nat) (place : Place) : Option Deferred :=
  if isOpen then (numberAt data cursor).toOption.map fun index => ⟨index, cursor, place⟩ else none

/-- The references that are read while the pool is open, the first one with the number `number`, and
each with the names that later calls give to it. -/
def references : (isOpen : Bool) → (number : Nat) → List (Call α) → List Deferred
  | _, _, [] => []
  | _, number, .open :: rest => references true number rest
  | isOpen, number, .read data cursor place :: rest =>
    match waits? isOpen data cursor place with
    | some d => d.under (rest.filterMap (Call.label? number)) :: references isOpen (number + 1) rest
    | none => references isOpen number rest
  | isOpen, number, .add _ :: rest => references isOpen number rest
  | isOpen, number, .mark :: rest => references isOpen number rest
  | isOpen, number, .label _ _ :: rest => references isOpen number rest
  | isOpen, number, .close :: rest => references isOpen number rest

/-! ## Single calls -/

omit [DecidableEq α] in
/-- Reading a reference is reading a number, which waits in an open pool and is judged at once in a
complete one. -/
theorem readIndex_eq (p : Pool (Option α)) (data : Bytes) (cursor : Nat) (place : Place) :
    p.readIndex data cursor place = (do
      let index ← numberAt data cursor
      if p.complete then
        p.checkIndex index (some cursor) place
        return (index, p)
      else return (index, { p with pending := p.pending ++ [⟨index, cursor, place⟩] })) := by
  simp only [readIndex, numberAt, bind_assoc, pure_bind]

omit [DecidableEq α] in
/-- A number that is not there is not a number out of bounds. -/
theorem kind_of_numberAt {data : Bytes} {cursor : Nat} {v : Violation}
    (h : numberAt data cursor = .error v) : v.kind ≠ .danglingReference := by
  unfold numberAt Input.startingAt at h
  rcases Outcome.bind_eq_error.1 h with hstart | ⟨s, -, h⟩
  · split at hstart
    · cases hstart
    · obtain ⟨⟩ := hstart
      simp [Violation.kind, Cause.kind]
  · rcases Outcome.bind_eq_error.1 h with hnumber | ⟨_, _, ⟨⟩⟩
    rw [Reader.u30_run] at hnumber
    split at hnumber
    · obtain ⟨⟩ := hnumber
      simp [Violation.kind, Cause.kind]
    · split at hnumber
      · cases hnumber
      · obtain ⟨⟩ := hnumber
        simp [Violation.kind, Cause.kind]

/-- A value that is added is an entry afterwards, whether it is remembered or not. -/
theorem addOptional_eq (p : Pool (Option α)) (value : Option α) :
    ∃ r, r.entries = p.entries ++ [value] ∧ (p.addOptional value).2 = { p with register := r } := by
  unfold addOptional
  split
  · exact p.put_eq value
  · exact ⟨_, rfl, rfl⟩

/-- All that reading changes is what waits. -/
theorem call_read (p : Pool (Option α)) (data : Bytes) (cursor : Nat) (place : Place) :
    p.call (.read data cursor place) =
      { p with pending := p.pending ++ (waits? (!p.complete) data cursor place).toList } := by
  obtain ⟨table, reserved, absent, register, emptyCount, complete, pending⟩ := p
  rw [call, readIndex_eq, waits?]
  cases numberAt data cursor with
  | error v => cases complete <;> simp [bind, Except.bind, Except.toOption]
  | ok index =>
    cases complete with
    | false => simp [bind, Except.bind, pure, Except.pure, Except.toOption]
    | true =>
      by_cases hbounds : Table.InBounds reserved register.entries.length index
      · simp [checkIndex, InBounds, entries, hbounds, bind, Except.bind, pure, Except.pure]
      · simp [checkIndex, InBounds, entries, hbounds, bind, Except.bind]

omit [DecidableEq α] in
theorem close_fst (p : Pool (Option α)) :
    p.close.1 = { p with complete := true, pending := [] } := by
  unfold close
  split
  · rfl
  · rfl

omit [DecidableEq α] in
theorem close_eq_ok (p : Pool (Option α)) :
    p.close.2 = .ok () ↔ ∀ d ∈ p.pending, p.InBounds d.index := by
  unfold close
  split
  · rename_i hnone
    simpa using hnone
  · rename_i d hsome
    have hout : ¬ p.InBounds d.index := by simpa using List.find?_some hsome
    refine ⟨fun h => ?_, fun h => absurd (h d (List.mem_of_find?_eq_some hsome)) hout⟩
    rw [checkIndex, if_neg hout] at h
    cases h

omit [DecidableEq α] in
/-- Closing blames the first reference that is out of bounds. -/
theorem close_eq_error {before after : List Deferred} {d : Deferred}
    (hpending : p.pending = before ++ d :: after) (hbefore : ∀ e ∈ before, p.InBounds e.index)
    (hout : ¬ p.InBounds d.index) : p.close.2 =
      .error ⟨.danglingReference p.table d.index p.entries.length, some d.offset, d.place⟩ := by
  have hfirst : (p.pending.find? fun d => ¬ p.InBounds d.index) = some d := by
    rw [hpending, List.find?_append, List.find?_eq_none.2 (by simpa using hbefore),
      Option.none_or, List.find?_cons_of_pos (by simpa using hout)]
  rw [close, hfirst]
  exact if_neg hout

omit [DecidableEq α] in
/-- Names are given to the references by their numbers. -/
theorem pending_labelPending (p : Pool (Option α)) (first : Nat) (text : String) :
    (p.labelPending first text).pending =
      p.pending.mapIdx fun i d => if first ≤ i then d.inside text else d := by
  rw [labelPending, Position.gap_natCast]
  refine List.ext_getElem (by simp) fun i _ hi => ?_
  rw [List.length_mapIdx] at hi
  by_cases hfirst : first ≤ i
  · have hmin : min first p.pending.length ≤ i := (Nat.min_le_left _ _).trans hfirst
    simp [hfirst, hmin]
  · have hmin : i < min first p.pending.length := Nat.lt_min.2 ⟨by omega, hi⟩
    simp [hfirst, hmin]

/-- A call leaves everything but the entries and what waits as it is. -/
structure Leaves (p : Pool (Option α)) (c : Call α) (q : Pool (Option α)) : Prop where
  table : q.table = p.table
  reserved : q.reserved = p.reserved
  entries : q.entries = p.entries ++ c.value?.toList
  complete : q.complete = (c.isClose || p.complete && decide (c ≠ .open))

theorem leaves_call (p : Pool (Option α)) (c : Call α) : p.Leaves c (p.call c) := by
  cases c with
  | «open» => exact ⟨rfl, rfl, (List.append_nil _).symm, by simp [call, opened, Call.isClose]⟩
  | read data cursor place =>
    rw [call_read]
    exact ⟨rfl, rfl, (List.append_nil _).symm, by simp [Call.isClose]⟩
  | add value =>
    obtain ⟨r, hr, hcall⟩ := p.addOptional_eq value
    rw [call, hcall]
    exact ⟨rfl, rfl, hr, by simp [Call.isClose]⟩
  | mark => exact ⟨rfl, rfl, (List.append_nil _).symm, by simp [call, Call.isClose]⟩
  | label first text =>
    exact ⟨rfl, rfl, (List.append_nil _).symm, by simp [call, labelPending, Call.isClose]⟩
  | close =>
    rw [call, close_fst]
    exact ⟨rfl, rfl, (List.append_nil _).symm, rfl⟩

/-! ## Calls one after another -/

theorem callAll_append (p : Pool (Option α)) (calls more : List (Call α)) :
    p.callAll (calls ++ more) = (p.callAll calls).callAll more := List.foldl_append

theorem callAll_keeps (p : Pool (Option α)) (calls : List (Call α)) :
    (p.callAll calls).table = p.table ∧ (p.callAll calls).reserved = p.reserved ∧
      (p.callAll calls).entries = p.entries ++ calls.filterMap Call.value? := by
  induction calls generalizing p with
  | nil => exact ⟨rfl, rfl, (List.append_nil _).symm⟩
  | cons c calls ih =>
    have hstep := p.leaves_call c
    obtain ⟨htable, hreserved, hentries⟩ := ih (p.call c)
    refine ⟨htable.trans hstep.table, hreserved.trans hstep.reserved, hentries.trans ?_⟩
    rw [hstep.entries, List.append_assoc, List.filterMap_cons]
    cases c.value? with
    | none => rfl
    | some value => rfl

/-- Without a call that closes the pool, all references that waited still do, with more names, and
so do those that were read. -/
theorem pending_callAll (hclose : ∀ c ∈ calls, c.isClose = false)
    (hlabels : ∀ first text, .label first text ∈ calls → text ≠ "") :
    (p.callAll calls).pending =
      p.pending.mapIdx (fun i d => d.under (calls.filterMap (Call.label? i))) ++
        references (!p.complete) p.pending.length calls := by
  induction calls generalizing p with
  | nil =>
    rw [references, List.append_nil]
    exact List.ext_getElem (by simp [callAll]) fun i _ _ => by simp [callAll, Deferred.under_nil]
  | cons c calls ih =>
    rw [List.forall_mem_cons] at hclose
    have hrest := @ih (p.call c) hclose.2
      fun first text hmem => hlabels first text (List.mem_cons_of_mem _ hmem)
    have hrun : p.callAll (c :: calls) = (p.call c).callAll calls := rfl
    rw [hrun, hrest]
    cases c with
    | «open» => rfl
    | read data cursor place =>
      rw [call_read, references]
      cases waits? (!p.complete) data cursor place with
      | none => simp [List.filterMap_cons, Call.label?]
      | some d => simp [List.mapIdx_append, List.filterMap_cons, Call.label?]
    | add value =>
      obtain ⟨r, -, hcall⟩ := p.addOptional_eq value
      rw [call, hcall]
      rfl
    | mark => rfl
    | label first text =>
      have hne := hlabels first text List.mem_cons_self
      rw [call, pending_labelPending, List.mapIdx_mapIdx, List.length_mapIdx, references]
      congr 1
      refine List.mapIdx_eq_mapIdx_iff.2 fun i _ => ?_
      rw [List.filterMap_cons, Call.label?]
      by_cases hfirst : first ≤ i
      · simp [hfirst, Deferred.under_cons hne]
      · simp [hfirst]
    | close => cases hclose.1

/-- Without a call that closes the pool, it is open from the first call on that opens it. -/
theorem complete_callAll (hclose : ∀ c ∈ calls, c.isClose = false) :
    (p.callAll calls).complete = (p.complete && decide (.open ∉ calls)) := by
  induction calls generalizing p with
  | nil => simp [callAll]
  | cons c calls ih =>
    rw [List.forall_mem_cons] at hclose
    have hrun : p.callAll (c :: calls) = (p.call c).callAll calls := rfl
    rw [hrun, ih hclose.2, (p.leaves_call c).complete, hclose.1, Bool.false_or, Bool.and_assoc]
    simp [eq_comm]

omit [DecidableEq α] in
/-- No reference waits if the pool is never opened. -/
theorem references_of_complete {number : Nat} (hopen : .open ∉ calls) :
    references false number calls = [] := by
  induction calls with
  | nil => rfl
  | cons c calls ih =>
    rw [List.mem_cons, not_or] at hopen
    cases c with
    | «open» => exact absurd rfl hopen.1
    | read data cursor place | add value | mark | label first text | close => exact ih hopen.2

/-- What a pool has become since it was closed, it became from a complete pool where nothing waited. -/
theorem callAll_sinceClose (hcomplete : p.complete = true) (hpending : p.pending = []) :
    ∃ q : Pool (Option α), q.complete = true ∧ q.pending = [] ∧
      p.callAll calls = q.callAll (sinceClose calls) := by
  induction calls using List.reverseRecOn with
  | nil => exact ⟨p, hcomplete, hpending, rfl⟩
  | append_singleton calls c ih =>
    obtain ⟨q, hq, hnone, hrun⟩ := ih
    rw [callAll_append, sinceClose, List.rtakeWhile_concat]
    cases hc : c.isClose with
    | true =>
      refine ⟨(p.callAll calls).callAll [c], ?_, ?_, rfl⟩
      · exact ((p.callAll calls).leaves_call c).complete.trans (by rw [hc, Bool.true_or])
      · cases c with
        | close => exact congrArg pending (close_fst _)
        | «open» | read data cursor place | add value | mark | label first text => cases hc
    | false => exact ⟨q, hq, hnone, by simp [sinceClose, callAll_append, hrun]⟩

/-! ## Closing -/

/-- The pool judges the references `refs` by what it holds, as soon as it is closed. -/
structure Judges (p : Pool (Option α)) (refs : List Deferred) : Prop where
  quiet : p.complete = true → p.pending = []
  /-- A mark tells the references that were read before from those that are read later. -/
  mark : p.mark = refs.length
  closed : p.close.1 = { p with complete := true, pending := [] }
  accepted : p.close.2 = .ok () ↔ ∀ d ∈ refs, p.InBounds d.index
  /-- The first reference out of bounds is blamed, at its own byte and within its records. -/
  blamed : ∀ before d after, refs = before ++ d :: after → (∀ e ∈ before, p.InBounds e.index) →
    ¬ p.InBounds d.index → p.close.2 =
      .error ⟨.danglingReference p.table d.index p.entries.length, some d.offset, d.place⟩
  /-- Until then only a number that is not there is refused. -/
  waiting : p.complete = false → ∀ data cursor place v, p.readIndex data cursor place = .error v →
    numberAt data cursor = .error v ∧ v.kind ≠ .danglingReference
  /-- Nothing waits for a complete pool. -/
  atOnce : p.complete = true → ∀ data cursor place, p.readIndex data cursor place = (do
    let index ← numberAt data cursor
    p.checkIndex index (some cursor) place
    return (index, p))

omit [DecidableEq α] in
theorem judges_pending (hquiet : p.complete = true → p.pending = []) : p.Judges p.pending where
  quiet := hquiet
  mark := rfl
  closed := p.close_fst
  accepted := p.close_eq_ok
  blamed _ _ _ := close_eq_error
  waiting hopen data cursor place v h := by
    rw [readIndex_eq] at h
    rcases Outcome.bind_eq_error.1 h with hnumber | ⟨index, -, hindex⟩
    · exact ⟨hnumber, kind_of_numberAt hnumber⟩
    · rw [if_neg (by simp [hopen])] at hindex
      cases hindex
  atOnce hcomplete data cursor place := by
    rw [readIndex_eq]
    simp only [hcomplete, if_true]

/-- Deferred references are judged as if they had been read last. Whatever is done to a complete pool
in which nothing waits, those that wait in the end are the references that were read since it was
opened, named as they were meanwhile, and closing it judges these by all entries that it has then. -/
theorem judges_references (hcomplete : p.complete = true) (hpending : p.pending = [])
    (hlabels : ∀ first text, .label first text ∈ calls → text ≠ "") :
    (p.callAll calls).Judges (references false 0 (sinceClose calls)) ∧
      ((p.callAll calls).complete = false ↔ .open ∈ sinceClose calls) ∧
      (p.callAll calls).table = p.table ∧ (p.callAll calls).reserved = p.reserved ∧
      (p.callAll calls).entries = p.entries ++ calls.filterMap Call.value? := by
  obtain ⟨q, hq, hnone, hrun⟩ := callAll_sinceClose hcomplete hpending
  have hclose : ∀ c ∈ sinceClose calls, c.isClose = false := fun c hc => by
    simpa using List.mem_rtakeWhile_imp hc
  have hsince : ∀ first text, .label first text ∈ sinceClose calls → text ≠ "" :=
    fun first text h => hlabels first text (List.rtakeWhile_suffix _ _ |>.subset h)
  have hstate : (p.callAll calls).complete = decide (.open ∉ sinceClose calls) := by
    rw [hrun, complete_callAll hclose, hq, Bool.true_and]
  have hrefs : (p.callAll calls).pending = references false 0 (sinceClose calls) := by
    rw [hrun, pending_callAll hclose hsince, hnone, hq]
    rfl
  refine ⟨hrefs ▸ judges_pending fun hdone => ?_, by simp [hstate], p.callAll_keeps calls⟩
  rw [hrefs]
  exact references_of_complete (by simpa [hstate] using hdone)

/-- Of two references to numbers that are yet to come, the second one goes too far. -/
theorem judges_references_two :
    let p : Pool (Option Int) := { table := .ints, reserved := true }
    let calls : List (Call Int) :=
      [.open, .read [2, 3] 0 (some "first"), .mark, .read [2, 3] 1 (some "second"),
        .label 1 "pair 1", .add (some 65), .label 0 "pairs", .add (some 66)]
    (p.callAll calls).close.2 =
      .error ⟨.danglingReference .ints 3 2, some 1, some "pairs, pair 1, second"⟩ := by
  intro p calls
  have hlabels : ∀ first text, .label first text ∈ calls → text ≠ "" := by
    rintro first _ h rfl
    simp [calls] at h
  obtain ⟨hjudges, -⟩ := judges_references (p := p) rfl rfl hlabels
  exact hjudges.blamed [⟨2, 0, some "pairs, first"⟩] ⟨3, 1, some "pairs, pair 1, second"⟩ []
    (by decide) (by decide) (by decide)

end Pool

end ActionCode
