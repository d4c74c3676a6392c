import ActionCode.Proofs.Walk

/-!
# What known tables add

A table that is known adds a check of every reference into it, and nothing else. So of two scopes
of which one knows more tables, that one differs only in the references that it rejects: code is
read or written in the same way, or is blamed for the first of them.
-/

namespace ActionCode

/-! ## References -/

def Operand.references : (o : Operand) → o.Value → List (Table × Int)
  | .byte, _ | .number, _ => []
  | .entry t, index => [(t, index.val)]

def Operands.references : (os : List (String × Operand)) → Operands os → List (Table × Int)
  | [], _ => []
  | (_, o) :: rest, (value, values) => o.references value ++ Operands.references rest values

def Layout.references : (l : Layout) → l.Args → List (Table × Int)
  | .fixed os, args => Operands.references os args
  | .branch, _ | .switch, _ => []

def Layout.operands : Layout → List (String × Operand)
  | .fixed operands => operands
  | .branch | .switch => []

/-- The table that an operand refers to. -/
def Operand.table? : Operand → Option Table
  | .byte | .number => none
  | .entry t => some t

/-- The references of an instruction, in the order of its operands. -/
def Instruction.references (i : Instruction) : List (Table × Int) :=
  i.op.layout.references i.args

namespace Scope

/-- Every table is complete or not known at all. -/
def Settled (W : Scope) : Prop := ∀ t, W.extent t ≠ .unfinished

def AdmitsAll (W : Scope) (refs : List (Table × Int)) : Prop := ∀ ref ∈ refs, W.Admits ref.1 ref.2

/-- A reference into a table that `W` knows and `R` does not, and that is out of its bounds. -/
structure Rejects (R W : Scope) (ref : Table × Int) (count : Nat) : Prop where
  added : R.extent ref.1 = .unknown
  known : W.extent ref.1 = .entries count
  outside : ¬ Table.InBounds ref.1.reserved count ref.2

/-- `cause` blames the first reference that `W` rejects. -/
def Blames (R W : Scope) (refs : List (Table × Int)) (cause : Cause) : Prop :=
  ∃ before ref after count, refs = before ++ ref :: after ∧ W.AdmitsAll before ∧
    R.Rejects W ref count ∧ cause = .danglingReference ref.1 ref.2 count

variable {R W : Scope} {refs more : List (Table × Int)} {cause : Cause}

theorem admitsAll_append : W.AdmitsAll (refs ++ more) ↔ W.AdmitsAll refs ∧ W.AdmitsAll more :=
  List.forall_mem_append

theorem Blames.append (h : R.Blames W refs cause) (more : List (Table × Int)) :
    R.Blames W (refs ++ more) cause := by
  obtain ⟨before, ref, after, count, rfl, h⟩ := h
  exact ⟨before, ref, after ++ more, count, by rw [List.append_assoc]; rfl, h⟩

theorem Blames.behind (h : R.Blames W refs cause) (hfront : W.AdmitsAll more) :
    R.Blames W (more ++ refs) cause := by
  obtain ⟨before, ref, after, count, rfl, hbefore, h⟩ := h
  exact ⟨more ++ before, ref, after, count, by rw [List.append_assoc],
    admitsAll_append.2 ⟨hfront, hbefore⟩, h⟩

theorem Blames.kind_eq (h : R.Blames W refs cause) : cause.kind = .danglingReference := by
  obtain ⟨-, -, -, -, -, -, -, rfl⟩ := h
  rfl

end Scope

/-! ## Outcomes -/

/-- What becomes of an outcome `x` when `W` is in scope in place of `R`: its references are
checked in order. -/
inductive Judged (R W : Scope) {ε α : Type} (told : Violation → ε) (refs : α → List (Table × Int)) :
    (x y : Except ε α) → Prop
  | kept {a : α} (h : W.AdmitsAll (refs a)) : Judged R W told refs (.ok a) (.ok a)
  | blamed {a : α} {cause : Cause} {o : Option Int} (h : R.Blames W (refs a) cause) :
      Judged R W told refs (.ok a) (.error (told ⟨cause, o, none⟩))
  | failed {e : ε} : Judged R W told refs (.error e) (.error e)
  /-- Another failure would have come later. -/
  | preempted {e : ε} {cause : Cause} {o : Option Int} (h : cause.kind = .danglingReference) :
      Judged R W told refs (.error e) (.error (told ⟨cause, o, none⟩))

namespace Judged

variable {R W : Scope} {ε α β : Type} {told : Violation → ε} {x y : Except ε α}
  {f g : α → Except ε β} {refs : α → List (Table × Int)} {total : β → List (Table × Int)}

/-- Without references, more tables change nothing. -/
theorem same (h : ∀ a, refs a = []) : Judged R W told refs x x := by
  cases x with
  | error e => exact .failed
  | ok a => exact .kept (by rw [h a]; exact fun _ href => absurd href List.not_mem_nil)

theorem bind (more : β → List (Table × Int)) (hx : Judged R W told refs x y)
    (hf : ∀ a, Judged R W told more (f a) (g a))
    (htotal : ∀ a b, f a = .ok b → total b = refs a ++ more b) :
    Judged R W told total (x >>= f) (y >>= g) := by
  cases hx with
  | @kept a ha =>
    change Judged R W told total (f a) (g a)
    have hrest := hf a
    generalize hfa : f a = u at hrest ⊢
    generalize g a = v at hrest ⊢
    cases hrest with
    | @kept b hb => exact .kept (htotal a b hfa ▸ Scope.admitsAll_append.2 ⟨ha, hb⟩)
    | @blamed b cause o hb => exact .blamed (htotal a b hfa ▸ hb.behind ha)
    | failed => exact .failed
    | preempted h => exact .preempted h
  | @blamed a cause o ha =>
    change Judged R W told total (f a) (.error (told ⟨cause, o, none⟩))
    cases hfa : f a with
    | ok b => exact .blamed (htotal a b hfa ▸ ha.append _)
    | error e => exact .preempted ha.kind_eq
  | failed => exact .failed
  | preempted h => exact .preempted h

/-- A link in front that has no references. -/
theorem bind_nil (hx : Judged R W told (fun _ : α => []) x y)
    (hf : ∀ a, Judged R W told total (f a) (g a)) : Judged R W told total (x >>= f) (y >>= g) :=
  hx.bind total hf fun _ _ _ => rfl

/-- The last link of a chain, which makes something of what was found. -/
theorem ret (hx : Judged R W told refs x y) (f : α → β) (htotal : ∀ a, total (f a) = refs a) :
    Judged R W told total (x >>= fun a => pure (f a)) (y >>= fun a => pure (f a)) := by
  refine hx.bind (fun _ => []) (fun a => same fun _ => rfl) fun a b hb => ?_
  rw [← Outcome.pure_eq_ok.1 hb, htotal, List.append_nil]

theorem mapError {ε' : Type} (h : Judged R W told refs x y) (tell : ε → ε') :
    Judged R W (fun v => tell (told v)) refs (x.mapError tell) (y.mapError tell) := by
  cases h with
  | kept ha => exact .kept ha
  | blamed ha => exact .blamed ha
  | failed => exact .failed
  | preempted h => exact .preempted h

theorem of_ok {a : α} (h : Judged R W told refs x (.ok a)) : x = .ok a ∧ W.AdmitsAll (refs a) := by
  cases h with
  | kept ha => exact ⟨rfl, ha⟩

end Judged

/-! ## Readers -/

/-- What a reader comes to when `W` is in scope in place of `R`. -/
def Reader.Judged (R W : Scope) {α : Type} (refs : α → List (Table × Int)) (r r' : Reader α) :
    Prop :=
  ∀ s, ActionCode.Judged R W id (fun p => refs p.1) (r s) (r' s)

namespace Reader.Judged

variable {R W : Scope} {α β : Type} {r r' : Reader α} {f g : α → Reader β}
  {refs : α → List (Table × Int)} {total : β → List (Table × Int)}

theorem same (h : ∀ a, refs a = []) : Reader.Judged R W refs r r :=
  fun _ => .same fun p => h p.1

theorem bind_nil (hr : Reader.Judged R W (fun _ => []) r r')
    (hf : ∀ a, Reader.Judged R W total (f a) (g a)) :
    Reader.Judged R W total (r >>= f) (r' >>= g) :=
  fun s => (hr s).bind_nil fun p => hf p.1 p.2

theorem ret (hr : Reader.Judged R W refs r r') (f : α → β) (htotal : ∀ a, total (f a) = refs a) :
    Reader.Judged R W total (r >>= fun a => pure (f a)) (r' >>= fun a => pure (f a)) :=
  fun s => (hr s).ret (fun p => (f p.1, p.2)) fun p => htotal p.1

/-- Two fields, one behind the other. -/
theorem pair {q q' : Reader β} (hr : Reader.Judged R W refs r r')
    (hq : Reader.Judged R W total q q') :
    Reader.Judged R W (fun p => refs p.1 ++ total p.2)
      (r >>= fun a => q >>= fun b => pure (a, b)) (r' >>= fun a => q' >>= fun b => pure (a, b)) := by
  refine fun s => (hr s).bind (fun p => total p.1.2) (fun p => ?_) fun p b hb => ?_
  · exact (hq p.2).ret (fun o => ((p.1, o.1), o.2)) fun o => rfl
  · obtain ⟨⟨_, _⟩, _⟩ := b
    obtain ⟨_, _, -, ⟨⟩⟩ := bind_eq_ok.1 hb
    rfl

end Reader.Judged

/-! ## Instructions -/

/-- Where no table is being read, nothing is left for later. -/
theorem Scope.Settled.accept_eq {W : Scope} (hW : W.Settled) (t : Table) (index o : Nat) :
    W.accept t index o = liftM (W.check t index (some ↑o)) := by
  unfold accept
  cases hextent : W.extent t with
  | unfinished => exact absurd hextent (hW t)
  | unknown => rfl
  | entries count => rfl

section

variable {R W : Scope} (hRW : R.Within W) (hR : R.Settled) (hW : W.Settled)

include hRW hR

theorem Scope.judged_check (t : Table) (index : Int) (o : Option Int) :
    Judged R W id (fun _ => [(t, index)]) (R.check t index o) (W.check t index o) := by
  cases hextent : R.extent t with
  | unfinished => exact absurd hextent (hR t)
  | entries count =>
    have hsame : R.check t index o = W.check t index o := by
      unfold check
      rw [hextent, hRW t count hextent]
    rw [hsame]
    cases hcheck : W.check t index o with
    | error v => exact .failed
    | ok _ => exact .kept (List.forall_mem_singleton.2 (check_eq_ok.1 hcheck))
  | unknown =>
    have hok : R.check t index o = .ok () := by
      unfold check
      rw [hextent]
    rw [hok]
    cases hcheck : W.check t index o with
    | ok _ => exact .kept (List.forall_mem_singleton.2 (check_eq_ok.1 hcheck))
    | error v =>
      obtain ⟨count, hcount, hout, rfl⟩ := check_eq_error.1 hcheck
      exact .blamed ⟨[], (t, index), [], count, rfl, fun _ href => absurd href List.not_mem_nil,
        ⟨hextent, hcount, hout⟩, rfl⟩

include hW

theorem Scope.judged_readIndex (t : Table) :
    Reader.Judged R W (fun i => [(t, i.val)]) (R.readIndex t) (W.readIndex t) := by
  refine .bind_nil (.same fun _ => rfl) fun o => .bind_nil (.same fun _ => rfl) fun n => ?_
  rw [hR.accept_eq, hW.accept_eq]
  have hcheck : Reader.Judged R W (fun _ => [(t, (n : Int))])
      (liftM (R.check t n (some ↑o))) (liftM (W.check t n (some ↑o))) := fun s =>
    (judged_check hRW hR t n (some ↑o)).ret (fun x => (x, s)) fun _ => rfl
  exact hcheck.ret (fun _ => (⟨n⟩ : Index t)) fun _ => rfl

theorem Operands.judged_read (os : List (String × Operand)) :
    Reader.Judged R W (Operands.references os) (Operands.read R os) (Operands.read W os) := by
  induction os with
  | nil => exact .same fun _ => rfl
  | cons p os ih =>
    obtain ⟨name, o⟩ := p
    have hhead : Reader.Judged R W o.references (o.read R) (o.read W) := by
      cases o with
      | byte => exact .same fun _ => rfl
      | number => exact .same fun _ => rfl
      | entry t => exact Scope.judged_readIndex hRW hR hW t
    exact hhead.pair ih

theorem Layout.judged_read (address : Nat) (l : Layout) :
    Reader.Judged R W l.references (l.read R address) (l.read W address) := by
  cases l with
  | fixed os => exact Operands.judged_read hRW hR hW os
  | branch => exact .same fun _ => rfl
  | switch => exact .same fun _ => rfl

theorem Instruction.judged_read :
    Reader.Judged R W Instruction.references (Instruction.read R) (Instruction.read W) := by
  refine .bind_nil (.same fun _ => rfl) fun address => .bind_nil (.same fun _ => rfl) fun code => ?_
  cases Opcode.ofCode? code with
  | none => exact fun s => .failed
  | some op => exact (Layout.judged_read hRW hR hW address op.layout).ret _ fun _ => rfl

omit hW

theorem Scope.judged_writeIndex {t : Table} (i : Index t) :
    Judged R W .violation (fun _ => [(t, i.val)]) (R.writeIndex i) (W.writeIndex i) := by
  have hwrite (S : Scope) : S.writeIndex i =
      (S.check t i.val none).mapError Fault.violation >>= fun _ => Varint.writeU30 i.val := by
    unfold writeIndex
    cases S.check t i.val none <;> rfl
  rw [hwrite, hwrite]
  exact ((judged_check hRW hR t i.val none).mapError Fault.violation).bind
    (fun _ => []) (fun _ => .same fun _ => rfl) fun _ _ _ => rfl

theorem Operands.judged_write (os : List (String × Operand)) (args : Operands os) :
    Judged R W .violation (fun _ => Operands.references os args) (Operands.write R os args)
      (Operands.write W os args) := by
  induction os with
  | nil => exact .same fun _ => rfl
  | cons p os ih =>
    obtain ⟨name, o⟩ := p
    obtain ⟨value, values⟩ := args
    have hhead : Judged R W .violation (fun _ => o.references value) (o.write R value)
        (o.write W value) := by
      cases o with
      | byte => exact .same fun _ => rfl
      | number => exact .same fun _ => rfl
      | entry t => exact Scope.judged_writeIndex hRW hR value
    exact hhead.bind (fun _ => Operands.references os values)
      (fun head => (ih values).ret (head ++ ·) fun _ => rfl) fun _ _ _ => rfl

theorem Layout.judged_write (address : Nat) (l : Layout) (args : l.Args) :
    Judged R W .violation (fun _ => l.references args) (l.write R address args)
      (l.write W address args) := by
  cases l with
  | fixed os => exact Operands.judged_write hRW hR os args
  | branch => exact .same fun _ => rfl
  | switch => exact .same fun _ => rfl

theorem Instruction.judged_write (address : Nat) (i : Instruction) :
    Judged R W .violation (fun _ => i.references) (i.write R address) (i.write W address) :=
  (Layout.judged_write hRW hR address i.op.layout i.args).ret _ fun _ => rfl

end

/-! ## Code -/

namespace Code

/-- `cause` blames the instruction at address `a`, the first one with a reference that `W`
rejects, for the first such reference. -/
def Blames (R W : Scope) (placed : List (Nat × Instruction)) (a : Nat) (cause : Cause) : Prop :=
  ∃ front i back, placed = front ++ (a, i) :: back ∧
    (∀ spot ∈ front, W.AdmitsAll spot.2.references) ∧ R.Blames W i.references cause

variable {R W : Scope} {data : Bytes} {code : Code} {s t u : Input} {a : Nat} {i : Instruction}
  {cause : Cause} {o : Option Int} {placed front : List (Nat × Instruction)}

theorem Blames.head (h : R.Blames W i.references cause) : Blames R W ((a, i) :: placed) a cause :=
  ⟨[], i, placed, rfl, fun _ hspot => absurd hspot List.not_mem_nil, h⟩

theorem Blames.cons {b : Nat} (h : Blames R W placed a cause) (hi : W.AdmitsAll i.references) :
    Blames R W ((b, i) :: placed) a cause := by
  obtain ⟨front, j, back, rfl, hfront, h⟩ := h
  exact ⟨(b, i) :: front, j, back, rfl, List.forall_mem_cons.2 ⟨hi, hfront⟩, h⟩

theorem Blames.kind_eq (h : Blames R W placed a cause) : cause.kind = .danglingReference := by
  obtain ⟨_, _, _, _, _, hcause⟩ := h
  exact hcause.kind_eq

/-- An instruction is blamed where it starts. -/
theorem decode_of_read_dangling {origin : Int} (hwalk : Walk W (.ofBytes data) placed t)
    (hne : t.rest ≠ []) (hkind : cause.kind = .danglingReference)
    (h : Instruction.read W t = .error ⟨cause, o, none⟩) :
    decode W origin data = .error ⟨cause, o.map (· + origin), some (label t.offset)⟩ := by
  refine decode_eq_error.2 (.inl ⟨placed, t, _, hwalk, hne, h, ?_⟩)
  exact misread_of_not_truncated (by simp [hkind])

section

variable (hRW : R.Within W) (hR : R.Settled) (hW : W.Settled)

include hRW hR hW

/-- The instructions of a walk are the same if less is known. -/
theorem Walk.forget (h : Walk W s placed t) : Walk R s placed t := by
  induction h with
  | nil => exact .nil
  | @cons s t u i placed hi _ ih =>
    have hjudged := Instruction.judged_read hRW hR hW s
    rw [hi] at hjudged
    exact .cons hjudged.of_ok.1 ih

/-- If more is known, a walk is the same up to the first reference that is rejected. -/
theorem Walk.judged (h : Walk R s placed t) :
    (Walk W s placed t ∧ ∀ spot ∈ placed, W.AdmitsAll spot.2.references) ∨
      ∃ front u cause o, Walk W s front u ∧ u.rest ≠ [] ∧
        Instruction.read W u = .error ⟨cause, o, none⟩ ∧ Blames R W placed u.offset cause := by
  induction h with
  | nil => exact .inl ⟨.nil, fun _ hspot => absurd hspot List.not_mem_nil⟩
  | @cons s t u i placed hi _ ih =>
    have hne : s.rest ≠ [] :=
      List.ne_nil_of_length_pos (Nat.zero_lt_of_lt (length_rest_of_read hi))
    have hjudged := Instruction.judged_read hRW hR hW s
    rw [hi] at hjudged
    generalize hread : Instruction.read W s = y at hjudged
    cases hjudged with
    | kept hadmitted =>
      rcases ih with ⟨hwalk, hall⟩ | ⟨front, v, cause, o, hwalk, hv, hread', hblames⟩
      · exact .inl ⟨.cons hread hwalk, List.forall_mem_cons.2 ⟨hadmitted, hall⟩⟩
      · exact .inr ⟨_, v, cause, o, .cons hread hwalk, hv, hread', hblames.cons hadmitted⟩
    | blamed hblames => exact .inr ⟨[], s, _, _, .nil, hne, hread, .head hblames⟩

end

/-- Where code stands does not depend on what is known. -/
theorem place_of_walk {origin : Int} (hR : R.Settled) (h : Walk R (.ofBytes data) placed t)
    (hend : t.rest = []) : place origin data = .ok ⟨placed, data.length⟩ := by
  have hunknown : Walk .unknown (.ofBytes data) placed t :=
    h.forget (.unknown R) (fun _ => nofun) hR
  have hstart : (Input.ofBytes data).rest.length ≤ data.length := Nat.le_refl _
  exact Outcome.map_eq_ok.2 ⟨_, (scan_eq_ok hstart).2 ⟨hunknown, hend⟩, rfl⟩

/-! ## More tables -/

section

variable (hRW : R.Within W) (hR : R.Settled) (hW : W.Settled)

include hRW hR hW

/-- If a walk is not the same, the code is not read for that. -/
theorem Walk.decode_judged (origin : Int) (h : Walk R (.ofBytes data) placed t) :
    (Walk W (.ofBytes data) placed t ∧ ∀ spot ∈ placed, W.AdmitsAll spot.2.references) ∨
      ∃ a cause o, decode W origin data = .error ⟨cause, o, some (label a)⟩ ∧
        cause.kind = .danglingReference ∧ Blames R W placed a cause := by
  rcases h.judged hRW hR hW with hsame | ⟨front, u, cause, o, hfront, hu, hread, hblames⟩
  · exact .inl hsame
  · have hkind := hblames.kind_eq
    exact .inr ⟨u.offset, cause, _, decode_of_read_dangling hfront hu hkind hread, hkind, hblames⟩

theorem decode_judged (origin : Int) (data : Bytes) :
    (decode W origin data = decode R origin data ∧
      ∀ code, decode R origin data = .ok code → ∀ i ∈ code, W.AdmitsAll i.references) ∨
    ∃ a cause o, decode W origin data = .error ⟨cause, o, some (label a)⟩ ∧
      cause.kind = .danglingReference ∧ ∀ code, decode R origin data = .ok code →
        ∃ p, place origin data = .ok p ∧ p.code = code ∧ Blames R W p.placed a cause := by
  cases hdecode : decode R origin data with
  | ok code =>
    obtain ⟨placed, t, hwalk, hend, rfl, htargets⟩ := decode_eq_ok.1 hdecode
    rcases hwalk.decode_judged hRW hR hW origin with
      ⟨hsame, hall⟩ | ⟨a, cause, o, herror, hkind, hblames⟩
    · refine .inl ⟨decode_eq_ok.2 ⟨placed, t, hsame, hend, rfl, htargets⟩, ?_⟩
      rintro _ ⟨⟩
      exact List.forall_mem_map.2 hall
    · refine .inr ⟨a, cause, o, herror, hkind, ?_⟩
      rintro _ ⟨⟩
      exact ⟨_, place_of_walk hR hwalk hend, rfl, hblames⟩
  | error v =>
    -- Both scopes fail, but `W` may have found something to reject before.
    rcases decode_eq_error.1 hdecode with
      ⟨placed, t, w, hwalk, hne, hw, hv⟩ | ⟨placed, t, hwalk, hend, hcheck⟩
    · rcases hwalk.decode_judged hRW hR hW origin with
        ⟨hsame, -⟩ | ⟨a, cause, o, herror, hkind, -⟩
      · have hjudged := Instruction.judged_read hRW hR hW t
        rw [hw] at hjudged
        generalize hread : Instruction.read W t = y at hjudged
        cases hjudged with
        | failed =>
          exact .inl ⟨decode_eq_error.2 (.inl ⟨placed, t, w, hsame, hne, hread, hv⟩), nofun⟩
        | preempted hkind =>
          exact .inr ⟨t.offset, _, _, decode_of_read_dangling hsame hne hkind hread, hkind, nofun⟩
      · exact .inr ⟨a, cause, o, herror, hkind, nofun⟩
    · rcases hwalk.decode_judged hRW hR hW origin with
        ⟨hsame, -⟩ | ⟨a, cause, o, herror, hkind, -⟩
      · exact .inl ⟨decode_eq_error.2 (.inr ⟨placed, t, hsame, hend, hcheck⟩), nofun⟩
      · exact .inr ⟨a, cause, o, herror, hkind, nofun⟩

end

theorem layoutFrom_of_write_ok {head : Bytes} {address : Nat} (h : i.write W address = .ok head) :
    layoutFrom W address (i :: code) = layoutFrom W (address + head.length) code >>= fun tail =>
      pure ((address, head) :: tail) := by
  rw [layoutFrom, h]
  rfl

theorem layoutFrom_of_write_error {e : Fault} {address : Nat} (h : i.write W address = .error e) :
    layoutFrom W address (i :: code) = .error (e.inside (label address)) := by
  rw [layoutFrom, h]
  rfl

section

variable (hRW : R.Within W) (hR : R.Settled)

include hRW hR

theorem layoutFrom_judged (address : Nat) (code : Code) :
    (layoutFrom W address code = layoutFrom R address code ∧
      ∀ pieces, layoutFrom R address code = .ok pieces → ∀ i ∈ code, W.AdmitsAll i.references) ∨
    ∃ a cause o, layoutFrom W address code = .error (.violation ⟨cause, o, some (label a)⟩) ∧
      cause.kind = .danglingReference ∧ ∀ pieces, layoutFrom R address code = .ok pieces →
        Blames R W ((pieces.map (·.1)).zip code) a cause := by
  induction code generalizing address with
  | nil => exact .inl ⟨rfl, fun _ _ _ hi => absurd hi List.not_mem_nil⟩
  | cons i code ih =>
    have htold (cause : Cause) (o : Option Int) :
        Fault.inside (label address) (.violation ⟨cause, o, none⟩) =
          .violation ⟨cause, o, some (label address)⟩ :=
      congrArg Fault.violation (if_neg (label_ne_empty address))
    have hjudged := Instruction.judged_write hRW hR address i
    generalize hread : i.write R address = x at hjudged
    generalize hwrite : i.write W address = y at hjudged
    cases hjudged with
    | @kept head hadmitted =>
      rw [layoutFrom_of_write_ok hread, layoutFrom_of_write_ok hwrite]
      rcases ih (address + head.length) with ⟨hsame, hall⟩ | ⟨a, cause, o, herror, hkind, hblames⟩
      · refine .inl ⟨by rw [hsame], fun pieces h => ?_⟩
        obtain ⟨tail, htail, -⟩ := Outcome.bind_eq_ok.1 h
        exact List.forall_mem_cons.2 ⟨hadmitted, hall tail htail⟩
      · refine .inr ⟨a, cause, o, by rw [herror]; rfl, hkind, fun pieces h => ?_⟩
        obtain ⟨tail, htail, h⟩ := Outcome.bind_eq_ok.1 h
        obtain rfl := Outcome.pure_eq_ok.1 h
        exact (hblames tail htail).cons hadmitted
    | @blamed head cause o hblames =>
      rw [layoutFrom_of_write_ok hread, layoutFrom_of_write_error hwrite, htold]
      refine .inr ⟨address, cause, o, rfl, hblames.kind_eq, fun pieces h => ?_⟩
      obtain ⟨tail, -, h⟩ := Outcome.bind_eq_ok.1 h
      obtain rfl := Outcome.pure_eq_ok.1 h
      exact .head hblames
    | failed =>
      rw [layoutFrom_of_write_error hread, layoutFrom_of_write_error hwrite]
      exact .inl ⟨rfl, nofun⟩
    | @preempted _ cause o hkind =>
      rw [layoutFrom_of_write_error hread, layoutFrom_of_write_error hwrite, htold]
      exact .inr ⟨address, cause, o, rfl, hkind, nofun⟩

theorem encode_judged (code : Code) :
    (code.encode W = code.encode R ∧
      ∀ bytes, code.encode R = .ok bytes → ∀ i ∈ code, W.AdmitsAll i.references) ∨
    ∃ a cause o, code.encode W = .error (.violation ⟨cause, o, some (label a)⟩) ∧
      cause.kind = .danglingReference ∧ ∀ bytes, code.encode R = .ok bytes →
        ∃ p, code.arrange = .ok p ∧ Blames R W p.placed a cause := by
  rcases layoutFrom_judged hRW hR 0 code with ⟨hsame, hall⟩ | ⟨a, cause, o, herror, hkind, hblames⟩
  · refine .inl ⟨by rw [encode, encode, hsame], fun bytes h => ?_⟩
    obtain ⟨pieces, hpieces, -⟩ := encode_eq_ok.1 h
    exact hall pieces hpieces
  · refine .inr ⟨a, cause, o, by rw [encode, herror]; rfl, hkind, fun bytes h => ?_⟩
    obtain ⟨pieces, hpieces, -⟩ := encode_eq_ok.1 h
    exact ⟨_, arrangeFrom_of_layoutFrom hpieces, hblames pieces hpieces⟩

end

/-! ## Operands -/

/-- What an operand is called if it is a reference. Numbers to dispatch on, counts and registers
are called otherwise. -/
def referenceNames : List String :=
  ["multiname", "index", "method", "cls", "exception", "register_name", "filename"]

theorem mem_referenceNames (op : Opcode) :
    ∀ p ∈ op.layout.operands, p.2.table?.isSome ↔ p.1 ∈ referenceNames := by
  have every : ∀ op ∈ Opcode.all, ∀ p ∈ op.layout.operands,
      p.2.table?.isSome ↔ p.1 ∈ referenceNames := by decide +kernel
  exact every op op.mem_all

/-- More tables only add checks of references: either nothing changes and `W` admits all of them, or
the first instruction with a reference that `W` rejects is blamed. What is no reference is not
checked by either scope. -/
theorem known_tables_only_check (hRW : R.Within W) (hR : R.Settled) (hW : W.Settled) :
    (∀ (origin : Int) (data : Bytes),
      (decode W origin data = decode R origin data ∧
        ∀ code, decode R origin data = .ok code → ∀ i ∈ code, W.AdmitsAll i.references) ∨
      ∃ a cause o, decode W origin data = .error ⟨cause, o, some (label a)⟩ ∧
        cause.kind = .danglingReference ∧ ∀ code, decode R origin data = .ok code →
          ∃ p, place origin data = .ok p ∧ p.code = code ∧ Blames R W p.placed a cause) ∧
    (∀ code : Code,
      (code.encode W = code.encode R ∧
        ∀ bytes, code.encode R = .ok bytes → ∀ i ∈ code, W.AdmitsAll i.references) ∨
      ∃ a cause o, code.encode W = .error (.violation ⟨cause, o, some (label a)⟩) ∧
        cause.kind = .danglingReference ∧ ∀ bytes, code.encode R = .ok bytes →
          ∃ p, code.arrange = .ok p ∧ Blames R W p.placed a cause) ∧
    ∀ op : Opcode, ∀ p ∈ op.layout.operands, p.2.table?.isSome ↔ p.1 ∈ referenceNames :=
  ⟨decode_judged hRW hR hW, encode_judged hRW hR, mem_referenceNames⟩

/-- A handler is missed where nothing but its table is judged, although the number that is
dispatched on could be no position of any table. -/
theorem known_tables_only_check_newcatch :
    let W := (Scope.unknown.set .multinames (.entries 1)).set .handlers (.entries 0)
    let data : Bytes := [0x43, 5, 0, 0x60, 1, 0x5A, 0]
    let code : Code := [⟨.callmethod, ((5 : Int), (0 : Int), ())⟩,
      ⟨.getlex, ((1 : Index .multinames), ())⟩, ⟨.newcatch, ((0 : Index .handlers), ())⟩]
    decode .unknown 0 data = .ok code ∧
      ∃ a cause o, decode W 0 data = .error ⟨cause, o, some (label a)⟩ ∧
        cause.kind = .danglingReference ∧ Blames .unknown W ([0, 3, 5].zip code) a cause := by
  intro W data code
  have hdecode : decode .unknown 0 data = .ok code :=
    Outcome.toOption_eq_some.1 (by decide +kernel)
  have hplaced : (place 0 data).map (·.placed) = .ok ([0, 3, 5].zip code) :=
    Outcome.toOption_eq_some.1 (by decide +kernel)
  have hsettled : W.Settled := by
    intro t
    cases t <;> decide
  obtain ⟨hread, -⟩ := known_tables_only_check (.unknown W) (fun _ => nofun) hsettled
  refine ⟨hdecode, ?_⟩
  rcases hread 0 data with ⟨-, hall⟩ | ⟨a, cause, o, herror, hkind, hblames⟩
  · have hnewcatch := hall code hdecode _ (List.mem_of_getElem? (i := 2) rfl)
    have hbounds := hnewcatch _ List.mem_cons_self 0 rfl
    exact absurd hbounds (by decide)
  · obtain ⟨p, hp, -, hblames⟩ := hblames code hdecode
    rw [hp] at hplaced
    have hsame : p.placed = [0, 3, 5].zip code := Except.ok.inj hplaced
    exact ⟨a, cause, o, herror, hkind, hsame ▸ hblames⟩

end Code

end ActionCode
