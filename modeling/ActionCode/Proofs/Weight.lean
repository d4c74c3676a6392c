import ActionCode.Proofs.Reader.Costs
import ActionCode.Proofs.Walk

/-!
# The weight of a file

A file can announce billions of entries in a few bytes. What is read of it is never larger than what
is taken, though: each thing in it, down to the parameters of a generic type and the cases of a
switch, stands for at least one byte that stands for nothing else.
-/

namespace ActionCode

open Reader (Costs)

/-! ## Weights -/

def textWeight (text : Bytes) : Nat := 1 + text.length

/-- The set and its members. -/
def NamespaceSet.weight (set : NamespaceSet) : Nat := 1 + set.members.length

/-- The name and the parameters of a generic type. -/
def Multiname.weight : Multiname → Nat
  | .typeName _ types => 1 + types.length
  | .qualified _ _ _ | .multi _ _ _ | .runtime _ _ | .runtimeLate _ | .multiLate _ _ => 1

def Constants.weight (c : Constants) : Nat :=
  c.ints.entries.length + c.uints.entries.length + c.doubles.entries.length +
    total textWeight c.strings.entries + c.namespaces.entries.length +
    total NamespaceSet.weight c.namespaceSets.entries + total Multiname.weight c.multinames.entries

def Method.weight (m : Method) : Nat := 1 + m.params.length

def Metadata.weight (m : Metadata) : Nat := 1 + m.items.length

/-- The trait and its references to metadata. -/
def Trait.weight (t : Trait) : Nat := 1 + (t.metadata.getD []).length

def Instance.weight (i : Instance) : Nat := 1 + i.interfaces.length + total Trait.weight i.traits

def Class.weight (c : Class) : Nat := 1 + total Trait.weight c.traits

def Script.weight (s : Script) : Nat := 1 + total Trait.weight s.traits

/-- The cases of a switch. -/
def Layout.weight : (l : Layout) → l.Args → Nat
  | .fixed _, _ => 0
  | .branch, _ => 0
  | .switch, s => s.cases.length

/-- The instruction and the cases that it has. -/
def Instruction.weight (i : Instruction) : Nat := 1 + i.op.layout.weight i.args

/-- The body with its code, its handlers and its traits. -/
def Body.weight (b : Body) : Nat :=
  1 + total Instruction.weight b.code + b.handlers.length + total Trait.weight b.traits

/-- All that there is in a file: its constants, with the bytes of strings, the members of sets and
the parameters of generic types; its methods with their parameters; its metadata with their items;
its instances with their interfaces, its classes and its scripts; its traits, with their references
to metadata; its bodies, with their instructions, cases and handlers. -/
def File.weight (f : File) : Nat :=
  f.constants.weight + total Method.weight f.methods + total Metadata.weight f.metadata +
    total Instance.weight f.instances + total Class.weight f.classes +
    total Script.weight f.scripts + total Body.weight f.bodies

/-! ## Constants -/

variable {scope : Scope}

theorem costs_readText : Costs 0 readText textWeight :=
  .bind .u30 fun n => .imp (.bytes n) fun _ => Nat.le_refl _

theorem Namespace.costs_read : Costs 0 (Namespace.read scope) fun _ => 1 := by
  refine .after .offset fun _ => .bind .byte fun _ => ?_
  split
  · exact .after (scope.stable_readIndex _) fun _ => .pure (Nat.le_refl _)
  · exact .fail

theorem NamespaceSet.costs_read : Costs 0 (NamespaceSet.read scope) NamespaceSet.weight :=
  .bind (.counted (scope.costs_readIndex _)) fun _ => .pure (by simp [weight])

namespace Multiname

variable {isAttr : Bool}

theorem costs_readQualified : Costs 1 (readQualified scope isAttr) weight :=
  .after (scope.stable_readIndex _) fun _ => .after (scope.stable_readIndex _) fun _ =>
    .pure (Nat.le_refl _)

theorem costs_readMulti : Costs 1 (readMulti scope isAttr) weight :=
  .after (scope.stable_readIndex _) fun _ => .after (scope.stable_readIndex _) fun _ =>
    .pure (Nat.le_refl _)

theorem costs_readRuntime : Costs 1 (readRuntime scope isAttr) weight :=
  .after (scope.stable_readIndex _) fun _ => .pure (Nat.le_refl _)

theorem costs_readMultiLate : Costs 1 (readMultiLate scope isAttr) weight :=
  .after (scope.stable_readIndex _) fun _ => .pure (Nat.le_refl _)

theorem costs_readTypeName : Costs 1 (readTypeName scope) weight :=
  .after (scope.stable_readIndex _) fun _ => .bind (.counted (scope.costs_readIndex _)) fun types =>
    .pure (by simp [weight])

theorem costs_read : Costs 0 (read scope) weight := by
  refine .after .offset fun _ => .bind .byte fun kind => ?_
  split
  · exact costs_readQualified
  · exact costs_readQualified
  · exact costs_readMulti
  · exact costs_readMulti
  · exact costs_readRuntime
  · exact costs_readRuntime
  · exact .pure (Nat.le_refl _)
  · exact .pure (Nat.le_refl _)
  · exact costs_readMultiLate
  · exact costs_readMultiLate
  · exact costs_readTypeName
  · exact .fail

end Multiname

theorem ConstantTable.costs_read {α : Type} {r : Reader α} {cost : α → Nat} (table : Table)
    (hr : Costs 0 r cost) : Costs 0 (ConstantTable.read table r) fun t => total cost t.entries :=
  .after .u30 fun _ => .bind (.records hr _ _) fun _ => .after (.settle _ _) fun _ =>
    .pure (Nat.le_add_left _ _)

theorem Constants.costs_read : Costs 0 Constants.read Constants.weight := by
  have hint : Costs 0 Reader.s32 fun _ => 1 := .bind .u30 fun _ => .pure (Nat.le_refl _)
  have huint : Costs 0 (do return Int.ofNat (← Reader.u30)) fun _ => 1 :=
    .bind .u30 fun _ => .pure (Nat.le_refl _)
  have hdouble : Costs 0 Reader.double fun _ => 1 := .bind (.span 8) fun _ => .pure (by decide)
  refine .bind (ConstantTable.costs_read _ hint) fun ints => ?_
  refine .bind (ConstantTable.costs_read _ huint) fun uints => ?_
  refine .bind (ConstantTable.costs_read _ hdouble) fun doubles => ?_
  refine .bind (ConstantTable.costs_read _ costs_readText) fun strings => ?_
  refine .bind (ConstantTable.costs_read _ Namespace.costs_read) fun namespaces => ?_
  refine .bind (ConstantTable.costs_read _ NamespaceSet.costs_read) fun namespaceSets => ?_
  refine .bind (ConstantTable.costs_read _ Multiname.costs_read) fun multinames => .pure ?_
  simp [weight]

/-! ## Methods and metadata -/

theorem Method.length_assemble_le (types : List (Index .multinames))
    (names : List (Option (Index .strings))) (defaults : List Literal) :
    (assemble types names defaults).length ≤ types.length := by
  rw [assemble, List.length_map, List.length_zip]
  exact Nat.min_le_left _ _

/-- The types alone pay for the parameters. -/
theorem Method.costs_read : Costs 0 (Method.read scope) Method.weight := by
  refine .bind .u30 fun count => ?_
  refine .after (scope.stable_readIndex _) fun returnType => ?_
  refine .bind (.replicate (scope.costs_readIndex _) _) fun types => ?_
  refine .after (scope.stable_readIndex _) fun name => .after .byte fun flags => ?_
  refine .after (stable_readDefaults _ _) fun defaults => ?_
  refine .after (stable_readNames _ _) fun names => .pure ?_
  have hparams := length_assemble_le types names defaults
  simp only [weight, total_one]
  omega

/-- The keys alone pay for the items. -/
theorem Metadata.costs_read : Costs 0 (Metadata.read scope) Metadata.weight := by
  refine .after (scope.stable_readIndex _) fun name => .bind .u30 fun count => ?_
  refine .bind (.replicate (scope.costs_readIndex _) _) fun keys => ?_
  refine .after (.replicate (scope.stable_readIndex _) _) fun values => .pure ?_
  have hitems : (keys.zip values).length ≤ keys.length := by
    rw [List.length_zip]
    exact Nat.min_le_left _ _
  simp only [weight, List.length_map, total_one]
  omega

/-! ## Traits and their owners -/

theorem Trait.costs_readMetadata (present : Bool) :
    Costs 0 (readMetadata scope present) fun refs => (refs.getD []).length := by
  unfold readMetadata
  split
  · exact .bind (.counted (scope.costs_readIndex _)) fun refs => .pure (by simp)
  · exact .pure (Nat.le_refl _)

theorem Trait.costs_read : Costs 0 (Trait.read scope) Trait.weight := by
  refine .bind (scope.costs_readIndex _) fun name => ?_
  refine .after .offset fun offset => .after (.flags 1) fun tag => ?_
  refine .after (Member.stable_read _ _) fun member => ?_
  exact .bind (costs_readMetadata _) fun refs => .pure (by simp [weight])

theorem Trait.costs_readAll : Costs 0 (Trait.readAll scope) (total Trait.weight) :=
  .after .u30 fun _ => .records costs_read _ _

theorem Instance.costs_read : Costs 0 (Instance.read scope) Instance.weight := by
  refine .bind (scope.costs_readIndex _) fun name => ?_
  refine .after (scope.stable_readIndex _) fun superName => .after (.flags 4) fun flags => ?_
  refine .after (stable_readProtectedNs _) fun protectedNs => ?_
  refine .bind (.counted (scope.costs_readIndex _)) fun interfaces => ?_
  refine .after (scope.stable_readIndex _) fun init => ?_
  exact .bind Trait.costs_readAll fun traits => .pure (by simp [weight])

theorem Class.costs_read : Costs 0 (Class.read scope) Class.weight :=
  .bind (scope.costs_readIndex _) fun _ => .bind Trait.costs_readAll fun _ =>
    .pure (by simp [weight])

theorem Script.costs_read : Costs 0 (Script.read scope) Script.weight :=
  .bind (scope.costs_readIndex _) fun _ => .bind Trait.costs_readAll fun _ =>
    .pure (by simp [weight])

/-! ## Code and bodies -/

theorem Layout.costs_read (address : Nat) (l : Layout) :
    Costs 0 (l.read scope address) l.weight := by
  cases l with
  | fixed os => exact .of_stable (Operands.stable_read scope os)
  | branch => exact .of_stable (Layout.stable_read scope address .branch)
  | switch =>
    have htarget : Costs 0 (readTarget address) fun _ => 1 :=
      .bind .s24 fun _ => .pure (by decide)
    have hdefault : Reader.Stable (readTarget address) := .bind .s24 fun _ => .pure _
    exact .after hdefault fun _ => .after .u30 fun _ => .bind (.replicate htarget _) fun cases =>
      .pure (by simp [weight])

theorem Instruction.costs_read : Costs 0 (Instruction.read scope) Instruction.weight := by
  refine .after .offset fun address => .bind .byte fun code => ?_
  split
  · exact .fail
  · exact .bind (Layout.costs_read _ _) fun args => .pure (by simp [weight])

theorem Code.Walk.total_weight_le {placed : List (Nat × Instruction)} {s t : Input}
    (h : Walk scope s placed t) :
    s.offset + total Instruction.weight (placed.map (·.2)) ≤ t.offset := by
  induction h with
  | nil => exact Nat.le_refl _
  | cons hi _ ih =>
    have hcost := Instruction.costs_read hi
    rw [List.map_cons, total_cons]
    dsimp only
    omega

/-- The bytes of the code, which were taken before, pay for the instructions. -/
theorem Code.costs_read (origin : Int) (data : Bytes) :
    Costs data.length (Code.read scope origin data) (total Instruction.weight) := by
  intro s t code h
  obtain ⟨placed, u, hscan, rfl, -, rfl⟩ := read_eq_ok h
  have hlimit : (Input.mk data 0 s.deferred []).rest.length ≤ data.length := Nat.le_refl _
  obtain ⟨hwalk, -⟩ := (scan_eq_ok hlimit).1 hscan
  have hcost := hwalk.total_weight_le
  have hstop := hwalk.leaves.stop.2
  simp only at hcost hstop ⊢
  omega

theorem Handler.costs_readWithin {size : Nat} :
    Costs 0 (Handler.readWithin scope size) fun _ => 1 := by
  have hread : Costs 0 (Handler.read scope) fun _ => 1 := by
    refine .bind .u30 fun start => .after .u30 fun stop => .after .u30 fun target => ?_
    refine .after (scope.stable_readIndex _) fun type => ?_
    exact .after stable_readVariable fun varName => .pure (Nat.le_refl _)
  have hcheck (h : Handler) : Reader.Stable (liftM (h.checkOffsets size) : Reader Unit) :=
    .lift fun _ => checkOffsets_not_truncated
  exact .bind hread fun h => .after (hcheck h) fun _ => .pure (Nat.le_refl _)

/-- The bytes of the code and of everything else in a body are apart. -/
theorem Body.costs_read : Costs 0 (Body.read scope) Body.weight := by
  refine .after (scope.stable_readIndex _) fun method => ?_
  refine .after .u30 fun maxStack => .after .u30 fun localCount => ?_
  refine .after .u30 fun initScopeDepth => .after .u30 fun maxScopeDepth => ?_
  refine .bind .u30 fun size => .after .offset fun origin => ?_
  refine .bind (.bytes _) fun data => .after .u30 fun count => ?_
  refine .bind (.records Handler.costs_readWithin _ _) fun handlers => ?_
  refine .bind Trait.costs_readAll fun traits => ?_
  refine .spend (Code.costs_read _ _) (by simp; omega) fun code => .pure ?_
  simp only [weight, total_one]
  omega

/-! ## Files -/

theorem File.costs_readTable {α : Type} {label : String} {r : Reader α} {cost : α → Nat}
    (hr : Costs 0 r cost) (count : Nat) : Costs 0 (readTable label r count) (total cost) :=
  .records hr _ _

theorem File.costs_read : Costs 0 File.read File.weight := by
  have hversion : Reader.Stable Reader.u16 := .bind (.bytes _) fun _ => .pure _
  refine .after hversion fun minor => .after hversion fun major => ?_
  refine .bind Constants.costs_read fun constants => ?_
  refine .after .u30 fun _ => .bind (costs_readTable Method.costs_read _) fun methods => ?_
  refine .after .u30 fun _ => .bind (costs_readTable Metadata.costs_read _) fun metadata => ?_
  refine .after .u30 fun count => ?_
  refine .bind (costs_readTable Instance.costs_read _) fun instances => ?_
  refine .bind (costs_readTable Class.costs_read _) fun classes => .after (.settle _ _) fun _ => ?_
  refine .after .u30 fun _ => .bind (costs_readTable Script.costs_read _) fun scripts => ?_
  refine .after .u30 fun _ => .bind (costs_readTable Body.costs_read _) fun bodies => .pure ?_
  simp [weight]

/-- A file is never larger than its data. Whatever numbers of things are announced, all that there is
in a file weighs no more than the bytes that were taken for it. -/
theorem File.weight_le_consumed {data : Bytes} {f : File} (h : decode data = .ok f) :
    ∃ t, File.read (.ofBytes data) = .ok (f, t) ∧ t.rest = data.drop t.offset ∧
      t.offset ≤ data.length ∧ f.weight ≤ t.offset := by
  obtain ⟨⟨_, t⟩, hread, rfl⟩ := Outcome.map_eq_ok.1 h
  obtain ⟨used, hdata, hoffset⟩ := stable_read.leaves hread
  have hcost := costs_read hread
  have hused : t.offset = used.length := hoffset.trans (Nat.zero_add _)
  have hwhole : data = used ++ t.rest := hdata
  refine ⟨t, hread, ?_, ?_, ?_⟩
  · rw [hwhole, hused, List.drop_left]
  · rw [hwhole, hused, List.length_append]
    exact Nat.le_add_right _ _
  · simpa [Input.ofBytes] using hcost

/-- One of everything that is counted, and two things in every list, before a byte that is ignored. -/
theorem File.weight_le_consumed_lists :
    let f : File := {
      constants := {
        strings := { entries := [[97, 98]] }
        namespaceSets := { entries := [⟨[0, 0]⟩] }
        multinames := { entries := [.typeName 1 [1, 0]] } }
      methods := [{ params := [{}, {}] }]
      metadata := [{ items := [{}] }]
      instances := [{
        name := 1
        interfaces := [1]
        traits := [{ metadata := some [0, 0], member := .function 0 0 }] }]
      classes := [{}]
      scripts := [{}]
      bodies := [{
        code := [⟨.lookupswitch, Switch.mk 0 [0, 11]⟩]
        handlers := [{ start := 0, stop := 11, target := 0 }] }] }
    let data : Bytes := [
      16, 0, 46, 0, 0, 0, 0, 2, 2, 97, 98, 0, 2, 2, 0, 0, 2, 29, 1, 2, 1, 0, 1, 2, 0, 0, 0, 0, 0, 1,
      0, 1, 0, 0, 1, 1, 0, 1, 1, 1, 0, 1, 0, 69, 0, 0, 2, 0, 0, 0, 0, 1, 0, 0, 1, 0, 0, 0, 0, 0, 11,
      27, 0, 0, 0, 1, 0, 0, 0, 11, 0, 0, 1, 0, 11, 0, 0, 0, 0, 255]
    decode data = .ok f ∧ f.weight = 26 ∧
      ∃ t, File.read (.ofBytes data) = .ok (f, t) ∧ t.rest = [255] ∧ f.weight ≤ t.offset := by
  intro f data
  have hdecode : decode data = .ok f := Outcome.toOption_eq_some.1 (by decide +kernel)
  have hrest : (File.read (.ofBytes data)).toOption.map (·.2.rest) = some [255] := by
    decide +kernel
  obtain ⟨t, hread, -, -, hle⟩ := weight_le_consumed hdecode
  rw [hread] at hrest
  exact ⟨hdecode, by decide +kernel, t, hread, Option.some.inj hrest, hle⟩

end ActionCode
