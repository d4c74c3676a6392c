import ActionCode.Proofs.Arrangement
import ActionCode.Proofs.Emission.Records
import ActionCode.Proofs.Writeback.File

/-!
# Files that can be written

Which files have a written form: all emitted fields must fit, and the branches and handlers of
each body must stay within its code, whose length depends on all of its instructions. Nothing
else is asked of a file.
-/

namespace ActionCode

variable {W : Scope}

/-! ## Handlers -/

namespace Handler

/-- Before 46.16 the variable is not emitted, wherever it points. -/
def emittedVariable (version : Version) (varName : Index .multinames) : List Field :=
  if version.namesHandlerVariables then varName.emitted else []

theorem emits_writeVariable (varName : Index .multinames) :
    Emits W (writeVariable W varName) (emittedVariable W.version varName) := by
  unfold writeVariable emittedVariable
  split
  · exact .index varName
  · exact .pure []

def emitted (version : Version) (h : Handler) : List Field :=
  .number h.start :: .number h.stop :: .number h.target ::
    (h.type.emitted ++ emittedVariable version h.varName)

theorem emits_write (h : Handler) : Emits W (h.write W) (h.emitted W.version) :=
  (Emits.number h.start).bind fun _ =>
  (Emits.number h.stop).bind fun _ =>
  (Emits.number h.target).bind fun _ =>
  (Emits.index h.type).bind fun _ =>
  (emits_writeVariable h.varName).ret _

end Handler

/-! ## Bodies -/

namespace Body

def emittedFront (b : Body) : List Field :=
  b.method.emitted ++
    [.number b.maxStack, .number b.localCount, .number b.initScopeDepth, .number b.maxScopeDepth]

theorem emits_writeFront (b : Body) (size : Nat) :
    Emits W (b.writeFront W size) (b.emittedFront ++ [.number size]) :=
  (Emits.index b.method).bind fun _ =>
  (Emits.number b.maxStack).bind fun _ =>
  (Emits.number b.localCount).bind fun _ =>
  (Emits.number b.initScopeDepth).bind fun _ =>
  (Emits.number b.maxScopeDepth).bind fun _ =>
  (Emits.number size).ret _

def emittedBack (version : Version) (b : Body) : List Field :=
  .number b.handlers.length :: b.handlers.flatMap (Handler.emitted version) ++
    Trait.emittedAll b.traits

theorem emits_writeBack (b : Body) : Emits W (b.writeBack W) (b.emittedBack W.version) :=
  (Emits.counted Handler.emits_write b.handlers).bind fun _ => (Trait.emits_writeAll b.traits).ret _

/-- What is emitted for a body apart from its code and the size of its code. -/
def emitted (version : Version) (b : Body) : List Field := b.emittedFront ++ b.emittedBack version

/-- What is asked of a body that is written in the scope `W`. -/
structure Encodable (W : Scope) (b : Body) : Prop where
  fields : ∀ field ∈ b.emitted W.version, field.Fits W
  /-- In code the handlers of the body are known as well. -/
  operands : ∀ i ∈ b.code, ∀ field ∈ i.emitted, field.Fits (codeScope W b.handlers)
  /-- With every instruction in its place, all positions lie in the code, its end included. -/
  arranged : ∃ q, b.code.arrange = .ok q ∧ Varint.Fits q.stop ∧ q.Reaches ∧
    b.code.TargetsWithin q.stop ∧ ∀ h ∈ b.handlers, h.OffsetsWithin q.stop

theorem exists_write {b : Body} : (∃ run, b.write W = .ok run) ↔ b.Encodable W := by
  have hfront (size : Nat) : (∃ front, b.writeFront W size = .ok front) ↔
      (∀ field ∈ b.emittedFront, field.Fits W) ∧ Varint.Fits size := by
    have hemits := b.emits_writeFront (W := W) size
    rwa [Emits, List.forall_mem_append, List.forall_mem_singleton] at hemits
  have hback : (∃ back, b.writeBack W = .ok back) ↔
      ∀ field ∈ b.emittedBack W.version, field.Fits W := b.emits_writeBack
  simp only [write_eq_ok]
  constructor
  · rintro ⟨_, code, hcode, hhandlers, front, hfrontOk, back, hbackOk, -⟩
    obtain ⟨hfields, hsize⟩ := (hfront code.length).1 ⟨front, hfrontOk⟩
    obtain ⟨pieces, hpieces, -⟩ := Code.encode_eq_ok.1 hcode
    have hq : b.code.arrange = .ok _ := Code.arrangeFrom_of_layoutFrom hpieces
    obtain ⟨hoperands, hreaches, htargets⟩ := (Code.exists_encode hq).1 ⟨code, hcode⟩
    rw [Code.length_encode hq hcode] at hhandlers hsize
    exact {
      fields := List.forall_mem_append.2 ⟨hfields, hback.1 ⟨back, hbackOk⟩⟩
      operands := hoperands
      arranged := ⟨_, hq, hsize, hreaches, htargets, hhandlers⟩ }
  · rintro ⟨hfields, hoperands, q, hq, hsize, hreaches, htargets, hhandlers⟩
    rw [emitted, List.forall_mem_append] at hfields
    obtain ⟨code, hcode⟩ := (Code.exists_encode hq).2 ⟨hoperands, hreaches, htargets⟩
    rw [← Code.length_encode hq hcode] at hhandlers hsize
    obtain ⟨front, hfrontOk⟩ := (hfront code.length).2 ⟨hfields.1, hsize⟩
    obtain ⟨back, hbackOk⟩ := hback.2 hfields.2
    exact ⟨_, code, hcode, hhandlers, front, hfrontOk, back, hbackOk, rfl⟩

end Body

/-! ## Files -/

namespace File

theorem emits_writeVersion (v : Version) :
    Emits W (writeVersion v) [.word v.minor, .word v.major] := by
  simp only [Emits, List.forall_mem_cons, List.not_mem_nil, false_implies, implies_true, and_true,
    Field.Fits, writeVersion]
  split
  · simp only [reduceCtorEq, exists_false, false_iff]
    omega
  · split
    · simp only [reduceCtorEq, exists_false, false_iff]
      omega
    · exact ⟨fun _ => by omega, fun _ => ⟨_, rfl⟩⟩

def emittedTable {α : Type} (emitted : α → List Field) (xs : List α) : List Field :=
  .number xs.length :: xs.flatMap emitted

theorem emits_writeTable {α : Type} {label : String} {write : α → Except Fault Bytes}
    {emitted : α → List Field} (hwrite : ∀ x, Emits W (write x) (emitted x)) (xs : List α) :
    Emits W (writeTable label write xs) (emittedTable emitted xs) :=
  (Emits.number _).bind fun _ => (Emits.records hwrite 0 xs).ret _

/-- What is emitted for a file apart from its bodies. The classes are not counted. -/
def emitted (f : File) : List Field :=
  [.word f.version.minor, .word f.version.major] ++
  (f.constants.emitted ++
  (emittedTable Method.emitted f.methods ++
  (emittedTable Metadata.emitted f.metadata ++
  (emittedTable Instance.emitted f.instances ++
  (f.classes.flatMap Class.emitted ++
  emittedTable Script.emitted f.scripts)))))

theorem emits_writeFront (f : File) : Emits W (f.writeFront W) f.emitted :=
  (emits_writeVersion f.version).bind fun _ =>
  f.constants.emits_write.bind fun _ =>
  (emits_writeTable Method.emits_write f.methods).bind fun _ =>
  (emits_writeTable Metadata.emits_write f.metadata).bind fun _ =>
  (emits_writeTable Instance.emits_write f.instances).bind fun _ =>
  (Emits.records Class.emits_write 0 f.classes).bind fun _ =>
  (emits_writeTable Script.emits_write f.scripts).ret _

/-- What is asked of a file that is written. -/
structure Encodable (f : File) : Prop where
  paired : f.instances.length = f.classes.length
  fields : ∀ field ∈ f.emitted, field.Fits f.scope
  bodyCount : Varint.Fits f.bodies.length
  bodies : ∀ b ∈ f.bodies, b.Encodable f.scope

theorem exists_writeBodies {bodies : List Body} :
    (∃ run, writeTable "method body" (Body.write W) bodies = .ok run) ↔
      Varint.Fits bodies.length ∧ ∀ b ∈ bodies, b.Encodable W := by
  have hcount : (∃ count, Varint.writeU30 bodies.length = .ok count) ↔
      Varint.Fits bodies.length := by
    have hemits := Emits.number (W := W) bodies.length
    rwa [Emits, List.forall_mem_singleton] at hemits
  have heach : (∃ run, writeEach (Body.write W) bodies = .ok run) ↔
      ∀ b ∈ bodies, b.Encodable W :=
    exists_writeEach.trans (forall₂_congr fun _ _ => Body.exists_write)
  rw [← hcount, ← heach]
  simp only [writeTable, Outcome.bind_eq_ok, Outcome.pure_eq_ok, writeRecords_eq_ok]
  constructor
  · rintro ⟨_, count, hcount, run, hrun, -⟩
    exact ⟨⟨count, hcount⟩, run, hrun⟩
  · rintro ⟨⟨count, hcount⟩, run, hrun⟩
    exact ⟨_, count, hcount, run, hrun, rfl⟩

/-- A file is encoded if all that is asked of it holds, and refused with a fault otherwise. -/
theorem encode_succeeds_iff (f : File) :
    ((∃ data, f.encode = .ok data) ↔ f.Encodable) ∧
      ((∃ fault, f.encode = .error fault) ↔ ¬ f.Encodable) := by
  have hfront : (∃ front, f.writeFront f.scope = .ok front) ↔ _ := f.emits_writeFront
  have hsucceeds : (∃ data, f.encode = .ok data) ↔ f.Encodable := by
    simp only [encode_eq_ok]
    constructor
    · rintro ⟨_, hpaired, front, hfrontOk, bodies, hbodies, -⟩
      obtain ⟨hcount, hall⟩ := exists_writeBodies.1 ⟨bodies, hbodies⟩
      exact ⟨hpaired, hfront.1 ⟨front, hfrontOk⟩, hcount, hall⟩
    · rintro ⟨hpaired, hfields, hcount, hall⟩
      obtain ⟨front, hfrontOk⟩ := hfront.2 hfields
      obtain ⟨bodies, hbodies⟩ := exists_writeBodies.2 ⟨hcount, hall⟩
      exact ⟨_, hpaired, front, hfrontOk, bodies, hbodies, rfl⟩
  refine ⟨hsucceeds, ?_⟩
  rw [← hsucceeds]
  cases f.encode with
  | ok data => simp
  | error fault => simp

/-- A method with a body is written, and refused when a branch of its code goes astray. -/
theorem encode_succeeds_iff_astray :
    let f (target : Int) : File := {
      methods := [{}]
      bodies := [{ code := [⟨.jump, target⟩, ⟨.returnvoid, ()⟩] }] }
    let astray : Fault := .violation
      ⟨.branchOutside "jump" 9 5, none, some "method body 0, instruction at 0x0"⟩
    (∃ data, (f 4).encode = .ok data) ∧ (f 4).Encodable ∧
      (f 9).encode = .error astray ∧ ¬ (f 9).Encodable := by
  intro f astray
  have hwritten : (f 4).encode = .ok [
      16, 0, 46, 0, 0, 0, 0, 0, 0, 0, 0, 1, 0, 0, 0, 0, 0, 0, 0, 1, 0, 0, 0, 0, 0, 5, 16, 0, 0, 0,
      71, 0, 0] := Outcome.toOption_eq_some.1 (by decide +kernel)
  have hrefused : (f 9).encode = .error astray := Outcome.failure?_eq_some.1 (by decide +kernel)
  exact ⟨⟨_, hwritten⟩, (encode_succeeds_iff _).1.1 ⟨_, hwritten⟩, hrefused,
    (encode_succeeds_iff _).2.1 ⟨_, hrefused⟩⟩

end File

end ActionCode
