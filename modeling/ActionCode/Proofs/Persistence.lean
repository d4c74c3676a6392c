import ActionCode.Proofs.Growth
import ActionCode.Proofs.Writeback.Code

/-!
# What is written stays the same

Tables only decide whether something can be written, and never what is written. So whatever was
written in one scope is written as the same bytes in every scope that admits more references. Each
writer follows its own links: a chain keeps its bytes if all of its links do.
-/

namespace ActionCode

/-! ## Writers that keep what they write -/

/-- What `x` comes to, `y` comes to as well. -/
def Keeps {ε α : Type} (x y : Except ε α) : Prop := ∀ ⦃a : α⦄, x = .ok a → y = .ok a

namespace Keeps

variable {ε α β : Type} {x y : Except ε α}

theorem refl (x : Except ε α) : Keeps x x := fun _ h => h

theorem bind {f g : α → Except ε β} (hx : Keeps x y) (hf : ∀ a, Keeps (f a) (g a)) :
    Keeps (x >>= f) (y >>= g) := by
  intro b h
  obtain ⟨a, ha, hb⟩ := Outcome.bind_eq_ok.1 h
  exact Outcome.bind_eq_ok.2 ⟨a, hx ha, hf a hb⟩

/-- The last link of a chain, whose bytes are only put into place. -/
theorem ret (hx : Keeps x y) (f : α → β) :
    Keeps (x >>= fun a => pure (f a)) (y >>= fun a => pure (f a)) :=
  hx.bind fun _ => refl _

variable {write write' : α → Except Fault Bytes}

theorem each (h : ∀ a, Keeps (write a) (write' a)) (xs : List α) :
    Keeps (writeEach write xs) (writeEach write' xs) := by
  induction xs with
  | nil => exact refl _
  | cons a xs ih => exact (h a).bind fun _ => ih.ret _

theorem counted (h : ∀ a, Keeps (write a) (write' a)) (xs : List α) :
    Keeps (writeCounted write xs) (writeCounted write' xs) :=
  (refl _).bind fun _ => (each h xs).ret _

theorem records {label : String} (h : ∀ a, Keeps (write a) (write' a)) (first : Nat)
    (xs : List α) : Keeps (writeRecords label write first xs) (writeRecords label write' first xs) :=
  fun _ hrun => writeRecords_eq_ok.2 (each h xs (writeRecords_eq_ok.1 hrun))

end Keeps

/-! ## Wider scopes -/

/-- `W'` admits whatever `W` admits, in the same version. -/
structure Scope.Widens (W W' : Scope) : Prop where
  grows : W.Grows W'
  version : W'.version = W.version

theorem Scope.Widens.set {W W' : Scope} (h : W.Widens W') (t : Table) (e : Extent) :
    (W.set t e).Widens (W'.set t e) where
  version := h.version
  grows u index hadmits := by
    intro count hcount
    by_cases hu : u = t
    · simp only [Scope.set, if_pos hu] at hcount
      exact hadmits count (by simp only [Scope.set, if_pos hu, hcount])
    · simp only [Scope.set, if_neg hu] at hcount
      refine h.grows u index (fun count hcount => hadmits count ?_) count hcount
      simp only [Scope.set, if_neg hu, hcount]

variable {W W' : Scope} (hW : W.Widens W')

include hW

theorem Scope.Widens.writeIndex {t : Table} (i : Index t) :
    Keeps (W.writeIndex i) (W'.writeIndex i) := by
  intro run h
  obtain ⟨hadmits, hrun⟩ := Scope.writeIndex_eq_ok.1 h
  exact Scope.writeIndex_eq_ok.2 ⟨hW.grows t i.val hadmits, hrun⟩

/-! ## Constants -/

theorem Namespace.keeps_write (ns : Namespace) : Keeps (ns.write W) (ns.write W') := by
  unfold Namespace.write
  split
  · exact (Keeps.refl _).bind fun _ => (hW.writeIndex _).ret _
  · exact .refl _

theorem NamespaceSet.keeps_write (set : NamespaceSet) : Keeps (set.write W) (set.write W') :=
  .counted hW.writeIndex _

theorem Multiname.keeps_writeParts (m : Multiname) : Keeps (m.writeParts W) (m.writeParts W') := by
  cases m with
  | qualified _ name ns => exact (hW.writeIndex ns).bind fun _ => (hW.writeIndex name).ret _
  | multi _ name nsSet => exact (hW.writeIndex name).bind fun _ => (hW.writeIndex nsSet).ret _
  | runtime _ name => exact hW.writeIndex name
  | runtimeLate _ => exact .refl _
  | multiLate _ nsSet => exact hW.writeIndex nsSet
  | typeName name types =>
    exact (hW.writeIndex name).bind fun _ => (Keeps.counted hW.writeIndex types).ret _

theorem Multiname.keeps_write (m : Multiname) : Keeps (m.write W) (m.write W') :=
  (keeps_writeParts hW m).ret _

/-! ## Methods and metadata -/

theorem Literal.keeps_write (l : Literal) : Keeps (l.write W) (l.write W') := by
  intro run h
  obtain ⟨hcheck, hrun⟩ := write_eq_ok.1 h
  obtain ⟨hkind, hadmits⟩ := check_eq_ok.1 hcheck
  exact write_eq_ok.2
    ⟨check_eq_ok.2 ⟨hkind, fun t ht => hW.grows t l.index (hadmits t ht)⟩, hrun⟩

namespace Method

theorem keeps_writeDefaults (flags : Int) (ds : List Literal) :
    Keeps (writeDefaults W flags ds) (writeDefaults W' flags ds) := by
  unfold writeDefaults
  split
  · exact .counted (Literal.keeps_write hW) ds
  · exact .refl _

theorem keeps_writeNames (flags : Int) (ps : List Param) :
    Keeps (writeNames W flags ps) (writeNames W' flags ps) := by
  unfold writeNames
  split
  · exact .each (fun _ => hW.writeIndex _) ps
  · exact .refl _

theorem keeps_write (m : Method) : Keeps (m.write W) (m.write W') :=
  (Keeps.refl _).bind fun _ =>
  (hW.writeIndex m.returnType).bind fun _ =>
  (Keeps.each (fun _ => hW.writeIndex _) m.params).bind fun _ =>
  (hW.writeIndex m.name).bind fun _ =>
  (Keeps.refl m.defaults).bind fun ds =>
  (keeps_writeDefaults hW m.announcedFlags ds).bind fun _ =>
  (keeps_writeNames hW m.announcedFlags m.params).ret _

end Method

theorem Metadata.keeps_write (m : Metadata) : Keeps (m.write W) (m.write W') :=
  (hW.writeIndex m.name).bind fun _ =>
  (Keeps.refl _).bind fun _ =>
  (Keeps.each (fun _ => hW.writeIndex _) m.items).bind fun _ =>
  (Keeps.each (fun _ => hW.writeIndex _) m.items).ret _

/-! ## Traits and their owners -/

namespace Member

theorem keeps_writeValue (value : Option Literal) :
    Keeps (writeValue W value) (writeValue W' value) := by
  cases value with
  | none => exact .refl _
  | some l =>
    unfold writeValue
    dsimp only
    split
    · exact .refl _
    · exact Literal.keeps_write hW l

theorem keeps_write (m : Member) : Keeps (m.write W) (m.write W') := by
  cases m with
  | slot constant slotId type value =>
    exact (Keeps.refl _).bind fun _ => (hW.writeIndex type).bind fun _ =>
      (keeps_writeValue hW value).ret _
  | method role dispId ref => exact (Keeps.refl _).bind fun _ => (hW.writeIndex ref).ret _
  | classRef slotId ref => exact (Keeps.refl _).bind fun _ => (hW.writeIndex ref).ret _
  | function slotId ref => exact (Keeps.refl _).bind fun _ => (hW.writeIndex ref).ret _

end Member

namespace Trait

theorem keeps_writeMetadata (refs : Option (List (Index .metadata))) :
    Keeps (writeMetadata W refs) (writeMetadata W' refs) := by
  cases refs with
  | none => exact .refl _
  | some refs => exact .counted hW.writeIndex refs

theorem keeps_write (t : Trait) : Keeps (t.write W) (t.write W') :=
  (hW.writeIndex t.name).bind fun _ => (t.member.keeps_write hW).bind fun _ =>
    (keeps_writeMetadata hW t.metadata).ret _

theorem keeps_writeAll (traits : List Trait) : Keeps (writeAll W traits) (writeAll W' traits) :=
  (Keeps.refl _).bind fun _ => (Keeps.records (keeps_write hW) 0 traits).ret _

end Trait

theorem Instance.keeps_writeProtectedNs (ns : Option (Index .namespaces)) :
    Keeps (writeProtectedNs W ns) (writeProtectedNs W' ns) := by
  cases ns with
  | none => exact .refl _
  | some ns => exact hW.writeIndex ns

theorem Instance.keeps_write (i : Instance) : Keeps (i.write W) (i.write W') :=
  (hW.writeIndex i.name).bind fun _ =>
  (hW.writeIndex i.superName).bind fun _ =>
  (keeps_writeProtectedNs hW i.protectedNs).bind fun _ =>
  (Keeps.counted hW.writeIndex i.interfaces).bind fun _ =>
  (hW.writeIndex i.init).bind fun _ =>
  (Trait.keeps_writeAll hW i.traits).ret _

theorem Class.keeps_write (c : Class) : Keeps (c.write W) (c.write W') :=
  (hW.writeIndex c.init).bind fun _ => (Trait.keeps_writeAll hW c.traits).ret _

theorem Script.keeps_write (s : Script) : Keeps (s.write W) (s.write W') :=
  (hW.writeIndex s.init).bind fun _ => (Trait.keeps_writeAll hW s.traits).ret _

/-! ## Code -/

theorem Operands.keeps_write (os : List (String × Operand)) (args : Operands os) :
    Keeps (Operands.write W os args) (Operands.write W' os args) := by
  induction os with
  | nil => exact .refl _
  | cons p os ih =>
    obtain ⟨name, o⟩ := p
    obtain ⟨value, values⟩ := args
    refine Keeps.bind ?_ fun _ => (ih values).ret _
    cases o with
    | byte => exact .refl _
    | number => exact .refl _
    | entry t => exact hW.writeIndex _

/-- Branches do not refer to tables. -/
theorem Layout.keeps_write (address : Nat) (l : Layout) (args : l.Args) :
    Keeps (l.write W address args) (l.write W' address args) := by
  cases l with
  | fixed os => exact Operands.keeps_write hW os args
  | branch => exact .refl _
  | switch => exact .refl _

theorem Instruction.keeps_write (address : Nat) (i : Instruction) :
    Keeps (i.write W address) (i.write W' address) :=
  (Layout.keeps_write hW address _ i.args).ret _

namespace Code

theorem keeps_layoutFrom (address : Nat) (code : Code) :
    Keeps (layoutFrom W address code) (layoutFrom W' address code) := by
  induction code generalizing address with
  | nil => exact .refl _
  | cons i code ih =>
    intro pieces h
    obtain ⟨head, hhead, tail, htail, rfl⟩ := layoutFrom_cons.1 h
    exact layoutFrom_cons.2 ⟨head, i.keeps_write hW address hhead, tail, ih _ htail, rfl⟩

/-- Instructions that keep their bytes keep their addresses, and with these their branches. -/
theorem keeps_encode (code : Code) : Keeps (code.encode W) (code.encode W') := by
  intro bytes h
  obtain ⟨pieces, hpieces, hbytes⟩ := encode_eq_ok.1 h
  exact encode_eq_ok.2 ⟨pieces, keeps_layoutFrom hW 0 code hpieces, hbytes⟩

end Code

/-! ## Bodies -/

theorem Handler.keeps_writeVariable (varName : Index .multinames) :
    Keeps (writeVariable W varName) (writeVariable W' varName) := by
  unfold writeVariable
  rw [hW.version]
  split
  · exact hW.writeIndex varName
  · exact .refl _

theorem Handler.keeps_write (h : Handler) : Keeps (h.write W) (h.write W') :=
  (Keeps.refl _).bind fun _ => (Keeps.refl _).bind fun _ => (Keeps.refl _).bind fun _ =>
  (hW.writeIndex h.type).bind fun _ => (keeps_writeVariable hW h.varName).ret _

theorem Body.keeps_writeFront (b : Body) (size : Nat) :
    Keeps (b.writeFront W size) (b.writeFront W' size) :=
  (hW.writeIndex b.method).bind fun _ => .refl _

theorem Body.keeps_writeBack (b : Body) : Keeps (b.writeBack W) (b.writeBack W') :=
  (Keeps.counted (Handler.keeps_write hW) b.handlers).bind fun _ =>
    (Trait.keeps_writeAll hW b.traits).ret _

theorem Body.keeps_write (b : Body) : Keeps (b.write W) (b.write W') := by
  intro run h
  obtain ⟨code, hcode, hoffsets, front, hfront, back, hback, hrun⟩ := write_eq_ok.1 h
  have hscope : (codeScope W b.handlers).Widens (codeScope W' b.handlers) := hW.set _ _
  exact write_eq_ok.2 ⟨code, Code.keeps_encode hscope b.code hcode, hoffsets, front,
    keeps_writeFront hW b _ hfront, back, keeps_writeBack hW b hback, hrun⟩

end ActionCode
