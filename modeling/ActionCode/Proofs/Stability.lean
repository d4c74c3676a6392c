import ActionCode.File
import ActionCode.Proofs.Reader.Stable

/-!
# Stability of decoding

Every reader of the format is stable, up to that of a whole file. So decoding depends on the
bytes that it consumes alone: more bytes change neither a file nor a violation that is no
truncation, and the loss of a byte it needs is found out as a truncation and as nothing else.
-/

namespace ActionCode

open Reader (Stable)

/-! ## References and literals -/

theorem Scope.check_not_truncated {scope : Scope} {t : Table} {index : Int}
    {offset : Option Int} {v : Violation} (h : scope.check t index offset = .error v) :
    ¬ v.Truncated := by
  unfold Scope.check at h
  split at h
  · split at h
    · simp at h
    · simp only [Except.error.injEq] at h
      subst h
      simp [Violation.Truncated, Violation.kind, Cause.kind]
  · simp at h
  · simp at h

theorem Scope.stable_accept (scope : Scope) (t : Table) (index offset : Nat) :
    Stable (scope.accept t index offset) := by
  unfold Scope.accept
  split
  · -- Keeping a reference for later touches no data.
    exact {
      leaves := by rintro s _ _ ⟨⟩; exact ⟨[], rfl, rfl⟩
      extend_ok := by rintro s _ _ ⟨⟩ more; rfl
      extend_error := by rintro s _ ⟨⟩
      truncated := by rintro s _ ⟨⟩ }
  · exact .lift fun _ => Scope.check_not_truncated
  · exact .lift fun _ => Scope.check_not_truncated

theorem Scope.stable_readIndex (scope : Scope) (t : Table) : Stable (scope.readIndex t) :=
  .bind .offset fun _ => .bind .u30 fun _ => .bind (scope.stable_accept _ _ _) fun _ => .pure _

namespace Literal

variable {scope : Scope}

theorem check_not_truncated {l : Literal} {kindOffset indexOffset : Option Int} {v : Violation}
    (h : l.check scope kindOffset indexOffset = .error v) : ¬ v.Truncated := by
  unfold check at h
  split at h
  · simp only [Except.error.injEq] at h
    subst h
    simp [Violation.Truncated, Violation.kind, Cause.kind]
  · exact Scope.check_not_truncated h
  all_goals simp at h

theorem stable_readKind (index indexOffset : Nat) : Stable (readKind scope index indexOffset) :=
  .bind .offset fun _ => .bind .byte fun _ =>
    .bind (.lift fun _ => check_not_truncated) fun _ => .pure _

theorem stable_read : Stable (read scope) :=
  .bind .offset fun _ => .bind .u30 fun _ => stable_readKind _ _

end Literal

/-! ## Constants -/

theorem Namespace.stable_read {scope : Scope} : Stable (Namespace.read scope) := by
  refine .bind .offset fun offset => .bind .byte fun kind => ?_
  split
  · exact .bind (scope.stable_readIndex _) fun _ => .pure _
  · exact .fail (by simp [Cause.kind])

theorem NamespaceSet.stable_read {scope : Scope} : Stable (NamespaceSet.read scope) :=
  .bind (.counted (scope.stable_readIndex _)) fun _ => .pure _

namespace Multiname

variable {scope : Scope} {isAttr : Bool}

theorem stable_readQualified : Stable (readQualified scope isAttr) :=
  .bind (scope.stable_readIndex _) fun _ => .bind (scope.stable_readIndex _) fun _ => .pure _

theorem stable_readMulti : Stable (readMulti scope isAttr) :=
  .bind (scope.stable_readIndex _) fun _ => .bind (scope.stable_readIndex _) fun _ => .pure _

theorem stable_readRuntime : Stable (readRuntime scope isAttr) :=
  .bind (scope.stable_readIndex _) fun _ => .pure _

theorem stable_readMultiLate : Stable (readMultiLate scope isAttr) :=
  .bind (scope.stable_readIndex _) fun _ => .pure _

theorem stable_readTypeName : Stable (readTypeName scope) :=
  .bind (scope.stable_readIndex _) fun _ =>
    .bind (.counted (scope.stable_readIndex _)) fun _ => .pure _

theorem stable_read : Stable (read scope) := by
  refine .bind .offset fun offset => .bind .byte fun kind => ?_
  split
  · exact stable_readQualified
  · exact stable_readQualified
  · exact stable_readMulti
  · exact stable_readMulti
  · exact stable_readRuntime
  · exact stable_readRuntime
  · exact .pure _
  · exact .pure _
  · exact stable_readMultiLate
  · exact stable_readMultiLate
  · exact stable_readTypeName
  · exact .fail (by simp [Cause.kind])

end Multiname

theorem ConstantTable.stable_read {α : Type} {r : Reader α} (table : Table) (hr : Stable r) :
    Stable (ConstantTable.read table r) :=
  .bind .u30 fun _ => .bind (hr.records _ _ _ _) fun _ => .bind (.settle _ _) fun _ => .pure _

theorem stable_readText : Stable readText := .bind .u30 fun _ => .bytes _

theorem Constants.stable_read : Stable Constants.read := by
  refine .bind (ConstantTable.stable_read _ .s32) fun ints => ?_
  refine .bind (ConstantTable.stable_read _ (.bind .u30 fun _ => .pure _)) fun uints => ?_
  refine .bind (ConstantTable.stable_read _ .double) fun doubles => ?_
  refine .bind (ConstantTable.stable_read _ stable_readText) fun strings => ?_
  refine .bind (ConstantTable.stable_read _ Namespace.stable_read) fun namespaces => ?_
  refine .bind (ConstantTable.stable_read _ NamespaceSet.stable_read) fun namespaceSets => ?_
  exact .bind (ConstantTable.stable_read _ Multiname.stable_read) fun multinames => .pure _

/-! ## Methods and metadata -/

theorem Metadata.stable_read {scope : Scope} : Stable (Metadata.read scope) := by
  refine .bind (scope.stable_readIndex _) fun name => ?_
  refine .bind .u30 fun count => ?_
  refine .bind (.replicate (scope.stable_readIndex _) _) fun keys => ?_
  exact .bind (.replicate (scope.stable_readIndex _) _) fun values => .pure _

namespace Method

variable {scope : Scope}

theorem stable_readDefaults (flags count : Nat) : Stable (readDefaults scope flags count) := by
  unfold readDefaults
  split
  · refine .bind .offset fun offset => .bind .u30 fun defaults => ?_
    split
    · exact .fail (by simp [Cause.kind])
    · exact .replicate Literal.stable_read _
  · exact .pure _

theorem stable_readNames (flags count : Nat) : Stable (readNames scope flags count) := by
  unfold readNames
  split
  · exact .bind (.replicate (scope.stable_readIndex _) _) fun _ => .pure _
  · exact .pure _

theorem stable_read : Stable (read scope) := by
  refine .bind .u30 fun count => ?_
  refine .bind (scope.stable_readIndex _) fun returnType => ?_
  refine .bind (.replicate (scope.stable_readIndex _) _) fun types => ?_
  refine .bind (scope.stable_readIndex _) fun name => ?_
  refine .bind .byte fun flags => ?_
  refine .bind (stable_readDefaults _ _) fun defaults => ?_
  exact .bind (stable_readNames _ _) fun names => .pure _

end Method

/-! ## Traits and their owners -/

namespace Member

variable {scope : Scope}

theorem stable_readSlot (constant : Bool) : Stable (readSlot scope constant) := by
  refine .bind .u30 fun slotId => ?_
  refine .bind (scope.stable_readIndex _) fun type => ?_
  refine .bind .offset fun offset => .bind .u30 fun index => ?_
  split
  · exact .pure _
  · exact .bind (Literal.stable_readKind _ _) fun _ => .pure _

theorem stable_readMethod (role : MethodRole) : Stable (readMethod scope role) :=
  .bind .u30 fun _ => .bind (scope.stable_readIndex _) fun _ => .pure _

theorem stable_readClass : Stable (readClass scope) :=
  .bind .u30 fun _ => .bind (scope.stable_readIndex _) fun _ => .pure _

theorem stable_readFunction : Stable (readFunction scope) :=
  .bind .u30 fun _ => .bind (scope.stable_readIndex _) fun _ => .pure _

theorem stable_read (kind offset : Nat) : Stable (read scope kind offset) := by
  unfold read
  split
  · exact stable_readSlot _
  · exact stable_readMethod _
  · exact stable_readMethod _
  · exact stable_readMethod _
  · exact stable_readClass
  · exact stable_readFunction
  · exact stable_readSlot _
  · exact .fail (by simp [Cause.kind])

end Member

namespace Trait

variable {scope : Scope}

theorem stable_readMetadata (present : Bool) : Stable (readMetadata scope present) := by
  unfold readMetadata
  split
  · exact .bind (.counted (scope.stable_readIndex _)) fun _ => .pure _
  · exact .pure _

theorem stable_read : Stable (read scope) := by
  refine .bind (scope.stable_readIndex _) fun name => ?_
  refine .bind .offset fun offset => .bind (.flags 1) fun tag => ?_
  refine .bind (Member.stable_read _ _) fun member => ?_
  exact .bind (stable_readMetadata _) fun metadata => .pure _

theorem stable_readAll : Stable (readAll scope) :=
  .bind .u30 fun _ => stable_read.records _ _ _ _

end Trait

namespace Instance

variable {scope : Scope}

theorem stable_readProtectedNs (present : Bool) : Stable (readProtectedNs scope present) := by
  unfold readProtectedNs
  split
  · exact .bind (scope.stable_readIndex _) fun _ => .pure _
  · exact .pure _

theorem stable_read : Stable (read scope) := by
  refine .bind (scope.stable_readIndex _) fun name => ?_
  refine .bind (scope.stable_readIndex _) fun superName => ?_
  refine .bind (.flags 4) fun flags => ?_
  refine .bind (stable_readProtectedNs _) fun protectedNs => ?_
  refine .bind (.counted (scope.stable_readIndex _)) fun interfaces => ?_
  refine .bind (scope.stable_readIndex _) fun init => ?_
  exact .bind Trait.stable_readAll fun traits => .pure _

end Instance

theorem Class.stable_read {scope : Scope} : Stable (Class.read scope) :=
  .bind (scope.stable_readIndex _) fun _ => .bind Trait.stable_readAll fun _ => .pure _

theorem Script.stable_read {scope : Scope} : Stable (Script.read scope) :=
  .bind (scope.stable_readIndex _) fun _ => .bind Trait.stable_readAll fun _ => .pure _

/-! ## Code -/

theorem Operands.stable_read (scope : Scope) (os : List (String × Operand)) :
    Stable (Operands.read scope os) := by
  induction os with
  | nil => exact .pure ()
  | cons p os ih =>
    obtain ⟨name, o⟩ := p
    refine .bind ?_ fun _ => .bind ih fun _ => .pure _
    cases o with
    | byte => exact .bind .byte fun _ => .pure _
    | number => exact .bind .u30 fun _ => .pure _
    | entry t => exact scope.stable_readIndex t

theorem Layout.stable_read (scope : Scope) (address : Nat) (l : Layout) :
    Stable (l.read scope address) := by
  cases l with
  | fixed os => exact Operands.stable_read scope os
  | branch => exact .bind .s24 fun _ => .bind .offset fun _ => .pure _
  | switch =>
    have htarget : Stable (readTarget address) := .bind .s24 fun _ => .pure _
    exact .bind htarget fun _ => .bind .u30 fun _ => .bind (.replicate htarget _) fun _ => .pure _

theorem Instruction.stable_read (scope : Scope) : Stable (Instruction.read scope) := by
  refine .bind .offset fun address => .bind .byte fun code => ?_
  split
  · exact .fail (by simp [Cause.kind])
  · exact .bind (Layout.stable_read scope _ _) fun _ => .pure _

namespace Code

theorem misread_not_truncated (origin : Int) (size address : Nat) (v : Violation) :
    ¬ (misread origin size address v).Truncated := by
  unfold misread Violation.Truncated Violation.kind
  split
  · simp [Cause.kind]
  · rename_i hcause
    simp only [Violation.inside, Violation.rebase, apply_ite Violation.cause, ite_self]
    cases hv : v.cause with
    | truncatedInput bits => exact absurd hv (hcause bits)
    | _ => simp [Cause.kind]

/-- The end of the code is not the end of the data: what is cut off there is told otherwise. -/
theorem scan_not_truncated {scope : Scope} {origin : Int} {size limit : Nat} {s : Input}
    {v : Violation} (h : scan scope origin size limit s = .error v) : ¬ v.Truncated := by
  induction limit generalizing s with
  | zero => simp [scan] at h
  | succ limit ih =>
    simp only [scan] at h
    split at h
    · simp at h
    · split at h
      · simp only [Except.error.injEq] at h
        exact h ▸ misread_not_truncated _ _ _ _
      · split at h
        · rename_i hrest
          simp only [Except.error.injEq] at h
          exact ih (h ▸ hrest)
        · simp at h

theorem checkTargets_not_truncated {origin : Option Int} {size : Nat}
    {placed : List (Nat × Instruction)} {v : Violation}
    (h : checkTargets origin size placed = .error v) : ¬ v.Truncated := by
  induction placed with
  | nil => simp [checkTargets] at h
  | cons p rest ih =>
    simp only [checkTargets] at h
    split at h
    · simp only [Except.error.injEq] at h
      subst h
      simp [Violation.Truncated, Violation.kind, Cause.kind]
    · exact ih h

/-- Code takes nothing from the input around it. -/
theorem stable_read (scope : Scope) (origin : Int) (data : Bytes) :
    Stable (read scope origin data) where
  leaves {s t x} h := by
    simp only [read] at h
    split at h
    · simp at h
    · split at h
      · simp at h
      · simp only [Except.ok.injEq, Prod.mk.injEq] at h
        exact ⟨[], by simp [← h.2], by simp [← h.2]⟩
  extend_ok {s t x} h more := by
    simp only [read] at h
    split at h
    · simp at h
    · rename_i hscan
      split at h
      · simp at h
      · rename_i htargets
        simp only [Except.ok.injEq, Prod.mk.injEq] at h
        obtain ⟨rfl, rfl⟩ := h
        simp only [read, Input.extend, hscan, htargets]
  extend_error {s v} h _ more := by
    simp only [read] at h
    split at h
    · rename_i hscan
      simp only [Except.error.injEq] at h
      simp only [read, Input.extend, hscan, h]
    · rename_i hscan
      split at h
      · rename_i htargets
        simp only [Except.error.injEq] at h
        simp only [read, Input.extend, hscan, htargets, h]
      · simp at h
  truncated {s v} h hv := by
    simp only [read] at h
    split at h
    · rename_i hscan
      simp only [Except.error.injEq] at h
      exact absurd (h ▸ hv) (scan_not_truncated hscan)
    · split at h
      · rename_i htargets
        simp only [Except.error.injEq] at h
        exact absurd (h ▸ hv) (checkTargets_not_truncated htargets)
      · simp at h

end Code

/-! ## Bodies -/

namespace Handler

variable {scope : Scope}

theorem checkOffsets_not_truncated {size : Nat} {h : Handler} {v : Violation}
    (hv : h.checkOffsets size = .error v) : ¬ v.Truncated := by
  unfold checkOffsets at hv
  split at hv
  · simp only [Except.error.injEq] at hv
    subst hv
    simp [Violation.Truncated, Violation.kind, Cause.kind]
  · simp at hv

theorem stable_readVariable : Stable (readVariable scope) := by
  unfold readVariable
  split
  · exact scope.stable_readIndex _
  · exact .pure _

theorem stable_read : Stable (read scope) := by
  refine .bind .u30 fun start => .bind .u30 fun stop => .bind .u30 fun target => ?_
  refine .bind (scope.stable_readIndex _) fun type => ?_
  exact .bind stable_readVariable fun varName => .pure _

theorem stable_readWithin (size : Nat) : Stable (readWithin scope size) :=
  .bind stable_read fun _ => .bind (.lift fun _ => checkOffsets_not_truncated) fun _ => .pure _

end Handler

theorem Body.stable_read {scope : Scope} : Stable (Body.read scope) := by
  refine .bind (scope.stable_readIndex _) fun method => ?_
  refine .bind .u30 fun maxStack => .bind .u30 fun localCount => ?_
  refine .bind .u30 fun initScopeDepth => .bind .u30 fun maxScopeDepth => ?_
  refine .bind .u30 fun size => .bind .offset fun origin => ?_
  refine .bind (.bytes _) fun data => .bind .u30 fun count => ?_
  refine .bind ((Handler.stable_readWithin size).records _ _ _ _) fun handlers => ?_
  refine .bind Trait.stable_readAll fun traits => ?_
  exact .bind (Code.stable_read _ _ _) fun code => .pure _

/-! ## Files -/

namespace File

theorem stable_readTable {α : Type} {label : String} {r : Reader α} (hr : Stable r)
    (count : Nat) : Stable (readTable label r count) := hr.records _ _ _ _

theorem stable_read : Stable File.read := by
  refine .bind .u16 fun minor => .bind .u16 fun major => ?_
  refine .bind Constants.stable_read fun constants => ?_
  refine .bind .u30 fun count => .bind (stable_readTable Method.stable_read _) fun methods => ?_
  refine .bind .u30 fun count => .bind (stable_readTable Metadata.stable_read _) fun metadata => ?_
  refine .bind .u30 fun count => .bind (stable_readTable Instance.stable_read _) fun instances => ?_
  refine .bind (stable_readTable Class.stable_read _) fun classes => ?_
  refine .bind (.settle _ _) fun _ => ?_
  refine .bind .u30 fun count => .bind (stable_readTable Script.stable_read _) fun scripts => ?_
  exact .bind .u30 fun count => .bind (stable_readTable Body.stable_read _) fun bodies => .pure _

/-- More data changes neither a file nor a violation that is no truncation. Data that ends
before the last byte that a file needs is told to be truncated, within what there is of it. -/
theorem decode_stable (b more : Bytes) :
    (∀ f, decode b = .ok f → decode (b ++ more) = .ok f) ∧
    (∀ v, decode b = .error v → v.kind ≠ .truncatedInput → decode (b ++ more) = .error v) ∧
    (∀ f t, File.read (.ofBytes b) = .ok (f, t) → ∀ k < t.offset,
      ∃ v, decode (b.take k) = .error v ∧ v.kind = .truncatedInput ∧
        ∃ o : Nat, v.offset = some ↑o ∧ o ≤ k) := by
  refine ⟨?_, ?_, ?_⟩
  · intro f h
    exact stable_read.result_append h more
  · intro v h hv
    exact stable_read.result_append_error h hv more
  · intro f t h k hk
    exact stable_read.result_take h hk

/-- Two more bytes change neither a file with one string nor what is said of an unknown kind of
namespace, and the file is truncated if it ends in front of its string. -/
theorem decode_stable_string :
    let b : Bytes := [16, 0, 46, 0, 0, 0, 0, 2, 1, 97, 0, 0, 0, 0, 0, 0, 0, 0]
    let f : File := { constants := { strings := { entries := [[97]] } } }
    let bad : Bytes := [16, 0, 46, 0, 0, 0, 0, 0, 2, 0xFF, 1]
    let v : Violation := ⟨.unknownNamespaceKind 0xFF, some 9, some "namespace 1"⟩
    decode b = .ok f ∧ decode (b ++ [0xFF, 0x00]) = .ok f ∧
      decode bad = .error v ∧ decode (bad ++ [0xFF, 0x00]) = .error v ∧
      ∃ w, decode (b.take 9) = .error w ∧ w.kind = .truncatedInput ∧
        ∃ o : Nat, w.offset = some ↑o ∧ o ≤ 9 := by
  intro b f bad v
  have hfile : decode b = .ok f := Outcome.toOption_eq_some.1 (by decide +kernel)
  have hbad : decode bad = .error v := Outcome.failure?_eq_some.1 (by decide +kernel)
  have hconsumed : (File.read (.ofBytes b)).toOption.map (fun p => p.2.offset) = some 18 := by
    decide +kernel
  obtain ⟨⟨f', t⟩, hread, hoffset⟩ := Option.map_eq_some_iff.1 hconsumed
  have hread : File.read (.ofBytes b) = .ok (f', t) := Outcome.toOption_eq_some.1 hread
  have hlt : 9 < t.offset := by
    rw [hoffset]
    decide
  obtain ⟨hmore, -, hcut⟩ := decode_stable b [0xFF, 0x00]
  obtain ⟨-, hmoreBad, -⟩ := decode_stable bad [0xFF, 0x00]
  exact ⟨hfile, hmore f hfile, hbad, hmoreBad v hbad (by decide), hcut f' t hread 9 hlt⟩

end File

end ActionCode
