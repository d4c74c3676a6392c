import ActionCode.Proofs.Reader.Located
import ActionCode.Proofs.Stability
import ActionCode.Proofs.Writeback.Code

/-!
# Where decoding fails

Every reader of the format is located. So decoding always tells where it failed, and whatever
stands in front of that byte was read: cut there, the data is merely too short.
-/

namespace ActionCode

open Reader (Located Locatable)

variable {w : Limits}

/-! ## References and literals -/

theorem Scope.check_before {scope : Scope} {t : Table} {index : Int} {o : Nat} {v : Violation}
    (h : scope.check t index (some ↑o) = .error v) (ho : o < w.stop) : v.Before w.stop := by
  obtain ⟨-, -, -, rfl⟩ := check_eq_error.1 h
  exact ⟨o, rfl, ho⟩

theorem Scope.located_accept (scope : Scope) (t : Table) (index : Nat) {o : Nat}
    (ho : o < w.stop) : Located w (scope.accept t index o) := by
  unfold Scope.accept
  split
  · exact {
      within := by
        rintro s _ _ ⟨⟩ hs
        refine ⟨hs.stop, fun p hp => ?_⟩
        rcases List.mem_append.1 hp with hp | hp
        · exact hs.kept p hp
        · obtain rfl := List.mem_singleton.1 hp
          exact Nat.lt_of_lt_of_le ho w.stop_le
      before := by rintro s _ ⟨⟩ }
  · exact .lift fun _ h => check_before h ho
  · exact .lift fun _ h => check_before h ho

theorem Scope.located_readIndex (scope : Scope) (t : Table) : Located w (scope.readIndex t) := by
  refine .offset_bind .u30 fun s n u h hu => ?_
  have hlt := Nat.lt_of_lt_of_le (Reader.offset_lt_u30 h) hu
  exact .bind (scope.located_accept t n hlt) fun _ => .pure _

namespace Literal

variable {scope : Scope}

theorem check_before {l : Literal} {kindOffset indexOffset : Nat} {v : Violation}
    (h : l.check scope (some ↑kindOffset) (some ↑indexOffset) = .error v)
    (hkind : kindOffset < w.stop) (hindex : indexOffset < w.stop) : v.Before w.stop := by
  unfold check at h
  split at h
  · obtain ⟨⟩ := h
    exact ⟨kindOffset, rfl, hkind⟩
  · exact Scope.check_before h hindex
  all_goals cases h

/-- The position may be blamed when the kind is known. -/
theorem located_readKind (index : Nat) {indexOffset : Nat} (hindex : indexOffset < w.stop) :
    Located w (readKind scope index indexOffset) := by
  refine .offset_bind .byte fun s kind u h hu => ?_
  have hlt := Nat.lt_of_lt_of_le (Reader.offset_lt_byte h) hu
  exact .bind (.lift fun _ hv => check_before hv hlt hindex) fun _ => .pure _

theorem located_read : Located w (read scope) := by
  refine .offset_bind .u30 fun s n u h hu => ?_
  exact located_readKind n (Nat.lt_of_lt_of_le (Reader.offset_lt_u30 h) hu)

end Literal

/-! ## Constants -/

theorem Namespace.located_read {scope : Scope} : Located w (Namespace.read scope) := by
  refine .offset_bind .byte fun s kind u h hu => ?_
  split
  · exact .bind (scope.located_readIndex _) fun _ => .pure _
  · exact .fail (Nat.lt_of_lt_of_le (Reader.offset_lt_byte h) hu)

theorem NamespaceSet.located_read {scope : Scope} : Located w (NamespaceSet.read scope) :=
  .bind (.counted (scope.located_readIndex _)) fun _ => .pure _

namespace Multiname

variable {scope : Scope} {isAttr : Bool}

theorem located_readQualified : Located w (readQualified scope isAttr) :=
  .bind (scope.located_readIndex _) fun _ => .bind (scope.located_readIndex _) fun _ => .pure _

theorem located_readMulti : Located w (readMulti scope isAttr) :=
  .bind (scope.located_readIndex _) fun _ => .bind (scope.located_readIndex _) fun _ => .pure _

theorem located_readRuntime : Located w (readRuntime scope isAttr) :=
  .bind (scope.located_readIndex _) fun _ => .pure _

theorem located_readMultiLate : Located w (readMultiLate scope isAttr) :=
  .bind (scope.located_readIndex _) fun _ => .pure _

theorem located_readTypeName : Located w (readTypeName scope) :=
  .bind (scope.located_readIndex _) fun _ =>
    .bind (.counted (scope.located_readIndex _)) fun _ => .pure _

theorem located_read : Located w (read scope) := by
  refine .offset_bind .byte fun s kind u h hu => ?_
  split
  · exact located_readQualified
  · exact located_readQualified
  · exact located_readMulti
  · exact located_readMulti
  · exact located_readRuntime
  · exact located_readRuntime
  · exact .pure _
  · exact .pure _
  · exact located_readMultiLate
  · exact located_readMultiLate
  · exact located_readTypeName
  · exact .fail (Nat.lt_of_lt_of_le (Reader.offset_lt_byte h) hu)

end Multiname

theorem ConstantTable.located_read {α : Type} {r : Reader α} (table : Table)
    (hw : w.kept ≤ w.stop) (hr : Located w r) : Located w (ConstantTable.read table r) :=
  .bind .u30 fun _ => .bind (.records _ _ hr.locatable _ _) fun _ =>
    .bind (.settle _ _ hw) fun _ => .pure _

theorem located_readText : Located w readText := .bind .u30 fun _ => .bytes _

theorem Constants.located_read (hw : w.kept ≤ w.stop) : Located w Constants.read := by
  refine .bind (ConstantTable.located_read _ hw .s32) fun ints => ?_
  refine .bind (ConstantTable.located_read _ hw (.bind .u30 fun _ => .pure _)) fun uints => ?_
  refine .bind (ConstantTable.located_read _ hw .double) fun doubles => ?_
  refine .bind (ConstantTable.located_read _ hw located_readText) fun strings => ?_
  refine .bind (ConstantTable.located_read _ hw Namespace.located_read) fun namespaces => ?_
  refine .bind (ConstantTable.located_read _ hw NamespaceSet.located_read) fun sets => ?_
  exact .bind (ConstantTable.located_read _ hw Multiname.located_read) fun multinames => .pure _

/-! ## Methods and metadata -/

theorem Metadata.located_read {scope : Scope} : Located w (Metadata.read scope) := by
  refine .bind (scope.located_readIndex _) fun name => .bind .u30 fun count => ?_
  refine .bind (.replicate (scope.located_readIndex _) _) fun keys => ?_
  exact .bind (.replicate (scope.located_readIndex _) _) fun values => .pure _

namespace Method

variable {scope : Scope}

theorem located_readDefaults (flags count : Nat) :
    Located w (readDefaults scope flags count) := by
  unfold readDefaults
  split
  · refine .offset_bind .u30 fun s defaults u h hu => ?_
    split
    · exact .fail (Nat.lt_of_lt_of_le (Reader.offset_lt_u30 h) hu)
    · exact .replicate Literal.located_read _
  · exact .pure _

theorem located_readNames (flags count : Nat) : Located w (readNames scope flags count) := by
  unfold readNames
  split
  · exact .bind (.replicate (scope.located_readIndex _) _) fun _ => .pure _
  · exact .pure _

theorem located_read : Located w (read scope) := by
  refine .bind .u30 fun count => .bind (scope.located_readIndex _) fun returnType => ?_
  refine .bind (.replicate (scope.located_readIndex _) _) fun types => ?_
  refine .bind (scope.located_readIndex _) fun name => .bind .byte fun flags => ?_
  refine .bind (located_readDefaults _ _) fun defaults => ?_
  exact .bind (located_readNames _ _) fun names => .pure _

end Method

/-! ## Traits and their owners -/

namespace Member

variable {scope : Scope}

theorem located_readSlot (constant : Bool) : Located w (readSlot scope constant) := by
  refine .bind .u30 fun slotId => .bind (scope.located_readIndex _) fun type => ?_
  refine .offset_bind .u30 fun s index u h hu => ?_
  split
  · exact .pure _
  · have hlt := Nat.lt_of_lt_of_le (Reader.offset_lt_u30 h) hu
    exact .bind (Literal.located_readKind index hlt) fun _ => .pure _

theorem located_readMethod (role : MethodRole) : Located w (readMethod scope role) :=
  .bind .u30 fun _ => .bind (scope.located_readIndex _) fun _ => .pure _

theorem located_readClass : Located w (readClass scope) :=
  .bind .u30 fun _ => .bind (scope.located_readIndex _) fun _ => .pure _

theorem located_readFunction : Located w (readFunction scope) :=
  .bind .u30 fun _ => .bind (scope.located_readIndex _) fun _ => .pure _

theorem located_read (kind : Nat) {offset : Nat} (hoffset : offset < w.stop) :
    Located w (read scope kind offset) := by
  unfold read
  split
  · exact located_readSlot _
  · exact located_readMethod _
  · exact located_readMethod _
  · exact located_readMethod _
  · exact located_readClass
  · exact located_readFunction
  · exact located_readSlot _
  · exact .fail hoffset

end Member

namespace Trait

variable {scope : Scope}

theorem located_readMetadata (present : Bool) : Located w (readMetadata scope present) := by
  unfold readMetadata
  split
  · exact .bind (.counted (scope.located_readIndex _)) fun _ => .pure _
  · exact .pure _

theorem located_read : Located w (read scope) := by
  refine .bind (scope.located_readIndex _) fun name => ?_
  refine .offset_bind (.flags 1) fun s tag u h hu => ?_
  have hlt := Nat.lt_of_lt_of_le (Reader.offset_lt_flags h) hu
  refine .bind (Member.located_read _ hlt) fun member => ?_
  exact .bind (located_readMetadata _) fun metadata => .pure _

theorem located_readAll : Located w (readAll scope) :=
  .bind .u30 fun _ => .records _ _ located_read.locatable _ _

end Trait

namespace Instance

variable {scope : Scope}

theorem located_readProtectedNs (present : Bool) :
    Located w (readProtectedNs scope present) := by
  unfold readProtectedNs
  split
  · exact .bind (scope.located_readIndex _) fun _ => .pure _
  · exact .pure _

theorem located_read : Located w (read scope) := by
  refine .bind (scope.located_readIndex _) fun name => ?_
  refine .bind (scope.located_readIndex _) fun superName => .bind (.flags 4) fun flags => ?_
  refine .bind (located_readProtectedNs _) fun protectedNs => ?_
  refine .bind (.counted (scope.located_readIndex _)) fun interfaces => ?_
  refine .bind (scope.located_readIndex _) fun init => ?_
  exact .bind Trait.located_readAll fun traits => .pure _

end Instance

theorem Class.located_read {scope : Scope} : Located w (Class.read scope) :=
  .bind (scope.located_readIndex _) fun _ => .bind Trait.located_readAll fun _ => .pure _

theorem Script.located_read {scope : Scope} : Located w (Script.read scope) :=
  .bind (scope.located_readIndex _) fun _ => .bind Trait.located_readAll fun _ => .pure _

/-! ## Code -/

theorem Operands.located_read (scope : Scope) (os : List (String × Operand)) :
    Located w (Operands.read scope os) := by
  induction os with
  | nil => exact .pure ()
  | cons p os ih =>
    obtain ⟨name, o⟩ := p
    refine .bind ?_ fun _ => .bind ih fun _ => .pure _
    cases o with
    | byte => exact .bind .byte fun _ => .pure _
    | number => exact .bind .u30 fun _ => .pure _
    | entry t => exact scope.located_readIndex t

theorem Layout.located_read (scope : Scope) (address : Nat) (l : Layout) :
    Located w (l.read scope address) := by
  cases l with
  | fixed os => exact Operands.located_read scope os
  | branch => exact .bind .s24 fun _ => .bind .offset fun _ => .pure _
  | switch =>
    have htarget : Located w (readTarget address) := .bind .s24 fun _ => .pure _
    exact .bind htarget fun _ => .bind .u30 fun _ => .bind (.replicate htarget _) fun _ => .pure _

theorem Instruction.located_read (scope : Scope) : Located w (read scope) := by
  refine .offset_bind .byte fun s code u h hu => ?_
  split
  · exact .fail (Nat.lt_of_lt_of_le (Reader.offset_lt_byte h) hu)
  · exact .bind (Layout.located_read scope _ _) fun _ => .pure _

namespace Code

variable {scope : Scope} {origin size : Nat} {v : Violation}

/-- Code that breaks off is told where the instruction starts, anything else where it stands. -/
theorem misread_before {address : Nat} (haddress : address < size)
    (hv : ¬ v.Truncated → v.Before size) :
    (misread origin size address v).Before (origin + size) := by
  unfold misread
  split
  · exact ⟨origin + address, rfl, Nat.add_lt_add_left haddress origin⟩
  · rename_i hcause
    have htruncated : ¬ v.Truncated := by
      unfold Violation.Truncated Violation.kind
      cases hc : v.cause with
      | truncatedInput bits => exact absurd hc (hcause bits)
      | _ => simp [Cause.kind]
    obtain ⟨o, ho, hlt⟩ := hv htruncated
    refine ⟨origin + o, ?_, Nat.add_lt_add_left hlt origin⟩
    have hoffset : (v.rebase origin).offset = some ↑(origin + o) := by
      rw [Violation.rebase, ho, Option.map_some, Int.natCast_add, Int.add_comm]
    unfold Violation.inside
    split
    · exact hoffset
    · exact hoffset

/-- The instructions stand where the data of the code does. -/
theorem located_scan (scope : Scope) (origin limit : Nat) {s : Input} (hs : s.Within w) :
    (∀ placed t, scan scope origin w.stop limit s = .ok (placed, t) →
      t.Within w ∧ ∀ p ∈ placed, p.1 < w.stop) ∧
    ∀ v, scan scope origin w.stop limit s = .error v → v.Before (origin + w.stop) := by
  induction limit generalizing s with
  | zero =>
    constructor
    · rintro _ _ ⟨⟩
      exact ⟨hs, by simp⟩
    · rintro v ⟨⟩
  | succ limit ih =>
    simp only [scan]
    split
    · constructor
      · rintro _ _ ⟨⟩
        exact ⟨hs, by simp⟩
      · rintro v ⟨⟩
    · rename_i hnonempty
      have hlt : s.offset < w.stop := by
        have hpos := List.length_pos_iff.2 fun hnil => hnonempty (List.isEmpty_iff.2 hnil)
        have hstop := hs.stop
        omega
      split
      · rename_i v hv
        constructor
        · rintro _ _ ⟨⟩
        · rintro _ ⟨⟩
          exact misread_before hlt ((Instruction.located_read scope).before hv hs)
      · rename_i i u hi
        obtain ⟨hok, herror⟩ := ih ((Instruction.located_read scope).within hi hs)
        split
        · rename_i v hv
          constructor
          · rintro _ _ ⟨⟩
          · rintro _ ⟨⟩
            exact herror v hv
        · rename_i rest t hrest
          obtain ⟨ht, hplaced⟩ := hok rest t hrest
          constructor
          · rintro _ _ ⟨⟩
            exact ⟨ht, List.forall_mem_cons.2 ⟨hlt, hplaced⟩⟩
          · rintro _ ⟨⟩

theorem checkTargets_before {placed : List (Nat × Instruction)}
    (h : checkTargets (some ↑origin) size placed = .error v) (hplaced : ∀ p ∈ placed, p.1 < size) :
    v.Before (origin + size) := by
  induction placed with
  | nil => cases h
  | cons p placed ih =>
    obtain ⟨hlt, hplaced⟩ := List.forall_mem_cons.1 hplaced
    simp only [checkTargets] at h
    split at h
    · obtain ⟨⟩ := h
      exact ⟨origin + p.1, rfl, Nat.add_lt_add_left hlt origin⟩
    · exact ih h hplaced

/-- Code is located if it is a part of the data that the limits are about. -/
theorem located_read {data : Bytes} (hdata : origin + data.length ≤ w.stop) :
    Located w (read scope origin data) := by
  have hle : data.length ≤ w.kept := by
    have hkept := w.stop_le
    omega
  -- References of code are kept with their addresses, which are no offsets but lie below them.
  have hinner {s : Input} (hs : s.Within w) :
      Input.Within ⟨data.length, w.kept, hle⟩ ⟨data, 0, s.deferred, []⟩ :=
    ⟨Nat.zero_add _, hs.kept⟩
  have hmono {v : Violation} (hv : v.Before (origin + data.length)) : v.Before w.stop := by
    obtain ⟨o, ho, hlt⟩ := hv
    exact ⟨o, ho, Nat.lt_of_lt_of_le hlt hdata⟩
  exact {
    within := fun {s t code} h hs => by
      obtain ⟨placed, u, hscan, -, -, rfl⟩ := read_eq_ok h
      exact ⟨hs.stop, ((located_scan scope origin _ (hinner hs)).1 placed u hscan).1.kept⟩
    before := fun {s v} h hs _ => by
      obtain ⟨hok, herror⟩ := located_scan scope origin data.length (hinner hs)
      unfold read at h
      split at h
      · rename_i hscan
        obtain ⟨⟩ := h
        exact hmono (herror _ hscan)
      · rename_i placed u hscan
        split at h
        · rename_i hcheck
          obtain ⟨⟩ := h
          exact hmono (checkTargets_before hcheck (hok placed u hscan).2)
        · cases h }

end Code

/-! ## Bodies -/

namespace Handler

variable {scope : Scope}

theorem located_readVariable : Located w (readVariable scope) := by
  unfold readVariable
  split
  · exact scope.located_readIndex _
  · exact .pure _

theorem located_read : Located w (read scope) := by
  refine .bind .u30 fun start => .bind .u30 fun stop => .bind .u30 fun target => ?_
  refine .bind (scope.located_readIndex _) fun type => ?_
  exact .bind located_readVariable fun varName => .pure _

/-- A handler is not empty. -/
theorem offset_lt_read {s t : Input} {h : Handler} (hread : read scope s = .ok (h, t)) :
    s.offset < t.offset := by
  obtain ⟨start, u, hstart, hread⟩ := Reader.bind_eq_ok.1 hread
  have hvariable : Reader.Stable (readVariable scope) := stable_readVariable
  have hrest : Reader.Stable fun u => _ :=
    .bind .u30 fun stop => .bind .u30 fun target =>
      .bind (scope.stable_readIndex .multinames) fun type => .bind hvariable fun varName =>
        .pure (Handler.mk start stop target type varName)
  exact Nat.lt_of_lt_of_le (Reader.offset_lt_u30 hstart) (hrest.leaves hread).stop.1

/-- Which position is wrong is told, but not where: the record does so. -/
theorem locatable_readWithin (size : Nat) : Locatable w (readWithin scope size) where
  within {s t h} hread hs := by
    obtain ⟨h, u, hh, hread⟩ := Reader.bind_eq_ok.1 hread
    obtain ⟨_, u, hcheck, ⟨⟩⟩ := Reader.bind_eq_ok.1 hread
    obtain ⟨-, rfl⟩ := Reader.lift_eq_ok.1 hcheck
    exact located_read.within hh hs
  before {s v} hread hs hv := by
    rcases Reader.bind_eq_error.1 hread with hh | ⟨h, u, hh, hread⟩
    · exact located_read.locatable.before hh hs hv
    · rcases Reader.bind_eq_error.1 hread with hcheck | ⟨_, _, _, ⟨⟩⟩
      have hcheck := Reader.lift_eq_error.1 hcheck
      have hlt := offset_lt_read hh
      have hstop := (located_read.within hh hs).stop
      unfold checkOffsets at hcheck
      split at hcheck
      · obtain ⟨⟩ := hcheck
        exact ⟨s.offset, rfl, by omega⟩
      · cases hcheck

end Handler

theorem Body.located_read {scope : Scope} : Located w (Body.read scope) := by
  refine .bind (scope.located_readIndex _) fun method => ?_
  refine .bind .u30 fun maxStack => .bind .u30 fun localCount => ?_
  refine .bind .u30 fun initScopeDepth => .bind .u30 fun maxScopeDepth => ?_
  refine .bind .u30 fun size => .offset_bind (.bytes _) fun s data u h hu => ?_
  have hdata : s.offset + data.length ≤ w.stop := by
    obtain ⟨hlength, -, ht⟩ := Reader.Yields.bytes_eq_ok h
    rw [ht] at hu
    rw [hlength]
    exact hu
  refine .bind .u30 fun count => ?_
  refine .bind (.records _ _ (Handler.locatable_readWithin size) _ _) fun handlers => ?_
  refine .bind Trait.located_readAll fun traits => ?_
  exact .bind (Code.located_read hdata) fun code => .pure _

/-! ## Files -/

namespace File

theorem located_readTable {α : Type} {label : String} {r : Reader α} (hr : Located w r)
    (count : Nat) : Located w (readTable label r count) := .records _ _ hr.locatable _ _

theorem located_read (hw : w.kept ≤ w.stop) : Located w File.read := by
  refine .bind .u16 fun minor => .bind .u16 fun major => ?_
  refine .bind (Constants.located_read hw) fun constants => ?_
  refine .bind .u30 fun count => .bind (located_readTable Method.located_read _) fun methods => ?_
  refine .bind .u30 fun count => .bind (located_readTable Metadata.located_read _) fun data => ?_
  refine .bind .u30 fun count => ?_
  refine .bind (located_readTable Instance.located_read _) fun instances => ?_
  refine .bind (located_readTable Class.located_read _) fun classes => ?_
  refine .bind (.settle _ _ hw) fun _ => ?_
  refine .bind .u30 fun count => .bind (located_readTable Script.located_read _) fun scripts => ?_
  exact .bind .u30 fun count => .bind (located_readTable Body.located_read _) fun bodies => .pure _

variable {b : Bytes} {v : Violation}

/-- No violation is found behind the byte that it is told at. -/
theorem decode_before (h : decode b = .error v) (hv : ¬ v.Truncated) : v.Before b.length := by
  have hwithin : (Input.ofBytes b).Within (.whole b.length) :=
    ⟨Nat.zero_add _, by simp [Input.ofBytes]⟩
  exact (located_read (Nat.le_refl _)).before (Outcome.map_eq_error.1 h) hwithin hv

/-- Decoding ends in a file or in a violation of the format, which is told in the data, or behind
it if it is a truncation. Data that is cut where another violation is told is truncated: all that
stands in front of it could be read. -/
theorem decode_error_offset (h : decode b = .error v) :
    ∃ o : Nat, v.offset = some ↑o ∧ o ≤ b.length ∧ (v.kind ≠ .truncatedInput → o < b.length ∧
      ∃ u, decode (b.take o) = .error u ∧ u.kind = .truncatedInput) := by
  by_cases hv : v.Truncated
  · obtain ⟨o, ho, -, hle⟩ := stable_read.truncated (Outcome.map_eq_error.1 h) hv
    simp only [Input.ofBytes, Nat.zero_add] at hle
    exact ⟨o, ho, hle, fun hkind => absurd hv hkind⟩
  · obtain ⟨o, ho, hlt⟩ := decode_before h hv
    refine ⟨o, ho, Nat.le_of_lt hlt, fun _ => ⟨hlt, ?_⟩⟩
    have hwhole : b.take o ++ b.drop o = b := List.take_append_drop o b
    cases hcut : decode (b.take o) with
    | ok f =>
      have hsame := stable_read.result_append hcut (b.drop o)
      rw [hwhole] at hsame
      cases h.symm.trans hsame
    | error u =>
      refine ⟨u, rfl, Decidable.byContradiction fun hu => ?_⟩
      -- The same violation would be found at a byte that was cut off.
      have hsame := stable_read.result_append_error hcut hu (b.drop o)
      rw [hwhole] at hsame
      obtain rfl : v = u := Except.error.inj (h.symm.trans hsame)
      obtain ⟨o', ho', hlt'⟩ := decode_before hcut hu
      have heq : o' = o := Int.ofNat.inj (Option.some.inj (ho'.symm.trans ho))
      rw [List.length_take] at hlt'
      omega

/-- The class that a trait refers to is missed when all classes have been read, and is told where
the trait refers to it. -/
theorem decode_error_offset_class :
    let b : Bytes := [
      16, 0, 46, 0, 0, 0, 0, 0, 0, 0, 0, 1, 0, 0, 0, 0, 0, 1, 0, 0, 0, 0, 0, 1, 0, 4, 0, 5, 0, 0,
      0, 0]
    let v : Violation := ⟨.danglingReference .classes 5 1, some 27, some "instance 0, trait 0"⟩
    decode b = .error v ∧ ∃ u, decode (b.take 27) = .error u ∧ u.kind = .truncatedInput := by
  intro b v
  have h : decode b = .error v := Outcome.failure?_eq_some.1 (by decide +kernel)
  obtain ⟨o, ho, -, hcut⟩ := decode_error_offset h
  obtain rfl : 27 = o := Int.ofNat.inj (Option.some.inj ho)
  exact ⟨h, (hcut (by decide)).2⟩

end File

end ActionCode
