import ActionCode.Proofs.Emission.File

/-!
# Files that were read are closed

Whatever a file that was read refers to is there, although references are judged at different
times: most of them at once, some when their table is settled, and those of code when the handlers
behind it are known. The argument goes by way of writing. All that was read can be written again,
code instruction by instruction, and writing judges every reference by the complete tables.
-/

namespace ActionCode

/-! ## Looking up -/

/-- What a table holds. -/
def Table.Entry : Table → Type
  | ints => Int
  | uints => Int
  | doubles => UInt64
  | strings => Bytes
  | namespaces => Namespace
  | namespaceSets => NamespaceSet
  | multinames => Multiname
  | methods => Method
  | metadata => Metadata
  | instances => Instance
  | classes => Class
  | scripts => Script
  | bodies => Body
  | handlers => Handler

/-- In bounds there is an entry at every position but the reserved one. -/
theorem Table.exists_lookup {α : Type} {t : Table} {entries : List α} {index : Int}
    (h : InBounds t.reserved entries.length index) : ∃ entry,
      t.lookup entries index = .ok entry ∧ (entry.isSome ∨ t.reserved ∧ index = 0) := by
  rw [lookup, if_pos h]
  obtain ⟨hpos, hlt⟩ := h
  cases hreserved : t.reserved with
  | false =>
    rw [hreserved] at hlt
    refine ⟨_, rfl, .inl ?_⟩
    simp only [Bool.false_eq_true, if_false] at hlt
    rw [List.getElem?_eq_getElem (by omega)]
    rfl
  | true =>
    by_cases hzero : index = 0
    · exact ⟨none, if_pos hzero, .inr ⟨rfl, hzero⟩⟩
    · rw [hreserved] at hlt
      refine ⟨_, if_neg hzero, .inl ?_⟩
      simp only [if_true] at hlt
      rw [List.getElem?_eq_getElem (by omega)]
      rfl

namespace File

/-- The entries of a table of the file, or of the body that has these handlers. -/
def entries (f : File) (handlers : List Handler) : (t : Table) → List t.Entry
  | .ints => f.constants.ints.entries
  | .uints => f.constants.uints.entries
  | .doubles => f.constants.doubles.entries
  | .strings => f.constants.strings.entries
  | .namespaces => f.constants.namespaces.entries
  | .namespaceSets => f.constants.namespaceSets.entries
  | .multinames => f.constants.multinames.entries
  | .methods => f.methods
  | .metadata => f.metadata
  | .instances => f.instances
  | .classes => f.classes
  | .scripts => f.scripts
  | .bodies => f.bodies
  | .handlers => handlers

/-- A reference is found in its table. Only the reserved position has no entry. -/
def Resolves (f : File) (handlers : List Handler) (t : Table) (index : Int) : Prop :=
  ∃ entry, t.lookup (f.entries handlers t) index = .ok entry ∧
    (entry.isSome ∨ t.reserved ∧ index = 0)

/-- The scope in which every table is known. -/
def wholeScope (f : File) (handlers : List Handler) : Scope where
  extent t := .entries (f.entries handlers t).length
  version := f.version

variable {f : File} {handlers : List Handler}

theorem extent_wholeScope (f : File) (handlers : List Handler) :
    ∀ t ∈ Table.shared, (f.wholeScope handlers).extent t = f.scope.extent t := by
  intro t ht
  cases t
  all_goals first | rfl | exact absurd ht (by decide)

theorem codeScope_wholeScope (f : File) (handlers : List Handler) :
    Body.codeScope (f.wholeScope handlers) handlers = f.wholeScope handlers := by
  have hextent : (Body.codeScope (f.wholeScope handlers) handlers).extent =
      (f.wholeScope handlers).extent := by
    funext t
    cases t
    all_goals rfl
  exact congrArg (Scope.mk · f.version) hextent

theorem resolves_of_admits {t : Table} {index : Int}
    (h : (f.wholeScope handlers).Admits t index) : f.Resolves handlers t index :=
  Table.exists_lookup (h _ rfl)

theorem resolves_reserved {t : Table} (h : t.reserved = true) : f.Resolves handlers t 0 := by
  refine Table.exists_lookup ⟨Int.le_refl 0, ?_⟩
  rw [if_pos h]
  omega

end File

/-! ## Literals -/

theorem Literal.table_of_meaning {kind : Int} {t : Table} (h : meaning kind = some (.entry t)) :
    t ∈ [Table.ints, .uints, .doubles, .strings, .namespaces] := by
  unfold meaning at h
  split at h
  all_goals first
    | simp only [Option.some.injEq, Meaning.entry.injEq] at h; subst h; decide
    | simp at h

/-- A literal of a known kind stands for something if its index is in the table of its kind. -/
theorem File.exists_resolve {f : File} {handlers : List Handler} {l : Literal}
    (hsome : (Literal.meaning l.kind).isSome)
    (hadmits : ∀ t, Literal.meaning l.kind = some (.entry t) →
      (f.wholeScope handlers).Admits t l.index) : ∃ value, f.constants.resolve l = .ok value := by
  cases hmeaning : Literal.meaning l.kind with
  | none =>
    rw [hmeaning] at hsome
    cases hsome
  | some m =>
    simp only [Constants.resolve, hmeaning]
    cases m with
    | undefined => exact ⟨none, rfl⟩
    | null => exact ⟨none, rfl⟩
    | falsehood => exact ⟨some (.bool false), rfl⟩
    | truth => exact ⟨some (.bool true), rfl⟩
    | entry t =>
      obtain ⟨entry, hentry, -⟩ := resolves_of_admits (hadmits t hmeaning)
      have ht := Literal.table_of_meaning hmeaning
      simp only [List.mem_cons, List.not_mem_nil, or_false] at ht
      rcases ht with rfl | rfl | rfl | rfl | rfl
      all_goals
        dsimp only [entries, Table.Entry] at hentry
        rw [hentry]
        exact ⟨_, rfl⟩

/-! ## Closed files -/

namespace Field

/-- Whatever a field refers to is there. Defaults belong to the last parameters. -/
def Resolves (f : File) (handlers : List Handler) : Field → Prop
  | reference t index => f.Resolves handlers t index
  | literal l => (Literal.meaning l.kind).isSome ∧ ∃ value, f.constants.resolve l = .ok value
  | params ps => ps.Pairwise fun p q => p.default.isSome → q.default.isSome
  | number _ | signed _ | word _ | byte _ | namespaceKind _ => True

theorem resolves_of_fits {f : File} {handlers : List Handler} {field : Field}
    (h : field.Fits (f.wholeScope handlers)) : field.Resolves f handlers := by
  cases field with
  | reference t index => exact File.resolves_of_admits h.1
  | literal l => exact ⟨h.1, File.exists_resolve h.1 h.2.1⟩
  | params ps => exact h
  | number _ => trivial
  | signed _ => trivial
  | word _ => trivial
  | byte _ => trivial
  | namespaceKind _ => trivial

end Field

/-- The initial value of a slot, where there is one. -/
def Trait.value? (t : Trait) : Option Literal :=
  match t.member with
  | .slot _ _ _ value => value
  | .method _ _ _ | .classRef _ _ | .function _ _ => none

/-- Nothing that a body holds leads out of the file `f`. Its code knows its handlers. -/
structure Body.Closed (f : File) (b : Body) : Prop where
  fields : ∀ field ∈ b.emitted f.version, field.Resolves f b.handlers
  operands : ∀ i ∈ b.code, ∀ field ∈ i.emitted, field.Resolves f b.handlers
  /-- Also where variables are not written. -/
  varNames : ∀ h ∈ b.handlers, f.Resolves b.handlers .multinames h.varName.val
  /-- Values are not left out as reserved positions. -/
  values : ∀ t ∈ b.traits, ∀ l ∈ t.value?, Field.Resolves f b.handlers (.literal l)

/-- Branches and handlers stay in code of `size` bytes, its end included. -/
structure Body.Within (size : Nat) (b : Body) : Prop where
  targets : b.code.TargetsWithin size
  offsets : ∀ h ∈ b.handlers, h.OffsetsWithin size

/-- The traits of instances, classes and scripts. -/
def File.traits (f : File) : List Trait :=
  f.instances.flatMap (·.traits) ++ (f.classes.flatMap (·.traits) ++ f.scripts.flatMap (·.traits))

/-- Nothing that a file holds leads out of it. -/
structure File.Closed (f : File) : Prop where
  paired : f.instances.length = f.classes.length
  fields : ∀ field ∈ f.emitted, field.Resolves f []
  values : ∀ t ∈ f.traits, ∀ l ∈ t.value?, Field.Resolves f [] (.literal l)
  bodies : ∀ b ∈ f.bodies, b.Closed f

/-! ## Values -/

/-- A value that is not left out of the normal form is emitted. -/
theorem Trait.mem_emitted {t : Trait} {l : Literal} (hnormal : t.normal = t) (hl : l ∈ t.value?) :
    .literal l ∈ t.emitted := by
  have hmember : t.member.normal = t.member := congrArg Trait.member hnormal
  unfold value? at hl
  unfold emitted
  split at hl
  · rename_i constant slotId type value hslot
    obtain rfl : value = some l := hl
    rw [hslot] at hmember ⊢
    have hindex : l.index ≠ 0 := by
      intro hzero
      simp only [Member.normal, Member.normalValue, if_pos hzero, Member.slot.injEq] at hmember
      cases hmember.2.2.2
    simp [Member.emitted, Member.emittedValue, hindex]
  all_goals cases hl

/-- A list that a function does not change has no member that it changes. -/
theorem eq_of_map_eq {α : Type} {g : α → α} {xs : List α} (h : xs.map g = xs) :
    ∀ x ∈ xs, g x = x :=
  List.map_inj_left.1 (h.trans (List.map_id' _).symm)

theorem File.normal_of_mem_traits {f : File} (hnormal : f.normal = f) :
    ∀ t ∈ f.traits, t.normal = t := by
  intro t ht
  simp only [traits, List.mem_append, List.mem_flatMap] at ht
  rcases ht with ⟨i, hi, ht⟩ | ⟨c, hc, ht⟩ | ⟨s, hs, ht⟩
  · have hinstance := eq_of_map_eq (congrArg File.instances hnormal) i hi
    exact eq_of_map_eq (congrArg Instance.traits hinstance) t ht
  · have hclass := eq_of_map_eq (congrArg File.classes hnormal) c hc
    exact eq_of_map_eq (congrArg Class.traits hclass) t ht
  · have hscript := eq_of_map_eq (congrArg File.scripts hnormal) s hs
    exact eq_of_map_eq (congrArg Script.traits hscript) t ht

theorem File.mem_emitted_of_trait {f : File} {t : Trait} {field : Field} (ht : t ∈ f.traits)
    (h : field ∈ t.emitted) : field ∈ f.emitted := by
  simp only [traits, List.mem_append, List.mem_flatMap] at ht
  simp only [emitted, emittedTable, Instance.emitted, Class.emitted, Script.emitted,
    Trait.emittedAll, List.mem_append, List.mem_cons, List.mem_flatMap]
  rcases ht with ⟨i, hi, ht⟩ | ⟨c, hc, ht⟩ | ⟨s, hs, ht⟩
  · grind
  · grind
  · grind

/-! ## Bodies -/

namespace Body

variable {f : File} {b : Body} {s t : Input}

/-- A body together with the size that the data tells of its code. -/
def readSized (scope : Scope) : Reader (Nat × Body) := fun s => do
  let (size, _) ← codeSize scope s
  let (b, t) ← read scope s
  return ((size, b), t)

/-- Where variables are not written, none was read. -/
theorem resolves_varName {h : Handler} (hnormal : h.normal f.version = h)
    (hemitted : ∀ field ∈ Handler.emittedVariable f.version h.varName,
      field.Resolves f b.handlers) : f.Resolves b.handlers .multinames h.varName.val := by
  by_cases hnamed : f.version.namesHandlerVariables
  · rw [Handler.emittedVariable, if_pos hnamed] at hemitted
    exact hemitted _ List.mem_cons_self
  · rw [Handler.normal, if_neg hnamed] at hnormal
    rw [← hnormal]
    exact File.resolves_reserved rfl

theorem mem_emitted_of_variable {version : Version} {h : Handler} {field : Field}
    (hh : h ∈ b.handlers) (hfield : field ∈ Handler.emittedVariable version h.varName) :
    field ∈ b.emitted version := by
  have hhandler : field ∈ h.emitted version := by
    simp only [Handler.emitted, List.mem_cons, List.mem_append]
    exact .inr (.inr (.inr (.inr hfield)))
  simp only [emitted, emittedBack, List.mem_append, List.mem_cons, List.mem_flatMap]
  exact .inr (.inl (.inr ⟨h, hh, hhandler⟩))

theorem mem_emitted_of_trait {version : Version} {t : Trait} {field : Field} (ht : t ∈ b.traits)
    (hfield : field ∈ t.emitted) : field ∈ b.emitted version := by
  simp only [emitted, emittedBack, Trait.emittedAll, List.mem_append, List.mem_cons,
    List.mem_flatMap]
  exact .inr (.inr (.inr ⟨t, ht, hfield⟩))

/-- A body that was read is closed, and its positions lie in the data of its code. -/
theorem closed_of_read (h : read f.scope s = .ok (b, t)) (hs : s.deferred = []) : b.Closed f ∧
    ∃ size u, codeSize f.scope s = .ok (size, u) ∧ b.Within size := by
  have hR := f.mirrors_scope.congr (File.extent_wholeScope f b.handlers)
  have hspans := spans_around (C := fun _ => True) hR (by simp) rfl h fun _ _ _ hcode =>
    Code.spans_each (mirrors_codeScope hR) Opcode.tables_shared hcode
  obtain ⟨_, ⟨data, ⟨htargets, heach⟩, ⟨u, hsize⟩, hnormal, hoffsets, front, hfront, back, hback,
    -⟩, -⟩ := hspans.written ⟨hspans.admitted hs, fun _ _ => trivial⟩
  rw [File.codeScope_wholeScope] at heach
  have hfits : ∀ field ∈ b.emitted f.version, field.Fits (f.wholeScope b.handlers) := by
    have hfrontFits := (b.emits_writeFront data.length).1 ⟨front, hfront⟩
    have hbackFits := b.emits_writeBack.1 ⟨back, hback⟩
    rw [List.forall_mem_append] at hfrontFits
    exact List.forall_mem_append.2 ⟨hfrontFits.1, hbackFits⟩
  have hfields := fun field hfield => Field.resolves_of_fits (hfits field hfield)
  have hclosed : b.Closed f := {
    fields := hfields
    operands := fun i hi field hfield => by
      obtain ⟨address, bytes, hwrite⟩ := heach i hi
      exact Field.resolves_of_fits ((Instruction.exists_write.1 ⟨bytes, hwrite⟩).1 field hfield)
    varNames := fun h hh => by
      have hhandler := eq_of_map_eq (congrArg Body.handlers hnormal) h hh
      exact resolves_varName hhandler fun field hfield =>
        hfields field (mem_emitted_of_variable hh hfield)
    values := fun t ht l hl => by
      have htrait := eq_of_map_eq (congrArg Body.traits hnormal) t ht
      exact hfields _ (mem_emitted_of_trait ht (Trait.mem_emitted htrait hl)) }
  exact ⟨hclosed, data.length, u, hsize, htargets, hoffsets⟩

theorem readSized_of_read (h : read f.scope s = .ok (b, t)) (hs : s.deferred = []) :
    ∃ p, readSized f.scope s = .ok (p, t) ∧ p.2 = b ∧ p.2.Closed f ∧ p.2.Within p.1 := by
  obtain ⟨hclosed, size, u, hsize, hwithin⟩ := closed_of_read h hs
  refine ⟨(size, b), ?_, rfl, hclosed, hwithin⟩
  rw [readSized, hsize, h]
  rfl

end Body

/-- Records can be read in more detail if each of them can. -/
theorem Reader.records_refine {α β : Type} {r : Reader α} {r' : Reader β} {g : β → α}
    {P : β → Prop} {table : Table} {label : String} {first count : Nat} {s t : Input} {xs : List α}
    (hr : ∀ s x t, r s = .ok (x, t) → s.deferred = [] → ∃ y, r' s = .ok (y, t) ∧ g y = x ∧ P y)
    (h : records table label r first count s = .ok (xs, t)) :
    ∃ ys, records table label r' first count s = .ok (ys, t) ∧ ys.map g = xs ∧ ∀ y ∈ ys, P y := by
  induction count generalizing first s xs with
  | zero =>
    obtain ⟨⟩ := h
    exact ⟨[], rfl, rfl, by simp⟩
  | succ count ih =>
    obtain ⟨x, u, hx, h⟩ := bind_eq_ok.1 h
    obtain ⟨rest, _, hrest, ⟨⟩⟩ := bind_eq_ok.1 h
    obtain ⟨ys, hys, hmap, hall⟩ := ih hrest
    have hrecord : ∃ y, record table (label ++ " " ++ toString first) r' s = .ok (y, u) ∧
        g y = x ∧ P y := by
      unfold record at hx ⊢
      split at hx
      · cases hx
      · rename_i x' u' hread
        obtain ⟨⟩ := hx
        obtain ⟨y, hy, hsame, hP⟩ := hr _ _ _ hread rfl
        exact ⟨y, by rw [hy], hsame, hP⟩
    obtain ⟨y, hy, hsame, hP⟩ := hrecord
    refine ⟨y :: ys, ?_, by rw [List.map_cons, hsame, hmap], List.forall_mem_cons.2 ⟨hP, hall⟩⟩
    rw [records, bind_apply hy, bind_apply hys]
    rfl

/-! ## Files -/

namespace File

/-- The bodies of a file, each with the size that the data tells of its code. -/
def sizedBodies (data : Bytes) : Except Violation (List (Nat × Body)) :=
  Reader.result (readFront >>= fun f => Reader.u30 >>= fun count =>
    readTable "method body" (Body.readSized f.scope) count) data

/-- A file is closed if its bodies are. -/
theorem closed_of_readFront {front : File} {bodies : List Body} {s t : Input}
    (h : readFront s = .ok (front, t)) (hs : s.deferred = [])
    (hbodies : ∀ b ∈ bodies, b.Closed { front with bodies }) : Closed { front with bodies } := by
  obtain ⟨-, hspans⟩ := spans_readFront (C := fun _ => True) h
    (extent_wholeScope { front with bodies } [])
  obtain ⟨run, ⟨hpaired, hfront, hnormal⟩, -⟩ :=
    hspans.written ⟨hspans.admitted hs, fun _ _ => trivial⟩
  have hfits := front.emits_writeFront.1 ⟨run, hfront⟩
  have hfields := fun field hfield => Field.resolves_of_fits (hfits field hfield)
  exact {
    paired := hpaired
    fields := hfields
    values := fun t ht l hl => by
      have htrait := normal_of_mem_traits hnormal t ht
      exact hfields _ (mem_emitted_of_trait ht (Trait.mem_emitted htrait hl))
    bodies := hbodies }

/-- A file that was read is closed. In each of its bodies, branches and handlers stay in the code
as it stands in the data. -/
theorem decode_closed {f : File} {data : Bytes} (h : decode data = .ok f) : f.Closed ∧
    ∃ sized, sizedBodies data = .ok sized ∧ sized.map (·.2) = f.bodies ∧
      ∀ p ∈ sized, p.2.Within p.1 := by
  obtain ⟨⟨f, u⟩, hread, rfl⟩ := Outcome.map_eq_ok.1 h
  obtain ⟨front, s, count, t, hfront, hcount, hbodies, hf⟩ := read_eq_ok hread
  generalize f.bodies = bodies at hbodies hf
  subst hf
  obtain ⟨sized, hsized, hmap, hall⟩ := Reader.records_refine
    (P := fun p : Nat × Body => p.2.Closed { front with bodies } ∧ p.2.Within p.1)
    (fun _ _ _ hb hs => Body.readSized_of_read (f := { front with bodies }) hb hs) hbodies
  refine ⟨closed_of_readFront hfront rfl ?_, sized, ?_, hmap, fun p hp => (hall p hp).2⟩
  · intro b hb
    rw [← hmap] at hb
    obtain ⟨p, hp, rfl⟩ := List.mem_map.1 hb
    exact (hall p hp).1
  · refine Outcome.map_eq_ok.2 ⟨(sized, u), ?_, rfl⟩
    rw [Reader.bind_apply hfront, Reader.bind_apply hcount]
    exact hsized

/-- A generic name that comes before its parameter, an instance that refers to a class behind it
and code that refers to its handler. An operand is padded, and the handler ends with the code. -/
theorem decode_closed_padded :
    let body : Body := {
      code := [⟨.newcatch, (0, ())⟩, ⟨.getlocal, ((1 : Int), ())⟩, ⟨.jump, (0 : Int)⟩]
      handlers := [{ start := 0, stop := 9, target := 5, type := 1 }] }
    let f : File := {
      constants := {
        strings := { entries := [[97]] }
        multinames := { entries := [.typeName 2 [3], .runtime false 1, .runtime false 0] } }
      methods := [{}]
      instances := [{ name := 1, traits := [{ member := .classRef 0 1 }] }, { name := 3 }]
      classes := [{}, {}]
      bodies := [body] }
    let data : Bytes := [
      16, 0, 46, 0, 0, 0, 0, 2, 1, 97, 0, 0, 4, 29, 2, 1, 3, 15, 1, 15, 0, 1, 0, 0, 0, 0, 0, 2, 1,
      0, 1, 0, 0, 1, 0, 4, 0, 1, 3, 0, 1, 0, 0, 0, 0, 0, 0, 0, 0, 1, 0, 0, 0, 0, 0, 9, 90, 0, 98,
      129, 0, 16, 247, 255, 255, 1, 0, 9, 5, 1, 0, 0]
    decode data = .ok f ∧ f.Closed ∧ sizedBodies data = .ok [(9, body)] ∧ body.Within 9 := by
  intro body f data
  have hdecode : decode data = .ok f := Outcome.toOption_eq_some.1 (by decide +kernel)
  have hbodies : sizedBodies data = .ok [(9, body)] :=
    Outcome.toOption_eq_some.1 (by decide +kernel)
  obtain ⟨hclosed, sized, hsized, -, hwithin⟩ := decode_closed hdecode
  obtain rfl : sized = [(9, body)] := Except.ok.inj (hsized.symm.trans hbodies)
  exact ⟨hdecode, hclosed, hbodies, hwithin (9, body) List.mem_cons_self⟩

end File

end ActionCode
