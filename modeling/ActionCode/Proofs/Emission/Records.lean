import ActionCode.Constant.Constants
import ActionCode.Definition
import ActionCode.Metadata
import ActionCode.Proofs.Emission.Fields
import ActionCode.Proofs.Readback.Records

/-!
# Fields of records

What is emitted for each kind of record, in the order in which it is written. A record can be
written exactly if all of it fits.
-/

namespace ActionCode

variable {W : Scope}

/-! ## Constants -/

def Namespace.emitted (ns : Namespace) : List Field := .namespaceKind ns.kind :: ns.name.emitted

theorem Namespace.emits_write (ns : Namespace) : Emits W (ns.write W) ns.emitted := by
  have hkind (h : ns.kind ∈ kinds) : 0 ≤ ns.kind ∧ ns.kind ≤ 2 ^ 8 - 1 := by
    simp only [kinds, List.mem_cons, List.not_mem_nil, or_false] at h
    omega
  unfold Namespace.write
  split
  · rename_i hmem
    have hparts := (Emits.byte (W := W) ns.kind).bind fun kind =>
      (Emits.index ns.name).ret (kind ++ ·)
    refine hparts.trans ?_
    rw [List.singleton_append, emitted, List.forall_mem_cons, List.forall_mem_cons]
    exact and_congr_left fun _ => ⟨fun _ => hmem, hkind⟩
  · rename_i hmem
    refine ⟨nofun, fun h => absurd ?_ hmem⟩
    exact h (.namespaceKind ns.kind) List.mem_cons_self

def NamespaceSet.emitted (set : NamespaceSet) : List Field :=
  .number set.members.length :: set.members.flatMap Index.emitted

theorem NamespaceSet.emits_write (set : NamespaceSet) : Emits W (set.write W) set.emitted :=
  .counted Emits.index set.members

def Multiname.emitted : Multiname → List Field
  | qualified _ name ns => ns.emitted ++ name.emitted
  | multi _ name nsSet => name.emitted ++ nsSet.emitted
  | runtime _ name => name.emitted
  | runtimeLate _ => []
  | multiLate _ nsSet => nsSet.emitted
  | typeName name types =>
    name.emitted ++ .number types.length :: types.flatMap Index.emitted

theorem Multiname.emits_writeParts (m : Multiname) : Emits W (m.writeParts W) m.emitted := by
  cases m with
  | qualified _ name ns => exact (Emits.index ns).bind fun run => (Emits.index name).ret (run ++ ·)
  | multi _ name nsSet =>
    exact (Emits.index name).bind fun run => (Emits.index nsSet).ret (run ++ ·)
  | runtime _ name => exact .index name
  | runtimeLate _ => exact .pure []
  | multiLate _ nsSet => exact .index nsSet
  | typeName name types =>
    exact (Emits.index name).bind fun run => (Emits.counted Emits.index types).ret (run ++ ·)

theorem Multiname.emits_write (m : Multiname) : Emits W (m.write W) m.emitted :=
  m.emits_writeParts.ret (m.kind :: ·)

def ConstantTable.emitted {α : Type} (emitted : α → List Field) (t : ConstantTable α) :
    List Field :=
  .number t.writtenCount :: t.entries.flatMap emitted

theorem ConstantTable.emits_write {α : Type} {write : α → Except Fault Bytes}
    {emitted : α → List Field} (hwrite : ∀ x, Emits W (write x) (emitted x))
    (t : ConstantTable α) : Emits W (t.write write) (t.emitted emitted) :=
  (Emits.number _).bind fun count => (Emits.each hwrite t.entries).ret (count ++ ·)

theorem emits_writeText (text : Bytes) : Emits W (writeText text) [.number text.length] :=
  (Emits.number _).ret (· ++ text)

namespace Constants

def emitted (c : Constants) : List Field :=
  c.ints.emitted (fun value => [.signed value]) ++
  (c.uints.emitted (fun value => [.number value]) ++
  (c.doubles.emitted (fun _ => []) ++
  (c.strings.emitted (fun text => [.number text.length]) ++
  (c.namespaces.emitted Namespace.emitted ++
  (c.namespaceSets.emitted NamespaceSet.emitted ++
  c.multinames.emitted Multiname.emitted)))))

theorem emits_write (c : Constants) : Emits W (c.write W) c.emitted :=
  (c.ints.emits_write Emits.signed).bind fun _ =>
  (c.uints.emits_write Emits.number).bind fun _ =>
  (c.doubles.emits_write fun _ => Emits.pure _).bind fun _ =>
  (c.strings.emits_write emits_writeText).bind fun _ =>
  (c.namespaces.emits_write Namespace.emits_write).bind fun _ =>
  (c.namespaceSets.emits_write NamespaceSet.emits_write).bind fun _ =>
  (c.multinames.emits_write Multiname.emits_write).ret _

end Constants

/-! ## Metadata -/

def Metadata.emitted (m : Metadata) : List Field :=
  m.name.emitted ++ .number m.items.length ::
    (m.items.flatMap (·.key.emitted) ++ m.items.flatMap (·.value.emitted))

theorem Metadata.emits_write (m : Metadata) : Emits W (m.write W) m.emitted :=
  (Emits.index m.name).bind fun _ =>
  (Emits.number _).bind fun _ =>
  (Emits.each (fun item => .index item.key) m.items).bind fun _ =>
  (Emits.each (fun item => .index item.value) m.items).ret _

/-! ## Literals -/

/-- All kinds of the format fit in a byte. -/
theorem Literal.byte_of_meaning {kind : Int} (h : (meaning kind).isSome) :
    0 ≤ kind ∧ kind ≤ 2 ^ 8 - 1 := by
  unfold meaning at h
  split at h
  all_goals first | decide | cases h

theorem Literal.emits_write (l : Literal) : Emits W (l.write W) [.literal l] := by
  have hbytes := (Emits.number (W := W) l.index).bind fun index =>
    (Emits.byte l.kind).ret (index ++ ·)
  have hwritten : (∃ run, l.write W = .ok run) ↔ l.check W none none = .ok () ∧
      ∀ field ∈ [Field.number l.index, .byte l.kind], field.Fits W := by
    refine Iff.trans ?_ (and_congr_right fun _ => hbytes)
    simp only [write_eq_ok, Outcome.bind_eq_ok, Outcome.pure_eq_ok, exists_and_left]
  refine hwritten.trans ?_
  simp only [check_eq_ok, List.forall_mem_cons, List.not_mem_nil, false_implies, implies_true,
    and_true, Field.Fits]
  constructor
  · rintro ⟨⟨hsome, hadmits⟩, hindex, -⟩
    exact ⟨hsome, hadmits, hindex⟩
  · rintro ⟨hsome, hadmits, hindex⟩
    exact ⟨⟨hsome, hadmits⟩, hindex, byte_of_meaning hsome⟩

/-! ## Methods -/

namespace Method

/-- Names and defaults are emitted as far as there are any. -/
def emitted (m : Method) : List Field :=
  .number m.params.length :: (m.returnType.emitted ++ (m.params.flatMap (·.type.emitted) ++
  (m.name.emitted ++ (.params m.params ::
  (.number (m.params.filterMap (·.default)).length ::
    (m.params.filterMap (·.default)).flatMap (fun l => [.literal l]) ++
  (m.params.filterMap (·.name)).flatMap Index.emitted)))))

theorem exists_defaultsFrom {first : Nat} {begun : Bool} {ps : List Param} :
    (∃ ds, defaultsFrom first begun ps = .ok ds) ↔
      (begun = true → ∀ p ∈ ps, p.default.isSome) ∧
        ps.Pairwise fun p q => p.default.isSome → q.default.isSome := by
  induction ps generalizing first begun with
  | nil => simp [defaultsFrom]
  | cons p ps ih =>
    rw [List.pairwise_cons, List.forall_mem_cons, defaultsFrom]
    cases hp : p.default with
    | none =>
      cases begun with
      | true => simp
      | false =>
        have hrest : (∃ ds, defaultsFrom (first + 1) false ps = .ok ds) ↔ _ := ih
        simpa using hrest
    | some l =>
      have hrest : (∃ ds, defaultsFrom (first + 1) true ps = .ok ds) ↔ _ := ih
      simp only [Outcome.exists_map_eq_ok, hrest, Option.isSome_some, forall_const, true_and]
      exact ⟨fun h => ⟨fun _ => h.1, h⟩, fun h => h.2⟩

theorem filterMap_default {m : Method} {ds : List Literal} (h : m.defaults = .ok ds) :
    m.params.filterMap (·.default) = ds := by
  obtain ⟨missing, hmap, -⟩ := defaultsFrom_eq_ok h
  have hpresent := congrArg (List.filterMap id) hmap
  simpa [List.filterMap_map, Function.comp_def] using hpresent

theorem emits_defaults (m : Method) : Emits W m.defaults [.params m.params] := by
  simp only [Emits, List.forall_mem_singleton, Field.Fits]
  exact exists_defaultsFrom.trans (by simp)

theorem emits_writeDefaults {m : Method} {ds : List Literal} (h : m.defaults = .ok ds) :
    Emits W (writeDefaults W m.announcedFlags ds)
      (.number ds.length :: ds.flatMap fun l => [.literal l]) := by
  unfold writeDefaults
  split
  · exact .counted Literal.emits_write ds
  · rename_i hclear
    have hnone : m.params.filterMap (·.default) = [] := by
      refine List.filterMap_eq_nil_iff.2 fun p hp => Option.not_isSome_iff_eq_none.1 fun hsome => ?_
      exact hclear (hasDefaults_announcedFlags hp hsome)
    obtain rfl : [] = ds := hnone.symm.trans (filterMap_default h)
    exact ⟨fun _ => by simp [Field.Fits, Varint.Fits], fun _ => ⟨[], rfl⟩⟩

theorem fits_zero : (Field.reference .strings 0).Fits W := by
  refine ⟨fun count _ => ⟨Int.le_refl 0, ?_⟩, by decide, by decide⟩
  simp only [Table.reserved, if_true]
  omega

/-- A name that is missing among others is written as 0, which is in every table of strings. -/
theorem emits_writeNames (m : Method) : Emits W (writeNames W m.announcedFlags m.params)
    ((m.params.filterMap (·.name)).flatMap Index.emitted) := by
  unfold writeNames
  split
  · have hnames : Emits W (writeEach (fun p : Param => W.writeIndex (p.name.getD 0)) m.params)
        (m.params.flatMap fun p => (p.name.getD 0).emitted) := .each (fun p => .index _) _
    refine hnames.trans ?_
    simp only [List.forall_mem_flatMap, List.mem_filterMap]
    constructor
    · rintro h name ⟨p, hp, hname⟩
      have hfits := h p hp
      rwa [hname] at hfits
    · intro h p hp
      cases hname : p.name with
      | none => exact List.forall_mem_singleton.2 fits_zero
      | some name => exact h name ⟨p, hp, hname⟩
  · rename_i hclear
    have hnone : m.params.filterMap (·.name) = [] := by
      refine List.filterMap_eq_nil_iff.2 fun p hp => Option.not_isSome_iff_eq_none.1 fun hsome => ?_
      exact hclear (hasParamNames_announcedFlags hp hsome)
    rw [hnone]
    exact .pure []

theorem emits_write (m : Method) : Emits W (m.write W) m.emitted :=
  (Emits.number _).bind fun _ =>
  (Emits.index m.returnType).bind fun _ =>
  (Emits.each (fun p => .index p.type) m.params).bind fun _ =>
  (Emits.index m.name).bind fun _ =>
  m.emits_defaults.bind_of_ok fun ds hds => by
    rw [filterMap_default hds]
    exact (emits_writeDefaults hds).bind fun _ => m.emits_writeNames.ret _

end Method

/-! ## Traits -/

namespace Member

/-- A value at the reserved position is written as none. -/
def emittedValue : Option Literal → List Field
  | none => []
  | some l => if l.index = 0 then [] else [.literal l]

theorem emits_writeValue (value : Option Literal) :
    Emits W (writeValue W value) (emittedValue value) := by
  cases value with
  | none => exact .zero
  | some l =>
    simp only [writeValue, emittedValue]
    split
    · exact .zero
    · exact l.emits_write

def emitted : Member → List Field
  | slot _ slotId type value => .number slotId :: (type.emitted ++ emittedValue value)
  | method _ dispId ref => .number dispId :: ref.emitted
  | classRef slotId ref => .number slotId :: ref.emitted
  | function slotId ref => .number slotId :: ref.emitted

theorem emits_write (m : Member) : Emits W (m.write W) m.emitted := by
  cases m with
  | slot _ slotId type value =>
    exact (Emits.number slotId).bind fun _ => (Emits.index type).bind fun _ =>
      (emits_writeValue value).ret _
  | method _ dispId ref => exact (Emits.number dispId).bind fun _ => (Emits.index ref).ret _
  | classRef slotId ref => exact (Emits.number slotId).bind fun _ => (Emits.index ref).ret _
  | function slotId ref => exact (Emits.number slotId).bind fun _ => (Emits.index ref).ret _

end Member

namespace Trait

def emittedMetadata : Option (List (Index .metadata)) → List Field
  | none => []
  | some refs => .number refs.length :: refs.flatMap Index.emitted

theorem emits_writeMetadata (metadata : Option (List (Index .metadata))) :
    Emits W (writeMetadata W metadata) (emittedMetadata metadata) := by
  cases metadata with
  | none => exact .pure []
  | some refs => exact .counted Emits.index refs

def emitted (t : Trait) : List Field :=
  t.name.emitted ++ (t.member.emitted ++ emittedMetadata t.metadata)

theorem emits_write (t : Trait) : Emits W (t.write W) t.emitted :=
  (Emits.index t.name).bind fun _ => t.member.emits_write.bind fun _ =>
    (emits_writeMetadata t.metadata).ret _

def emittedAll (traits : List Trait) : List Field :=
  .number traits.length :: traits.flatMap emitted

theorem emits_writeAll (traits : List Trait) : Emits W (writeAll W traits) (emittedAll traits) :=
  (Emits.number _).bind fun _ => (Emits.records emits_write 0 traits).ret _

end Trait

/-! ## Instances, classes and scripts -/

namespace Instance

def emittedProtectedNs : Option (Index .namespaces) → List Field
  | none => []
  | some ns => ns.emitted

theorem emits_writeProtectedNs (ns : Option (Index .namespaces)) :
    Emits W (writeProtectedNs W ns) (emittedProtectedNs ns) := by
  cases ns with
  | none => exact .pure []
  | some ns => exact .index ns

def emitted (i : Instance) : List Field :=
  i.name.emitted ++ (i.superName.emitted ++ (emittedProtectedNs i.protectedNs ++
  (.number i.interfaces.length :: i.interfaces.flatMap Index.emitted ++
  (i.init.emitted ++ Trait.emittedAll i.traits))))

theorem emits_write (i : Instance) : Emits W (i.write W) i.emitted :=
  (Emits.index i.name).bind fun _ =>
  (Emits.index i.superName).bind fun _ =>
  (emits_writeProtectedNs i.protectedNs).bind fun _ =>
  (Emits.counted Emits.index i.interfaces).bind fun _ =>
  (Emits.index i.init).bind fun _ =>
  (Trait.emits_writeAll i.traits).ret _

end Instance

def Class.emitted (c : Class) : List Field := c.init.emitted ++ Trait.emittedAll c.traits

theorem Class.emits_write (c : Class) : Emits W (c.write W) c.emitted :=
  (Emits.index c.init).bind fun _ => (Trait.emits_writeAll c.traits).ret _

def Script.emitted (s : Script) : List Field := s.init.emitted ++ Trait.emittedAll s.traits

theorem Script.emits_write (s : Script) : Emits W (s.write W) s.emitted :=
  (Emits.index s.init).bind fun _ => (Trait.emits_writeAll s.traits).ret _

end ActionCode
