import ActionCode.Proofs.Readback.Constants

/-!
# Records are read back

Metadata, methods, traits and what has traits, each under a writer that knows all tables of
a file and a reader that knows no more than it.
-/

namespace ActionCode

open Reader (Reads)

/-- The tables that records can refer to. -/
def Table.shared : List Table := Table.constants ++ [methods, metadata, classes]

theorem Scope.KnowsAll.constants {W : Scope} (h : W.KnowsAll Table.shared) :
    W.KnowsAll Table.constants :=
  fun t ht => h t (List.mem_append_left _ ht)

variable {R W : Scope} {offset : Nat} {run : Bytes}

/-! ## Literals -/

namespace Literal

theorem table_mem_constants {kind : Int} {t : Table} (h : meaning kind = some (.entry t)) :
    t ∈ Table.constants := by
  unfold meaning at h
  split at h
  all_goals first
    | simp only [Option.some.injEq, Meaning.entry.injEq] at h; subst h; decide
    | simp at h

theorem check_eq_ok {l : Literal} {kindOffset indexOffset : Option Int} :
    l.check W kindOffset indexOffset = .ok () ↔
      (meaning l.kind).isSome ∧ ∀ t, meaning l.kind = some (.entry t) → W.Admits t l.index := by
  unfold check
  split
  · rename_i hkind
    simp [hkind]
  · rename_i t hkind
    rw [Scope.check_eq_ok, hkind]
    simp
  all_goals
    rename_i hkind
    simp [hkind]

theorem write_eq_ok {l : Literal} : l.write W = .ok run ↔
    l.check W none none = .ok () ∧ ∃ index, Varint.writeU30 l.index = .ok index ∧
      ∃ kind, Varint.writeByte l.kind = .ok kind ∧ index ++ kind = run := by
  unfold write
  split
  · rename_i v hv
    simp [hv]
  · rename_i hok
    simp only [hok, true_and, Outcome.bind_eq_ok, Outcome.pure_eq_ok]

/-- The index as it is read back, which is the same if it points anywhere. -/
theorem normal_eq {l : Literal} (hW : W.KnowsAll Table.constants) (h : l.write W = .ok run) :
    l.normal = ⟨l.kind, Varint.wrap l.index⟩ := by
  obtain ⟨hcheck, index, hindex, -⟩ := write_eq_ok.1 h
  obtain ⟨hsome, hadmits⟩ := check_eq_ok.1 hcheck
  unfold normal
  split
  · rfl
  · rfl
  · rfl
  · rfl
  · rename_i t hkind
    have hwrite : W.writeIndex (⟨l.index⟩ : Index t) = .ok index :=
      Scope.writeIndex_eq_ok.2 ⟨hadmits t hkind, hindex⟩
    have hwrap : Varint.wrap l.index = l.index :=
      Scope.wrap_of_writeIndex (hW t (table_mem_constants hkind)) hwrite
    rw [hwrap]
  · rename_i hkind
    simp [hkind] at hsome

/-- What is written of a literal, cut between its index and its kind. -/
theorem reads_readKind {l : Literal} (hR : R.Within W) (hW : W.KnowsAll Table.constants)
    (h : l.write W = .ok run) : ∃ index kind, run = index ++ kind ∧
      Varint.writeU30 l.index = .ok index ∧ ∀ indexOffset offset,
        Reads W offset (readKind R (Varint.wrap l.index).toNat indexOffset) kind l.normal := by
  obtain ⟨hcheck, index, hindex, kind, hkind, rfl⟩ := write_eq_ok.1 h
  refine ⟨index, kind, rfl, hindex, fun indexOffset offset => ?_⟩
  obtain ⟨b, hb, rfl⟩ := Varint.writeByte_eq_ok.1 hkind
  obtain ⟨hsome, hadmits⟩ := check_eq_ok.1 hcheck
  have hstill : l.normal.check R (some offset) (some indexOffset) = .ok () := by
    rw [normal_eq hW h]
    refine check_eq_ok.2 ⟨hsome, fun t ht count hcount => ?_⟩
    have hwrite : W.writeIndex (⟨l.index⟩ : Index t) = .ok index :=
      Scope.writeIndex_eq_ok.2 ⟨hadmits t ht, hindex⟩
    have hwrap : Varint.wrap l.index = l.index :=
      Scope.wrap_of_writeIndex (hW t (table_mem_constants ht)) hwrite
    rw [hwrap]
    exact hadmits t ht count (hR t count hcount)
  have hnormal := normal_eq hW h
  refine .offset_bind ((Reads.byte b).bind_nil ?_)
  rw [hb, Varint.natCast_toNat_wrap, ← hnormal]
  exact (Reads.lift hstill).ret _

theorem reads_read {l : Literal} (hR : R.Within W) (hW : W.KnowsAll Table.constants)
    (h : l.write W = .ok run) : Reads W offset (read R) run l.normal := by
  obtain ⟨index, kind, rfl, hindex, hkind⟩ := reads_readKind hR hW h
  exact .offset_bind ((Reads.u30 hindex).bind (hkind _ _))

end Literal

/-! ## Metadata -/

theorem Metadata.reads_read {m : Metadata} (hR : R.Within W) (hW : W.KnowsAll Table.constants)
    (h : m.write W = .ok run) : Reads W offset (read R) run m := by
  simp only [Metadata.write, Outcome.bind_eq_ok, Outcome.pure_eq_ok] at h
  obtain ⟨name, hname, number, hnumber, keys, hkeys, values, hvalues, rfl⟩ := h
  simp only [List.append_assoc]
  refine (Reads.index hR (hW _ (by decide)) hname).bind ((Reads.count hnumber).bind ?_)
  apply (Reads.replicate (·.key) (fun _ _ _ _ => .index hR (hW _ (by decide))) hkeys).bind
  refine (Reads.replicate (·.value) (fun _ _ _ _ => .index hR (hW _ (by decide)))
    hvalues).bind_nil ?_
  have hitems : ((m.items.map (·.key)).zip (m.items.map (·.value))).map
      (fun p => MetadataItem.mk p.1 p.2) = m.items := by
    rw [List.zip_map', List.map_map]
    exact List.map_id _
  rw [hitems]
  exact .pure m

/-! ## Flags of methods -/

namespace MethodFlag
theorem isSet_iff (f : MethodFlag) (flags : Int) :
    f.isSet flags = true ↔ flags / 2 ^ f.bit % 2 = 1 :=
  decide_eq_true_iff

theorem isSet_assign (f : MethodFlag) (flags : Int) : f.isSet (f.assign true flags) = true := by
  unfold assign
  split
  · rename_i h _
    rw [← Bool.not_eq_true, isSet_iff] at h
    rw [isSet_iff]
    cases f
    all_goals
      simp only [bit] at h ⊢
      omega
  · rename_i h
    cases h
  · rename_i hclear _
    exact eq_true_of_ne_false fun h => hclear h rfl

/-- The two announcements do not disturb each other. -/
theorem hasDefaults_isSet_assign (flags : Int) :
    hasDefaults.isSet (hasParamNames.assign true flags) = hasDefaults.isSet flags := by
  unfold assign
  split
  · rw [Bool.eq_iff_iff, isSet_iff, isSet_iff]
    simp only [bit]
    omega
  · rename_i h
    cases h
  · rfl

theorem isSet_natCast (f : MethodFlag) (n : Nat) : f.isSet n = n.testBit f.bit := by
  rw [Bool.eq_iff_iff, isSet_iff, Nat.testBit_eq_decide_div_mod_eq, decide_eq_true_iff]
  cases f
  all_goals
    simp only [bit]
    omega

/-- A flag is read off the byte that it is kept in. -/
theorem testBit_byte (f : MethodFlag) (flags : Int) :
    (flags % 256).toNat.testBit f.bit = f.isSet (flags % 256) := by
  rw [← isSet_natCast, Int.toNat_of_nonneg (Int.emod_nonneg _ (by decide))]

theorem isSet_byte (f : MethodFlag) (flags : Int) : f.isSet (flags % 256) = f.isSet flags := by
  rw [Bool.eq_iff_iff, isSet_iff, isSet_iff]
  cases f
  all_goals
    simp only [bit]
    omega

end MethodFlag

/-! ## Methods -/

namespace Method

theorem hasDefaults_announcedFlags {m : Method} {p : Param} (hp : p ∈ m.params)
    (h : p.default.isSome) : MethodFlag.hasDefaults.isSet m.announcedFlags = true := by
  have hany : m.params.any (·.default.isSome) = true := List.any_eq_true.2 ⟨p, hp, h⟩
  simp only [announcedFlags, hany, if_true]
  split
  · rw [MethodFlag.hasDefaults_isSet_assign]
    exact MethodFlag.isSet_assign _ _
  · exact MethodFlag.isSet_assign _ _

theorem hasParamNames_announcedFlags {m : Method} {p : Param} (hp : p ∈ m.params)
    (h : p.name.isSome) : MethodFlag.hasParamNames.isSet m.announcedFlags = true := by
  have hany : m.params.any (·.name.isSome) = true := List.any_eq_true.2 ⟨p, hp, h⟩
  simp only [announcedFlags, hany, if_true]
  exact MethodFlag.isSet_assign _ _

/-- The defaults of a list of parameters in which every one or none of the first has one. -/
theorem defaultsFrom_eq_ok {first : Nat} {begun : Bool} {params : List Param}
    {ds : List Literal} (h : defaultsFrom first begun params = .ok ds) :
    ∃ missing, params.map (·.default) = List.replicate missing none ++ ds.map some ∧
      (begun = true → missing = 0) := by
  induction params generalizing first begun ds with
  | nil =>
    simp only [defaultsFrom, Except.ok.injEq] at h
    subst h
    exact ⟨0, rfl, fun _ => rfl⟩
  | cons p params ih =>
    simp only [defaultsFrom] at h
    split at h
    · rename_i l hl
      obtain ⟨tail, htail, rfl⟩ := Outcome.map_eq_ok.1 h
      obtain ⟨missing, hmap, hmissing⟩ := ih htail
      obtain rfl := hmissing rfl
      exact ⟨0, by simp [hl, hmap], fun _ => rfl⟩
    · rename_i hnone
      split at h
      · simp at h
      · rename_i hbegun
        obtain ⟨missing, hmap, -⟩ := ih h
        exact ⟨missing + 1, by simp [hnone, hmap, List.replicate_succ],
          fun hb => absurd hb hbegun⟩

/-- Defaults belong to the last parameters. -/
theorem defaults_eq_ok {m : Method} {ds : List Literal} (h : m.defaults = .ok ds) :
    ds.length ≤ m.params.length ∧
      List.replicate (m.params.length - ds.length) none ++ ds.map some
        = m.params.map (·.default) := by
  obtain ⟨missing, hmap, -⟩ := defaultsFrom_eq_ok h
  have hlength := congrArg List.length hmap
  simp only [List.length_map, List.length_append, List.length_replicate] at hlength
  have hcount : m.params.length - ds.length = missing := by omega
  exact ⟨by omega, by rw [hcount, hmap]⟩

/-- Parameters are put together again from their types, names and defaults. -/
theorem assemble_map {params : List Param} {names : Param → Option (Index .strings)}
    {ds : List Literal}
    (hds : List.replicate (params.length - ds.length) none ++ ds.map some
      = params.map (·.default)) :
    assemble (params.map (·.type)) (params.map names) (ds.map Literal.normal) =
      params.map fun p => { p with name := names p, default := p.default.map Literal.normal } := by
  have hdefaults : List.replicate (params.length - ds.length) none
      ++ (ds.map Literal.normal).map some = params.map (·.default.map Literal.normal) := by
    have hmap := congrArg (List.map (Option.map Literal.normal)) hds
    simpa [Function.comp_def] using hmap
  simp only [assemble, List.length_map]
  rw [hdefaults]
  simp only [List.zip_map', List.map_map]
  rfl

theorem reads_readDefaults {m : Method} {ds : List Literal} (hR : R.Within W)
    (hW : W.KnowsAll Table.constants) (hds : m.defaults = .ok ds)
    (h : writeDefaults W m.announcedFlags ds = .ok run) :
    Reads W offset (readDefaults R m.normalFlags.toNat m.params.length) run
      (ds.map Literal.normal) := by
  have hflag : m.normalFlags.toNat.testBit MethodFlag.hasDefaults.bit =
      MethodFlag.hasDefaults.isSet m.announcedFlags := by
    rw [normalFlags, MethodFlag.testBit_byte, MethodFlag.isSet_byte]
  obtain ⟨hlength, hmap⟩ := defaults_eq_ok hds
  unfold writeDefaults at h
  unfold readDefaults
  rw [hflag]
  split at h
  · rename_i hset
    simp only [writeCounted, Outcome.bind_eq_ok, Outcome.pure_eq_ok] at h
    obtain ⟨number, hnumber, each, heach, rfl⟩ := h
    rw [if_pos hset]
    refine .offset_bind ((Reads.count hnumber).bind ?_)
    rw [if_neg (by omega)]
    exact .replicate _ (fun _ _ _ _ => Literal.reads_read hR hW) heach
  · rename_i hclear
    simp only [Outcome.pure_eq_ok] at h
    subst h
    have hnil : ds = [] := by
      refine List.eq_nil_iff_forall_not_mem.2 fun l hl => hclear ?_
      have hmem : some l ∈ m.params.map (·.default) := by
        rw [← hmap]
        exact List.mem_append_right _ (List.mem_map_of_mem hl)
      obtain ⟨p, hp, hpl⟩ := List.mem_map.1 hmem
      exact hasDefaults_announcedFlags hp (by rw [hpl]; rfl)
    rw [if_neg hclear, hnil]
    exact .pure _

theorem reads_readNames {m : Method} (hR : R.Within W) (hW : W.KnowsAll Table.constants)
    (h : writeNames W m.announcedFlags m.params = .ok run) :
    Reads W offset (readNames R m.normalFlags.toNat m.params.length) run
      (m.params.map m.normalName) := by
  have hflag : m.normalFlags.toNat.testBit MethodFlag.hasParamNames.bit =
      MethodFlag.hasParamNames.isSet m.normalFlags := MethodFlag.testBit_byte _ _
  have hsame : MethodFlag.hasParamNames.isSet m.normalFlags =
      MethodFlag.hasParamNames.isSet m.announcedFlags := MethodFlag.isSet_byte _ _
  unfold writeNames at h
  unfold readNames normalName
  rw [hflag, hsame]
  split at h
  · rename_i hset
    simp only [if_pos hset]
    have hnames : Reads W offset
        (Reader.replicate (R.readIndex .strings) m.params.length) run _ :=
      .replicate (fun p => p.name.getD 0) (fun _ _ _ _ => .index hR (hW _ (by decide))) h
    have hread := hnames.ret (List.map some)
    rwa [List.map_map] at hread
  · rename_i hclear
    simp only [Outcome.pure_eq_ok] at h
    subst h
    have hnone : m.params.map (·.name) = List.replicate m.params.length none := by
      refine List.eq_replicate_iff.2 ⟨List.length_map _, fun name hname => ?_⟩
      obtain ⟨p, hp, rfl⟩ := List.mem_map.1 hname
      exact Option.not_isSome_iff_eq_none.1 fun h => hclear (hasParamNames_announcedFlags hp h)
    simp only [if_neg hclear, hnone]
    exact .pure _

theorem reads_read {m : Method} (hR : R.Within W) (hW : W.KnowsAll Table.constants)
    (h : m.write W = .ok run) : Reads W offset (read R) run m.normal := by
  simp only [write, Outcome.bind_eq_ok, Outcome.pure_eq_ok] at h
  obtain ⟨number, hnumber, returnType, hreturnType, types, htypes, name, hname, ds, hds,
    defaults, hdefaults, names, hnames, rfl⟩ := h
  obtain ⟨-, hmap⟩ := defaults_eq_ok hds
  have hnonneg : 0 ≤ m.normalFlags := Int.emod_nonneg _ (by decide)
  have hlt : m.normalFlags < 256 := Int.emod_lt_of_pos _ (by decide)
  have hbyte : m.normalFlags.toNat.toUInt8.toNat = m.normalFlags.toNat :=
    Bytes.toNat_toUInt8 (by omega)
  simp only [List.append_assoc, List.cons_append]
  apply (Reads.count hnumber).bind
  apply (Reads.index hR (hW _ (by decide)) hreturnType).bind
  apply (Reads.replicate (·.type) (fun _ _ _ _ => .index hR (hW _ (by decide))) htypes).bind
  apply (Reads.index hR (hW _ (by decide)) hname).bind
  apply (Reads.byte m.normalFlags.toNat.toUInt8).bind
  rw [hbyte]
  apply (reads_readDefaults hR hW hds hdefaults).bind
  apply (reads_readNames hR hW hnames).bind_nil
  rw [assemble_map hmap, Int.toNat_of_nonneg hnonneg]
  exact .pure m.normal

end Method

/-! ## Traits -/

namespace Member

/-- A value that is there needs a position other than the reserved one. -/
theorem reads_readSlot {constant : Bool} {slotId : Int} {type : Index .multinames}
    {value : Option Literal} (hR : R.Within W) (hW : W.KnowsAll Table.shared)
    (h : (slot constant slotId type value).write W = .ok run) :
    Reads W offset (readSlot R constant) run (slot constant slotId type value).normal := by
  simp only [write, Outcome.bind_eq_ok, Outcome.pure_eq_ok] at h
  obtain ⟨number, hnumber, name, hname, rest, hrest, rfl⟩ := h
  simp only [List.append_assoc]
  apply (Reads.u30 hnumber).bind
  refine (Reads.index hR (hW _ (by decide)) hname).bind (.offset_bind ?_)
  have hzero (hrest : Varint.writeU30 0 = .ok rest) (offset : Nat) :
      Reads W offset Reader.u30 rest 0 := Reads.u30 hrest
  rw [normal, Varint.natCast_toNat_wrap]
  cases value with
  | none =>
    apply (hzero hrest _).bind_nil
    rw [if_pos rfl]
    exact .pure _
  | some l =>
    simp only [writeValue] at hrest
    simp only [normalValue]
    split at hrest
    · rename_i hindex
      rw [if_pos hindex]
      apply (hzero hrest _).bind_nil
      rw [if_pos rfl]
      exact .pure _
    · rename_i hindex
      obtain ⟨index, kind, rfl, hwritten, hkind⟩ :=
        Literal.reads_readKind hR hW.constants hrest
      have hne : (Varint.wrap l.index).toNat ≠ 0 := by
        obtain ⟨hrange, -⟩ := Varint.writeU30_eq_ok.1 hwritten
        have hcast := Varint.natCast_toNat_wrap l.index
        unfold Varint.wrap at hcast ⊢
        omega
      rw [if_neg hindex]
      apply (Reads.u30 hwritten).bind
      rw [if_neg hne]
      exact (hkind _ _).ret _

theorem reads_read {m : Member} (hR : R.Within W) (hW : W.KnowsAll Table.shared)
    (tagOffset : Nat) (h : m.write W = .ok run) :
    Reads W offset (read R m.kind tagOffset) run m.normal := by
  cases m with
  | slot constant slotId type value =>
    have hread : Reads W offset (readSlot R constant) run _ := reads_readSlot hR hW h
    cases constant
    · exact hread
    · exact hread
  | method role dispId ref =>
    simp only [write, Outcome.bind_eq_ok, Outcome.pure_eq_ok] at h
    obtain ⟨number, hnumber, index, hindex, rfl⟩ := h
    have hread : Reads W offset (readMethod R role) (number ++ index) _ :=
      (Reads.u30 hnumber).bind ((Reads.index hR (hW _ (by decide)) hindex).ret _)
    rw [normal, ← Varint.natCast_toNat_wrap]
    cases role
    · exact hread
    · exact hread
    · exact hread
  | classRef slotId ref =>
    simp only [write, Outcome.bind_eq_ok, Outcome.pure_eq_ok] at h
    obtain ⟨number, hnumber, index, hindex, rfl⟩ := h
    rw [normal, ← Varint.natCast_toNat_wrap]
    exact (Reads.u30 hnumber).bind ((Reads.index hR (hW _ (by decide)) hindex).ret _)
  | function slotId ref =>
    simp only [write, Outcome.bind_eq_ok, Outcome.pure_eq_ok] at h
    obtain ⟨number, hnumber, index, hindex, rfl⟩ := h
    rw [normal, ← Varint.natCast_toNat_wrap]
    exact (Reads.u30 hnumber).bind ((Reads.index hR (hW _ (by decide)) hindex).ret _)

theorem kind_le (m : Member) : m.kind ≤ 6 := by
  unfold kind
  split <;> decide

end Member

namespace Trait

/-- The tag byte keeps the kind and the attributes apart, and its highest bit is clear. -/
theorem tag_spec (t : Trait) : t.tag < 128 ∧ t.tag % 16 = t.member.kind ∧
    t.tag.testBit 4 = t.final ∧ t.tag.testBit 5 = t.override ∧
    t.tag.testBit 6 = t.metadata.isSome := by
  have hkind := t.member.kind_le
  simp only [Nat.testBit_eq_decide_div_mod_eq, tag]
  cases t.final <;> cases t.override <;> cases t.metadata.isSome
  all_goals
    simp only [Bool.false_eq_true, if_false, if_true, decide_eq_false_iff_not, decide_eq_true_eq]
    omega

theorem reads_readMetadata {metadata : Option (List (Index .metadata))} (hR : R.Within W)
    (hW : W.KnowsAll Table.shared) (h : writeMetadata W metadata = .ok run) :
    Reads W offset (readMetadata R metadata.isSome) run metadata := by
  cases metadata with
  | none =>
    simp only [writeMetadata, Outcome.pure_eq_ok] at h
    exact h ▸ .pure _
  | some refs =>
    have hread : Reads W offset (Reader.counted (R.readIndex .metadata)) run _ :=
      .counted id (fun _ _ _ _ => .index hR (hW _ (by decide))) h
    rw [List.map_id] at hread
    exact hread.ret some

theorem reads_read {t : Trait} (hR : R.Within W) (hW : W.KnowsAll Table.shared)
    (h : t.write W = .ok run) : Reads W offset (read R) run t.normal := by
  simp only [write, Outcome.bind_eq_ok, Outcome.pure_eq_ok] at h
  obtain ⟨name, hname, member, hmember, metadata, hmetadata, rfl⟩ := h
  obtain ⟨hlt, hkind, hfinal, hoverride, hsome⟩ := t.tag_spec
  have hbyte : t.tag.toUInt8.toNat = t.tag := Bytes.toNat_toUInt8 (by omega)
  simp only [List.append_assoc, List.cons_append]
  refine (Reads.index hR (hW _ (by decide)) hname).bind (.offset_bind ?_)
  apply (Reads.flags 1 (by omega)).bind
  rw [hbyte, hkind, hfinal, hoverride, hsome]
  apply (Member.reads_read hR hW _ hmember).bind
  exact (reads_readMetadata hR hW hmetadata).ret _

theorem reads_readAll {traits : List Trait} (hR : R.Within W) (hW : W.KnowsAll Table.shared)
    (h : writeAll W traits = .ok run) :
    Reads W offset (readAll R) run (traits.map Trait.normal) := by
  simp only [writeAll, Outcome.bind_eq_ok, Outcome.pure_eq_ok] at h
  obtain ⟨number, hnumber, each, heach, rfl⟩ := h
  apply (Reads.count hnumber).bind
  exact .records normal (fun _ _ _ _ => reads_read hR hW) (writeRecords_eq_ok.1 heach)

end Trait

/-! ## Owners of traits -/

namespace Instance

theorem flags_spec (i : Instance) : i.flags < 16 ∧ i.flags.testBit 0 = i.sealed ∧
    i.flags.testBit 1 = i.final ∧ i.flags.testBit 2 = i.interface ∧
    i.flags.testBit 3 = i.protectedNs.isSome := by
  simp only [flags]
  cases i.sealed <;> cases i.final <;> cases i.interface <;> cases i.protectedNs.isSome
  all_goals decide

theorem reads_readProtectedNs {ns : Option (Index .namespaces)} (hR : R.Within W)
    (hW : W.KnowsAll Table.shared) (h : writeProtectedNs W ns = .ok run) :
    Reads W offset (readProtectedNs R ns.isSome) run ns := by
  cases ns with
  | none =>
    simp only [writeProtectedNs, Outcome.pure_eq_ok] at h
    exact h ▸ .pure _
  | some ns => exact (Reads.index hR (hW _ (by decide)) h).ret some

theorem reads_read {i : Instance} (hR : R.Within W) (hW : W.KnowsAll Table.shared)
    (h : i.write W = .ok run) : Reads W offset (read R) run i.normal := by
  simp only [write, Outcome.bind_eq_ok, Outcome.pure_eq_ok] at h
  obtain ⟨name, hname, superName, hsuper, ns, hns, interfaces, hinterfaces, init, hinit,
    traits, htraits, rfl⟩ := h
  obtain ⟨hlt, hsealed, hfinal, hinterface, hsome⟩ := i.flags_spec
  have hbyte : i.flags.toUInt8.toNat = i.flags := Bytes.toNat_toUInt8 (by omega)
  have hlist {offset : Nat} :
      Reads W offset (Reader.counted (R.readIndex .multinames)) interfaces i.interfaces := by
    rw [← List.map_id i.interfaces]
    exact .counted id (fun _ _ _ _ => .index hR (hW _ (by decide))) hinterfaces
  simp only [List.append_assoc, List.cons_append]
  apply (Reads.index hR (hW _ (by decide)) hname).bind
  apply (Reads.index hR (hW _ (by decide)) hsuper).bind
  apply (Reads.flags 4 (by omega)).bind
  rw [hbyte, hsealed, hfinal, hinterface, hsome]
  refine (reads_readProtectedNs hR hW hns).bind (hlist.bind ?_)
  apply (Reads.index hR (hW _ (by decide)) hinit).bind
  exact (Trait.reads_readAll hR hW htraits).ret _

end Instance

theorem Class.reads_read {c : Class} (hR : R.Within W) (hW : W.KnowsAll Table.shared)
    (h : c.write W = .ok run) : Reads W offset (read R) run c.normal := by
  simp only [Class.write, Outcome.bind_eq_ok, Outcome.pure_eq_ok] at h
  obtain ⟨init, hinit, traits, htraits, rfl⟩ := h
  apply (Reads.index hR (hW _ (by decide)) hinit).bind
  exact (Trait.reads_readAll hR hW htraits).ret _

theorem Script.reads_read {s : Script} (hR : R.Within W) (hW : W.KnowsAll Table.shared)
    (h : s.write W = .ok run) : Reads W offset (read R) run s.normal := by
  simp only [Script.write, Outcome.bind_eq_ok, Outcome.pure_eq_ok] at h
  obtain ⟨init, hinit, traits, htraits, rfl⟩ := h
  apply (Reads.index hR (hW _ (by decide)) hinit).bind
  exact (Trait.reads_readAll hR hW htraits).ret _

end ActionCode
