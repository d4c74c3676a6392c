import ActionCode.Proofs.Readback.Records
import ActionCode.Proofs.Writeback.Constants

/-!
# Records are written back

Metadata, methods, traits and what has traits. The kinds and flags in front of a record are
worked out again from what was made of them.
-/

namespace ActionCode

open Reader (Yields)

variable {C : Spelling → Prop} {R W A : Scope} {later : List Table}

/-- References of a record, as a list of them wants to have them. -/
theorem yields_index {t : Table} {tables : List Table} (h : R.Mirrors W A later tables)
    (ht : t ∈ tables) : Yields C A later (R.readIndex t) fun i run =>
      W.writeIndex i = .ok run ∧ True :=
  (Yields.index h ht).imp fun _ _ hi => ⟨hi.1, trivial⟩

theorem writeEach_map {α β : Type} (write : β → Except Fault Bytes) (f : α → β) (xs : List α) :
    writeEach write (xs.map f) = writeEach (fun x => write (f x)) xs := by
  induction xs with
  | nil => rfl
  | cons x xs ih => rw [List.map_cons, writeEach, writeEach, ih]

/-- The lowest bits of a number, one after another. -/
theorem mod_two_pow_succ (n k : Nat) :
    n % 2 ^ (k + 1) = n % 2 ^ k + if n.testBit k then 2 ^ k else 0 := by
  rw [Nat.mod_pow_succ, ← Nat.toNat_testBit]
  cases n.testBit k with
  | false => simp
  | true => simp

/-! ## Literals -/

namespace Literal

theorem normal_of_wrap {l : Literal} (h : Varint.wrap l.index = l.index) : l.normal = l := by
  unfold normal
  split
  all_goals first | rw [h] | rfl

/-- The kind behind an index, which is judged at once. -/
theorem yields_readKind (h : R.Mirrors W A later Table.constants)
    (hnow : ∀ t ∈ Table.constants, t ∉ later) (index indexOffset : Nat) :
    Yields C A later (readKind R index indexOffset) fun l run =>
      l.index = index ∧ l.check W none none = .ok () ∧ Varint.writeByte l.kind = .ok run := by
  refine .offset_bind fun o => ?_
  refine (Yields.byte.bind fun kind => Yields.lift.bind fun _ =>
    Yields.pure (⟨kind.toNat, index⟩ : Literal)).imp ?_
  intro _ _ hpost
  rcases hpost with ⟨kind, _, rfl, _, ⟨_, _, ⟨hcheck, rfl⟩, _, ⟨rfl, rfl⟩, rfl⟩, rfl⟩
  refine ⟨rfl, ?_, Varint.writeByte_eq_ok.2 ⟨kind, rfl, rfl⟩⟩
  obtain ⟨hsome, hadmits⟩ := check_eq_ok.1 hcheck
  refine check_eq_ok.2 ⟨hsome, fun t ht count hcount => hadmits t ht count ?_⟩
  have hmem := table_mem_constants ht
  exact (h.now hmem (hnow t hmem)).trans hcount

theorem yields_read (h : R.Mirrors W A later Table.constants)
    (hnow : ∀ t ∈ Table.constants, t ∉ later) :
    Yields C A later (read R) fun l run => l.write W = .ok run ∧ l.normal = l := by
  refine .offset_bind fun o => ?_
  apply (Yields.u30.bind fun n => yields_readKind h hnow n o).imp
  intro l _ hpost
  rcases hpost with ⟨n, a, ⟨ha, hn⟩, b, ⟨hindex, hcheck, hb⟩, rfl⟩
  rw [← hindex] at ha hn
  exact ⟨write_eq_ok.2 ⟨hcheck, a, ha, b, hb, rfl⟩, normal_of_wrap hn⟩

end Literal

/-! ## Metadata -/

theorem Metadata.yields_read (h : R.Mirrors W A later Table.constants) :
    Yields C A later (read R) fun m run => m.write W = .ok run := by
  have hstring := yields_index (C := C) h (t := .strings) (by decide)
  have hread := hstring.bind fun name => Yields.u30.bind fun count =>
    (hstring.replicate count).bind fun keys => (hstring.replicate count).ret fun values =>
      Metadata.mk name ((keys.zip values).map fun p => MetadataItem.mk p.1 p.2)
  apply Yields.imp (r := read R) hread
  intro _ _ hpost
  rcases hpost with ⟨name, a, ⟨ha, -⟩, _, ⟨count, b, ⟨hb, -⟩, _, ⟨keys, c, ⟨hkeys, hc, -⟩, d,
      ⟨values, ⟨hvalues, hd, -⟩, rfl⟩, rfl⟩, rfl⟩, rfl⟩
  have hkeys' : ((keys.zip values).map fun p => MetadataItem.mk p.1 p.2).map (·.key) = keys := by
    rw [List.map_map]
    exact List.map_fst_zip (by omega)
  have hvalues' :
      ((keys.zip values).map fun p => MetadataItem.mk p.1 p.2).map (·.value) = values := by
    rw [List.map_map]
    exact List.map_snd_zip (by omega)
  generalize (keys.zip values).map _ = items at hkeys' hvalues' ⊢
  have hlength := congrArg List.length hkeys'
  rw [List.length_map, hkeys] at hlength
  rw [← hkeys', writeEach_map] at hc
  rw [← hvalues', writeEach_map] at hd
  simp only [Metadata.write, Outcome.bind_eq_ok, Outcome.pure_eq_ok, hlength]
  exact ⟨a, ha, b, hb, c, hc, d, hd, by simp only [List.append_assoc]⟩

/-! ## Methods -/

theorem MethodFlag.assign_of_isSet {f : MethodFlag} {flags : Int} (h : f.isSet flags = true) :
    f.assign true flags = flags := by
  unfold assign
  rw [h]

namespace Method

/-- Defaults that are given to the last parameters are found there. -/
theorem defaultsFrom_of_map {first missing : Nat} {begun : Bool} {params : List Param}
    {ds : List Literal} (h : params.map (·.default) = List.replicate missing none ++ ds.map some)
    (hbegun : begun = true → missing = 0) : defaultsFrom first begun params = .ok ds := by
  induction params generalizing first missing begun ds with
  | nil =>
    have hnil := (List.append_eq_nil_iff.1 h.symm).2
    rw [List.map_eq_nil_iff.1 hnil]
    rfl
  | cons p params ih =>
    cases missing with
    | zero =>
      cases ds with
      | nil => simp at h
      | cons l ds =>
        simp only [List.replicate_zero, List.nil_append, List.map_cons, List.cons.injEq] at h
        simp only [defaultsFrom, h.1]
        have hrest : params.map (·.default) = List.replicate 0 none ++ ds.map some := h.2
        rw [ih hrest fun _ => rfl]
        rfl
    | succ missing =>
      simp only [List.replicate_succ, List.cons_append, List.map_cons, List.cons.injEq] at h
      have hfirst : begun = false := by
        cases begun
        · rfl
        · exact absurd (hbegun rfl) (by omega)
      simp only [defaultsFrom, h.1, hfirst, Bool.false_eq_true, if_false]
      exact ih h.2 (by simp)

theorem map_assemble {types : List (Index .multinames)} {names : List (Option (Index .strings))}
    {ds : List Literal} (hnames : names.length = types.length) (hds : ds.length ≤ types.length) :
    (assemble types names ds).map (·.type) = types ∧
      (assemble types names ds).map (·.name) = names ∧
      (assemble types names ds).map (·.default) =
        List.replicate (types.length - ds.length) none ++ ds.map some := by
  simp only [assemble, List.map_map]
  generalize hrest : List.replicate (types.length - ds.length) none ++ ds.map some = rest
  have hlength : rest.length = types.length := by
    rw [← hrest, List.length_append, List.length_replicate, List.length_map]
    omega
  have hzip : (names.zip rest).length = types.length := by
    rw [List.length_zip]
    omega
  refine ⟨List.map_fst_zip (by omega), ?_, ?_⟩
  · calc (types.zip (names.zip rest)).map (·.2.1)
        = ((types.zip (names.zip rest)).map (·.2)).map (·.1) := by rw [List.map_map]; rfl
      _ = names := by rw [List.map_snd_zip (by omega), List.map_fst_zip (by omega)]
  · calc (types.zip (names.zip rest)).map (·.2.2)
        = ((types.zip (names.zip rest)).map (·.2)).map (·.2) := by rw [List.map_map]; rfl
      _ = rest := by rw [List.map_snd_zip (by omega), List.map_snd_zip (by omega)]

theorem yields_readDefaults (h : R.Mirrors W A later Table.constants)
    (hnow : ∀ t ∈ Table.constants, t ∉ later) (flags count : Nat) :
    Yields C A later (readDefaults R flags count) fun ds run =>
      writeDefaults W flags ds = .ok run ∧ (∀ l ∈ ds, l.normal = l) ∧ ds.length ≤ count ∧
        (ds ≠ [] → MethodFlag.hasDefaults.isSet flags = true) := by
  unfold readDefaults writeDefaults
  rw [MethodFlag.isSet_natCast]
  split
  · rename_i hset
    refine .offset_bind fun o => ?_
    refine (Yields.u30.bind (Q := fun n ds run => n ≤ count ∧ ds.length = n ∧
      writeEach (Literal.write W) ds = .ok run ∧ ∀ l ∈ ds, l.normal = l) fun n => ?_).imp ?_
    · split
      · exact .fail
      · refine ((Literal.yields_read h hnow).replicate n).imp fun ds run hds => ⟨?_, hds⟩
        omega
    · intro ds _ hpost
      rcases hpost with ⟨n, a, ⟨ha, -⟩, b, ⟨hle, rfl, hb, hnormal⟩, rfl⟩
      simp only [writeCounted, Outcome.bind_eq_ok, Outcome.pure_eq_ok]
      exact ⟨⟨a, ha, b, hb, rfl⟩, hnormal, hle, fun _ => hset⟩
  · rename_i hclear
    apply (Yields.pure []).imp
    intro _ _ hpost
    rcases hpost with ⟨rfl, rfl⟩
    exact ⟨rfl, by simp, Nat.zero_le _, fun hne => absurd rfl hne⟩

/-- Either all parameters are named or none is. -/
theorem yields_readNames (h : R.Mirrors W A later Table.constants) (flags count : Nat) :
    Yields C A later (readNames R flags count) fun names run =>
      names.length = count ∧
      (∀ params : List Param, params.map (·.name) = names → writeNames W flags params = .ok run) ∧
      ∀ name ∈ names, name.isSome = MethodFlag.hasParamNames.isSet flags := by
  unfold readNames writeNames
  rw [MethodFlag.isSet_natCast]
  split
  · rename_i hset
    refine (((yields_index h (t := .strings) (by decide)).replicate count).ret
      (List.map some)).imp ?_
    intro _ run hpost
    rcases hpost with ⟨names, ⟨hlength, hrun, -⟩, rfl⟩
    refine ⟨by rw [List.length_map, hlength], fun params hparams => ?_, ?_⟩
    · have hnames : params.map (·.name.getD 0) = names := by
        have hmap := congrArg (List.map (Option.getD · 0)) hparams
        simpa [Function.comp_def] using hmap
      rw [← hnames, writeEach_map] at hrun
      exact hrun
    · simp [hset]
  · rename_i hclear
    apply (Yields.pure _).imp
    intro _ _ hpost
    rcases hpost with ⟨rfl, rfl⟩
    refine ⟨List.length_replicate, fun _ _ => rfl, fun name hname => ?_⟩
    rw [(List.mem_replicate.1 hname).2]
    simpa using hclear

/-- What the flags announce is there, so they announce nothing else. -/
theorem announcedFlags_of_params {m : Method}
    (hdefaults : ∀ p ∈ m.params, p.default.isSome → MethodFlag.hasDefaults.isSet m.flags = true)
    (hnames : ∀ p ∈ m.params, p.name.isSome → MethodFlag.hasParamNames.isSet m.flags = true) :
    m.announcedFlags = m.flags := by
  have hfirst : (if m.params.any (·.default.isSome) then
      MethodFlag.hasDefaults.assign true m.flags else m.flags) = m.flags := by
    split
    · rename_i hany
      obtain ⟨p, hp, hsome⟩ := List.any_eq_true.1 hany
      exact MethodFlag.assign_of_isSet (hdefaults p hp hsome)
    · rfl
  simp only [announcedFlags, hfirst]
  split
  · rename_i hany
    obtain ⟨p, hp, hsome⟩ := List.any_eq_true.1 hany
    exact MethodFlag.assign_of_isSet (hnames p hp hsome)
  · rfl

/-- Nothing changes of a method whose flags announce what its parameters have. -/
theorem normal_of_params {m : Method} (hannounced : m.announcedFlags = m.flags)
    (hbyte : m.flags % 256 = m.flags)
    (hdefaults : ∀ p ∈ m.params, p.default.map Literal.normal = p.default)
    (hnames : ∀ p ∈ m.params, p.name.isSome = MethodFlag.hasParamNames.isSet m.flags) :
    m.normal = m := by
  have hflags : m.normalFlags = m.flags := by rw [normalFlags, hannounced, hbyte]
  have hkept : ∀ p ∈ m.params,
      ({ p with name := m.normalName p, default := p.default.map Literal.normal } : Param) = p := by
    intro p hp
    have hname : m.normalName p = p.name := by
      rw [normalName, hflags, ← hnames p hp]
      cases p.name with
      | none => rfl
      | some n => rfl
    rw [hname, hdefaults p hp]
  rw [normal, hflags, List.map_congr_left hkept, List.map_id']

theorem yields_read (h : R.Mirrors W A later Table.constants)
    (hnow : ∀ t ∈ Table.constants, t ∉ later) :
    Yields C A later (read R) fun m run => m.write W = .ok run ∧ m.normal = m := by
  have htype := yields_index (C := C) h (t := .multinames) (by decide)
  have hname := yields_index (C := C) h (t := .strings) (by decide)
  refine (Yields.u30.bind fun count => htype.bind fun returnType =>
    (htype.replicate count).bind fun types => hname.bind fun name => Yields.byte.bind fun flags =>
    (yields_readDefaults h hnow flags.toNat count).bind fun defaults =>
    (yields_readNames h flags.toNat count).ret fun names =>
      Method.mk name returnType (assemble types names defaults) flags.toNat).imp ?_
  intro _ _ hpost
  rcases hpost with ⟨count, a, ⟨ha, -⟩, _, ⟨returnType, b, ⟨hb, -⟩, _, ⟨types, c, ⟨rfl, hc, -⟩, _,
      ⟨name, d, ⟨hd, -⟩, _, ⟨flags, _, rfl, _, ⟨ds, e, ⟨he, hnormal, hds, hset⟩, g, ⟨names,
      ⟨hlength, hg, hsome⟩, rfl⟩, rfl⟩, rfl⟩, rfl⟩, rfl⟩, rfl⟩, rfl⟩
  obtain ⟨htypes, hnames, hdefaults⟩ := map_assemble hlength hds
  generalize assemble types names ds = params at htypes hnames hdefaults ⊢
  have hcount : params.length = types.length := by rw [← htypes, List.length_map]
  have hmissing : Method.defaults ⟨name, returnType, params, flags.toNat⟩ = .ok ds :=
    defaultsFrom_of_map hdefaults (by simp)
  have hdefault : ∀ p ∈ params, p.default = none ∨ ∃ l ∈ ds, some l = p.default := by
    intro p hp
    rcases List.mem_append.1 (hdefaults ▸ List.mem_map_of_mem hp) with hmem | hmem
    · exact .inl (List.mem_replicate.1 hmem).2
    · exact .inr (List.mem_map.1 hmem)
  have hannounced : announcedFlags ⟨name, returnType, params, flags.toNat⟩ = flags.toNat := by
    refine announcedFlags_of_params (fun p hp hpresent => ?_) fun p hp hpresent => ?_
    · rcases hdefault p hp with hnone | ⟨l, hl, -⟩
      · rw [hnone] at hpresent
        cases hpresent
      · exact hset (List.ne_nil_of_mem hl)
    · rw [← hsome p.name (hnames ▸ List.mem_map_of_mem hp)]
      exact hpresent
  have hbyte : (flags.toNat : Int) % 256 = flags.toNat := by
    have hlt := flags.toNat_lt
    omega
  constructor
  · rw [← htypes, writeEach_map] at hc
    simp only [write, Outcome.bind_eq_ok, Outcome.pure_eq_ok, hannounced, hbyte, hcount,
      Int.toNat_natCast]
    refine ⟨a, ha, b, hb, c, hc, d, hd, ds, hmissing, e, he, g, hg params hnames, ?_⟩
    simp
  · refine normal_of_params hannounced hbyte (fun p hp => ?_)
      fun p hp => hsome p.name (hnames ▸ List.mem_map_of_mem hp)
    rcases hdefault p hp with hnone | ⟨l, hl, hdefault⟩
    · rw [hnone]
      rfl
    · rw [← hdefault, Option.map_some, hnormal l hl]

end Method

/-! ## Traits -/

namespace Member

theorem yields_readSlot (h : R.Mirrors W A later Table.shared)
    (hnow : ∀ t ∈ Table.constants, t ∉ later) (constant : Bool) :
    Yields C A later (readSlot R constant) fun m run =>
      m.kind = (if constant then 6 else 0) ∧ m.write W = .ok run ∧ m.normal = m := by
  have hvalue (slotId : Nat) (type : Index .multinames) (o : Nat) :
      Yields C A later (do
        let index ← Reader.u30
        if index = 0 then return slot constant slotId type none
        else return slot constant slotId type (some (← Literal.readKind R index o)))
      fun m run => ∃ value, m = slot constant slotId type value ∧
        writeValue W value = .ok run ∧ normalValue value = value := by
    refine (Yields.u30.bind (Q := fun (index : Nat) m run =>
      (index = 0 ∧ m = slot constant slotId type none ∧ run = []) ∨
      ∃ l : Literal, index ≠ 0 ∧ m = slot constant slotId type (some l) ∧ l.index = index ∧
        l.check W none none = .ok () ∧ Varint.writeByte l.kind = .ok run) fun index => ?_).imp ?_
    · split
      · rename_i hzero
        apply (Yields.pure _).imp
        intro _ _ hpost
        rcases hpost with ⟨rfl, rfl⟩
        exact .inl ⟨hzero, rfl, rfl⟩
      · rename_i hne
        refine ((Literal.yields_readKind (h.mono (List.subset_append_left _ _)) hnow
          index o).ret _).imp ?_
        intro _ run hpost
        rcases hpost with ⟨l, ⟨hindex, hcheck, hkind⟩, rfl⟩
        exact .inr ⟨l, hne, rfl, hindex, hcheck, hkind⟩
    · intro m _ hpost
      rcases hpost with ⟨index, a, ⟨ha, hwrap⟩, b, hb, rfl⟩
      rcases hb with ⟨rfl, rfl, rfl⟩ | ⟨l, hne, rfl, hindex, hcheck, hkind⟩
      · rw [List.append_nil]
        exact ⟨none, rfl, ha, rfl⟩
      · have hne' : l.index ≠ 0 := by omega
        rw [← hindex] at ha hwrap
        refine ⟨some l, rfl, ?_, ?_⟩
        · rw [writeValue, if_neg hne', Literal.write_eq_ok]
          exact ⟨hcheck, a, ha, b, hkind, rfl⟩
        · rw [normalValue, if_neg hne', Literal.normal_of_wrap hwrap]
  refine (Yields.u30.bind fun slotId => (yields_index h (t := .multinames) (by decide)).bind
    fun type => Yields.offset_bind fun o => hvalue slotId type o).imp ?_
  intro _ _ hpost
  rcases hpost with ⟨slotId, a, ⟨ha, hwrap⟩, _, ⟨type, b, ⟨hb, -⟩, c, ⟨value, rfl, hc, hnormal⟩,
      rfl⟩, rfl⟩
  simp only [write, Outcome.bind_eq_ok, Outcome.pure_eq_ok, normal, hwrap, hnormal]
  refine ⟨?_, ⟨a, ha, b, hb, c, hc, by simp only [List.append_assoc]⟩, trivial⟩
  cases constant
  · rfl
  · rfl

theorem yields_readMethod (h : R.Mirrors W A later Table.shared) (role : MethodRole) :
    Yields C A later (readMethod R role) fun m run =>
      (∃ dispId ref, m = method role dispId ref) ∧ m.write W = .ok run ∧ m.normal = m := by
  refine (Yields.u30.bind fun dispId => (yields_index h (t := .methods) (by decide)).ret
    (method role dispId)).imp ?_
  intro _ _ hpost
  rcases hpost with ⟨dispId, a, ⟨ha, hwrap⟩, b, ⟨ref, ⟨hb, -⟩, rfl⟩, rfl⟩
  simp only [write, Outcome.bind_eq_ok, Outcome.pure_eq_ok, normal, hwrap]
  exact ⟨⟨dispId, ref, rfl⟩, ⟨a, ha, b, hb, rfl⟩, trivial⟩

theorem yields_readClass (h : R.Mirrors W A later Table.shared) :
    Yields C A later (readClass R) fun m run =>
      m.kind = 4 ∧ m.write W = .ok run ∧ m.normal = m := by
  refine (Yields.u30.bind fun slotId => (yields_index h (t := .classes) (by decide)).ret
    (classRef slotId)).imp ?_
  intro _ _ hpost
  rcases hpost with ⟨slotId, a, ⟨ha, hwrap⟩, b, ⟨ref, ⟨hb, -⟩, rfl⟩, rfl⟩
  simp only [write, Outcome.bind_eq_ok, Outcome.pure_eq_ok, normal, hwrap]
  exact ⟨rfl, ⟨a, ha, b, hb, rfl⟩, trivial⟩

theorem yields_readFunction (h : R.Mirrors W A later Table.shared) :
    Yields C A later (readFunction R) fun m run =>
      m.kind = 5 ∧ m.write W = .ok run ∧ m.normal = m := by
  refine (Yields.u30.bind fun slotId => (yields_index h (t := .methods) (by decide)).ret
    (function slotId)).imp ?_
  intro _ _ hpost
  rcases hpost with ⟨slotId, a, ⟨ha, hwrap⟩, b, ⟨ref, ⟨hb, -⟩, rfl⟩, rfl⟩
  simp only [write, Outcome.bind_eq_ok, Outcome.pure_eq_ok, normal, hwrap]
  exact ⟨rfl, ⟨a, ha, b, hb, rfl⟩, trivial⟩

theorem yields_read (h : R.Mirrors W A later Table.shared)
    (hnow : ∀ t ∈ Table.constants, t ∉ later) (kind tagOffset : Nat) :
    Yields C A later (read R kind tagOffset) fun m run =>
      m.kind = kind ∧ m.write W = .ok run ∧ m.normal = m := by
  have hmethod (role : MethodRole) : Yields C A later (readMethod R role) fun m run =>
      m.kind = (method role 0 0).kind ∧ m.write W = .ok run ∧ m.normal = m := by
    apply (yields_readMethod h role).imp
    intro _ run hpost
    rcases hpost with ⟨⟨dispId, ref, rfl⟩, hm⟩
    refine ⟨?_, hm⟩
    cases role <;> rfl
  unfold read
  split
  · exact yields_readSlot h hnow false
  · exact hmethod .method
  · exact hmethod .getter
  · exact hmethod .setter
  · exact yields_readClass h
  · exact yields_readFunction h
  · exact yields_readSlot h hnow true
  · exact .fail

end Member

namespace Trait

/-- The tag byte is put together again from what was read off it. -/
theorem tag_eq {t : Trait} {tag : Nat} (hkind : t.member.kind = tag % 16)
    (hfinal : t.final = tag.testBit 4) (hoverride : t.override = tag.testBit 5)
    (hsome : t.metadata.isSome = tag.testBit 6) : t.tag = tag % 2 ^ 7 := by
  have hbit₄ : tag % 32 = tag % 16 + if tag.testBit 4 then 16 else 0 := mod_two_pow_succ tag 4
  have hbit₅ : tag % 64 = tag % 32 + if tag.testBit 5 then 32 else 0 := mod_two_pow_succ tag 5
  have hbit₆ : tag % 2 ^ 7 = tag % 64 + if tag.testBit 6 then 64 else 0 := mod_two_pow_succ tag 6
  rw [hbit₆, hbit₅, hbit₄, Trait.tag, hkind, hfinal, hoverride, hsome]

theorem yields_readMetadata (h : R.Mirrors W A later Table.shared) (present : Bool) :
    Yields C A later (readMetadata R present) fun metadata run =>
      metadata.isSome = present ∧ writeMetadata W metadata = .ok run := by
  unfold readMetadata
  split
  · rename_i hpresent
    apply ((yields_index h (t := .metadata) (by decide)).counted.ret some).imp
    intro _ run hpost
    rcases hpost with ⟨refs, ⟨hrefs, -⟩, rfl⟩
    exact ⟨hpresent.symm, hrefs⟩
  · rename_i habsent
    apply (Yields.pure none).imp
    intro _ _ hpost
    rcases hpost with ⟨rfl, rfl⟩
    exact ⟨(eq_false_of_ne_true habsent).symm, rfl⟩

theorem yields_read (h : R.Mirrors W A later Table.shared)
    (hnow : ∀ t ∈ Table.constants, t ∉ later) :
    Yields C A later (read R) fun t run => t.write W = .ok run ∧ t.normal = t := by
  refine ((yields_index h (t := .multinames) (by decide)).bind fun name =>
    Yields.offset_bind fun o => (Yields.flags 1).bind fun tag =>
    (Member.yields_read h hnow (tag.toNat % 16) o).bind fun member =>
    (yields_readMetadata h (tag.toNat.testBit 6)).ret fun metadata =>
      Trait.mk name (tag.toNat.testBit 4) (tag.toNat.testBit 5) metadata member).imp ?_
  intro _ _ hpost
  rcases hpost with ⟨name, a, ⟨ha, -⟩, _, ⟨tag, _, rfl, _, ⟨member, b, ⟨hkind, hb, hnormal⟩, c,
      ⟨metadata, ⟨hsome, hc⟩, rfl⟩, rfl⟩, rfl⟩, rfl⟩
  have htag : Trait.tag ⟨name, tag.toNat.testBit 4, tag.toNat.testBit 5, metadata, member⟩ =
      tag.toNat % 2 ^ 7 := tag_eq hkind rfl rfl hsome
  simp only [write, Outcome.bind_eq_ok, Outcome.pure_eq_ok, normal, hnormal, htag]
  exact ⟨⟨a, ha, b, hb, c, hc, by simp⟩, trivial⟩

theorem yields_readAll (h : R.Mirrors W A later Table.shared)
    (hnow : ∀ t ∈ Table.constants, t ∉ later) :
    Yields C A later (readAll R) fun traits run =>
      writeAll W traits = .ok run ∧ traits.map normal = traits := by
  apply (Yields.u30.bind fun count => (yields_read h hnow).records 0 count).imp
  intro traits _ hpost
  rcases hpost with ⟨count, a, ⟨ha, -⟩, b, ⟨rfl, hb, hnormal⟩, rfl⟩
  simp only [writeAll, Outcome.bind_eq_ok, Outcome.pure_eq_ok, writeRecords_eq_ok]
  exact ⟨⟨a, ha, b, hb, rfl⟩, (List.map_congr_left hnormal).trans (List.map_id' _)⟩

end Trait

/-! ## Owners of traits -/

namespace Instance

theorem flags_eq {i : Instance} {flags : Nat} (hsealed : i.sealed = flags.testBit 0)
    (hfinal : i.final = flags.testBit 1) (hinterface : i.interface = flags.testBit 2)
    (hsome : i.protectedNs.isSome = flags.testBit 3) : i.flags = flags % 2 ^ 4 := by
  have hbit₀ : flags % 2 = flags % 1 + if flags.testBit 0 then 1 else 0 :=
    mod_two_pow_succ flags 0
  have hbit₁ : flags % 4 = flags % 2 + if flags.testBit 1 then 2 else 0 :=
    mod_two_pow_succ flags 1
  have hbit₂ : flags % 8 = flags % 4 + if flags.testBit 2 then 4 else 0 :=
    mod_two_pow_succ flags 2
  have hbit₃ : flags % 2 ^ 4 = flags % 8 + if flags.testBit 3 then 8 else 0 :=
    mod_two_pow_succ flags 3
  rw [hbit₃, hbit₂, hbit₁, hbit₀, Nat.mod_one, Nat.zero_add, Instance.flags, hsealed, hfinal,
    hinterface, hsome]

theorem yields_readProtectedNs (h : R.Mirrors W A later Table.shared) (present : Bool) :
    Yields C A later (readProtectedNs R present) fun ns run =>
      ns.isSome = present ∧ writeProtectedNs W ns = .ok run := by
  unfold readProtectedNs
  split
  · rename_i hpresent
    apply ((yields_index h (t := .namespaces) (by decide)).ret some).imp
    intro _ run hpost
    rcases hpost with ⟨ns, ⟨hns, -⟩, rfl⟩
    exact ⟨hpresent.symm, hns⟩
  · rename_i habsent
    apply (Yields.pure none).imp
    intro _ _ hpost
    rcases hpost with ⟨rfl, rfl⟩
    exact ⟨(eq_false_of_ne_true habsent).symm, rfl⟩

theorem yields_read (h : R.Mirrors W A later Table.shared)
    (hnow : ∀ t ∈ Table.constants, t ∉ later) :
    Yields C A later (read R) fun i run => i.write W = .ok run ∧ i.normal = i := by
  have hname := yields_index (C := C) h (t := .multinames) (by decide)
  refine (hname.bind fun name => hname.bind fun superName => (Yields.flags 4).bind fun flags =>
    (yields_readProtectedNs h (flags.toNat.testBit 3)).bind fun protectedNs =>
    hname.counted.bind fun interfaces =>
    (yields_index h (t := .methods) (by decide)).bind fun init =>
    (Trait.yields_readAll h hnow).ret fun traits =>
      Instance.mk name superName (flags.toNat.testBit 0) (flags.toNat.testBit 1)
        (flags.toNat.testBit 2) protectedNs interfaces init traits).imp ?_
  intro _ _ hpost
  rcases hpost with ⟨name, a, ⟨ha, -⟩, _, ⟨superName, b, ⟨hb, -⟩, _, ⟨flags, _, rfl, _, ⟨ns, c,
      ⟨hsome, hc⟩, _, ⟨interfaces, d, ⟨hd, -⟩, _, ⟨init, e, ⟨he, -⟩, g, ⟨traits, ⟨hg, hnormal⟩,
      rfl⟩, rfl⟩, rfl⟩, rfl⟩, rfl⟩, rfl⟩, rfl⟩
  have hflags : Instance.flags ⟨name, superName, flags.toNat.testBit 0, flags.toNat.testBit 1,
      flags.toNat.testBit 2, ns, interfaces, init, traits⟩ = flags.toNat % 2 ^ 4 :=
    flags_eq rfl rfl rfl hsome
  simp only [write, Outcome.bind_eq_ok, Outcome.pure_eq_ok, normal, hnormal, hflags]
  exact ⟨⟨a, ha, b, hb, c, hc, d, hd, e, he, g, hg, by simp⟩, trivial⟩

end Instance

theorem Class.yields_read (h : R.Mirrors W A later Table.shared)
    (hnow : ∀ t ∈ Table.constants, t ∉ later) :
    Yields C A later (read R) fun c run => c.write W = .ok run ∧ c.normal = c := by
  refine ((yields_index h (t := .methods) (by decide)).bind fun init =>
    (Trait.yields_readAll h hnow).ret (Class.mk init)).imp ?_
  intro _ _ hpost
  rcases hpost with ⟨init, a, ⟨ha, -⟩, b, ⟨traits, ⟨hb, hnormal⟩, rfl⟩, rfl⟩
  simp only [Class.write, Outcome.bind_eq_ok, Outcome.pure_eq_ok, normal, hnormal]
  exact ⟨⟨a, ha, b, hb, rfl⟩, trivial⟩

theorem Script.yields_read (h : R.Mirrors W A later Table.shared)
    (hnow : ∀ t ∈ Table.constants, t ∉ later) :
    Yields C A later (read R) fun s run => s.write W = .ok run ∧ s.normal = s := by
  refine ((yields_index h (t := .methods) (by decide)).bind fun init =>
    (Trait.yields_readAll h hnow).ret (Script.mk init)).imp ?_
  intro _ _ hpost
  rcases hpost with ⟨init, a, ⟨ha, -⟩, b, ⟨traits, ⟨hb, hnormal⟩, rfl⟩, rfl⟩
  simp only [Script.write, Outcome.bind_eq_ok, Outcome.pure_eq_ok, normal, hnormal]
  exact ⟨⟨a, ha, b, hb, rfl⟩, trivial⟩

end ActionCode
