import ActionCode.Proofs.Readback.Code

/-!
# Files are read back

A file that can be written is read back as its normal form, and nothing is left of the data.
-/

namespace ActionCode

open Reader (Reads)

namespace File

variable {f : File} {offset : Nat} {run : Bytes}

/-! ## What a file makes known -/

theorem knowsAll_scope (f : File) : f.scope.KnowsAll Table.shared := by
  intro t ht
  cases t
  all_goals first | exact ⟨_, rfl⟩ | exact absurd ht (by decide)

theorem extent_scope (f : File) :
    ∀ t ∈ Table.constants, f.scope.extent t = (f.constants.scope f.version).extent t := by
  intro t ht
  cases t
  all_goals first | rfl | exact absurd ht (by decide)

theorem constants_within_scope (f : File) : (f.constants.scope f.version).Within f.scope := by
  intro t count h
  cases t
  all_goals first | exact h | cases h

/-! ## Sections -/

theorem writeVersion_eq_ok {v : Version} : writeVersion v = .ok run ↔
    ∃ major minor : Nat, major < 2 ^ 16 ∧ minor < 2 ^ 16 ∧ { major, minor } = v ∧
      Bytes.ofNat 2 minor ++ Bytes.ofNat 2 major = run := by
  unfold writeVersion
  constructor
  · intro h
    split at h
    · simp at h
    · split at h
      · simp at h
      · simp only [Except.ok.injEq] at h
        refine ⟨v.major.toNat, v.minor.toNat, by omega, by omega, ?_, h⟩
        rw [Int.toNat_of_nonneg (by omega), Int.toNat_of_nonneg (by omega)]
  · rintro ⟨major, minor, hmajor, hminor, rfl, rfl⟩
    simp only [Int.toNat_natCast]
    rw [if_neg (by omega), if_neg (by omega)]

theorem reads_readTable {α β : Type} {W : Scope} {label : String} {r : Reader β}
    {write : α → Except Fault Bytes} {xs : List α} (norm : α → β)
    (hr : ∀ x offset run, write x = .ok run → Reads W offset r run (norm x))
    (h : writeRecords label write 0 xs = .ok run) :
    Reads W offset (readTable label r xs.length) run (xs.map norm) :=
  .records norm (fun x _ => hr x) (writeRecords_eq_ok.1 h)

theorem reads_read {b : Bytes} (hplain : f.constants.Plain) (h : f.encode = .ok b) :
    Reads f.scope 0 read b f.normal := by
  unfold encode at h
  split at h
  · rename_i hpaired
    simp only [write, writeTable, Outcome.bind_eq_ok, Outcome.pure_eq_ok] at h
    obtain ⟨version, hversion, constants, hconstants, _, ⟨methodCount, hmethodCount, methods,
      hmethods, rfl⟩, _, ⟨metadataCount, hmetadataCount, metadata, hmetadata, rfl⟩, _,
      ⟨instanceCount, hinstanceCount, instances, hinstances, rfl⟩, classes, hclasses, _,
      ⟨scriptCount, hscriptCount, scripts, hscripts, rfl⟩, _, ⟨bodyCount, hbodyCount, bodies,
      hbodies, rfl⟩, rfl⟩ := h
    obtain ⟨major, minor, hmajor, hminor, hsame, rfl⟩ := writeVersion_eq_ok.1 hversion
    have hW := f.knowsAll_scope
    have hC := f.constants_within_scope
    have hR : (((f.constants.scope f.version).set .methods (.entries f.methods.length)).set
        .metadata (.entries f.metadata.length)).Within f.scope :=
      (hC.set fun _ => id).set fun _ => id
    have hlater := hR.set (t := .classes) (e := .unfinished) fun _ h => by cases h
    have hall := hR.set (t := .classes) (e := .entries f.classes.length) fun _ => id
    simp only [List.append_assoc]
    refine (Reads.u16 hminor).bind ((Reads.u16 hmajor).bind ?_)
    rw [hsame]
    apply (Constants.reads_read f.extent_scope hplain hconstants).bind
    rw [Constants.scope_normal]
    apply (Reads.count hmethodCount).bind
    refine (reads_readTable Method.normal (fun _ _ _ => Method.reads_read hC hW.constants)
      hmethods).bind ?_
    apply (Reads.count hmetadataCount).bind
    refine (reads_readTable id (fun _ _ _ => Metadata.reads_read hC hW.constants)
      hmetadata).bind ?_
    rw [List.map_id, List.length_map]
    apply (Reads.count hinstanceCount).bind
    refine (reads_readTable Instance.normal (fun _ _ _ => Instance.reads_read hlater hW)
      hinstances).bind ?_
    rw [hpaired]
    refine (reads_readTable Class.normal (fun _ _ _ => Class.reads_read hlater hW)
      hclasses).bind ?_
    rw [List.length_map]
    apply (Reads.settle rfl).bind
    apply (Reads.count hscriptCount).bind
    refine (reads_readTable Script.normal (fun _ _ _ => Script.reads_read hall hW)
      hscripts).bind ?_
    apply (Reads.count hbodyCount).bind
    refine (reads_readTable (Body.normal f.version) (fun _ _ _ => Body.reads_read hall hW rfl)
      hbodies).bind_nil ?_
    exact .pure f.normal
  · simp at h

/-- A file that can be written is read back as its normal form, down to the last byte. -/
theorem decode_encode {b : Bytes} (hplain : f.constants.Plain) (h : f.encode = .ok b) :
    decode b = .ok f.normal ∧
      ∃ t, read (.ofBytes b) = .ok (f.normal, t) ∧ t.rest = [] ∧ t.offset = b.length := by
  obtain ⟨t, hread, hrest, hoffset, -⟩ := (reads_read hplain h).ofBytes
  refine ⟨?_, t, hread, hrest, hoffset⟩
  rw [decode, Reader.result, hread]
  rfl

/-- A switch without cases, a name for one of two parameters, flags beyond eight bits and a
negative number, in an old version. -/
theorem decode_encode_mixed :
    let f : File := {
      version := { major := 46, minor := 15 }
      constants := { uints := { entries := [-1], emptyCount := 7 }, strings := { emptyCount := 1 } }
      methods := [{ flags := 256, params := [{ name := some 0 }, { default := some ⟨0x0C, -2⟩ }] }]
      bodies := [{
        maxStack := -1
        code := [⟨.nop, ()⟩, ⟨.lookupswitch, Switch.mk 0 []⟩, ⟨.jump, (1 : Int)⟩]
        handlers := [{ start := 0, stop := 1, target := 1, varName := 3 }] }] }
    ∃ b, f.encode = .ok b ∧ decode b = .ok f.normal := by
  intro f
  have hplain : f.constants.Plain := by
    constructor
    all_goals decide
  exact ⟨_, rfl, (decode_encode hplain rfl).1⟩

end File

end ActionCode
