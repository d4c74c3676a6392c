import ActionCode.Proofs.Readback.File
import ActionCode.Proofs.Writeback.Code

/-!
# Files are written back

A file that was read is written back to the data that it was read from if that data is
canonical: if it has no padding, no meaningless bits and no surplus bytes. Other data cannot
come out of writing.
-/

namespace ActionCode

open Reader (Yields)

namespace File

variable {C : Spelling → Prop} {f : File} {s t u : Input} {A : Scope} {later : List Table}
  {α : Type} {label : String} {r : Reader α} {write : α → Except Fault Bytes} {norm : α → α}
  {count : Nat} {xs : List α}

/-! ## Scopes while reading -/

theorem mirrors_constants (f : File) :
    (f.constants.scope f.version).Mirrors f.scope f.scope [] Table.constants where
  same t ht := .inl (f.extent_scope t ht).symm
  leaves := .refl _ _
  later t ht := by cases t <;> cases ht

/-- While instances and classes are read, the number of classes is not known. -/
theorem mirrors_reading (f : File) :
    ((((f.constants.scope f.version).set .methods (.entries f.methods.length)).set
      .metadata (.entries f.metadata.length)).set .classes .unfinished).Mirrors f.scope f.scope
      [.classes] Table.shared where
  same t _ := by
    by_cases heq : t = .classes
    · exact .inr (by simp [Scope.set, heq])
    · exact .inl (by simp [Scope.set, scope, heq])
  leaves := .refl _ _
  later t ht := by
    by_cases heq : t = .classes
    · exact List.mem_singleton.2 heq
    · cases t
      all_goals first | exact absurd rfl heq | cases ht

theorem mirrors_scope (f : File) : f.scope.Mirrors f.scope f.scope [] Table.shared where
  same _ _ := .inl rfl
  leaves := .refl _ _
  later t ht := by cases t <;> cases ht

/-! ## Sections -/

theorem spans_version {minor major : Nat} (hminor : Reader.u16 s = .ok (minor, t))
    (hmajor : Reader.u16 t = .ok (major, u)) :
    s.Spans C A later u fun run => writeVersion { major, minor } = .ok run := by
  apply ((Yields.u16 s minor t hminor).trans (Yields.u16 t major u hmajor)).imp
  intro _ hpost
  rcases hpost with ⟨a, ⟨hminor, rfl⟩, b, ⟨hmajor, rfl⟩, rfl⟩
  exact writeVersion_eq_ok.2 ⟨major, minor, hmajor, hminor, rfl, rfl⟩

theorem yields_readTable (hr : Yields C A later r fun x run => write x = .ok run ∧ norm x = x)
    (count : Nat) : Yields C A later (readTable label r count) fun xs run =>
      xs.length = count ∧ writeRecords label write 0 xs = .ok run ∧ xs.map norm = xs := by
  apply (hr.records 0 count).imp
  intro xs run hpost
  rcases hpost with ⟨hlength, hrun, hnormal⟩
  exact ⟨hlength, writeRecords_eq_ok.2 hrun, (List.map_congr_left hnormal).trans (List.map_id' _)⟩

theorem spans_readTable (hr : Yields C A later r fun x run => write x = .ok run ∧ norm x = x)
    (hcount : Reader.u30 s = .ok (count, t)) (hxs : readTable label r count t = .ok (xs, u)) :
    s.Spans C A later u fun run => writeTable label write xs = .ok run ∧ xs.map norm = xs := by
  apply ((Yields.u30 s count t hcount).trans (yields_readTable hr count t xs u hxs)).imp
  intro _ hpost
  rcases hpost with ⟨a, ⟨ha, -⟩, b, ⟨rfl, hb, hnormal⟩, rfl⟩
  refine ⟨?_, hnormal⟩
  simp only [writeTable, Outcome.bind_eq_ok, Outcome.pure_eq_ok]
  exact ⟨a, ha, b, hb, rfl⟩

/-- Classes are as many as instances. While either are read, it is open which classes there
are. -/
theorem spans_paired {R W : Scope} {v w : Input}
    (hR : R.Mirrors W W [.classes] Table.shared)
    (hW : W.extent .classes = .entries f.classes.length)
    (hcount : Reader.u30 s = .ok (count, t))
    (hinstances : readTable "instance" (Instance.read R) count t = .ok (f.instances, u))
    (hclasses : readTable "class" (Class.read R) count u = .ok (f.classes, v))
    (hsettle : Reader.settle .classes f.classes.length v = .ok ((), w)) :
    s.Spans C W [] w fun run => f.instances.length = f.classes.length ∧
      ∃ a, writeTable "instance" (Instance.write W) f.instances = .ok a ∧
      f.instances.map Instance.normal = f.instances ∧
      ∃ b, writeRecords "class" (Class.write W) 0 f.classes = .ok b ∧
      f.classes.map Class.normal = f.classes ∧ a ++ b = run := by
  have hnow : ∀ t ∈ Table.constants, t ∉ [Table.classes] := by decide
  have hrecords :=
    ((yields_readTable (C := C) (Instance.yields_read hR hnow) count t _ u hinstances).trans
      (yields_readTable (Class.yields_read hR hnow) count u _ v hclasses)).settle hsettle hW
  apply ((Yields.u30 s count t hcount).trans hrecords).imp
  intro _ hpost
  rcases hpost with ⟨a, ⟨ha, -⟩, _, ⟨b, ⟨hlength, hb, hinstances⟩, c, ⟨hlength', hc, hclasses⟩,
      rfl⟩, rfl⟩
  refine ⟨hlength.trans hlength'.symm, a ++ b, ?_, hinstances, c, hc, hclasses, by simp⟩
  simp only [writeTable, Outcome.bind_eq_ok, Outcome.pure_eq_ok]
  exact ⟨a, hlength ▸ ha, b, hb, rfl⟩

/-! ## All sections but the last -/

/-- Everything in front of the bodies. -/
def readFront : Reader File := do
  let minor ← Reader.u16
  let major ← Reader.u16
  let version : Version := { major, minor }
  let constants ← Constants.read
  let scope := constants.scope version
  let methods ← readTable "method" (Method.read scope) (← Reader.u30)
  let metadata ← readTable "metadata" (Metadata.read scope) (← Reader.u30)
  let scope := (scope.set .methods (.entries methods.length)).set
    .metadata (.entries metadata.length)
  let reading := scope.set .classes .unfinished
  let count ← Reader.u30
  let instances ← readTable "instance" (Instance.read reading) count
  let classes ← readTable "class" (Class.read reading) count
  Reader.settle .classes classes.length
  let scope := scope.set .classes (.entries classes.length)
  let scripts ← readTable "script" (Script.read scope) (← Reader.u30)
  return { version, constants, methods, metadata, instances, classes, scripts }

theorem read_eq : read = readFront >>= fun f => Reader.u30 >>= fun count =>
    readTable "method body" (Body.read f.scope) count >>= fun bodies =>
      pure { f with bodies } := by
  simp only [read, readFront, bind_assoc, pure_bind]
  rfl

/-- What is written in front of the bodies. -/
def writeFront (scope : Scope) (f : File) : Except Fault Bytes := do
  let version ← writeVersion f.version
  let constants ← f.constants.write scope
  let methods ← writeTable "method" (Method.write scope) f.methods
  let metadata ← writeTable "metadata" (Metadata.write scope) f.metadata
  let instances ← writeTable "instance" (Instance.write scope) f.instances
  let classes ← writeRecords "class" (Class.write scope) 0 f.classes
  let scripts ← writeTable "script" (Script.write scope) f.scripts
  return version ++ constants ++ methods ++ metadata ++ instances ++ classes ++ scripts

theorem encode_eq_ok {run : Bytes} : f.encode = .ok run ↔
    f.instances.length = f.classes.length ∧ ∃ front, f.writeFront f.scope = .ok front ∧
      ∃ bodies, writeTable "method body" (Body.write f.scope) f.bodies = .ok bodies ∧
        front ++ bodies = run := by
  unfold encode
  split
  · rename_i hpaired
    simp only [write, writeFront, Outcome.bind_eq_ok, Outcome.pure_eq_ok]
    constructor
    · rintro ⟨a, ha, b, hb, c, hc, d, hd, e, he, g, hg, i, hi, j, hj, rfl⟩
      exact ⟨hpaired, _, ⟨a, ha, b, hb, c, hc, d, hd, e, he, g, hg, i, hi, rfl⟩, j, hj, rfl⟩
    · rintro ⟨-, _, ⟨a, ha, b, hb, c, hc, d, hd, e, he, g, hg, i, hi, rfl⟩, j, hj, rfl⟩
      exact ⟨a, ha, b, hb, c, hc, d, hd, e, he, g, hg, i, hi, j, hj, rfl⟩
  · rename_i hunpaired
    exact ⟨nofun, fun h => absurd h.1 hunpaired⟩

/-- What is in front of the bodies can always be written, and is normal already. -/
theorem spans_readFront {W : Scope} (h : readFront s = .ok (f, t))
    (hW : ∀ t ∈ Table.shared, W.extent t = f.scope.extent t) : f.constants.Plain ∧
    s.Spans C W [] t fun run => f.instances.length = f.classes.length ∧
      f.writeFront W = .ok run ∧ f.normal = f := by
  obtain ⟨minor, s₁, hminor, h⟩ := Reader.bind_eq_ok.1 h
  obtain ⟨major, s₂, hmajor, h⟩ := Reader.bind_eq_ok.1 h
  obtain ⟨constants, s₃, hconstants, h⟩ := Reader.bind_eq_ok.1 h
  obtain ⟨methodCount, s₄, hmethodCount, h⟩ := Reader.bind_eq_ok.1 h
  obtain ⟨methods, s₅, hmethods, h⟩ := Reader.bind_eq_ok.1 h
  obtain ⟨metadataCount, s₆, hmetadataCount, h⟩ := Reader.bind_eq_ok.1 h
  obtain ⟨metadata, s₇, hmetadata, h⟩ := Reader.bind_eq_ok.1 h
  obtain ⟨count, s₈, hcount, h⟩ := Reader.bind_eq_ok.1 h
  obtain ⟨instances, s₉, hinstances, h⟩ := Reader.bind_eq_ok.1 h
  obtain ⟨classes, s₁₀, hclasses, h⟩ := Reader.bind_eq_ok.1 h
  obtain ⟨_, s₁₁, hsettle, h⟩ := Reader.bind_eq_ok.1 h
  obtain ⟨scriptCount, s₁₂, hscriptCount, h⟩ := Reader.bind_eq_ok.1 h
  obtain ⟨scripts, _, hscripts, h⟩ := Reader.bind_eq_ok.1 h
  simp only [Reader.pure_apply, Except.ok.injEq, Prod.mk.injEq] at h
  obtain ⟨hf, rfl⟩ := h
  obtain rfl : constants = f.constants := congrArg File.constants hf
  obtain rfl : methods = f.methods := congrArg File.methods hf
  obtain rfl : metadata = f.metadata := congrArg File.metadata hf
  obtain rfl : instances = f.instances := congrArg File.instances hf
  obtain rfl : classes = f.classes := congrArg File.classes hf
  obtain rfl : scripts = f.scripts := congrArg File.scripts hf
  have hbodies : f.bodies.map (Body.normal f.version) = f.bodies := by
    rw [← (congrArg File.bodies hf : [] = f.bodies), List.map_nil]
  have hsame : { major, minor } = f.version := congrArg File.version hf
  rw [hsame] at hmethods hmetadata hinstances hclasses hscripts
  have hversion : s.Spans C W [] s₂ fun run => writeVersion f.version = .ok run := by
    rw [← hsame]
    exact spans_version hminor hmajor
  have hconstantsW : ∀ t ∈ Table.constants, W.extent t = f.scope.extent t :=
    fun t ht => hW t (List.mem_append_left _ ht)
  have hnone : ∀ t ∈ Table.constants, t ∉ ([] : List Table) := by simp
  have hmethod := Method.yields_read (C := C) (f.mirrors_constants.congr hconstantsW) hnone
  have hentry := (Metadata.yields_read (C := C) (f.mirrors_constants.congr hconstantsW)).imp
    (Q := fun m run => m.write W = .ok run ∧ id m = m) fun _ _ hm => ⟨hm, rfl⟩
  have hscript := Script.yields_read (C := C) (f.mirrors_scope.congr hW) hnone
  have hall := hversion.trans <|
    (Constants.spans_read hconstants fun t ht =>
      (hconstantsW t ht).trans (f.extent_scope t ht)).trans <|
    (spans_readTable hmethod hmethodCount hmethods).trans <|
    (spans_readTable hentry hmetadataCount hmetadata).trans <|
    (spans_paired (f.mirrors_reading.congr hW) (hW .classes (by decide)) hcount hinstances
      hclasses hsettle).trans <|
    spans_readTable hscript hscriptCount hscripts
  refine ⟨Constants.plain_of_read hconstants, hall.imp ?_⟩
  intro _ hpost
  rcases hpost with ⟨a, ha, _, ⟨b, ⟨hb, hconstants⟩, _, ⟨c, ⟨hc, hmethods⟩, _, ⟨d, ⟨hd, -⟩, _, ⟨_,
      ⟨hpaired, e, he, hinstances, g, hg, hclasses, rfl⟩, i, ⟨hi, hscripts⟩, rfl⟩, rfl⟩, rfl⟩,
      rfl⟩, rfl⟩
  refine ⟨hpaired, ?_, ?_⟩
  · simp only [writeFront, Outcome.bind_eq_ok, Outcome.pure_eq_ok]
    refine ⟨a, ha, b, hb, c, hc, d, hd, e, he, g, hg, i, hi, ?_⟩
    simp only [List.append_assoc]
  · simp only [normal, hconstants, hmethods, hinstances, hclasses, hscripts, hbodies]

/-! ## Whole files -/

theorem read_eq_ok (h : read s = .ok (f, u)) : ∃ front t count t', readFront s = .ok (front, t) ∧
    Reader.u30 t = .ok (count, t') ∧
    readTable "method body" (Body.read front.scope) count t' = .ok (f.bodies, u) ∧
    { front with bodies := f.bodies } = f := by
  rw [read_eq] at h
  obtain ⟨front, t, hfront, h⟩ := Reader.bind_eq_ok.1 h
  obtain ⟨count, t', hcount, h⟩ := Reader.bind_eq_ok.1 h
  obtain ⟨bodies, _, hbodies, ⟨⟩⟩ := Reader.bind_eq_ok.1 h
  exact ⟨front, t, count, t', hfront, hcount, hbodies, rfl⟩

/-- What was read is normal already, and can be written if no operand of code was padded. -/
theorem spans_read (h : read s = .ok (f, t)) : f.constants.Plain ∧
    s.Spans Spelling.Compact f.scope [] t fun run => f.encode = .ok run ∧ f.normal = f := by
  obtain ⟨front, s₁, count, s₂, hfront, hcount, hbodies, hf⟩ := read_eq_ok h
  obtain ⟨hplain, hspans⟩ := spans_readFront hfront fun _ _ => rfl
  have hbody : Yields Spelling.Compact front.scope [] (Body.read front.scope) fun b run =>
      b.write front.scope = .ok run ∧ b.normal front.version = b :=
    fun _ _ _ => Body.spans_read front.mirrors_scope (by simp) rfl
  have hall := hspans.trans (spans_readTable hbody hcount hbodies)
  rw [← hf]
  refine ⟨hplain, hall.imp ?_⟩
  intro _ hpost
  rcases hpost with ⟨a, ⟨hpaired, ha, hnormal⟩, b, ⟨hb, hbodies⟩, rfl⟩
  refine ⟨encode_eq_ok.2 ⟨hpaired, a, ha, b, hb, rfl⟩, ?_⟩
  calc File.normal { front with bodies := f.bodies }
      = { front.normal with bodies := f.bodies.map (Body.normal front.version) } := rfl
    _ = { front with bodies := f.bodies } := by rw [hnormal, hbodies]

/-- Data from which a file is read that leaves nothing over. Every number takes the bytes that
it is written to, and all bits without a meaning are zeros. -/
def Canonical (data : Bytes) : Prop :=
  match read (.ofBytes data) with
  | .ok (_, t) => t.Spelled Spelling.Canonical ∧ t.rest = []
  | .error _ => False

theorem canonical_iff {data : Bytes} (h : read (.ofBytes data) = .ok (f, t)) :
    Canonical data ↔ t.Spelled Spelling.Canonical ∧ t.rest = [] := by
  rw [Canonical, h]

instance (data : Bytes) : Decidable (Canonical data) :=
  match hread : read (.ofBytes data) with
  | .ok (_, t) => decidable_of_iff ((∀ sp ∈ t.spellings, sp.Canonical) ∧ t.rest = [])
      (canonical_iff hread).symm
  | .error _ => .isFalse (by rw [Canonical, hread]; exact id)

/-- The data that a file was read from comes back from writing exactly if it is canonical. -/
theorem encode_decode_iff {data : Bytes} (h : decode data = .ok f) :
    f.encode = .ok data ↔ Canonical data := by
  obtain ⟨⟨f, t⟩, hread, rfl⟩ := Outcome.map_eq_ok.1 h
  obtain ⟨hplain, hspans⟩ := spans_read hread
  rw [canonical_iff hread]
  constructor
  · intro hencode
    obtain ⟨u, hback, hrest, -, hcanon⟩ := (reads_read hplain hencode).ofBytes
    obtain ⟨-, rfl⟩ := Prod.mk.inj (Except.ok.inj (hread.symm.trans hback))
    exact ⟨hcanon, hrest⟩
  · rintro ⟨hcanon, hrest⟩
    obtain ⟨run, ⟨hencode, -⟩, hwritten⟩ := hspans.written
      ⟨hspans.admitted rfl, fun sp hsp => (hcanon sp hsp).unpadded.compact⟩
    have hdata : data = run ++ t.rest := hwritten.rest hcanon
    rw [hencode, hdata, hrest, List.append_nil]

/-- Empty tables with a count of 0 and of 1, a double that is not a number, flags for defaults
and names without any, a default that uses no index, an empty list of metadata and a handler
without a variable. -/
theorem encode_decode_unusual :
    let f : File := {
      version := { major := 46, minor := 15 }
      constants := {
        ints := { emptyCount := 1 }
        doubles := { entries := [0x7FF8000000000001] } }
      methods := [{ flags := 136 }]
      instances := [{ traits := [{
        metadata := some [], member := .slot false 0 0 (some ⟨12, 7⟩) }] }]
      classes := [{}]
      bodies := [{
        code := [⟨.jump, (0 : Int)⟩], handlers := [{ start := 0, stop := 1, target := 1 }] }] }
    let data : Bytes := [
      15, 0, 46, 0, 1, 0, 2, 1, 0, 0, 0, 0, 0, 248, 127, 0, 0, 0, 0, 1, 0, 0, 0, 136, 0, 0, 1, 0,
      0, 1, 0, 0, 1, 0, 64, 0, 0, 7, 12, 0, 0, 0, 0, 1, 0, 0, 0, 0, 0, 4, 16, 252, 255, 255, 1, 0,
      1, 1, 0, 0]
    decode data = .ok f ∧ f.encode = .ok data := by
  intro f data
  have hdecode : decode data = .ok f := Outcome.toOption_eq_some.1 (by decide +kernel)
  exact ⟨hdecode, (encode_decode_iff hdecode).2 (by decide +kernel)⟩

/-- Data from which a file is read, and in which every number inside of code takes as many bytes
as it is written to. -/
def Compact (data : Bytes) : Prop :=
  match read (.ofBytes data) with
  | .ok (_, t) => t.Spelled Spelling.Compact
  | .error _ => False

theorem compact_iff {data : Bytes} (h : read (.ofBytes data) = .ok (f, t)) :
    Compact data ↔ t.Spelled Spelling.Compact := by
  rw [Compact, h]

instance (data : Bytes) : Decidable (Compact data) :=
  match hread : read (.ofBytes data) with
  | .ok (_, t) => decidable_of_iff (∀ sp ∈ t.spellings, sp.Compact) (compact_iff hread).symm
  | .error _ => .isFalse (by rw [Compact, hread]; exact id)

/-- Data that is compact need not come back from writing, but what is written for it stands for
the same file, and is what is written for that file from then on. -/
theorem decode_encode_decode {data : Bytes} (h : decode data = .ok f) (hcompact : Compact data) :
    ∃ bytes g, f.encode = .ok bytes ∧ decode bytes = .ok g ∧ g = f ∧ g.encode = .ok bytes := by
  obtain ⟨⟨f, t⟩, hread, rfl⟩ := Outcome.map_eq_ok.1 h
  obtain ⟨hplain, hspans⟩ := spans_read hread
  obtain ⟨bytes, ⟨hencode, hnormal⟩, -⟩ := hspans.written
    ⟨hspans.admitted rfl, (compact_iff hread).1 hcompact⟩
  obtain ⟨u, hback, -⟩ := (reads_read hplain hencode).ofBytes
  rw [hnormal] at hback
  exact ⟨bytes, f, hencode, Outcome.map_eq_ok.2 ⟨_, hback, rfl⟩, rfl, hencode⟩

/-- Padded numbers outside of code, bits without a meaning and a surplus byte. -/
theorem decode_encode_decode_padded :
    let f : File := {
      constants := { uints := { entries := [5] } }
      methods := [{ flags := 136 }]
      instances := [{ traits := [{ member := .slot false 1 0 none }] }]
      classes := [{}]
      bodies := [{
        code := [⟨.getlocal, ((1 : Int), ())⟩, ⟨.jump, (0 : Int)⟩]
        handlers := [{ start := 0, stop := 6, target := 2 }] }] }
    let data : Bytes := [
      16, 0, 46, 0, 0, 130, 0, 133, 0, 0, 0, 0, 0, 0, 1, 0, 0, 0, 136, 0, 128, 0, 1, 0, 0, 241, 0,
      0, 1, 0, 128, 129, 0, 0, 0, 0, 0, 0, 1, 0, 0, 128, 0, 0, 0, 134, 0, 98, 1, 16, 250, 255, 255,
      1, 0, 134, 0, 2, 0, 0, 0, 7]
    let bytes : Bytes := [
      16, 0, 46, 0, 0, 2, 5, 0, 0, 0, 0, 0, 1, 0, 0, 0, 136, 0, 0, 1, 0, 0, 1, 0, 0, 1, 0, 0, 1, 0,
      0, 0, 0, 0, 1, 0, 0, 0, 0, 0, 6, 98, 1, 16, 250, 255, 255, 1, 0, 6, 2, 0, 0, 0]
    decode data = .ok f ∧ Compact data ∧ f.encode = .ok bytes ∧ decode bytes = .ok f := by
  intro f data bytes
  have hdecode : decode data = .ok f := Outcome.toOption_eq_some.1 (by decide +kernel)
  have hencode : f.encode = .ok bytes := Outcome.toOption_eq_some.1 (by decide +kernel)
  obtain ⟨bytes', g, hbytes, hback, hg, -⟩ := decode_encode_decode hdecode (by decide +kernel)
  have hsame : bytes' = bytes := Except.ok.inj (hbytes.symm.trans hencode)
  rw [hsame, hg] at hback
  exact ⟨hdecode, by decide +kernel, hencode, hback⟩

end File

end ActionCode
