import ActionCode.Proofs.Reader.Sites
import ActionCode.Proofs.Writeback.File
import Mathlib.Data.List.Find

/-!
# Blame for late references

Traits of instances and classes can refer to classes that come later in the file, and generic
names to names that come later in their table. When the table is complete, the first of these
references that is out of bounds is blamed on the record that holds it.
-/

namespace ActionCode

open Reader (Silent Free Opens Tells Yields)

variable {R : Scope} {s t : Input}

/-! ## Multinames -/

namespace Multiname

/-- The multinames that a generic name refers to. -/
def references : Multiname → List Reference
  | typeName name types => (name :: types).map fun i => ⟨none, i.val⟩
  | qualified _ _ _ | multi _ _ _ | runtime _ _ | runtimeLate _ | multiLate _ _ => []

def typeNameSites (scope : Scope) : Reader (List Site) := do
  let name ← scope.readSite .multinames
  let types ← Reader.siteCounted (scope.readSite .multinames)
  return name ++ types

/-- The references of a generic name stand behind its tag byte. -/
def againSites (scope : Scope) : Multiname → Reader (List Site)
  | typeName _ _ => do
    let _kind ← Reader.byte
    typeNameSites scope
  | qualified _ _ _ | multi _ _ _ | runtime _ _ | runtimeLate _ | multiLate _ _ => return []

def sites (scope : Scope) : Reader (List Site) := Reader.revisit (read scope) (againSites scope)

theorem tells_readTypeName (hR : R.extent .multinames = .unfinished) :
    Tells .multinames (readTypeName R) (typeNameSites R) references := by
  refine (Tells.index hR).both (Tells.index hR).counted fun name types => ?_
  rw [references, List.map_cons, List.map_eq_flatMap, List.singleton_append]

theorem tells_read (hR : Opens R .multinames) :
    Tells .multinames (read R) (sites R) references := by
  refine .revisit fun s m t h => ?_
  obtain ⟨_, _, ⟨⟩, h⟩ := Reader.bind_eq_ok.1 h
  obtain ⟨kind, u, hkind, h⟩ := Reader.bind_eq_ok.1 h
  have hkept : u.deferred = s.deferred := Silent.next 8 s kind u hkind
  have hfree {r : Reader Multiname} (hr : Free r references) (h : r u = .ok (m, t)) :
      ∃ found v, againSites R m s = .ok (found, v) ∧
        Reader.Found .multinames m.references found s t := by
    obtain ⟨hnone, hsame⟩ := hr u m t h
    rw [hnone]
    refine ⟨[], s, ?_, .nil (hsame.trans hkept)⟩
    cases m with
    | typeName name types => cases hnone
    | _ => rfl
  split at h
  · exact hfree (.bind (hR.index (by decide)) fun _ => .ret (hR.index (by decide)) fun _ => rfl) h
  · exact hfree (.bind (hR.index (by decide)) fun _ => .ret (hR.index (by decide)) fun _ => rfl) h
  · exact hfree (.bind (hR.index (by decide)) fun _ => .ret (hR.index (by decide)) fun _ => rfl) h
  · exact hfree (.bind (hR.index (by decide)) fun _ => .ret (hR.index (by decide)) fun _ => rfl) h
  · exact hfree (.ret (hR.index (by decide)) fun _ => rfl) h
  · exact hfree (.ret (hR.index (by decide)) fun _ => rfl) h
  · exact hfree (.pure rfl) h
  · exact hfree (.pure rfl) h
  · exact hfree (.ret (hR.index (by decide)) fun _ => rfl) h
  · exact hfree (.ret (hR.index (by decide)) fun _ => rfl) h
  · obtain ⟨found, hfound, hall⟩ := tells_readTypeName hR.unfinished u m t h
    obtain ⟨name, v, -, h⟩ := Reader.bind_eq_ok.1 h
    obtain ⟨types, _, -, ⟨⟩⟩ := Reader.bind_eq_ok.1 h
    refine ⟨found, t, ?_, hall.same, hall.nonneg, by rw [hall.kept, hkept]⟩
    rw [againSites, Reader.bind_apply hkind, hfound]
  · cases h

end Multiname

/-! ## Traits -/

namespace Member

/-- The class that a member refers to. -/
def references : Member → List Reference
  | classRef _ ref => [⟨none, ref.val⟩]
  | slot _ _ _ _ | method _ _ _ | function _ _ => []

/-- A class is referred to behind the slot. -/
def againSites (scope : Scope) : Member → Reader (List Site)
  | classRef _ _ => do
    let _slotId ← Reader.u30
    scope.readSite .classes
  | slot _ _ _ _ | method _ _ _ | function _ _ => return []

theorem tells_read (hR : Opens R .classes) (kind offset : Nat) :
    ∀ s m t, read R kind offset s = .ok (m, t) →
      ∃ found u, againSites R m s = .ok (found, u) ∧
        Reader.Found .classes m.references found s t := by
  intro s m t h
  have hfree {r : Reader Member} (hr : Free r references) (h : r s = .ok (m, t)) :
      ∃ found u, againSites R m s = .ok (found, u) ∧
        Reader.Found .classes m.references found s t := by
    obtain ⟨hnone, hsame⟩ := hr s m t h
    rw [hnone]
    refine ⟨[], s, ?_, .nil hsame⟩
    cases m with
    | classRef slotId ref => cases hnone
    | _ => rfl
  have hslot (constant : Bool) : Free (readSlot R constant) references := by
    refine .bind .u30 fun _ => .bind (hR.index (by decide)) fun _ => .bind .offset fun _ =>
      .bind .u30 fun index => ?_
    split
    · exact .pure rfl
    · exact .ret (.bind .offset fun _ => .bind (.next 8) fun _ => .bind .lift fun _ => .pure _)
        fun _ => rfl
  have hmethod (role : MethodRole) : Free (readMethod R role) references :=
    .bind .u30 fun _ => .ret (hR.index (by decide)) fun _ => rfl
  unfold read at h
  split at h
  · exact hfree (hslot false) h
  · exact hfree (hmethod .method) h
  · exact hfree (hmethod .getter) h
  · exact hfree (hmethod .setter) h
  · obtain ⟨slotId, u, hslotId, h⟩ := Reader.bind_eq_ok.1 h
    obtain ⟨ref, _, href, ⟨⟩⟩ := Reader.bind_eq_ok.1 h
    obtain ⟨found, hfound, hall⟩ := Tells.index hR.unfinished u ref t href
    refine ⟨found, t, ?_, hall.same, hall.nonneg, ?_⟩
    · rw [againSites, Reader.bind_apply hslotId, hfound]
    · rw [hall.kept, Silent.u30 s slotId u hslotId]
  · exact hfree (.bind .u30 fun _ => .ret (hR.index (by decide)) fun _ => rfl) h
  · exact hfree (hslot true) h
  · cases h

end Member

namespace Trait

def references (t : Trait) : List Reference := t.member.references

/-- A member stands behind the name and the tag byte. -/
def againSites (scope : Scope) (t : Trait) : Reader (List Site) := do
  let _name ← scope.readIndex .multinames
  let _tag ← Reader.flags 1
  t.member.againSites scope

def sites (scope : Scope) : Reader (List Site) := Reader.revisit (read scope) (againSites scope)

def allSites (scope : Scope) : Reader (List Site) := do
  Reader.siteRecords .classes "trait" (sites scope) 0 (← Reader.u30)

theorem tells_read (hR : Opens R .classes) : Tells .classes (read R) (sites R) references := by
  refine .revisit fun s x t h => ?_
  obtain ⟨name, s₁, hname, h⟩ := Reader.bind_eq_ok.1 h
  obtain ⟨_, _, ⟨⟩, h⟩ := Reader.bind_eq_ok.1 h
  obtain ⟨tag, s₂, htag, h⟩ := Reader.bind_eq_ok.1 h
  obtain ⟨member, s₃, hmember, h⟩ := Reader.bind_eq_ok.1 h
  obtain ⟨metadata, _, hmetadata, ⟨⟩⟩ := Reader.bind_eq_ok.1 h
  obtain ⟨found, u, hfound, hall⟩ := Member.tells_read hR _ _ s₂ member s₃ hmember
  have hsilent : Silent (readMetadata R (tag.toNat.testBit 6)) := by
    unfold readMetadata
    split
    · exact .ret (.counted (hR.index (by decide))) _
    · exact .pure _
  refine ⟨found, u, ?_, hall.same, hall.nonneg, ?_⟩
  · rw [againSites, Reader.bind_apply hname, Reader.bind_apply htag, hfound]
  · rw [hsilent _ _ _ hmetadata, hall.kept, Silent.flags 1 s₁ tag s₂ htag,
      hR.index (by decide) s name s₁ hname]

theorem tells_readAll (hR : Opens R .classes) : Tells .classes (readAll R) (allSites R)
    (Reference.ofRecords "trait" references 0) :=
  .bind .u30 fun count => (tells_read hR).records 0 count

end Trait

/-! ## Instances and classes -/

def Instance.references (i : Instance) : List Reference :=
  Reference.ofRecords "trait" Trait.references 0 i.traits

def Instance.sites (scope : Scope) : Reader (List Site) := do
  let _name ← scope.readIndex .multinames
  let _superName ← scope.readIndex .multinames
  let flags ← Reader.flags 4
  let _protectedNs ← readProtectedNs scope (flags.toNat.testBit 3)
  let _interfaces ← Reader.counted (scope.readIndex .multinames)
  let _init ← scope.readIndex .methods
  Trait.allSites scope

theorem Instance.tells_read (hR : Opens R .classes) : Tells .classes (read R) (sites R) references := by
  have hprotectedNs (present : Bool) : Silent (readProtectedNs R present) := by
    unfold readProtectedNs
    split
    · exact .ret (hR.index (by decide)) _
    · exact .pure _
  exact .bind (hR.index (by decide)) fun _ => .bind (hR.index (by decide)) fun _ =>
    .bind (.flags 4) fun _ => .bind (hprotectedNs _) fun _ =>
    .bind (.counted (hR.index (by decide))) fun _ => .bind (hR.index (by decide)) fun _ =>
    (Trait.tells_readAll hR).ret fun _ => rfl

def Class.references (c : Class) : List Reference :=
  Reference.ofRecords "trait" Trait.references 0 c.traits

def Class.sites (scope : Scope) : Reader (List Site) := do
  let _init ← scope.readIndex .methods
  Trait.allSites scope

theorem Class.tells_read (hR : Opens R .classes) : Tells .classes (read R) (sites R) references :=
  .bind (hR.index (by decide)) fun _ => (Trait.tells_readAll hR).ret fun _ => rfl

/-- Where nothing was kept before and nothing is left for later, nothing is kept. -/
theorem Input.Spans.deferred_eq_nil {C : Spelling → Prop} {A : Scope} {P : Bytes → Prop}
    (h : s.Spans C A [] t P) (hs : s.deferred = []) : t.deferred = [] := by
  refine List.eq_nil_iff_forall_not_mem.2 fun p hp => ?_
  rcases h.kept p hp with hlater | ⟨q, hq, -⟩
  · cases hlater
  · rw [hs] at hq
    cases hq

/-! ## Complete constants -/

namespace Constants

/-- The tables in front of that of multinames. -/
def readPlain : Reader Constants := do
  let ints ← ConstantTable.read .ints Reader.s32
  let uints ← ConstantTable.read .uints (do return Int.ofNat (← Reader.u30))
  let doubles ← ConstantTable.read .doubles Reader.double
  let strings ← ConstantTable.read .strings readText
  let scope := Scope.unknown.set .strings strings.extent
  let namespaces ← ConstantTable.read .namespaces (Namespace.read scope)
  let scope := scope.set .namespaces namespaces.extent
  let namespaceSets ← ConstantTable.read .namespaceSets (NamespaceSet.read scope)
  return { ints, uints, doubles, strings, namespaces, namespaceSets }

/-- What is known while multinames are read. -/
def openScope (c : Constants) : Scope :=
  (((Scope.unknown.set .strings c.strings.extent).set .namespaces c.namespaces.extent).set
    .namespaceSets c.namespaceSets.extent).set .multinames .unfinished

/-- All tables, with multinames that are still to be judged. -/
def readOpen : Reader Constants := do
  let c ← readPlain
  let count ← Reader.u30
  let entries ← Reader.records .multinames Table.multinames.name (Multiname.read c.openScope) 1
    (count - 1)
  return { c with multinames := { entries, emptyCount := if count < 2 then count else 0 } }

/-- The sites of the references of all multinames. -/
def multinameSites : Reader (List Site) := do
  let c ← readPlain
  let count ← Reader.u30
  Reader.siteRecords .multinames Table.multinames.name (Multiname.sites c.openScope) 1 (count - 1)

/-- The multinames that generic names refer to. -/
def references (c : Constants) : List Reference :=
  Reference.ofRecords "multiname" Multiname.references 1 c.multinames.entries

theorem read_eq : read = do
    let c ← readOpen
    Reader.settle .multinames c.multinames.entries.length
    return c := by
  simp only [read, readOpen, readPlain, ConstantTable.read, bind_assoc, pure_bind]
  rfl

/-- References into complete tables are judged at once. -/
theorem deferred_readPlain {c : Constants} (h : readPlain s = .ok (c, t))
    (hs : s.deferred = []) : t.deferred = [] := by
  obtain ⟨ints, s₁, hints, h⟩ := Reader.bind_eq_ok.1 h
  obtain ⟨uints, s₂, huints, h⟩ := Reader.bind_eq_ok.1 h
  obtain ⟨doubles, s₃, hdoubles, h⟩ := Reader.bind_eq_ok.1 h
  obtain ⟨strings, s₄, hstrings, h⟩ := Reader.bind_eq_ok.1 h
  obtain ⟨namespaces, s₅, hnamespaces, h⟩ := Reader.bind_eq_ok.1 h
  obtain ⟨sets, _, hsets, ⟨⟩⟩ := Reader.bind_eq_ok.1 h
  let c : Constants := { ints, uints, doubles, strings, namespaces, namespaceSets := sets }
  let W := c.scope {}
  have hsame {α : Type} {write : α → Except Fault Bytes} {later : List Table} {r : Reader α}
      (hr : Yields (fun _ => True) W later r fun x run => write x = .ok run) :
      Yields (fun _ => True) W later r fun x run => write x = .ok run ∧ True :=
    hr.imp fun _ _ hx => ⟨hx, trivial⟩
  have hdouble : Yields (fun _ => True) W [.doubles] Reader.double fun bits run =>
      writeDouble bits = .ok run :=
    Yields.double.imp fun _ _ hbits => hbits ▸ rfl
  have hall := (ConstantTable.spans_read (hsame .s32) hints rfl).trans <|
    (ConstantTable.spans_read .number huints rfl).trans <|
    (ConstantTable.spans_read (hsame hdouble) hdoubles rfl).trans <|
    (ConstantTable.spans_read (hsame yields_readText) hstrings rfl).trans <|
    (ConstantTable.spans_read (hsame <| Namespace.yields_read <| mirrors_strings rfl)
      hnamespaces rfl).trans <|
    ConstantTable.spans_read (hsame <| NamespaceSet.yields_read <| mirrors_namespaces rfl)
      hsets rfl
  exact hall.deferred_eq_nil hs

theorem opens_openScope (c : Constants) : Opens c.openScope .multinames where
  unfinished := rfl
  known t ht := by
    cases t
    all_goals first | exact absurd rfl ht | nofun

/-- What is kept are the references of all generic names, in the order of the data. -/
theorem found_readOpen {c : Constants} (h : readOpen s = .ok (c, t)) (hs : s.deferred = []) :
    ∃ sites, multinameSites s = .ok (sites, t) ∧
      t.deferred = sites.map (Site.deferred .multinames) ∧
      sites.map Site.toReference = c.references ∧ ∀ ref ∈ c.references, 0 ≤ ref.index := by
  obtain ⟨c, s₁, hc, h⟩ := Reader.bind_eq_ok.1 h
  obtain ⟨count, s₂, hcount, h⟩ := Reader.bind_eq_ok.1 h
  obtain ⟨entries, _, hentries, ⟨⟩⟩ := Reader.bind_eq_ok.1 h
  have hnone : s₂.deferred = [] :=
    (Silent.u30 s₁ count s₂ hcount).trans (deferred_readPlain hc hs)
  obtain ⟨found, hfound, hall⟩ := (Multiname.tells_read c.opens_openScope).records 1 (count - 1)
    s₂ entries t hentries
  refine ⟨found, ?_, ?_, hall.same, hall.nonneg⟩
  · rw [multinameSites, Reader.bind_apply hc, Reader.bind_apply hcount, hfound]
  · rw [hall.kept, hnone, List.nil_append]

end Constants

/-! ## Complete classes -/

namespace File

/-- Everything in front of the instances. -/
def readShared : Reader File := do
  let minor ← Reader.u16
  let major ← Reader.u16
  let version : Version := { major, minor }
  let constants ← Constants.read
  let scope := constants.scope version
  let methods ← readTable "method" (Method.read scope) (← Reader.u30)
  let metadata ← readTable "metadata" (Metadata.read scope) (← Reader.u30)
  return { version, constants, methods, metadata }

/-- What is known while instances and classes are read. -/
def openScope (f : File) : Scope :=
  (((f.constants.scope f.version).set .methods (.entries f.methods.length)).set
    .metadata (.entries f.metadata.length)).set .classes .unfinished

/-- Everything up to the last class, with references to classes that are still to be judged. -/
def readOpen : Reader File := do
  let f ← readShared
  let count ← Reader.u30
  let instances ← readTable "instance" (Instance.read f.openScope) count
  let classes ← readTable "class" (Class.read f.openScope) count
  return { f with instances, classes }

/-- The sites of the references of all traits of instances and classes. -/
def classSites : Reader (List Site) := do
  let f ← readShared
  let count ← Reader.u30
  let instances ← Reader.siteRecords .classes "instance" (Instance.sites f.openScope) 0 count
  let classes ← Reader.siteRecords .classes "class" (Class.sites f.openScope) 0 count
  return instances ++ classes

/-- The classes that traits of instances and classes refer to. -/
def references (f : File) : List Reference :=
  Reference.ofRecords "instance" Instance.references 0 f.instances ++
    Reference.ofRecords "class" Class.references 0 f.classes

theorem read_eq_open : read = do
    let f ← readOpen
    Reader.settle .classes f.classes.length
    let scripts ← readTable "script" (Script.read f.scope) (← Reader.u30)
    let bodies ← readTable "method body" (Body.read f.scope) (← Reader.u30)
    return { f with scripts, bodies } := by
  simp only [read, readOpen, readShared, bind_assoc, pure_bind]
  rfl

theorem opens_openScope (f : File) : Opens f.openScope .classes where
  unfinished := rfl
  known t ht := by
    cases t
    all_goals first | exact absurd rfl ht | nofun

/-- In front of the instances, all references are judged. -/
theorem deferred_readShared {f : File} (h : readShared s = .ok (f, t)) (hs : s.deferred = []) :
    t.deferred = [] := by
  obtain ⟨minor, s₁, hminor, h⟩ := Reader.bind_eq_ok.1 h
  obtain ⟨major, s₂, hmajor, h⟩ := Reader.bind_eq_ok.1 h
  obtain ⟨constants, s₃, hconstants, h⟩ := Reader.bind_eq_ok.1 h
  obtain ⟨methodCount, s₄, hmethodCount, h⟩ := Reader.bind_eq_ok.1 h
  obtain ⟨methods, s₅, hmethods, h⟩ := Reader.bind_eq_ok.1 h
  obtain ⟨metadataCount, s₆, hmetadataCount, h⟩ := Reader.bind_eq_ok.1 h
  obtain ⟨metadata, _, hmetadata, ⟨⟩⟩ := Reader.bind_eq_ok.1 h
  let f : File := { version := { major, minor }, constants, methods, metadata }
  have hmethod := Method.yields_read (C := fun _ => True) f.mirrors_constants (by simp)
  have hentry := (Metadata.yields_read (C := fun _ => True) f.mirrors_constants).imp
    (Q := fun m run => m.write f.scope = .ok run ∧ id m = m) fun _ _ hm => ⟨hm, rfl⟩
  have hall := (spans_version hminor hmajor).trans <|
    (Constants.spans_read hconstants fun t ht => f.extent_scope t ht).trans <|
    (spans_readTable hmethod hmethodCount hmethods).trans <|
    spans_readTable hentry hmetadataCount hmetadata
  exact hall.deferred_eq_nil hs

/-- What is kept are the references of all traits, in the order of the data. -/
theorem found_readOpen {f : File} (h : readOpen s = .ok (f, t)) (hs : s.deferred = []) :
    ∃ sites, classSites s = .ok (sites, t) ∧ t.deferred = sites.map (Site.deferred .classes) ∧
      sites.map Site.toReference = f.references ∧ ∀ ref ∈ f.references, 0 ≤ ref.index := by
  obtain ⟨f, s₁, hf, h⟩ := Reader.bind_eq_ok.1 h
  obtain ⟨count, s₂, hcount, h⟩ := Reader.bind_eq_ok.1 h
  obtain ⟨instances, s₃, hinstances, h⟩ := Reader.bind_eq_ok.1 h
  obtain ⟨classes, _, hclasses, ⟨⟩⟩ := Reader.bind_eq_ok.1 h
  have hnone : s₂.deferred = [] :=
    (Silent.u30 s₁ count s₂ hcount).trans (deferred_readShared hf hs)
  obtain ⟨found, hfound, hall⟩ := (Instance.tells_read f.opens_openScope).records 0 count
    s₂ instances s₃ hinstances
  obtain ⟨found', hfound', hall'⟩ := (Class.tells_read f.opens_openScope).records 0 count
    s₃ classes t hclasses
  have hboth := hall.append hall'
  refine ⟨found ++ found', ?_, ?_, hboth.same, hboth.nonneg⟩
  · rw [classSites, Reader.bind_apply hf, Reader.bind_apply hcount, Reader.bind_apply hfound,
      Reader.bind_apply hfound']
    rfl
  · rw [hboth.kept, hnone, List.nil_append]

end File

/-! ## Names of the records -/

theorem Place.within_trait (owner : String) (j : Nat) :
    Place.within owner (some ("trait" ++ " " ++ toString j)) =
      some (owner ++ ", trait " ++ toString j) := by
  unfold Place.within
  split
  · rename_i h
    cases h
  · rename_i h
    simp at h
  · rename_i text _ h
    obtain rfl := Option.some.inj h
    have hlabel : ", trait " = ", " ++ ("trait" ++ " ") := by decide
    rw [hlabel]
    simp only [String.append_assoc]

/-- The classes that some traits refer to, with what the traits of their owner are called. -/
def Trait.classReferences (owner : String) (traits : List Trait) : List Reference :=
  traits.zipIdx.flatMap fun p =>
    match p.1.member with
    | .classRef _ ref => [⟨some (owner ++ ", trait " ++ toString p.2), ref.val⟩]
    | .slot _ _ _ _ | .method _ _ _ | .function _ _ => []

/-- The classes that the traits of instances and classes refer to, in the order of the data. -/
def File.classReferences (f : File) : List Reference :=
  (f.instances.zipIdx.flatMap fun p =>
    Trait.classReferences ("instance " ++ toString p.2) p.1.traits) ++
  f.classes.zipIdx.flatMap fun p => Trait.classReferences ("class " ++ toString p.2) p.1.traits

/-- The multinames that generic names refer to, in the order of the data. -/
def Constants.multinameReferences (c : Constants) : List Reference :=
  (c.multinames.entries.zipIdx 1).flatMap fun p =>
    match p.1 with
    | .typeName name types =>
      (name :: types).map fun i => ⟨some ("multiname " ++ toString p.2), i.val⟩
    | .qualified _ _ _ | .multi _ _ _ | .runtime _ _ | .runtimeLate _ | .multiLate _ _ => []

theorem Reference.ofTraits (owner : String) (traits : List Trait) :
    (Reference.ofRecords "trait" Trait.references 0 traits).map (inside owner) =
      Trait.classReferences owner traits := by
  simp only [ofRecords, List.map_flatMap, List.map_map, Trait.classReferences]
  congr 1
  funext p
  unfold Trait.references
  cases p.1.member with
  | classRef slotId ref =>
    simp only [Member.references, List.map_cons, List.map_nil, Function.comp_apply, inside]
    rw [← Place.within_trait]
    rfl
  | slot | method | function => rfl

theorem File.references_eq (f : File) : f.references = f.classReferences := by
  have hinstance : "instance " = "instance" ++ " " := by decide
  have hclass : "class " = "class" ++ " " := by decide
  rw [classReferences, hinstance, hclass]
  simp only [← Reference.ofTraits]
  rfl

theorem Constants.references_eq (c : Constants) : c.references = c.multinameReferences := by
  have hmultiname : "multiname " = "multiname" ++ " " := by decide
  rw [multinameReferences, hmultiname]
  unfold references Reference.ofRecords
  congr 1
  funext p
  cases p.1 with
  | typeName name types =>
    rw [Multiname.references, List.map_map]
    rfl
  | qualified | multi | runtime | runtimeLate | multiLate => rfl

/-! ## Blame -/

/-- Where the references that were kept stand at the sites, settling fails exactly if one of them
is `bound` or more, and blames the first. -/
theorem Reader.settle_blames {table : Table} (entries : Nat) {bound : Nat} {sites : List Site}
    {refs : List Reference} (hkept : s.deferred = sites.map (Site.deferred table))
    (hrefs : sites.map Site.toReference = refs) (hnonneg : ∀ ref ∈ refs, 0 ≤ ref.index)
    (hbound : bound = entries + if table.reserved then 1 else 0) :
    ((∃ v, settle table entries s = .error v) ↔ ∃ ref ∈ refs, bound ≤ ref.index) ∧
      ∀ site, sites.find? (fun site => (bound : Int) ≤ site.index) = some site →
        settle table entries s = .error
          ⟨.danglingReference table site.index entries, some site.offset, site.place⟩ := by
  have hout : ∀ site ∈ sites, decide (¬ Table.InBounds table.reserved entries site.index) =
      decide ((bound : Int) ≤ site.index) := by
    intro site hsite
    have hpos := hnonneg _ (hrefs ▸ List.mem_map_of_mem hsite)
    rw [decide_eq_decide, Table.InBounds, hbound]
    split <;> omega
  rw [settle_sites hkept, List.find?_congr hout]
  constructor
  · rw [← hrefs]
    cases hfind : sites.find? fun site => (bound : Int) ≤ site.index with
    | none =>
      have hnone := List.find?_eq_none.1 hfind
      simpa using hnone
    | some site =>
      have hmem := List.mem_of_find?_eq_some hfind
      have hbeyond := List.find?_some hfind
      exact ⟨fun _ => ⟨_, List.mem_map_of_mem hmem, of_decide_eq_true hbeyond⟩, fun _ => ⟨_, rfl⟩⟩
  · intro site hsite
    rw [hsite]

/-- When classes or multinames are complete, settling fails exactly if a trait of an instance or
a class, or a generic name, refers to what is not there. The violation is told where the first
such reference stands, and of the record that holds it. -/
theorem late_references_blamed :
    (∀ (data : Bytes) (f : File) (s : Input), File.readOpen (.ofBytes data) = .ok (f, s) →
      ∃ sites, File.classSites (.ofBytes data) = .ok (sites, s) ∧
        sites.map Site.toReference = f.classReferences ∧
        ((∃ v, Reader.settle .classes f.classes.length s = .error v) ↔
          ∃ ref ∈ f.classReferences, f.classes.length ≤ ref.index) ∧
        ∀ site, sites.find? (fun site => (f.classes.length : Int) ≤ site.index) = some site →
          let v : Violation := ⟨.danglingReference .classes site.index f.classes.length,
            some site.offset, site.place⟩
          Reader.settle .classes f.classes.length s = .error v ∧ File.decode data = .error v) ∧
    ∀ (start : Input) (c : Constants) (s : Input), start.deferred = [] →
      Constants.readOpen start = .ok (c, s) →
      ∃ sites, Constants.multinameSites start = .ok (sites, s) ∧
        sites.map Site.toReference = c.multinameReferences ∧
        ((∃ v, Reader.settle .multinames c.multinames.entries.length s = .error v) ↔
          ∃ ref ∈ c.multinameReferences, c.multinames.length ≤ ref.index) ∧
        ∀ site, sites.find? (fun site => (c.multinames.length : Int) ≤ site.index) = some site →
          let v : Violation := ⟨.danglingReference .multinames site.index
            c.multinames.entries.length, some site.offset, site.place⟩
          Reader.settle .multinames c.multinames.entries.length s = .error v ∧
            Constants.read start = .error v := by
  constructor
  · intro data f s h
    obtain ⟨sites, hsites, hkept, hrefs, hnonneg⟩ := File.found_readOpen h rfl
    rw [f.references_eq] at hrefs hnonneg
    obtain ⟨hfails, hblames⟩ := Reader.settle_blames f.classes.length hkept hrefs hnonneg rfl
    refine ⟨sites, hsites, hrefs, hfails, fun site hsite => ?_⟩
    have hsettle := hblames site hsite
    refine ⟨hsettle, Outcome.map_eq_error.2 ?_⟩
    rw [File.read_eq_open, Reader.bind_apply h, Reader.bind_error hsettle]
  · intro start c s hstart h
    obtain ⟨sites, hsites, hkept, hrefs, hnonneg⟩ := Constants.found_readOpen h hstart
    rw [c.references_eq] at hrefs hnonneg
    obtain ⟨hfails, hblames⟩ :=
      Reader.settle_blames c.multinames.entries.length hkept hrefs hnonneg rfl
    refine ⟨sites, hsites, hrefs, hfails, fun site hsite => ?_⟩
    have hsettle := hblames site hsite
    refine ⟨hsettle, ?_⟩
    rw [Constants.read_eq, Reader.bind_apply h, Reader.bind_error hsettle]

/-- Four references to classes, of which the second is the first that is out of bounds, and five
to multinames, of which the fourth is. -/
theorem late_references_blamed_second :
    let data : Bytes := [16, 0, 46, 0, 0, 0, 0, 0, 0, 0, 0, 1, 0, 0, 0, 0, 0, 2,
      0, 0, 0, 0, 0, 2, 0, 4, 0, 1, 0, 4, 0, 5, 0, 0, 0, 0, 0, 1, 0, 4, 0, 9,
      0, 1, 0, 4, 0, 7, 0, 0, 0, 0]
    let names : Bytes := [0, 0, 0, 0, 0, 0, 3, 29, 2, 1, 1, 29, 1, 3, 2, 4, 9]
    File.decode data =
        .error ⟨.danglingReference .classes 5 2, some 31, some "instance 0, trait 1"⟩ ∧
      Constants.read (.ofBytes names) =
        .error ⟨.danglingReference .multinames 4 2, some 15, some "multiname 2"⟩ := by
  intro data names
  obtain ⟨hclasses, hnames⟩ := late_references_blamed
  constructor
  · obtain ⟨⟨f, s⟩, hopen, hlength⟩ := Option.map_eq_some_iff.1
      (by decide +kernel : (File.readOpen (.ofBytes data)).toOption.map (·.1.classes.length) = some 2)
    have hfirst : ((File.classSites (.ofBytes data)).toOption.bind fun p =>
        p.1.find? fun site => (2 : Int) ≤ site.index) =
          some ⟨⟨some "instance 0, trait 1", 5⟩, 31⟩ := by
      decide +kernel
    obtain ⟨sites, hsites, -, -, hblame⟩ :=
      hclasses data f s (Outcome.toOption_eq_some.1 hopen)
    dsimp only at hlength
    rw [hsites] at hfirst
    rw [hlength] at hblame
    exact (hblame _ hfirst).2
  · obtain ⟨⟨c, s⟩, hopen, hlength⟩ := Option.map_eq_some_iff.1
      (by decide +kernel : (Constants.readOpen (.ofBytes names)).toOption.map
        (·.1.multinames.entries.length) = some 2)
    have hfirst : ((Constants.multinameSites (.ofBytes names)).toOption.bind fun p =>
        p.1.find? fun site => (3 : Int) ≤ site.index) =
          some ⟨⟨some "multiname 2", 4⟩, 15⟩ := by
      decide +kernel
    obtain ⟨sites, hsites, -, -, hblame⟩ :=
      hnames (.ofBytes names) c s rfl (Outcome.toOption_eq_some.1 hopen)
    dsimp only at hlength
    rw [hsites] at hfirst
    rw [ConstantTable.length, hlength] at hblame
    exact (hblame _ hfirst).2

end ActionCode
