import ActionCode.Proofs.Normal
import ActionCode.Proofs.Reader.Yields

/-!
# Constants are written back

Whatever has been read of the constant pool can be written, and is in normal form.
-/

namespace ActionCode

open Reader (Yields)

variable {C : Spelling → Prop} {R W A : Scope} {later : List Table} {s t : Input}

/-! ## One table -/

namespace ConstantTable

variable {α : Type} {r : Reader α} {write : α → Except Fault Bytes} {F : α → Prop}
  {table : Table} {x : ConstantTable α}

theorem plain_of_read (h : read table r s = .ok (x, t)) : x.Plain := by
  obtain ⟨count, s₁, -, h⟩ := Reader.bind_eq_ok.1 h
  obtain ⟨entries, s₂, -, h⟩ := Reader.bind_eq_ok.1 h
  obtain ⟨_, s₃, -, ⟨⟩⟩ := Reader.bind_eq_ok.1 h
  intro _
  dsimp only
  split <;> omega

theorem spans_read (hr : Yields C A (table :: later) r fun x run => write x = .ok run ∧ F x)
    (h : read table r s = .ok (x, t)) (hA : A.extent table = x.extent) :
    s.Spans C A later t fun run =>
      x.write write = .ok run ∧ (∀ y ∈ x.entries, F y) ∧ x.normal = x := by
  obtain ⟨count, s₁, hcount, h⟩ := Reader.bind_eq_ok.1 h
  obtain ⟨entries, s₂, hentries, h⟩ := Reader.bind_eq_ok.1 h
  obtain ⟨_, s₃, hsettle, ⟨⟩⟩ := Reader.bind_eq_ok.1 h
  refine ((Yields.u30 s count s₁ hcount).trans
    (hr.records 1 (count - 1) s₁ entries s₂ hentries)).imp ?_ |>.settle hsettle hA
  intro _ hpost
  rcases hpost with ⟨a, ⟨ha, -⟩, b, ⟨hlength, hb, hall⟩, rfl⟩
  have hpos (h : ¬ entries.isEmpty = true) : 0 < entries.length :=
    List.length_pos_iff.2 fun hnil => h (by rw [hnil]; rfl)
  refine ⟨?_, hall, ?_⟩
  · have hwritten : writtenCount ⟨entries, if count < 2 then (count : Int) else 0⟩ = count := by
      unfold writtenCount length
      dsimp only
      split
      · rename_i hempty
        rw [List.isEmpty_iff.1 hempty, List.length_nil] at hlength
        rw [if_pos (by omega)]
      · rename_i hnonempty
        have hpos := hpos hnonempty
        omega
    simp only [ConstantTable.write, Outcome.bind_eq_ok, Outcome.pure_eq_ok, hwritten]
    exact ⟨a, ha, b, hb, rfl⟩
  · simp only [normal, mk.injEq, true_and]
    split
    · rfl
    · rename_i hnonempty
      have hpos := hpos hnonempty
      rw [if_neg (by omega)]

end ConstantTable

/-! ## Entries -/

theorem yields_readText : Yields C A later readText fun text run => writeText text = .ok run := by
  apply (Yields.u30.bind fun length => Yields.bytes length).imp
  intro _ _ hpost
  rcases hpost with ⟨length, a, ⟨ha, -⟩, b, ⟨rfl, rfl⟩, rfl⟩
  simp only [writeText, Outcome.bind_eq_ok, Outcome.pure_eq_ok]
  exact ⟨a, ha, rfl⟩

theorem Namespace.yields_read (h : R.Mirrors W A later [.strings]) :
    Yields C A later (read R) fun ns run => ns.write W = .ok run := by
  refine .offset_bind fun o => ?_
  refine (Yields.byte.bind (Q := fun kind ns run => (kind.toNat : Int) ∈ kinds ∧
    ns.kind = kind.toNat ∧ W.writeIndex ns.name = .ok run) fun kind => ?_).imp ?_
  · split
    · rename_i hkind
      apply ((Yields.index h (by decide)).ret _).imp
      intro _ run hpost
      rcases hpost with ⟨name, ⟨hname, -⟩, rfl⟩
      exact ⟨hkind, rfl, hname⟩
    · exact .fail
  · intro ns _ hpost
    rcases hpost with ⟨kind, _, rfl, b, ⟨hmem, hkind, hb⟩, rfl⟩
    rw [← hkind] at hmem
    simp only [Namespace.write, if_pos hmem, Outcome.bind_eq_ok, Outcome.pure_eq_ok]
    exact ⟨[kind], Varint.writeByte_eq_ok.2 ⟨kind, hkind.symm, rfl⟩, b, hb, rfl⟩

theorem NamespaceSet.yields_read (h : R.Mirrors W A later [.namespaces]) :
    Yields C A later (read R) fun set run => set.write W = .ok run := by
  have hindex : Yields C A later (R.readIndex .namespaces) fun i run =>
      W.writeIndex i = .ok run ∧ True :=
    (Yields.index h (by decide)).imp fun _ _ hi => ⟨hi.1, trivial⟩
  apply (hindex.counted.ret NamespaceSet.mk).imp
  intro _ run hpost
  rcases hpost with ⟨members, ⟨hmembers, -⟩, rfl⟩
  exact hmembers

namespace Multiname

/-- The tables that multinames refer to. -/
def tables : List Table := [.strings, .namespaces, .namespaceSets, .multinames]

variable {isAttr : Bool} {tag : UInt8}

/-- What stands behind the tag byte of a multiname. -/
abbrev Parts (W : Scope) (tag : UInt8) (m : Multiname) (run : Bytes) : Prop :=
  m.kind = tag ∧ m.writeParts W = .ok run

theorem yields_readQualified (h : R.Mirrors W A later tables)
    (htag : ∀ name ns, (qualified isAttr name ns).kind = tag) :
    Yields C A later (readQualified R isAttr) (Parts W tag) := by
  refine ((Yields.index h (by decide)).bind fun ns =>
    (Yields.index h (by decide)).ret (qualified isAttr · ns)).imp ?_
  intro _ _ hpost
  rcases hpost with ⟨ns, a, ⟨ha, -⟩, b, ⟨name, ⟨hb, -⟩, rfl⟩, rfl⟩
  simp only [Parts, writeParts, Outcome.bind_eq_ok, Outcome.pure_eq_ok]
  exact ⟨htag name ns, a, ha, b, hb, rfl⟩

theorem yields_readMulti (h : R.Mirrors W A later tables)
    (htag : ∀ name nsSet, (multi isAttr name nsSet).kind = tag) :
    Yields C A later (readMulti R isAttr) (Parts W tag) := by
  refine ((Yields.index h (by decide)).bind fun name =>
    (Yields.index h (by decide)).ret (multi isAttr name)).imp ?_
  intro _ _ hpost
  rcases hpost with ⟨name, a, ⟨ha, -⟩, b, ⟨nsSet, ⟨hb, -⟩, rfl⟩, rfl⟩
  simp only [Parts, writeParts, Outcome.bind_eq_ok, Outcome.pure_eq_ok]
  exact ⟨htag name nsSet, a, ha, b, hb, rfl⟩

theorem yields_readRuntime (h : R.Mirrors W A later tables)
    (htag : ∀ name, (runtime isAttr name).kind = tag) :
    Yields C A later (readRuntime R isAttr) (Parts W tag) := by
  apply ((Yields.index h (by decide)).ret (runtime isAttr)).imp
  intro _ run hpost
  rcases hpost with ⟨name, ⟨hname, -⟩, rfl⟩
  exact ⟨htag name, hname⟩

theorem yields_readMultiLate (h : R.Mirrors W A later tables)
    (htag : ∀ nsSet, (multiLate isAttr nsSet).kind = tag) :
    Yields C A later (readMultiLate R isAttr) (Parts W tag) := by
  apply ((Yields.index h (by decide)).ret (multiLate isAttr)).imp
  intro _ run hpost
  rcases hpost with ⟨nsSet, ⟨hset, -⟩, rfl⟩
  exact ⟨htag nsSet, hset⟩

theorem yields_readTypeName (h : R.Mirrors W A later tables) :
    Yields C A later (readTypeName R) (Parts W 0x1D) := by
  have hindex : Yields C A later (R.readIndex .multinames) fun i run =>
      W.writeIndex i = .ok run ∧ True :=
    (Yields.index h (by decide)).imp fun _ _ hi => ⟨hi.1, trivial⟩
  apply (hindex.bind fun name => hindex.counted.ret (typeName name)).imp
  intro _ _ hpost
  rcases hpost with ⟨name, a, ⟨ha, -⟩, b, ⟨types, ⟨hb, -⟩, rfl⟩, rfl⟩
  simp only [Parts, writeParts, Outcome.bind_eq_ok, Outcome.pure_eq_ok]
  exact ⟨rfl, a, ha, b, hb, rfl⟩

theorem yields_read (h : R.Mirrors W A later tables) :
    Yields C A later (read R) fun m run => m.write W = .ok run := by
  have hlate {isAttr : Bool} {tag : UInt8} (htag : (runtimeLate isAttr).kind = tag) :
      Yields C A later (pure (runtimeLate isAttr)) (Parts W tag) := by
    apply (Yields.pure _).imp
    intro _ _ hpost
    rcases hpost with ⟨rfl, rfl⟩
    exact ⟨htag, rfl⟩
  refine .offset_bind fun o => ?_
  refine (Yields.byte.bind (Q := Parts W) fun kind => ?_).imp ?_
  · split
    · exact yields_readQualified h fun _ _ => rfl
    · exact yields_readQualified h fun _ _ => rfl
    · exact yields_readMulti h fun _ _ => rfl
    · exact yields_readMulti h fun _ _ => rfl
    · exact yields_readRuntime h fun _ => rfl
    · exact yields_readRuntime h fun _ => rfl
    · exact hlate rfl
    · exact hlate rfl
    · exact yields_readMultiLate h fun _ => rfl
    · exact yields_readMultiLate h fun _ => rfl
    · exact yields_readTypeName h
    · exact .fail
  · intro m _ hpost
    rcases hpost with ⟨kind, _, rfl, b, ⟨rfl, hb⟩, rfl⟩
    simp only [write, Outcome.bind_eq_ok, Outcome.pure_eq_ok]
    exact ⟨b, hb, rfl⟩

end Multiname

/-! ## All seven tables -/

namespace Constants

variable {c : Constants}

theorem plain_of_read (h : read s = .ok (c, t)) : c.Plain := by
  obtain ⟨ints, _, hints, h⟩ := Reader.bind_eq_ok.1 h
  obtain ⟨uints, _, huints, h⟩ := Reader.bind_eq_ok.1 h
  obtain ⟨doubles, _, hdoubles, h⟩ := Reader.bind_eq_ok.1 h
  obtain ⟨strings, _, hstrings, h⟩ := Reader.bind_eq_ok.1 h
  obtain ⟨namespaces, _, hnamespaces, h⟩ := Reader.bind_eq_ok.1 h
  obtain ⟨sets, _, hsets, h⟩ := Reader.bind_eq_ok.1 h
  obtain ⟨multinames, _, hmultinames, ⟨⟩⟩ := Reader.bind_eq_ok.1 h
  exact {
    ints := ConstantTable.plain_of_read hints
    uints := ConstantTable.plain_of_read huints
    doubles := ConstantTable.plain_of_read hdoubles
    strings := ConstantTable.plain_of_read hstrings
    namespaces := ConstantTable.plain_of_read hnamespaces
    namespaceSets := ConstantTable.plain_of_read hsets
    multinames := ConstantTable.plain_of_read hmultinames }

/-! What is known of the tables in front, while the later ones are read. -/

variable {α β γ : Type} {strings : ConstantTable α} {namespaces : ConstantTable β}
  {sets : ConstantTable γ}

theorem mirrors_strings (hstrings : W.extent .strings = strings.extent) :
    (Scope.unknown.set .strings strings.extent).Mirrors W W later [.strings] where
  same t ht := by
    obtain rfl := List.mem_singleton.1 ht
    exact .inl hstrings.symm
  leaves := .refl _ W
  later t ht := by cases t <;> cases ht

theorem mirrors_namespaces (hnamespaces : W.extent .namespaces = namespaces.extent) :
    ((Scope.unknown.set .strings strings.extent).set .namespaces
      namespaces.extent).Mirrors W W later [.namespaces] where
  same t ht := by
    obtain rfl := List.mem_singleton.1 ht
    exact .inl hnamespaces.symm
  leaves := .refl _ W
  later t ht := by cases t <;> cases ht

/-- Multinames may refer to multinames that are yet to come. -/
theorem mirrors_multinames (hstrings : W.extent .strings = strings.extent)
    (hnamespaces : W.extent .namespaces = namespaces.extent)
    (hsets : W.extent .namespaceSets = sets.extent) :
    ((((Scope.unknown.set .strings strings.extent).set .namespaces namespaces.extent).set
      .namespaceSets sets.extent).set .multinames .unfinished).Mirrors W W [.multinames]
      Multiname.tables where
  same t ht := by
    simp only [Multiname.tables, List.mem_cons, List.not_mem_nil, or_false] at ht
    rcases ht with rfl | rfl | rfl | rfl
    · exact .inl hstrings.symm
    · exact .inl hnamespaces.symm
    · exact .inl hsets.symm
    · exact .inr rfl
  leaves := .refl _ W
  later t ht := by
    cases t
    all_goals first | exact List.mem_singleton.2 rfl | cases ht

/-- All constants are settled when the last table is. -/
theorem spans_read {version : Version} (h : read s = .ok (c, t))
    (hW : ∀ t ∈ Table.constants, W.extent t = (c.scope version).extent t) :
    s.Spans C W [] t fun run => c.write W = .ok run ∧ c.normal = c := by
  obtain ⟨ints, s₁, hints, h⟩ := Reader.bind_eq_ok.1 h
  obtain ⟨uints, s₂, huints, h⟩ := Reader.bind_eq_ok.1 h
  obtain ⟨doubles, s₃, hdoubles, h⟩ := Reader.bind_eq_ok.1 h
  obtain ⟨strings, s₄, hstrings, h⟩ := Reader.bind_eq_ok.1 h
  obtain ⟨namespaces, s₅, hnamespaces, h⟩ := Reader.bind_eq_ok.1 h
  obtain ⟨sets, s₆, hsets, h⟩ := Reader.bind_eq_ok.1 h
  obtain ⟨multinames, s₇, hmultinames, ⟨⟩⟩ := Reader.bind_eq_ok.1 h
  have hsame {α : Type} {write : α → Except Fault Bytes} {later : List Table} {r : Reader α}
      (hr : Yields C W later r fun x run => write x = .ok run) :
      Yields C W later r fun x run => write x = .ok run ∧ True :=
    hr.imp fun _ _ hx => ⟨hx, trivial⟩
  have hdouble : Yields C W [.doubles] Reader.double fun bits run => writeDouble bits = .ok run :=
    Yields.double.imp fun _ _ hbits => hbits ▸ rfl
  have hstringsW := hW .strings (by decide)
  have hnamespacesW := hW .namespaces (by decide)
  have hsetsW := hW .namespaceSets (by decide)
  have hall := (ConstantTable.spans_read (hsame .s32) hints (hW .ints (by decide))).trans <|
    (ConstantTable.spans_read .number huints (hW .uints (by decide))).trans <|
    (ConstantTable.spans_read (hsame hdouble) hdoubles (hW .doubles (by decide))).trans <|
    (ConstantTable.spans_read (hsame yields_readText) hstrings hstringsW).trans <|
    (ConstantTable.spans_read (hsame <| Namespace.yields_read <| mirrors_strings hstringsW)
      hnamespaces hnamespacesW).trans <|
    (ConstantTable.spans_read (hsame <| NamespaceSet.yields_read <|
      mirrors_namespaces hnamespacesW) hsets hsetsW).trans <|
    ConstantTable.spans_read (hsame <| Multiname.yields_read <|
      mirrors_multinames hstringsW hnamespacesW hsetsW) hmultinames
      (hW .multinames (by decide))
  apply hall.imp
  intro _ hpost
  rcases hpost with ⟨a, ⟨ha, -, hints⟩, _, ⟨b, ⟨hb, huints, huints'⟩, _, ⟨c, ⟨hc, -, hdoubles⟩, _,
    ⟨d, ⟨hd, -, hstrings⟩, _, ⟨e, ⟨he, -, hnamespaces⟩, _, ⟨f, ⟨hf, -, hsets⟩, g, ⟨hg, -,
    hmultinames⟩, rfl⟩, rfl⟩, rfl⟩, rfl⟩, rfl⟩, rfl⟩
  constructor
  · simp only [write, Outcome.bind_eq_ok, Outcome.pure_eq_ok]
    exact ⟨a, ha, b, hb, c, hc, d, hd, e, he, f, hf, g, hg, by simp only [List.append_assoc]⟩
  · simp only [normal, hints, hdoubles, hstrings, hnamespaces, hsets, hmultinames, huints',
      List.map_congr_left huints, List.map_id']

end Constants

end ActionCode
