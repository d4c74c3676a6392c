import ActionCode.Proofs.Normal
import ActionCode.Proofs.Reader.Reads

/-!
# Constants are read back

The seven constant tables, written one after another, are read back as they were, except
for numbers that are cut to 32 bits and counts that only an empty table remembers.
-/

namespace ActionCode

open Reader (Reads)

variable {R W : Scope} {offset : Nat} {run : Bytes}

/-! ## One table -/

namespace ConstantTable

variable {α β : Type} {r : Reader β} {write : α → Except Fault Bytes}

theorem reads_read {t : ConstantTable α} {table : Table} (norm : α → β)
    (hr : ∀ x offset run, write x = .ok run → Reads W offset r run (norm x))
    (hW : W.extent table = t.extent) (hplain : t.Plain) (h : t.write write = .ok run) :
    Reads W offset (read table r) run
      { entries := t.entries.map norm, emptyCount := t.normal.emptyCount } := by
  simp only [ConstantTable.write, Outcome.bind_eq_ok, Outcome.pure_eq_ok] at h
  obtain ⟨number, hnumber, each, heach, rfl⟩ := h
  have hentries : Reads W (offset + number.length)
      (Reader.records table table.name r 1 t.entries.length) each (t.entries.map norm) :=
    .records norm (fun x _ => hr x) heach
  have hsettle : Reads W (offset + number.length + each.length)
      (Reader.settle table (t.entries.map norm).length) [] () :=
    .settle (by rw [hW, List.length_map]; rfl)
  have hcount : (Varint.wrap t.writtenCount).toNat - 1 = t.entries.length ∧
      (if (Varint.wrap t.writtenCount).toNat < 2 then
        ((Varint.wrap t.writtenCount).toNat : Int) else 0) = t.normal.emptyCount := by
    obtain ⟨hrange, -⟩ := Varint.writeU30_eq_ok.1 hnumber
    unfold writtenCount at hrange ⊢
    cases hnil : t.entries with
    | nil =>
      simp only [List.isEmpty_nil, if_true, normal, hnil]
      rcases hplain hnil with hempty | hempty
      · simp [hempty, Varint.wrap]
      · simp [hempty, Varint.wrap]
    | cons x xs =>
      simp only [hnil, List.isEmpty_cons, Bool.false_eq_true, if_false, length,
        List.length_cons, normal] at hrange ⊢
      rw [Varint.wrap_of_lt (by omega) (by omega)]
      exact ⟨by omega, if_neg (by omega)⟩
  apply (Reads.u30 hnumber).bind
  rw [hcount.1]
  refine hentries.bind_nil (hsettle.bind_nil ?_)
  rw [hcount.2]
  exact .pure _

theorem reads_same {α : Type} {r : Reader α} {write : α → Except Fault Bytes}
    {t : ConstantTable α} {table : Table}
    (hr : ∀ x offset run, write x = .ok run → Reads W offset r run x)
    (hW : W.extent table = t.extent) (hplain : t.Plain) (h : t.write write = .ok run) :
    Reads W offset (read table r) run t.normal := by
  have hread : Reads W offset (read table r) run _ := reads_read id hr hW hplain h
  rwa [List.map_id] at hread

end ConstantTable

/-! ## Entries -/

theorem reads_double {bits : UInt64} (h : writeDouble bits = .ok run) :
    Reads W offset Reader.double run bits := by
  simp only [writeDouble, Except.ok.injEq] at h
  exact h ▸ .double bits

theorem reads_readText {text : Bytes} (h : writeText text = .ok run) :
    Reads W offset readText run text := by
  simp only [writeText, Outcome.bind_eq_ok, Outcome.pure_eq_ok] at h
  obtain ⟨number, hnumber, rfl⟩ := h
  exact (Reads.count hnumber).bind (.bytes rfl)

theorem Namespace.reads_read {ns : Namespace} (hR : R.Within W) (hW : W.KnowsAll Table.constants)
    (h : ns.write W = .ok run) : Reads W offset (read R) run ns := by
  unfold Namespace.write at h
  split at h
  · rename_i hkind
    simp only [Outcome.bind_eq_ok, Outcome.pure_eq_ok] at h
    obtain ⟨kind, hwritten, name, hname, rfl⟩ := h
    obtain ⟨b, hb, rfl⟩ := Varint.writeByte_eq_ok.1 hwritten
    refine .offset_bind ((Reads.byte b).bind ?_)
    rw [hb, if_pos hkind]
    exact (Reads.index hR (hW _ (by decide)) hname).ret _
  · simp at h

theorem NamespaceSet.reads_read {set : NamespaceSet} (hR : R.Within W)
    (hW : W.KnowsAll Table.constants) (h : set.write W = .ok run) :
    Reads W offset (read R) run set := by
  have hmembers : Reads W offset (Reader.counted (R.readIndex .namespaces)) run _ :=
    .counted id (fun i _ offset run hi => .index hR (hW _ (by decide)) hi) h
  rw [List.map_id] at hmembers
  exact hmembers.ret _

namespace Multiname

theorem reads_readTypeName {name : Index .multinames} {types : List (Index .multinames)}
    (hR : R.Within W) (hW : W.KnowsAll Table.constants)
    (h : writeParts W (.typeName name types) = .ok run) :
    Reads W offset (readTypeName R) run (.typeName name types) := by
  simp only [writeParts, Outcome.bind_eq_ok, Outcome.pure_eq_ok] at h
  obtain ⟨first, hfirst, rest, hrest, rfl⟩ := h
  have htypes : Reads W (offset + first.length) (Reader.counted (R.readIndex .multinames)) rest _ :=
    .counted id (fun i _ offset run hi => .index hR (hW _ (by decide)) hi) hrest
  rw [List.map_id] at htypes
  exact (Reads.index hR (hW _ (by decide)) hfirst).bind (htypes.ret _)

/-- What stands behind the tag byte. -/
theorem reads_read {name : Multiname} (hR : R.Within W) (hW : W.KnowsAll Table.constants)
    (h : name.write W = .ok run) : Reads W offset (read R) run name := by
  simp only [write, Outcome.bind_eq_ok, Outcome.pure_eq_ok] at h
  obtain ⟨parts, hparts, rfl⟩ := h
  refine .offset_bind ((Reads.byte name.kind).bind ?_)
  have hindex {t : Table} {i : Index t} {offset : Nat} {run : Bytes} (ht : t ∈ Table.constants)
      (hi : W.writeIndex i = .ok run) : Reads W offset (R.readIndex t) run i :=
    .index hR (hW t ht) hi
  cases name with
  | qualified isAttr name ns =>
    simp only [writeParts, Outcome.bind_eq_ok, Outcome.pure_eq_ok] at hparts
    obtain ⟨first, hfirst, second, hsecond, rfl⟩ := hparts
    cases isAttr
    all_goals exact (hindex (by decide) hfirst).bind ((hindex (by decide) hsecond).ret _)
  | multi isAttr name nsSet =>
    simp only [writeParts, Outcome.bind_eq_ok, Outcome.pure_eq_ok] at hparts
    obtain ⟨first, hfirst, second, hsecond, rfl⟩ := hparts
    cases isAttr
    all_goals exact (hindex (by decide) hfirst).bind ((hindex (by decide) hsecond).ret _)
  | runtime isAttr name =>
    cases isAttr
    all_goals exact (hindex (by decide) hparts).ret _
  | runtimeLate isAttr =>
    simp only [writeParts, Outcome.pure_eq_ok] at hparts
    subst hparts
    cases isAttr
    all_goals exact .pure _
  | multiLate isAttr nsSet =>
    cases isAttr
    all_goals exact (hindex (by decide) hparts).ret _
  | typeName name types => exact reads_readTypeName hR hW hparts

end Multiname

/-! ## All seven tables -/

namespace Constants

theorem knowsAll {c : Constants} {version : Version}
    (hW : ∀ t ∈ Table.constants, W.extent t = (c.scope version).extent t) :
    W.KnowsAll Table.constants := by
  intro t ht
  rw [Scope.Knows, hW t ht]
  cases t
  all_goals first | exact ⟨_, rfl⟩ | exact absurd ht (by decide)

theorem reads_read {c : Constants} {version : Version}
    (hW : ∀ t ∈ Table.constants, W.extent t = (c.scope version).extent t) (hplain : c.Plain)
    (h : c.write W = .ok run) : Reads W offset read run c.normal := by
  simp only [write, Outcome.bind_eq_ok, Outcome.pure_eq_ok] at h
  obtain ⟨ints, hints, uints, huints, doubles, hdoubles, strings, hstrings, namespaces,
    hnamespaces, sets, hsets, multinames, hmultinames, rfl⟩ := h
  have hknows := knowsAll hW
  have hstrings' : (Scope.unknown.set .strings c.strings.normal.extent).Within W :=
    (Scope.Within.unknown W).set fun n hn => (hW .strings (by decide)).trans hn
  have hnamespaces' := hstrings'.set (t := .namespaces) (e := c.namespaces.normal.extent)
    fun n hn => (hW .namespaces (by decide)).trans hn
  have hsets' := hnamespaces'.set (t := .namespaceSets) (e := c.namespaceSets.normal.extent)
    fun n hn => (hW .namespaceSets (by decide)).trans hn
  have hmultinames' := hsets'.set (t := .multinames) (e := .unfinished) fun n hn => by simp at hn
  simp only [List.append_assoc]
  refine (ConstantTable.reads_same (fun _ _ _ => .s32) (hW .ints (by decide))
    hplain.ints hints).bind ?_
  refine (ConstantTable.reads_read Varint.wrap (fun _ _ _ => .number) (hW .uints (by decide))
    hplain.uints huints).bind ?_
  refine (ConstantTable.reads_same (fun _ _ _ => reads_double) (hW .doubles (by decide))
    hplain.doubles hdoubles).bind ?_
  refine (ConstantTable.reads_same (fun _ _ _ => reads_readText) (hW .strings (by decide))
    hplain.strings hstrings).bind ?_
  refine (ConstantTable.reads_same (fun _ _ _ => Namespace.reads_read hstrings' hknows)
    (hW .namespaces (by decide)) hplain.namespaces hnamespaces).bind ?_
  refine (ConstantTable.reads_same (fun _ _ _ => NamespaceSet.reads_read hnamespaces' hknows)
    (hW .namespaceSets (by decide)) hplain.namespaceSets hsets).bind ?_
  refine (ConstantTable.reads_same (fun _ _ _ => Multiname.reads_read hmultinames' hknows)
    (hW .multinames (by decide)) hplain.multinames hmultinames).bind_nil ?_
  exact .pure _

end Constants

end ActionCode
