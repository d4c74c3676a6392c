import Mathlib.Tactic.Choose
import ActionCode.Proofs.Readback.File
import ActionCode.Proofs.Sections

/-!
# Files that grow

Adding an entry to a table of a file disturbs nothing else. All that was written before is written
as the same bytes; the section of the table has a new count and one more entry at its end. What is
read back is what was read before with this one entry behind the others, so every position still
resolves to what it resolved to.
-/

namespace ActionCode

/-! ## Looking up in larger tables -/

theorem Table.lookup_append {α : Type} {t : Table} {entries more : List α} {index : Int}
    {entry : Option α} (h : t.lookup entries index = .ok entry) :
    t.lookup (entries ++ more) index = .ok entry := by
  unfold lookup at h ⊢
  split at h
  · rename_i hin
    obtain ⟨hpos, hlt⟩ := hin
    have hin' : InBounds t.reserved (entries ++ more).length index := by
      rw [List.length_append]
      exact ⟨hpos, by omega⟩
    rw [if_pos hin', ← h]
    cases hreserved : t.reserved with
    | false =>
      simp only [hreserved, Bool.false_eq_true, if_false] at hlt ⊢
      rw [List.getElem?_append_left (by omega)]
    | true =>
      simp only [hreserved, if_true] at hlt ⊢
      split
      · rfl
      · rw [List.getElem?_append_left (by omega)]
  · cases h

/-! ## Growing files -/

namespace File

/-- The file `f'` is `f` with `more` entries behind those of its tables. -/
structure Grows (f f' : File) (more : (t : Table) → List t.Entry) : Prop where
  version : f'.version = f.version
  entries : ∀ t ∈ Table.written, f'.entries [] t = f.entries [] t ++ more t
  emptyCount : ∀ t, f'.constants.emptyCount t = f.constants.emptyCount t

/-- The bytes `new` of a section are the bytes `old` with the count of `f'` and with `more` at the
end. -/
def SectionGrows (f f' : File) (t : Table) (more : List t.Entry) (old new : Bytes) : Prop :=
  ∃ count count' rows added, f.writeCount t = .ok count ∧ f'.writeCount t = .ok count' ∧
    writeEach (t.writeEntry f.scope) (f.entries [] t) = .ok rows ∧
    writeEach (t.writeEntry f.scope) more = .ok added ∧
    old = count ++ rows ∧ new = count' ++ rows ++ added

theorem extent_scope_shared (f : File) {t : Table} (ht : t ∈ Table.shared) :
    f.scope.extent t = .entries (f.entries [] t).length :=
  (f.extent_wholeScope [] t ht).symm

theorem extent_scope_other (f : File) {t : Table} (ht : t ∉ Table.shared) :
    f.scope.extent t = .unknown := by
  cases t
  all_goals first | rfl | exact absurd (by decide) ht

theorem plain_iff (f : File) : f.constants.Plain ↔ ∀ t, t.reserved = true →
    f.entries [] t = [] → f.constants.emptyCount t = 0 ∨ f.constants.emptyCount t = 1 := by
  constructor
  · intro h t ht
    cases t with
    | ints => exact h.ints
    | uints => exact h.uints
    | doubles => exact h.doubles
    | strings => exact h.strings
    | namespaces => exact h.namespaces
    | namespaceSets => exact h.namespaceSets
    | multinames => exact h.multinames
    | methods | metadata | instances | classes | scripts | bodies | handlers => cases ht
  · intro h
    exact ⟨h .ints rfl, h .uints rfl, h .doubles rfl, h .strings rfl, h .namespaces rfl,
      h .namespaceSets rfl, h .multinames rfl⟩

theorem mem_written_of_reserved {t : Table} (h : t.reserved = true) : t ∈ Table.written := by
  cases t
  all_goals first | decide | cases h

theorem shared_subset_written {t : Table} (h : t ∈ Table.shared) : t ∈ Table.written := by
  cases t
  all_goals first | decide | exact absurd h (by decide)

namespace Grows

variable {f f' : File} {more : (t : Table) → List t.Entry} {t : Table}

theorem trans {f'' : File} {more' : (t : Table) → List t.Entry} (h : f.Grows f' more)
    (g : f'.Grows f'' more') : f.Grows f'' fun t => more t ++ more' t where
  version := g.version.trans h.version
  entries t ht := by rw [g.entries t ht, h.entries t ht, List.append_assoc]
  emptyCount t := (g.emptyCount t).trans (h.emptyCount t)

theorem length_entries (h : f.Grows f' more) (ht : t ∈ Table.written) :
    (f'.entries [] t).length = (f.entries [] t).length + (more t).length := by
  rw [h.entries t ht, List.length_append]

theorem widens (h : f.Grows f' more) : f.scope.Widens f'.scope where
  version := h.version
  grows t index hadmits := by
    by_cases ht : t ∈ Table.shared
    · intro count hcount
      rw [extent_scope_shared f' ht, h.length_entries (shared_subset_written ht)] at hcount
      obtain rfl := Extent.entries.inj hcount
      obtain ⟨hpos, hlt⟩ := hadmits _ (extent_scope_shared f ht)
      exact ⟨hpos, by omega⟩
    · intro count hcount
      rw [extent_scope_other f' ht] at hcount
      cases hcount

theorem plain (h : f.Grows f' more) (hf : f.constants.Plain) : f'.constants.Plain := by
  rw [plain_iff] at hf ⊢
  intro t ht hnil
  rw [h.entries t (mem_written_of_reserved ht)] at hnil
  rw [h.emptyCount t]
  exact hf t ht (List.append_eq_nil_iff.1 hnil).1

theorem count_eq (h : f.Grows f' more) (ht : t ∈ Table.written) (hmore : more t = []) :
    f'.count t = f.count t := by
  simp only [count, h.entries t ht, hmore, List.append_nil, h.emptyCount]

theorem exists_writeCount (h : f.Grows f' more) (ht : t ∈ Table.written)
    (hroom : more t ≠ [] → Varint.Fits (f'.count t)) {count : Bytes}
    (hcount : f.writeCount t = .ok count) :
    ∃ count', f'.writeCount t = .ok count' ∧ (more t = [] → count' = count) := by
  unfold writeCount at hcount ⊢
  split at hcount
  · rename_i hclasses
    exact ⟨count, by rw [if_pos hclasses, hcount], fun _ => rfl⟩
  · rename_i hclasses
    rw [if_neg hclasses]
    by_cases hmore : more t = []
    · rw [h.count_eq ht hmore]
      exact ⟨count, hcount, fun _ => rfl⟩
    · exact ⟨_, Varint.writeU30_eq_ok.2 ⟨hroom hmore, rfl⟩, fun hnil => absurd hnil hmore⟩

/-- A section that was written is written again, and so are the entries behind it. -/
theorem exists_writeSection (h : f.Grows f' more) (ht : t ∈ Table.written)
    (hroom : more t ≠ [] → Varint.Fits (f'.count t))
    (hmore : ∀ x ∈ more t, ∃ run, t.writeEntry f.scope x = .ok run) {old : Bytes}
    (hold : f.writeSection f.scope t = .ok old) :
    ∃ new, f'.writeSection f'.scope t = .ok new ∧ f.SectionGrows f' t (more t) old new ∧
      (more t = [] → new = old) := by
  obtain ⟨count, hcount, rows, hrows, rfl⟩ := writeSection_eq_ok.1 hold
  obtain ⟨count', hcount', hsame⟩ := h.exists_writeCount ht hroom hcount
  obtain ⟨added, hadded⟩ := exists_writeEach.2 hmore
  have hkeeps := Keeps.each (t.keeps_writeEntry h.widens)
  have hall : writeEach (t.writeEntry f'.scope) (f'.entries [] t) = .ok (rows ++ added) := by
    rw [h.entries t ht]
    exact writeEach_append.2 ⟨rows, hkeeps _ hrows, added, hkeeps _ hadded, rfl⟩
  refine ⟨count' ++ (rows ++ added), writeSection_eq_ok.2 ⟨count', hcount', _, hall, rfl⟩,
    ⟨count, count', rows, added, hcount, hcount', hrows, hadded, rfl, ?_⟩, fun hnil => ?_⟩
  · exact (List.append_assoc _ _ _).symm
  · rw [hnil] at hadded
    obtain rfl : [] = added := Except.ok.inj hadded
    rw [hsame hnil, List.append_nil]

/-- Only the sections of tables that have grown are different. -/
theorem exists_encode (h : f.Grows f' more)
    (hpaired : (more .instances).length = (more .classes).length)
    (hroom : ∀ t ∈ Table.written, more t ≠ [] → Varint.Fits (f'.count t))
    (hmore : ∀ t ∈ Table.written, ∀ x ∈ more t, ∃ run, t.writeEntry f.scope x = .ok run)
    {data : Bytes} (hdata : f.encode = .ok data) :
    ∃ data' version, ∃ old new : Table → Bytes, f'.encode = .ok data' ∧
      data = version ++ Table.written.flatMap old ∧ data' = version ++ Table.written.flatMap new ∧
      ∀ t ∈ Table.written, f.SectionGrows f' t (more t) (old t) (new t) ∧
        (more t = [] → new t = old t) := by
  obtain ⟨hsame, version, hversion, old, hold, rfl⟩ := encode_eq_pieces.1 hdata
  have hnew : ∀ t ∈ Table.written, ∃ new, f'.writeSection f'.scope t = .ok new ∧
      f.SectionGrows f' t (more t) (old t) new ∧ (more t = [] → new = old t) := fun t ht =>
    h.exists_writeSection ht (hroom t ht) (hmore t ht) (hold t ht)
  choose! new hwrite hgrows using hnew
  have hinstances : f'.instances.length = f.instances.length + (more .instances).length :=
    h.length_entries (t := .instances) (by decide)
  have hclasses : f'.classes.length = f.classes.length + (more .classes).length :=
    h.length_entries (t := .classes) (by decide)
  have hsame' : f'.instances.length = f'.classes.length := by
    rw [hinstances, hclasses, hsame, hpaired]
  refine ⟨_, version, old, new, encode_eq_pieces.2 ⟨hsame', version, ?_, new, hwrite, rfl⟩, rfl,
    rfl, hgrows⟩
  rw [h.version]
  exact hversion

end Grows

end File

/-! ## Reading back -/

/-- An entry as it is read back. -/
def Table.normal (version : Version) : (t : Table) → t.Entry → t.Entry
  | .ints => id
  | .uints => Varint.wrap
  | .doubles => id
  | .strings => id
  | .namespaces => id
  | .namespaceSets => id
  | .multinames => id
  | .methods => Method.normal
  | .metadata => id
  | .instances => Instance.normal
  | .classes => Class.normal
  | .scripts => Script.normal
  | .bodies => Body.normal version
  | .handlers => Handler.normal version

namespace File

theorem entries_normal (f : File) (t : Table) :
    f.normal.entries [] t = (f.entries [] t).map (t.normal f.version) := by
  cases t
  all_goals first | rfl | exact (List.map_id _).symm

/-- Only empty tables remember the count that they were written with. -/
theorem emptyCount_normal (f : File) (t : Table) : f.normal.constants.emptyCount t =
    if (f.entries [] t).isEmpty then f.constants.emptyCount t else 0 := by
  cases t
  all_goals first | rfl | exact (ite_self _).symm

variable {f f' : File} {more : (t : Table) → List t.Entry} {t : Table}

theorem Grows.entries_normal (h : f.Grows f' more) (ht : t ∈ Table.written) :
    f'.normal.entries [] t = f.normal.entries [] t ++ (more t).map (t.normal f.version) := by
  rw [File.entries_normal, File.entries_normal, h.version, h.entries t ht, List.map_append]

theorem Grows.emptyCount_normal (h : f.Grows f' more) (ht : t ∈ Table.written)
    (hmore : more t = []) :
    f'.normal.constants.emptyCount t = f.normal.constants.emptyCount t := by
  rw [File.emptyCount_normal, File.emptyCount_normal, h.emptyCount t, h.entries t ht, hmore,
    List.append_nil]

end File

/-! ## Additions -/

/-- The tables that take one entry by itself. -/
def Table.single : List Table := Table.constants ++ [methods, metadata, scripts, bodies]

theorem Table.single_subset_written {t : Table} (h : t ∈ single) : t ∈ written := by
  cases t
  all_goals first | decide | exact absurd h (by decide)

/-- What can be added to a file: an entry of one table, or an instance with its class. -/
inductive Addition
  | entry (t : Table) (single : t ∈ Table.single) (x : t.Entry)
  | pair (i : Instance) (c : Class)

/-- Appends an entry to a table. There is no table of handlers in a file. -/
def Draft.append (d : Draft) : (t : Table) → t.Entry → Draft
  | .ints, x => (d.add Column.ints x).1
  | .uints, x => (d.add Column.uints x).1
  | .doubles, x => (d.add Column.doubles x).1
  | .strings, x => (d.add Column.strings x).1
  | .namespaces, x => (d.add Column.namespaces x).1
  | .namespaceSets, x => (d.add Column.namespaceSets x).1
  | .multinames, x => (d.add Column.multinames x).1
  | .methods, x => (d.add Column.methods x).1
  | .metadata, x => (d.add Column.metadata x).1
  | .instances, x => (d.add Column.instances x).1
  | .classes, x => (d.add Column.classes x).1
  | .scripts, x => (d.add Column.scripts x).1
  | .bodies, x => (d.add Column.bodies x).1
  | .handlers, _ => d

/-- One entry of one table. -/
def Table.only (t : Table) (x : t.Entry) (u : Table) : List u.Entry :=
  if h : t = u then [h ▸ x] else []

theorem Table.forall_mem_only (P : (u : Table) → u.Entry → Prop) {t : Table} {x : t.Entry}
    (h : P t x) (u : Table) : ∀ y ∈ t.only x u, P u y := by
  intro y hy
  unfold only at hy
  split at hy
  · rename_i hu
    subst hu
    exact List.mem_singleton.1 hy ▸ h
  · cases hy

namespace Addition

def apply (d : Draft) : Addition → Draft
  | .entry t _ x => d.append t x
  | .pair i c => (d.addClass i c).1

/-- The entries that are added to each table. -/
def entries : Addition → (t : Table) → List t.Entry
  | .entry t _ x => t.only x
  | .pair i c => fun t => Table.instances.only i t ++ Table.classes.only c t

/-- All that is added can be written in the scope `W`. -/
def Writable (W : Scope) : Addition → Prop
  | .entry t _ x => ∃ run, t.writeEntry W x = .ok run
  | .pair i c => (∃ run, i.write W = .ok run) ∧ ∃ run, c.write W = .ok run

theorem Writable.entries {W : Scope} {a : Addition} (h : a.Writable W) (t : Table) :
    ∀ x ∈ a.entries t, ∃ run, t.writeEntry W x = .ok run := by
  let P (u : Table) (x : u.Entry) : Prop := ∃ run, u.writeEntry W x = .ok run
  cases a with
  | entry u _ x => exact Table.forall_mem_only P h t
  | pair i c =>
    have hinstance := Table.forall_mem_only P (t := .instances) h.1 t
    exact List.forall_mem_append.2 ⟨hinstance, Table.forall_mem_only P (t := .classes) h.2 t⟩

theorem grows_append (d : Draft) {t : Table} (ht : t ∈ Table.written) (x : t.Entry) :
    d.file.Grows (d.append t x).file (t.only x) where
  version := by cases t <;> rfl
  entries u hu := by
    -- The table itself, then all others.
    cases t
    all_goals
      cases u
      all_goals first
        | rfl
        | exact (List.append_nil _).symm
        | exact absurd ht (by decide)
  emptyCount u := by cases t <;> rfl

theorem grows_apply (d : Draft) (a : Addition) : d.file.Grows (a.apply d).file a.entries := by
  cases a with
  | entry t ht x => exact grows_append d (Table.single_subset_written ht) x
  | pair i c =>
    have hinstance := grows_append d (t := .instances) (by decide) i
    exact hinstance.trans (grows_append _ (t := .classes) (by decide) c)

theorem paired_entries (a : Addition) :
    (a.entries .instances).length = (a.entries .classes).length := by
  cases a with
  | entry t ht x =>
    cases t
    all_goals first | rfl | exact absurd ht (by decide)
  | pair i c => rfl

/-- Adding to a table never disturbs the rest of a file. A file that can be written can be written
with one more entry, as the same bytes but for the count of the table and the entry at its end, and
is read back with all tables as they were but for the entry behind the others. -/
theorem encode_apply (d : Draft) (a : Addition) {data : Bytes} (hplain : d.file.constants.Plain)
    (hdata : d.file.encode = .ok data) (hwritable : a.Writable d.file.scope)
    (hroom : ∀ t, a.entries t ≠ [] → Varint.Fits ((a.apply d).file.count t)) :
    ∃ data' version, ∃ old new : Table → Bytes, (a.apply d).file.encode = .ok data' ∧
      data = version ++ Table.written.flatMap old ∧ data' = version ++ Table.written.flatMap new ∧
      (∀ t ∈ Table.written,
        d.file.SectionGrows (a.apply d).file t (a.entries t) (old t) (new t) ∧
          (a.entries t = [] → new t = old t)) ∧
      ∃ g g', File.decode data = .ok g ∧ File.decode data' = .ok g' ∧ g'.version = g.version ∧
        ∀ t ∈ Table.written,
          g'.entries [] t = g.entries [] t ++ (a.entries t).map (t.normal g.version) ∧
          (a.entries t = [] → g'.constants.emptyCount t = g.constants.emptyCount t) ∧
          ∀ index entry, t.lookup (g.entries [] t) index = .ok entry →
            t.lookup (g'.entries [] t) index = .ok entry := by
  have hgrows := grows_apply d a
  obtain ⟨data', version, old, new, hdata', hold, hnew, hsections⟩ :=
    hgrows.exists_encode a.paired_entries (fun t _ => hroom t) (fun t _ => hwritable.entries t) hdata
  refine ⟨data', version, old, new, hdata', hold, hnew, hsections, d.file.normal,
    (a.apply d).file.normal, (File.decode_encode hplain hdata).1,
    (File.decode_encode (hgrows.plain hplain) hdata').1, hgrows.version, fun t ht => ?_⟩
  have hentries := hgrows.entries_normal ht
  refine ⟨hentries, hgrows.emptyCount_normal ht, fun index entry h => ?_⟩
  rw [hentries]
  exact Table.lookup_append h

/-- A second class, whose instance is named like the first one and extends it. -/
theorem encode_apply_class :
    let f : File := {
      constants := {
        uints := { emptyCount := 1 }
        strings := { entries := [[97]] }
        multinames := { entries := [.qualified false 1 0] } }
      methods := [{}]
      instances := [{ name := 1 }]
      classes := [{}]
      scripts := [{ traits := [{ name := 1, member := .classRef 0 0 }] }] }
    let i : Instance := { name := 1, superName := 1 }
    let c : Class := { traits := [{ name := 1, member := .method .getter 0 0 }] }
    let data : Bytes := [
      16, 0, 46, 0, 0, 1, 0, 2, 1, 97, 0, 0, 2, 7, 0, 1, 1, 0, 0, 0, 0, 0, 1, 1, 0, 1, 0, 0, 0, 0,
      0, 1, 0, 1, 1, 4, 0, 0, 0]
    f.encode = .ok data ∧ ∃ data' g, ((pair i c).apply (.ofFile f)).file.encode = .ok data' ∧
      File.decode data' = .ok g ∧ g.instances = f.instances ++ [i] ∧ g.classes = f.classes ++ [c] ∧
        g.scripts = f.scripts := by
  intro f i c data
  have hplain : f.constants.Plain := by
    constructor
    all_goals decide
  have hdata : f.encode = .ok data := Outcome.toOption_eq_some.1 (by decide +kernel)
  have hdecode : File.decode data = .ok f := Outcome.toOption_eq_some.1 (by decide +kernel)
  have hwritable : (pair i c).Writable f.scope := ⟨⟨_, rfl⟩, _, rfl⟩
  have hroom (t : Table) (h : (pair i c).entries t ≠ []) :
      Varint.Fits (((pair i c).apply (.ofFile f)).file.count t) := by
    cases t
    all_goals first | exact absurd rfl h | exact ⟨by decide, by decide⟩
  obtain ⟨data', -, -, -, hdata', -, -, -, g, g', hg, hg', -, htables⟩ :=
    encode_apply (.ofFile f) (pair i c) hplain hdata hwritable hroom
  obtain rfl : g = f := Except.ok.inj (hg.symm.trans hdecode)
  exact ⟨hdata, data', g', hdata', hg', (htables .instances (by decide)).1,
    (htables .classes (by decide)).1, (htables .scripts (by decide)).1⟩

end Addition

end ActionCode
