import ActionCode.Draft
import ActionCode.Proofs.Emission.Records
import ActionCode.Proofs.Writeback.Constants
import ActionCode.Proofs.Readback.Constants

/-!
# Constants that grow

Constants that were read can be added to, written and read again, and all of their entries come
back. A table that was read without entries remembers the count it had; the count stays behind
when the table gets its first entry, but is not written any more.
-/

namespace ActionCode

/-! ## Edits -/

/-- An entry of one of the seven tables. -/
inductive Entry
  | int (value : Int)
  | uint (value : Int)
  | double (bits : UInt64)
  | text (bytes : Bytes)
  | ns (ns : Namespace)
  | nsSet (set : NamespaceSet)
  | multiname (name : Multiname)

def Entry.write (W : Scope) : Entry → Except Fault Bytes
  | int value => Varint.writeS32 value
  | uint value => Varint.writeU30 value
  | double bits => writeDouble bits
  | text bytes => writeText bytes
  | ns value => value.write W
  | nsSet set => set.write W
  | multiname name => name.write W

/-- An entry that can be written in the scope `W` and is not changed by that: an unsigned number
is not negative. -/
def Entry.Writable (W : Scope) (e : Entry) : Prop :=
  (∃ run, e.write W = .ok run) ∧ ∀ value, e = uint value → 0 ≤ value

/-- An entry that is put into its table, always or only if it is not found there. -/
structure Edit where
  interned : Bool
  entry : Entry

/-- What becomes of a draft, which stays what it is if the value is refused. -/
def Draft.put {α : Type} [DecidableEq α] (d : Draft) (c : Column α) (interned : Bool)
    (value : α) : Draft :=
  if interned then
    match d.intern c value with
    | .ok (d', _) => d'
    | .error _ => d
  else (d.add c value).1

def Edit.apply (d : Draft) (e : Edit) : Draft :=
  match e.entry with
  | .int value => d.put Column.ints e.interned value
  | .uint value => d.put Column.uints e.interned value
  | .double bits => d.put Column.doubles e.interned bits
  | .text bytes => d.put Column.strings e.interned bytes
  | .ns ns => d.put Column.namespaces e.interned ns
  | .nsSet set => d.put Column.namespaceSets e.interned set
  | .multiname name => d.put Column.multinames e.interned name

/-- The constants after some edits, one after another. -/
def Constants.edited (c : Constants) (edits : List Edit) : Constants :=
  (edits.foldl Edit.apply (.ofFile { constants := c })).file.constants

/-! ## Growing tables -/

namespace ConstantTable

variable {α : Type} {S : α → Prop} {t u v : ConstantTable α}

/-- The table `u` is `t` with entries of `S` behind its own. -/
structure Extends (S : α → Prop) (t u : ConstantTable α) : Prop where
  count : u.emptyCount = t.emptyCount
  entries : ∃ added, u.entries = t.entries ++ added ∧ ∀ x ∈ added, S x

theorem Extends.refl (t : ConstantTable α) : t.Extends S t where
  count := rfl
  entries := ⟨[], (List.append_nil _).symm, by simp⟩

theorem Extends.trans (h : t.Extends S u) (g : u.Extends S v) : t.Extends S v where
  count := g.count.trans h.count
  entries := by
    obtain ⟨added, hu, hadded⟩ := h.entries
    obtain ⟨added', hv, hadded'⟩ := g.entries
    exact ⟨added ++ added', by rw [hv, hu, List.append_assoc],
      List.forall_mem_append.2 ⟨hadded, hadded'⟩⟩

theorem Extends.forall_mem {P : α → Prop} (h : t.Extends S u) (ht : ∀ x ∈ t.entries, P x)
    (hS : ∀ x, S x → P x) : ∀ x ∈ u.entries, P x := by
  obtain ⟨added, hu, hadded⟩ := h.entries
  rw [hu, List.forall_mem_append]
  exact ⟨ht, fun x hx => hS x (hadded x hx)⟩

theorem Extends.length_le (h : t.Extends S u) : t.entries.length ≤ u.entries.length := by
  obtain ⟨added, hu, -⟩ := h.entries
  rw [hu, List.length_append]
  exact Nat.le_add_right _ _

theorem Extends.nil (h : t.Extends S u) (hu : u.entries = []) : t.entries = [] := by
  have hle := h.length_le
  rw [hu] at hle
  exact List.length_eq_zero_iff.1 (Nat.le_zero.1 hle)

theorem Extends.plain (h : t.Extends S u) (ht : t.Plain) : u.Plain := by
  intro hu
  rw [h.count]
  exact ht (h.nil hu)

end ConstantTable

/-- Each table of `p` is one of `c` with entries of `S` behind its own. -/
structure Constants.Extends (S : Entry → Prop) (c p : Constants) : Prop where
  ints : c.ints.Extends (fun x => S (.int x)) p.ints
  uints : c.uints.Extends (fun x => S (.uint x)) p.uints
  doubles : c.doubles.Extends (fun x => S (.double x)) p.doubles
  strings : c.strings.Extends (fun x => S (.text x)) p.strings
  namespaces : c.namespaces.Extends (fun x => S (.ns x)) p.namespaces
  namespaceSets : c.namespaceSets.Extends (fun x => S (.nsSet x)) p.namespaceSets
  multinames : c.multinames.Extends (fun x => S (.multiname x)) p.multinames

namespace Constants

variable {S : Entry → Prop} {c p q : Constants}

theorem Extends.refl (c : Constants) : c.Extends S c :=
  ⟨.refl _, .refl _, .refl _, .refl _, .refl _, .refl _, .refl _⟩

theorem Extends.trans (h : c.Extends S p) (g : p.Extends S q) : c.Extends S q where
  ints := h.ints.trans g.ints
  uints := h.uints.trans g.uints
  doubles := h.doubles.trans g.doubles
  strings := h.strings.trans g.strings
  namespaces := h.namespaces.trans g.namespaces
  namespaceSets := h.namespaceSets.trans g.namespaceSets
  multinames := h.multinames.trans g.multinames

theorem Extends.plain (h : c.Extends S p) (hc : c.Plain) : p.Plain where
  ints := h.ints.plain hc.ints
  uints := h.uints.plain hc.uints
  doubles := h.doubles.plain hc.doubles
  strings := h.strings.plain hc.strings
  namespaces := h.namespaces.plain hc.namespaces
  namespaceSets := h.namespaceSets.plain hc.namespaceSets
  multinames := h.multinames.plain hc.multinames

end Constants

/-! ## Edits let tables grow -/

section Put

variable {α : Type} [DecidableEq α]

def Register.put (r : Register α) (interned : Bool) (value : α) : Register α :=
  if interned then (r.intern value).1 else r.add value

/-- Nothing that has a hash is refused. -/
theorem Draft.put_eq (d : Draft) {c : Column α} (hashed : c.table.hashed = true) (interned : Bool)
    (value : α) : d.put c interned value = c.set ((c.get d).put interned value) d := by
  cases interned with
  | false => simp [Draft.put, Register.put, add, hashed]
  | true =>
    rw [Draft.put, if_pos rfl, intern, Table.ensureHash_some, if_pos hashed]
    rfl

theorem Register.entries_put (r : Register α) (interned : Bool) (value : α) :
    (r.put interned value).entries = r.entries ∨
      (r.put interned value).entries = r.entries ++ [value] := by
  cases interned with
  | false => exact .inr rfl
  | true =>
    simp only [put, if_true, intern]
    split
    · exact .inl rfl
    · exact .inr rfl

theorem ConstantTable.Extends.put {S : α → Prop} {t : ConstantTable α} {memories : List (Memory α)}
    {interned : Bool} {value : α} (h : S value) : t.Extends S
      { t with entries := ((⟨t.entries, memories⟩ : Register α).put interned value).entries } where
  count := rfl
  entries := by
    rcases Register.entries_put ⟨t.entries, memories⟩ interned value with hsame | hadded
    · exact ⟨[], by rw [hsame, List.append_nil], by simp⟩
    · exact ⟨[value], hadded, by simpa using h⟩

end Put

namespace Edit

variable {S : Entry → Prop}

theorem extends_apply (d : Draft) {e : Edit} (h : S e.entry) :
    d.file.constants.Extends S (e.apply d).file.constants := by
  obtain ⟨interned, entry⟩ := e
  have hsame := Constants.Extends.refl (S := S) d.file.constants
  cases entry
  all_goals
    dsimp only [apply]
    rw [Draft.put_eq d rfl]
  · exact { hsame with ints := .put h }
  · exact { hsame with uints := .put h }
  · exact { hsame with doubles := .put h }
  · exact { hsame with strings := .put h }
  · exact { hsame with namespaces := .put h }
  · exact { hsame with namespaceSets := .put h }
  · exact { hsame with multinames := .put h }

theorem extends_foldl (d : Draft) {edits : List Edit} (h : ∀ e ∈ edits, S e.entry) :
    d.file.constants.Extends S (edits.foldl apply d).file.constants := by
  induction edits generalizing d with
  | nil => exact .refl _
  | cons e edits ih =>
    rw [List.forall_mem_cons] at h
    exact (extends_apply d h.1).trans (ih (e.apply d) h.2)

end Edit

/-! ## Larger tables admit more -/

/-- What `W` admits, `W'` admits as well. -/
def Scope.Grows (W W' : Scope) : Prop := ∀ t index, W.Admits t index → W'.Admits t index

theorem Field.Fits.mono {W W' : Scope} {field : Field} (h : field.Fits W) (hW : W.Grows W') :
    field.Fits W' := by
  cases field with
  | reference t index => exact ⟨hW t index h.1, h.2⟩
  | literal l => exact ⟨h.1, fun t ht => hW t l.index (h.2.1 t ht), h.2.2⟩
  | number value => exact h
  | signed value => exact h
  | word value => exact h
  | byte value => exact h
  | namespaceKind kind => exact h
  | params ps => exact h

/-- What can be written is not lost when tables grow. -/
theorem Emits.grow {α : Type} {W W' : Scope} {x y : Except Fault α} {fields : List Field}
    (hx : Emits W x fields) (hy : Emits W' y fields) (hW : W.Grows W') (h : ∃ a, x = .ok a) :
    ∃ a, y = .ok a :=
  hy.2 fun field hfield => (hx.1 h field hfield).mono hW

theorem ConstantTable.Extends.admits {α : Type} {S : α → Prop} {t u : ConstantTable α}
    (h : t.Extends S u) {reserved : Bool} {index : Int}
    (ht : ∀ count, t.extent = .entries count → Table.InBounds reserved count index) :
    ∀ count, u.extent = .entries count → Table.InBounds reserved count index := by
  rintro _ ⟨⟩
  have hle := h.length_le
  obtain ⟨hpos, hlt⟩ := ht _ rfl
  exact ⟨hpos, by omega⟩

theorem Constants.Extends.grows {S : Entry → Prop} {c p : Constants} {version : Version}
    (h : c.Extends S p) : (c.scope version).Grows (p.scope version) := by
  intro t index ht
  cases t with
  | ints => exact h.ints.admits ht
  | uints => exact h.uints.admits ht
  | doubles => exact h.doubles.admits ht
  | strings => exact h.strings.admits ht
  | namespaces => exact h.namespaces.admits ht
  | namespaceSets => exact h.namespaceSets.admits ht
  | multinames => exact h.multinames.admits ht
  | methods | metadata | instances | classes | scripts | bodies | handlers => rintro _ ⟨⟩

/-! ## Writing -/

namespace ConstantTable

variable {α : Type} {S : α → Prop} {t u : ConstantTable α} {write write' : α → Except Fault Bytes}

theorem exists_write : (∃ run, t.write write = .ok run) ↔
    Varint.Fits t.writtenCount ∧ ∀ x ∈ t.entries, ∃ run, write x = .ok run := by
  simp only [ConstantTable.write, Outcome.bind_eq_ok, Outcome.pure_eq_ok, Varint.writeU30_eq_ok,
    ← exists_writeEach, Varint.Fits]
  constructor
  · rintro ⟨_, _, ⟨hfits, -⟩, each, heach, -⟩
    exact ⟨hfits, each, heach⟩
  · rintro ⟨hfits, each, heach⟩
    exact ⟨_, _, ⟨hfits, rfl⟩, each, heach, rfl⟩

theorem Extends.exists_write (h : t.Extends S u) (ht : ∃ run, t.write write = .ok run)
    (hroom : u.entries.length < 2 ^ 32 - 1)
    (hgrow : ∀ x, (∃ run, write x = .ok run) → ∃ run, write' x = .ok run)
    (hS : ∀ x, S x → ∃ run, write' x = .ok run) : ∃ run, u.write write' = .ok run := by
  obtain ⟨hfits, hentries⟩ := ConstantTable.exists_write.1 ht
  refine ConstantTable.exists_write.2
    ⟨?_, h.forall_mem (fun x hx => hgrow x (hentries x hx)) hS⟩
  unfold writtenCount at hfits ⊢
  split
  · rename_i hempty
    rw [h.nil (List.isEmpty_iff.1 hempty), List.isEmpty_nil, if_pos rfl] at hfits
    rwa [h.count]
  · unfold length Varint.Fits
    omega

/-- A count that nobody writes any more is what is lost of a table. -/
theorem normal_eq_self : t.normal = t ↔ t.emptyCount = 0 ∨ t.entries = [] := by
  obtain ⟨entries, emptyCount⟩ := t
  simp only [normal, mk.injEq, true_and, List.isEmpty_iff]
  split
  · rename_i hempty
    exact ⟨fun _ => .inr hempty, fun _ => rfl⟩
  · rename_i hentries
    exact ⟨fun h => .inl h.symm, fun h => (h.resolve_right hentries).symm⟩

end ConstantTable

namespace Constants

variable {S : Entry → Prop} {c p : Constants} {edits : List Edit} {data : Bytes}

/-- The entries of all tables, without what empty tables remember. -/
def bare (c : Constants) : Constants where
  ints := { entries := c.ints.entries }
  uints := { entries := c.uints.entries }
  doubles := { entries := c.doubles.entries }
  strings := { entries := c.strings.entries }
  namespaces := { entries := c.namespaces.entries }
  namespaceSets := { entries := c.namespaceSets.entries }
  multinames := { entries := c.multinames.entries }

def entryCount (c : Constants) : Table → Nat
  | .ints => c.ints.entries.length
  | .uints => c.uints.entries.length
  | .doubles => c.doubles.entries.length
  | .strings => c.strings.entries.length
  | .namespaces => c.namespaces.entries.length
  | .namespaceSets => c.namespaceSets.entries.length
  | .multinames => c.multinames.entries.length
  | .methods | .metadata | .instances | .classes | .scripts | .bodies | .handlers => 0

/-- The count that a table would be written with if it had no entries. -/
def emptyCount (c : Constants) : Table → Int
  | .ints => c.ints.emptyCount
  | .uints => c.uints.emptyCount
  | .doubles => c.doubles.emptyCount
  | .strings => c.strings.emptyCount
  | .namespaces => c.namespaces.emptyCount
  | .namespaceSets => c.namespaceSets.emptyCount
  | .multinames => c.multinames.emptyCount
  | .methods | .metadata | .instances | .classes | .scripts | .bodies | .handlers => 0

/-- What could be written can still be written when entries have been added. -/
theorem Extends.exists_encode {run : Bytes} (h : c.Extends (Entry.Writable (p.scope {})) p)
    (hroom : ∀ t, p.entryCount t < 2 ^ 32 - 1) (hc : c.encode = .ok run) :
    ∃ run, p.encode = .ok run := by
  have hgrow : (c.scope {}).Grows (p.scope {}) := h.grows
  simp only [encode, write, Outcome.bind_eq_ok, Outcome.pure_eq_ok] at hc ⊢
  obtain ⟨ints, hints, uints, huints, doubles, hdoubles, strings, hstrings, namespaces,
    hnamespaces, sets, hsets, multinames, hmultinames, -⟩ := hc
  obtain ⟨ints', hints'⟩ := h.ints.exists_write ⟨ints, hints⟩ (hroom .ints) (fun _ => id)
    fun _ hx => hx.1
  obtain ⟨uints', huints'⟩ := h.uints.exists_write ⟨uints, huints⟩ (hroom .uints) (fun _ => id)
    fun _ hx => hx.1
  obtain ⟨doubles', hdoubles'⟩ := h.doubles.exists_write ⟨doubles, hdoubles⟩ (hroom .doubles)
    (fun _ => id) fun _ hx => hx.1
  obtain ⟨strings', hstrings'⟩ := h.strings.exists_write ⟨strings, hstrings⟩ (hroom .strings)
    (fun _ => id) fun _ hx => hx.1
  obtain ⟨namespaces', hnamespaces'⟩ := h.namespaces.exists_write ⟨namespaces, hnamespaces⟩
    (hroom .namespaces) (fun x => Emits.grow x.emits_write x.emits_write hgrow) fun _ hx => hx.1
  obtain ⟨sets', hsets'⟩ := h.namespaceSets.exists_write ⟨sets, hsets⟩ (hroom .namespaceSets)
    (fun x => Emits.grow x.emits_write x.emits_write hgrow) fun _ hx => hx.1
  obtain ⟨multinames', hmultinames'⟩ := h.multinames.exists_write ⟨multinames, hmultinames⟩
    (hroom .multinames) (fun x => Emits.grow x.emits_write x.emits_write hgrow) fun _ hx => hx.1
  exact ⟨_, ints', hints', uints', huints', doubles', hdoubles', strings', hstrings', namespaces',
    hnamespaces', sets', hsets', multinames', hmultinames', rfl⟩

theorem map_wrap_eq_self {xs : List Int} :
    xs.map Varint.wrap = xs ↔ ∀ x ∈ xs, Varint.wrap x = x := by
  have hmap : xs.map Varint.wrap = xs.map id ↔ ∀ x ∈ xs, Varint.wrap x = id x := List.map_inj_left
  rwa [List.map_id] at hmap

/-- The unsigned numbers that can be added are normal already, and so are those that were read. -/
theorem Extends.wrap_uints {W : Scope} (h : c.Extends (Entry.Writable W) p)
    (hc : c.normal = c) : p.uints.entries.map Varint.wrap = p.uints.entries := by
  have hread : ∀ x ∈ c.uints.entries, Varint.wrap x = x := by
    have huints : c.uints.entries.map Varint.wrap = c.uints.entries :=
      congrArg (·.uints.entries) hc
    exact map_wrap_eq_self.1 huints
  refine map_wrap_eq_self.2 (h.uints.forall_mem hread fun x hx => ?_)
  obtain ⟨⟨run, hrun⟩, hpos⟩ := hx
  obtain ⟨hrange, -⟩ := Varint.writeU30_eq_ok.1 hrun
  exact Varint.wrap_of_lt (hpos x rfl) (by omega)

theorem normal_eq_self (h : p.uints.entries.map Varint.wrap = p.uints.entries) :
    p.normal = p ↔ ∀ t, p.emptyCount t = 0 ∨ p.entryCount t = 0 := by
  have hnormal : p.normal = p ↔ p.ints.normal = p.ints ∧ p.uints.normal = p.uints ∧
      p.doubles.normal = p.doubles ∧ p.strings.normal = p.strings ∧
      p.namespaces.normal = p.namespaces ∧ p.namespaceSets.normal = p.namespaceSets ∧
      p.multinames.normal = p.multinames := by
    rw [normal, h]
    exact iff_of_eq (Constants.mk.injEq ..)
  simp only [ConstantTable.normal_eq_self, ← List.length_eq_zero_iff] at hnormal
  rw [hnormal]
  constructor
  · rintro ⟨hints, huints, hdoubles, hstrings, hnamespaces, hsets, hmultinames⟩ t
    cases t with
    | ints => exact hints
    | uints => exact huints
    | doubles => exact hdoubles
    | strings => exact hstrings
    | namespaces => exact hnamespaces
    | namespaceSets => exact hsets
    | multinames => exact hmultinames
    | methods | metadata | instances | classes | scripts | bodies | handlers => exact .inl rfl
  · intro hall
    exact ⟨hall .ints, hall .uints, hall .doubles, hall .strings, hall .namespaces,
      hall .namespaceSets, hall .multinames⟩

theorem Extends.emptyCount_eq (h : c.Extends S p) (t : Table) :
    p.emptyCount t = c.emptyCount t := by
  cases t with
  | ints => exact h.ints.count
  | uints => exact h.uints.count
  | doubles => exact h.doubles.count
  | strings => exact h.strings.count
  | namespaces => exact h.namespaces.count
  | namespaceSets => exact h.namespaceSets.count
  | multinames => exact h.multinames.count
  | methods | metadata | instances | classes | scripts | bodies | handlers => rfl

/-! ## Writing and reading after edits -/

/-- Constants that were read and edited are written and read back with all of their entries. They
are the same exactly if every table that was read as empty from a count of 1 is still empty. -/
theorem decode_encode_edited (h : decode data = .ok c)
    (hedits : ∀ e ∈ edits, e.entry.Writable ((c.edited edits).scope {}))
    (hroom : ∀ t, (c.edited edits).entryCount t < 2 ^ 32 - 1) :
    ∃ bytes q, (c.edited edits).encode = .ok bytes ∧ decode bytes = .ok q ∧
      q.bare = (c.edited edits).bare ∧
      (q = c.edited edits ↔ ∀ t, c.emptyCount t = 0 ∨ (c.edited edits).entryCount t = 0) := by
  obtain ⟨⟨c, t⟩, hread, rfl⟩ := Outcome.map_eq_ok.1 h
  dsimp only at hedits hroom ⊢
  have hspans := spans_read (C := fun _ => True) (W := c.scope {}) hread fun _ _ => rfl
  obtain ⟨run, ⟨hwrite, hnormal⟩, -⟩ :=
    hspans.written ⟨hspans.admitted rfl, fun _ _ => trivial⟩
  have hextends : c.Extends (Entry.Writable ((c.edited edits).scope {})) (c.edited edits) :=
    Edit.extends_foldl (.ofFile { constants := c }) hedits
  obtain ⟨bytes, hencode⟩ := hextends.exists_encode hroom hwrite
  have hplain := hextends.plain (plain_of_read hread)
  have hwrap := hextends.wrap_uints hnormal
  obtain ⟨u, hback, -⟩ := (reads_read (fun _ _ => rfl) hplain hencode).ofBytes
  refine ⟨bytes, _, hencode, Outcome.map_eq_ok.2 ⟨_, hback, rfl⟩, ?_, ?_⟩
  · simp only [bare, normal, ConstantTable.normal, hwrap]
  · simp only [normal_eq_self hwrap, hextends.emptyCount_eq]

/-- A string that is found, a string and a number that are not, and names that refer to them. -/
theorem decode_encode_edited_names :
    let c : Constants := { strings := { entries := [[97]] } }
    let edits : List Edit := [⟨true, .text [97]⟩, ⟨true, .text [98]⟩, ⟨false, .uint 4294967295⟩,
      ⟨false, .ns ⟨22, 2⟩⟩, ⟨false, .multiname (.qualified false 1 1)⟩]
    decode [0, 0, 0, 2, 1, 97, 0, 0, 0] = .ok c ∧
      (c.edited edits).strings.entries = [[97], [98]] ∧
      ∃ bytes, (c.edited edits).encode = .ok bytes ∧ decode bytes = .ok (c.edited edits) := by
  intro c edits
  have hdecode : decode [0, 0, 0, 2, 1, 97, 0, 0, 0] = .ok c :=
    Outcome.toOption_eq_some.1 (by decide +kernel)
  have hedits : ∀ e ∈ edits, e.entry.Writable ((c.edited edits).scope {}) := by
    simp only [edits, List.forall_mem_cons, List.not_mem_nil, false_implies, implies_true,
      and_true]
    refine ⟨⟨⟨_, rfl⟩, nofun⟩, ⟨⟨_, rfl⟩, nofun⟩, ⟨⟨_, rfl⟩, ?_⟩, ⟨⟨_, rfl⟩, nofun⟩,
      ⟨⟨_, rfl⟩, nofun⟩⟩
    rintro _ ⟨⟩
    decide
  obtain ⟨bytes, q, hencode, hback, -, hsame⟩ :=
    decode_encode_edited hdecode hedits (by intro t; cases t <;> decide +kernel)
  obtain rfl := hsame.2 fun t => .inl (by cases t <;> rfl)
  exact ⟨hdecode, rfl, bytes, hencode, hback⟩

/-- A table that was empty with a count of 1 still has that count when it gets a number, and what
is read back has not. -/
theorem decode_encode_edited_counted :
    let c : Constants := { ints := { emptyCount := 1 } }
    let edits : List Edit := [⟨false, .int 5⟩]
    let bytes : Bytes := [2, 5, 0, 0, 0, 0, 0, 0]
    let q : Constants := { ints := { entries := [5] } }
    decode [1, 0, 0, 0, 0, 0, 0] = .ok c ∧ (c.edited edits).encode = .ok bytes ∧
      decode bytes = .ok q ∧ q ≠ c.edited edits := by
  intro c edits bytes q
  exact ⟨Outcome.toOption_eq_some.1 (by decide +kernel), rfl,
    Outcome.toOption_eq_some.1 (by decide +kernel), by decide +kernel⟩

end Constants

end ActionCode
