import ActionCode.Proofs.Closure
import ActionCode.Proofs.Persistence

/-!
# Sections

Behind its version, the data of a file is one section after another: for each table a count and
the entries, except that the classes, of which there are as many as instances, are not counted.
A section depends on its own table, and otherwise on what the scope admits.
-/

namespace ActionCode

/-! ## Writing each of some things -/

section Each

variable {α : Type} {write : α → Except Fault Bytes} {xs ys : List α} {run : Bytes}

theorem writeEach_nil (write : α → Except Fault Bytes) : writeEach write [] = pure [] := rfl

theorem writeEach_cons (write : α → Except Fault Bytes) (x : α) (xs : List α) :
    writeEach write (x :: xs) = do
      let head ← write x
      return head ++ (← writeEach write xs) := rfl

theorem writeEach_append : writeEach write (xs ++ ys) = .ok run ↔
    ∃ front, writeEach write xs = .ok front ∧ ∃ back, writeEach write ys = .ok back ∧
      front ++ back = run := by
  induction xs generalizing run with
  | nil => simp [writeEach]
  | cons x xs ih =>
    simp only [List.cons_append, writeEach, Outcome.bind_eq_ok, Outcome.pure_eq_ok, ih]
    constructor
    · rintro ⟨head, hhead, _, ⟨front, hfront, back, hback, rfl⟩, rfl⟩
      exact ⟨_, ⟨head, hhead, front, hfront, rfl⟩, back, hback, List.append_assoc _ _ _⟩
    · rintro ⟨_, ⟨head, hhead, front, hfront, rfl⟩, back, hback, rfl⟩
      exact ⟨head, hhead, _, ⟨front, hfront, back, hback, rfl⟩, (List.append_assoc _ _ _).symm⟩

theorem writeEach_of_pieces {piece : α → Bytes} (h : ∀ x ∈ xs, write x = .ok (piece x)) :
    writeEach write xs = .ok (xs.flatMap piece) := by
  induction xs with
  | nil => rfl
  | cons x xs ih =>
    rw [List.forall_mem_cons] at h
    simp only [writeEach, Outcome.bind_eq_ok, Outcome.pure_eq_ok]
    exact ⟨_, h.1, _, ih h.2, List.flatMap_cons.symm⟩

/-- Things that can all be written are written piece by piece. -/
theorem exists_pieces (h : writeEach write xs = .ok run) :
    ∃ piece : α → Bytes, (∀ x ∈ xs, write x = .ok (piece x)) ∧ xs.flatMap piece = run := by
  have hpieces : ∀ x ∈ xs, write x = .ok ((write x).toOption.getD []) := fun x hx => by
    obtain ⟨bytes, hbytes⟩ := exists_writeEach.1 ⟨run, h⟩ x hx
    rw [hbytes]
    rfl
  exact ⟨_, hpieces, Except.ok.inj ((writeEach_of_pieces hpieces).symm.trans h)⟩

end Each

/-! ## Tables in the data -/

/-- The tables that have a section, in the order of the data. -/
def Table.written : List Table :=
  Table.constants ++ [methods, metadata, instances, classes, scripts, bodies]

def Table.writeEntry (W : Scope) : (t : Table) → t.Entry → Except Fault Bytes
  | .ints => Varint.writeS32
  | .uints => Varint.writeU30
  | .doubles => writeDouble
  | .strings => writeText
  | .namespaces => Namespace.write W
  | .namespaceSets => NamespaceSet.write W
  | .multinames => Multiname.write W
  | .methods => Method.write W
  | .metadata => Metadata.write W
  | .instances => Instance.write W
  | .classes => Class.write W
  | .scripts => Script.write W
  | .bodies => Body.write W
  | .handlers => Handler.write W

theorem Table.keeps_writeEntry {W W' : Scope} (hW : W.Widens W') (t : Table) (x : t.Entry) :
    Keeps (t.writeEntry W x) (t.writeEntry W' x) := by
  cases t with
  | ints | uints | doubles | strings => exact .refl _
  | namespaces => exact Namespace.keeps_write hW x
  | namespaceSets => exact NamespaceSet.keeps_write hW x
  | multinames => exact Multiname.keeps_write hW x
  | methods => exact Method.keeps_write hW x
  | metadata => exact Metadata.keeps_write hW x
  | instances => exact Instance.keeps_write hW x
  | classes => exact Class.keeps_write hW x
  | scripts => exact Script.keeps_write hW x
  | bodies => exact Body.keeps_write hW x
  | handlers => exact Handler.keeps_write hW x

namespace File

variable {W : Scope} {f : File} {data : Bytes}

/-- The count in front of a table. -/
def count (f : File) (t : Table) : Int :=
  match t.reserved with
  | true =>
    if (f.entries [] t).isEmpty then f.constants.emptyCount t
    else ((f.entries [] t).length + 1 : Nat)
  | false => (f.entries [] t).length

def writeCount (f : File) (t : Table) : Except Fault Bytes :=
  if t = .classes then .ok [] else Varint.writeU30 (f.count t)

/-- The count and the entries of a table. -/
def writeSection (W : Scope) (f : File) (t : Table) : Except Fault Bytes := do
  let count ← f.writeCount t
  return count ++ (← writeEach (t.writeEntry W) (f.entries [] t))

theorem writeSection_eq_ok {t : Table} {run : Bytes} : f.writeSection W t = .ok run ↔
    ∃ count, f.writeCount t = .ok count ∧
    ∃ rows, writeEach (t.writeEntry W) (f.entries [] t) = .ok rows ∧ count ++ rows = run := by
  simp only [writeSection, Outcome.bind_eq_ok, Outcome.pure_eq_ok]

/-- The names of records do not matter for what is written. -/
theorem writeTable_eq_ok {α : Type} {label : String} {write : α → Except Fault Bytes}
    {xs : List α} {run : Bytes} : writeTable label write xs = .ok run ↔
      (do let count ← Varint.writeU30 xs.length; return count ++ (← writeEach write xs)) =
        .ok run := by
  simp only [writeTable, Outcome.bind_eq_ok, Outcome.pure_eq_ok, writeRecords_eq_ok]

theorem writeConstants_eq (W : Scope) (f : File) :
    f.constants.write W = writeEach (f.writeSection W) Table.constants := by
  simp only [Constants.write, Table.constants, writeEach_nil, writeEach_cons, bind_assoc,
    pure_bind, List.append_assoc, List.append_nil]
  rfl

theorem write_eq_ok : f.write W = .ok data ↔ ∃ version, writeVersion f.version = .ok version ∧
    ∃ sections, writeEach (f.writeSection W) Table.written = .ok sections ∧
      version ++ sections = data := by
  have hmethods (run : Bytes) : writeTable "method" (Method.write W) f.methods = .ok run ↔
      f.writeSection W .methods = .ok run := writeTable_eq_ok
  have hmetadata (run : Bytes) : writeTable "metadata" (Metadata.write W) f.metadata = .ok run ↔
      f.writeSection W .metadata = .ok run := writeTable_eq_ok
  have hinstances (run : Bytes) : writeTable "instance" (Instance.write W) f.instances = .ok run ↔
      f.writeSection W .instances = .ok run := writeTable_eq_ok
  have hclasses (run : Bytes) : writeRecords "class" (Class.write W) 0 f.classes = .ok run ↔
      f.writeSection W .classes = .ok run := by
    rw [writeRecords_eq_ok, writeSection_eq_ok]
    constructor
    · exact fun h => ⟨[], rfl, run, h, rfl⟩
    · rintro ⟨_, hcount, _, hrows, rfl⟩
      obtain rfl : [] = _ := Except.ok.inj hcount
      exact hrows
  have hscripts (run : Bytes) : writeTable "script" (Script.write W) f.scripts = .ok run ↔
      f.writeSection W .scripts = .ok run := writeTable_eq_ok
  have hbodies (run : Bytes) : writeTable "method body" (Body.write W) f.bodies = .ok run ↔
      f.writeSection W .bodies = .ok run := writeTable_eq_ok
  simp only [write, Table.written, writeEach_append, writeEach_cons, writeEach_nil,
    Outcome.bind_eq_ok, Outcome.pure_eq_ok, writeConstants_eq, hmethods, hmetadata, hinstances,
    hclasses, hscripts, hbodies]
  constructor
  · rintro ⟨version, hversion, constants, hconstants, a, ha, b, hb, c, hc, d, hd, e, he, g, hg, rfl⟩
    exact ⟨version, hversion, _, ⟨constants, hconstants, _, ⟨a, ha, _, ⟨b, hb, _, ⟨c, hc, _,
      ⟨d, hd, _, ⟨e, he, _, ⟨g, hg, _, rfl, rfl⟩, rfl⟩, rfl⟩, rfl⟩, rfl⟩, rfl⟩, rfl⟩, by
        simp only [List.append_assoc, List.append_nil]⟩
  · rintro ⟨version, hversion, _, ⟨constants, hconstants, _, ⟨a, ha, _, ⟨b, hb, _, ⟨c, hc, _,
      ⟨d, hd, _, ⟨e, he, _, ⟨g, hg, _, rfl, rfl⟩, rfl⟩, rfl⟩, rfl⟩, rfl⟩, rfl⟩, rfl⟩, rfl⟩
    exact ⟨version, hversion, constants, hconstants, a, ha, b, hb, c, hc, d, hd, e, he, g, hg, by
      simp only [List.append_assoc, List.append_nil]⟩

/-- The data of a file is its version with a piece for each of its tables. -/
theorem encode_eq_pieces : f.encode = .ok data ↔ f.instances.length = f.classes.length ∧
    ∃ version, writeVersion f.version = .ok version ∧ ∃ piece : Table → Bytes,
      (∀ t ∈ Table.written, f.writeSection f.scope t = .ok (piece t)) ∧
        version ++ Table.written.flatMap piece = data := by
  unfold encode
  split
  · rename_i hpaired
    rw [write_eq_ok, and_iff_right hpaired]
    refine exists_congr fun version => and_congr_right fun _ => ?_
    constructor
    · rintro ⟨sections, hsections, rfl⟩
      obtain ⟨piece, hpiece, rfl⟩ := exists_pieces hsections
      exact ⟨piece, hpiece, rfl⟩
    · rintro ⟨piece, hpiece, rfl⟩
      exact ⟨_, writeEach_of_pieces hpiece, rfl⟩
  · rename_i hunpaired
    exact ⟨nofun, fun h => absurd h.1 hunpaired⟩

end File

end ActionCode
