import ActionCode.Proofs.Readback.Code

/-!
# Arranged code

Where the instructions of a piece of code stand: in data that is read, and in what would be
written for them. A list of instructions can be arranged before it is known whether all of its
branches can be written.
-/

namespace ActionCode

/-- Instructions with their addresses, and where the last one stops. -/
structure Placement where
  placed : List (Nat × Instruction)
  stop : Nat

namespace Placement

def code (p : Placement) : Code := p.placed.map (·.2)

/-- Where instructions start, and where the last one stops. -/
def boundaries (p : Placement) : List Nat := p.placed.map (·.1) ++ [p.stop]

/-- No branch goes further than three bytes can tell. -/
def Reaches (p : Placement) : Prop :=
  ∀ spot ∈ p.placed, ∀ target ∈ spot.2.targets, InReach (spot.2.base spot.1) target

theorem boundaries_cons {a stop : Nat} {i : Instruction} {placed : List (Nat × Instruction)} :
    boundaries ⟨(a, i) :: placed, stop⟩ = a :: boundaries ⟨placed, stop⟩ := rfl

variable {p q : Placement} {k a b : Nat} {i : Instruction}

theorem getElem?_boundaries (h : p.placed[k]? = some (a, i)) : p.boundaries[k]? = some a := by
  obtain ⟨hk, -⟩ := List.getElem?_eq_some_iff.1 h
  rw [boundaries, List.getElem?_append_left (by rwa [List.length_map]), List.getElem?_map, h]
  rfl

theorem getElem?_stop (p : Placement) : p.boundaries[p.placed.length]? = some p.stop := by
  rw [boundaries, List.getElem?_append_right (Nat.le_of_eq (List.length_map _)), List.length_map,
    Nat.sub_self]
  rfl

theorem length_boundaries (p : Placement) : p.boundaries.length = p.placed.length + 1 := by
  rw [boundaries, List.length_append, List.length_map]
  rfl

theorem length_placed (hcode : q.code = p.code) : q.placed.length = p.placed.length := by
  have hlength := congrArg List.length hcode
  rwa [code, code, List.length_map, List.length_map] at hlength

theorem exists_placed (hcode : q.code = p.code) (h : q.placed[k]? = some (b, i)) :
    ∃ a, p.placed[k]? = some (a, i) := by
  have hi := congrArg (·[k]?) hcode
  simp only [code, List.getElem?_map, h, Option.map_some] at hi
  obtain ⟨⟨a, _⟩, hk, rfl⟩ := Option.map_eq_some_iff.1 hi.symm
  exact ⟨a, hk⟩

end Placement

namespace Code

/-- Where the instructions of data stand in it. -/
def place (origin : Int) (data : Bytes) : Except Violation Placement :=
  (scan .unknown origin data.length data.length (.ofBytes data)).map fun (placed, _) =>
    { placed, stop := data.length }

/-- Where instructions stand when they are written from `address` on. -/
def arrangeFrom : (address : Nat) → Code → Except Fault Placement
  | address, [] => .ok ⟨[], address⟩
  | address, i :: rest => do
    let size ← i.size
    let p ← arrangeFrom (address + size) rest
    return { p with placed := (address, i) :: p.placed }

def arrange (code : Code) : Except Fault Placement := arrangeFrom 0 code

variable {address : Nat} {code : Code} {p q : Placement} {pieces : List (Nat × Bytes)}

theorem arrangeFrom_nil : arrangeFrom address [] = .ok q ↔ ⟨[], address⟩ = q := by
  simp [arrangeFrom]

theorem arrangeFrom_cons {i : Instruction} : arrangeFrom address (i :: code) = .ok q ↔
    ∃ size, i.size = .ok size ∧ ∃ p, arrangeFrom (address + size) code = .ok p ∧
      { p with placed := (address, i) :: p.placed } = q := by
  simp only [arrangeFrom, Outcome.bind_eq_ok, Outcome.pure_eq_ok]

theorem code_arrangeFrom (h : arrangeFrom address code = .ok q) : q.code = code := by
  induction code generalizing address q with
  | nil =>
    obtain rfl := arrangeFrom_nil.1 h
    rfl
  | cons i code ih =>
    obtain ⟨size, -, p, hp, rfl⟩ := arrangeFrom_cons.1 h
    exact congrArg (i :: ·) (ih hp)

/-- The addresses of an arrangement are those that are foretold. -/
theorem addressesFrom_of_arrangeFrom (h : arrangeFrom address code = .ok q) :
    addressesFrom address code = .ok (q.placed.map (·.1)) := by
  induction code generalizing address q with
  | nil =>
    obtain rfl := arrangeFrom_nil.1 h
    rfl
  | cons i code ih =>
    obtain ⟨size, hsize, p, hp, rfl⟩ := arrangeFrom_cons.1 h
    simp only [addressesFrom, Outcome.bind_eq_ok, Outcome.pure_eq_ok]
    exact ⟨size, hsize, _, ih hp, rfl⟩

/-- Code that is written is arranged in this way. -/
theorem arrangeFrom_of_layoutFrom {W : Scope} (h : layoutFrom W address code = .ok pieces) :
    arrangeFrom address code =
      .ok ⟨(pieces.map (·.1)).zip code, address + (pieces.flatMap (·.2)).length⟩ := by
  induction code generalizing address pieces with
  | nil =>
    obtain rfl := layoutFrom_nil.1 h
    rfl
  | cons i code ih =>
    obtain ⟨head, hhead, tail, htail, rfl⟩ := layoutFrom_cons.1 h
    refine arrangeFrom_cons.2 ⟨_, Instruction.size_of_write hhead, _, ih htail, ?_⟩
    simp only [List.map_cons, List.zip_cons_cons, List.flatMap_cons, List.length_append,
      Nat.add_assoc]

/-- Code can be arranged if its instructions have sizes. -/
theorem exists_arrangeFrom : (∃ q, arrangeFrom address code = .ok q) ↔
    ∀ i ∈ code, ∀ field ∈ i.emitted, field.Fits .unknown := by
  induction code generalizing address with
  | nil => exact ⟨fun _ _ h => absurd h List.not_mem_nil, fun _ => ⟨_, rfl⟩⟩
  | cons i code ih =>
    have hsize : (∃ size, i.size = .ok size) ↔ _ := i.emits_size
    rw [List.forall_mem_cons, ← hsize]
    simp only [arrangeFrom_cons]
    constructor
    · rintro ⟨_, size, hsize, p, hp, -⟩
      exact ⟨⟨size, hsize⟩, ih.1 ⟨p, hp⟩⟩
    · rintro ⟨⟨size, hsize⟩, hcode⟩
      obtain ⟨p, hp⟩ := ih.2 hcode
      exact ⟨_, size, hsize, p, hp, rfl⟩

/-- Arranged code is written unless a field of it does not fit or a target is out of reach. -/
theorem exists_layoutFrom {W : Scope} (h : arrangeFrom address code = .ok q) :
    (∃ pieces, layoutFrom W address code = .ok pieces) ↔
      (∀ i ∈ code, ∀ field ∈ i.emitted, field.Fits W) ∧ q.Reaches := by
  induction code generalizing address q with
  | nil =>
    obtain rfl := arrangeFrom_nil.1 h
    simp [layoutFrom, Placement.Reaches]
  | cons i code ih =>
    obtain ⟨size, hsize, p, hp, rfl⟩ := arrangeFrom_cons.1 h
    have hspots : Placement.Reaches { p with placed := (address, i) :: p.placed } ↔
        (∀ target ∈ i.targets, InReach (i.base address) target) ∧ p.Reaches :=
      List.forall_mem_cons
    rw [List.forall_mem_cons, hspots, and_and_and_comm, ← Instruction.exists_write, ← ih hp]
    simp only [layoutFrom_cons]
    constructor
    · rintro ⟨_, head, hhead, tail, htail, -⟩
      obtain rfl := Instruction.length_of_write hsize hhead
      exact ⟨⟨head, hhead⟩, tail, htail⟩
    · rintro ⟨⟨head, hhead⟩, tail, htail⟩
      obtain rfl := Instruction.length_of_write hsize hhead
      exact ⟨_, head, hhead, tail, htail, rfl⟩

theorem stop_eq {W : Scope} (hq : code.arrange = .ok q) (h : layoutFrom W 0 code = .ok pieces) :
    (pieces.flatMap (·.2)).length = q.stop := by
  rw [arrange, arrangeFrom_of_layoutFrom h, Nat.zero_add] at hq
  obtain ⟨⟩ := hq
  rfl

/-- Code is written up to where its arrangement stops. -/
theorem length_encode {W : Scope} {bytes : Bytes} (hq : code.arrange = .ok q)
    (h : code.encode W = .ok bytes) : bytes.length = q.stop := by
  obtain ⟨pieces, hpieces, rfl, -⟩ := encode_eq_ok.1 h
  exact stop_eq hq hpieces

theorem exists_encode {W : Scope} (hq : code.arrange = .ok q) :
    (∃ bytes, code.encode W = .ok bytes) ↔
      (∀ i ∈ code, ∀ field ∈ i.emitted, field.Fits W) ∧ q.Reaches ∧ code.TargetsWithin q.stop := by
  rw [← and_assoc, ← exists_layoutFrom hq]
  simp only [encode_eq_ok]
  constructor
  · rintro ⟨_, pieces, hpieces, rfl, htargets⟩
    exact ⟨⟨pieces, hpieces⟩, stop_eq hq hpieces ▸ htargets⟩
  · rintro ⟨⟨pieces, hpieces⟩, htargets⟩
    exact ⟨_, pieces, hpieces, rfl, (stop_eq hq hpieces).symm ▸ htargets⟩

/-- Written code is read back where it was put. -/
theorem place_encode {origin : Int} {bytes : Bytes} (hnormal : code.normal = code)
    (hkept : ∀ i ∈ code, i.Kept .unknown) (hq : code.arrange = .ok q)
    (h : code.encode .unknown = .ok bytes) :
    place origin bytes = .ok q ∧ code.TargetsWithin q.stop := by
  obtain ⟨pieces, hpieces, rfl, htargets⟩ := encode_eq_ok.1 h
  rw [arrange, arrangeFrom_of_layoutFrom hpieces, Nat.zero_add] at hq
  obtain ⟨⟩ := hq
  obtain ⟨t, hscan, -⟩ : ∃ t, scan .unknown origin (pieces.flatMap (·.2)).length
      (pieces.flatMap (·.2)).length (.ofBytes (pieces.flatMap (·.2))) =
        .ok ((pieces.map (·.1)).zip code.normal, t) ∧ _ ∧ _ :=
    scan_layoutFrom (.refl _) (.refl _ _) hkept hpieces rfl rfl Input.admitted_ofBytes
      (Nat.le_refl _)
  rw [hnormal] at hscan
  exact ⟨Outcome.map_eq_ok.2 ⟨_, hscan, rfl⟩, htargets⟩

end Code

end ActionCode
