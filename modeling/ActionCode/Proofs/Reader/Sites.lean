import ActionCode.Proofs.Reader.Yields

/-!
# Sites of late references

References that are accepted on trust are judged when their table is complete, and one that is
out of bounds is blamed on the record that holds it. A reader of sites reads the same data as a
reader of records and finds out where the references of the records stand, without keeping an
account of them on the way. `Tells` says that the references kept on the way are the same.
-/

namespace ActionCode

/-! ## References and sites -/

/-- A reference of a record, and what the record is called. -/
structure Reference where
  place : Place
  index : Int
  deriving DecidableEq

/-- A reference with the offset at which it stands. -/
structure Site extends Reference where
  offset : Nat
  deriving DecidableEq

/-- Names the record around a reference. -/
def Reference.inside (label : String) (r : Reference) : Reference :=
  { r with place := Place.within label r.place }

def Site.inside (label : String) (site : Site) : Site :=
  { site with place := Place.within label site.place }

/-- A reference into `table` as it is kept for later. -/
def Site.deferred (table : Table) (site : Site) : Table × Deferred :=
  (table, ⟨site.index, site.offset, site.place⟩)

/-- The references of some records, which are numbered from `first` on. -/
def Reference.ofRecords {α : Type} (label : String) (refs : α → List Reference) (first : Nat)
    (xs : List α) : List Reference :=
  (xs.zipIdx first).flatMap fun p => (refs p.1).map (inside (label ++ " " ++ toString p.2))

/-- A reference that may be judged late, and where it stands. -/
def Scope.readSite (scope : Scope) (t : Table) : Reader (List Site) := do
  let offset ← Reader.offset
  let index ← scope.readIndex t
  return [⟨⟨none, index.val⟩, offset⟩]

namespace Reader

variable {α β γ : Type}

/-- Reads a record and goes back for its sites. -/
def revisit (r : Reader α) (again : α → Reader (List Site)) : Reader (List Site) := fun s =>
  match r s with
  | .error v => .error v
  | .ok (x, t) =>
    match again x s with
    | .error v => .error v
    | .ok (found, _) => .ok (found, t)

/-- The sites in `count` things. -/
def siteReplicate (r : Reader (List Site)) : (count : Nat) → Reader (List Site)
  | 0 => return []
  | count + 1 => do
    let found ← r
    return found ++ (← siteReplicate r count)

/-- The sites in things after their number. -/
def siteCounted (r : Reader (List Site)) : Reader (List Site) := do
  siteReplicate r (← u30)

/-- The sites in `count` records with the positions from `first` on. -/
def siteRecords (table : Table) (label : String) (r : Reader (List Site)) :
    (first count : Nat) → Reader (List Site)
  | _, 0 => return []
  | first, count + 1 => do
    let found ← record table (label ++ " " ++ toString first) r
    return found.map (Site.inside (label ++ " " ++ toString first)) ++
      (← siteRecords table label r (first + 1) count)

/-! ## Readers that keep nothing -/

/-- No reference is kept for later. -/
def Silent (r : Reader α) : Prop := ∀ s x t, r s = .ok (x, t) → t.deferred = s.deferred

namespace Silent

variable {r : Reader α} {f : α → Reader β} {R : Scope}

theorem pure (x : α) : Silent (pure x) := by
  rintro s _ _ ⟨⟩
  rfl

theorem bind (hr : Silent r) (hf : ∀ x, Silent (f x)) : Silent (r >>= f) := by
  intro s y u h
  obtain ⟨x, t, hx, hy⟩ := bind_eq_ok.1 h
  rw [hf x t y u hy, hr s x t hx]

/-- The last link of a chain, whose value is only put into place. -/
theorem ret (hr : Silent r) (g : α → β) : Silent (r >>= fun x => Pure.pure (g x)) :=
  hr.bind fun _ => pure _

theorem lift {e : Except Violation α} : Silent (liftM e) := by
  intro s x t h
  rw [(lift_eq_ok.1 h).2]

theorem offset : Silent Reader.offset := by
  rintro s _ _ ⟨⟩
  rfl

theorem next (missed : Nat) : Silent (next missed) := by
  intro s b t h
  rw [(Yields.next_eq_ok h).2]

theorem flags (skipped : Nat) : Silent (flags skipped) := by
  refine (next _).bind fun b => bind ?_ fun _ => pure b
  rintro s _ _ ⟨⟩
  rfl

theorem u30 : Silent u30 := by
  intro s n t h
  obtain ⟨-, used, -, -, ht⟩ := Yields.u30_eq_ok h
  rw [ht]

theorem replicate (hr : Silent r) (count : Nat) : Silent (replicate r count) := by
  induction count with
  | zero => exact pure []
  | succ count ih => exact hr.bind fun _ => ih.ret _

theorem counted (hr : Silent r) : Silent (counted r) := u30.bind fun count => hr.replicate count

/-- A reference is judged at once unless its table is still being read. -/
theorem index {t : Table} (h : R.extent t ≠ .unfinished) : Silent (R.readIndex t) := by
  refine offset.bind fun o => u30.bind fun n => bind ?_ fun _ => pure _
  unfold Scope.accept
  split
  · rename_i hunfinished
    exact absurd hunfinished h
  · exact lift
  · exact lift

end Silent

/-- The one table that is still being read. -/
structure Opens (R : Scope) (table : Table) : Prop where
  unfinished : R.extent table = .unfinished
  known : ∀ t ≠ table, R.extent t ≠ .unfinished

theorem Opens.index {R : Scope} {table t : Table} (hR : Opens R table) (ht : t ≠ table) :
    Silent (R.readIndex t) :=
  .index (hR.known t ht)

/-- What is read has no references, and none is kept for later. -/
def Free (r : Reader α) (refs : α → List Reference) : Prop :=
  ∀ s x t, r s = .ok (x, t) → refs x = [] ∧ t.deferred = s.deferred

namespace Free

variable {r : Reader α} {f : α → Reader β} {refs : β → List Reference}

theorem pure {x : β} (h : refs x = []) : Free (pure x) refs := by
  rintro s _ _ ⟨⟩
  exact ⟨h, rfl⟩

theorem bind (hr : Silent r) (hf : ∀ x, Free (f x) refs) : Free (r >>= f) refs := by
  intro s y u h
  obtain ⟨x, t, hx, hy⟩ := bind_eq_ok.1 h
  obtain ⟨hnone, hkept⟩ := hf x t y u hy
  exact ⟨hnone, hkept.trans (hr s x t hx)⟩

theorem ret (hr : Silent r) {g : α → β} (h : ∀ x, refs (g x) = []) :
    Free (r >>= fun x => Pure.pure (g x)) refs :=
  bind hr fun x => pure (h x)

end Free

/-! ## Readers that keep their sites -/

/-- Between `s` and `t`, `found` are the references that were kept. -/
structure Found (table : Table) (refs : List Reference) (found : List Site) (s t : Input) :
    Prop where
  same : found.map Site.toReference = refs
  nonneg : ∀ ref ∈ refs, 0 ≤ ref.index
  kept : t.deferred = s.deferred ++ found.map (Site.deferred table)

/-- The references that `r` keeps for later are those of what it reads, and they stand at the
sites that `r'` finds. -/
def Tells (table : Table) (r : Reader α) (r' : Reader (List Site)) (refs : α → List Reference) :
    Prop :=
  ∀ s x t, r s = .ok (x, t) → ∃ found, r' s = .ok (found, t) ∧ Found table (refs x) found s t

theorem Found.nil {table : Table} {s t : Input} (h : t.deferred = s.deferred) :
    Found table [] [] s t :=
  ⟨rfl, by simp, by rw [h, List.map_nil, List.append_nil]⟩

theorem Found.append {table : Table} {refs refs' : List Reference} {found found' : List Site}
    {s t u : Input} (h : Found table refs found s t) (g : Found table refs' found' t u) :
    Found table (refs ++ refs') (found ++ found') s u where
  same := by rw [List.map_append, h.same, g.same]
  nonneg := List.forall_mem_append.2 ⟨h.nonneg, g.nonneg⟩
  kept := by rw [g.kept, h.kept, List.map_append, List.append_assoc]

namespace Tells

variable {r : Reader α} {r' q' : Reader (List Site)} {q : Reader β} {refs : α → List Reference}
  {refs' : β → List Reference} {table : Table} {R : Scope} {s t : Input}

/-! ### Chains -/

theorem bind {f : β → Reader α} {f' : β → Reader (List Site)} (hq : Silent q)
    (hf : ∀ x, Tells table (f x) (f' x) refs) : Tells table (q >>= f) (q >>= f') refs := by
  intro s y u h
  obtain ⟨x, t, hx, hy⟩ := bind_eq_ok.1 h
  obtain ⟨found, hfound, hall⟩ := hf x t y u hy
  exact ⟨found, by rw [bind_apply hx, hfound],
    { hall with kept := by rw [hall.kept, hq s x t hx] }⟩

/-- Two links, whose values are put together to one. -/
theorem both {g : α → β → γ} {out : γ → List Reference} (hr : Tells table r r' refs)
    (hq : Tells table q q' refs') (h : ∀ x y, out (g x y) = refs x ++ refs' y) :
    Tells table (r >>= fun x => q >>= fun y => Pure.pure (g x y))
      (r' >>= fun a => q' >>= fun b => Pure.pure (a ++ b)) out := by
  intro s _ v hv
  obtain ⟨x, t, hx, hv⟩ := bind_eq_ok.1 hv
  obtain ⟨y, _, hy, ⟨⟩⟩ := bind_eq_ok.1 hv
  obtain ⟨found, hfound, hall⟩ := hr s x t hx
  obtain ⟨found', hfound', hall'⟩ := hq t y v hy
  refine ⟨found ++ found', by rw [bind_apply hfound, bind_apply hfound']; rfl, ?_⟩
  rw [h]
  exact hall.append hall'

/-- The last link of a chain, whose value is only put into place. -/
theorem ret (hr : Tells table r r' refs) {g : α → β} (h : ∀ x, refs' (g x) = refs x) :
    Tells table (r >>= fun x => Pure.pure (g x)) r' refs' := by
  intro s y u hy
  obtain ⟨x, t, hx, ⟨⟩⟩ := bind_eq_ok.1 hy
  rw [h]
  exact hr s x u hx

/-- It is enough to find the sites of a record where it was read. -/
theorem revisit {again : α → Reader (List Site)} (h : ∀ s x t, r s = .ok (x, t) →
    ∃ found u, again x s = .ok (found, u) ∧ Found table (refs x) found s t) :
    Tells table r (revisit r again) refs := by
  intro s x t hx
  obtain ⟨found, u, hfound, hall⟩ := h s x t hx
  exact ⟨found, by simp only [Reader.revisit, hx, hfound], hall⟩

/-! ### Fields and sequences -/

/-- A reference into a table that is still being read. -/
theorem index (h : R.extent table = .unfinished) :
    Tells table (R.readIndex table) (R.readSite table) fun i => [⟨none, i.val⟩] := by
  intro s i t hread
  have hsite : R.readSite table s = .ok ([⟨⟨none, i.val⟩, s.offset⟩], t) := by
    unfold Scope.readSite
    have ho : Reader.offset s = .ok (s.offset, s) := rfl
    rw [bind_apply ho, bind_apply hread]
    rfl
  obtain ⟨_, _, ⟨⟩, hread⟩ := bind_eq_ok.1 hread
  obtain ⟨n, u, hn, hread⟩ := bind_eq_ok.1 hread
  obtain ⟨_, v, haccept, ⟨⟩⟩ := bind_eq_ok.1 hread
  refine ⟨_, hsite, rfl, by simp, ?_⟩
  simp only [Scope.accept, h] at haccept
  obtain ⟨⟩ := haccept
  rw [← Silent.u30 s n u hn]
  rfl

theorem replicate (hr : Tells table r r' refs) (count : Nat) :
    Tells table (replicate r count) (siteReplicate r' count) fun xs => xs.flatMap refs := by
  induction count with
  | zero =>
    rintro s _ _ ⟨⟩
    exact ⟨[], rfl, .nil rfl⟩
  | succ count ih => exact hr.both ih fun _ _ => List.flatMap_cons

theorem counted (hr : Tells table r r' refs) :
    Tells table (counted r) (siteCounted r') fun xs => xs.flatMap refs :=
  .bind .u30 hr.replicate

/-- The name of a record goes in front of the names that are known of its references. -/
theorem record {label : String} {x : α} (hr : Tells table r r' refs)
    (h : record table label r s = .ok (x, t)) :
    ∃ found, Reader.record table label r' s = .ok (found, t) ∧ Found table
      ((refs x).map (Reference.inside label)) (found.map (Site.inside label)) s t := by
  unfold Reader.record at h ⊢
  split at h
  · cases h
  · rename_i x' u hread
    obtain ⟨⟩ := h
    obtain ⟨found, hfound, hall⟩ := hr _ x u hread
    refine ⟨found, by rw [hfound], ?_, ?_, ?_⟩
    · rw [← hall.same, List.map_map, List.map_map]
      rfl
    · exact List.forall_mem_map.2 hall.nonneg
    · dsimp only
      rw [hall.kept, List.nil_append, List.map_map, List.map_map]
      congr 1
      refine List.map_congr_left fun site _ => ?_
      simp only [Function.comp_apply, Site.deferred, if_true]
      rfl

theorem records {label : String} (hr : Tells table r r' refs) (first count : Nat) :
    Tells table (records table label r first count) (siteRecords table label r' first count)
      (Reference.ofRecords label refs first) := by
  induction count generalizing first with
  | zero =>
    rintro s _ _ ⟨⟩
    exact ⟨[], rfl, .nil rfl⟩
  | succ count ih =>
    intro s _ u h
    obtain ⟨x, t, hx, h⟩ := bind_eq_ok.1 h
    obtain ⟨xs, _, hxs, ⟨⟩⟩ := bind_eq_ok.1 h
    obtain ⟨found, hfound, hall⟩ := hr.record hx
    obtain ⟨founds, hfounds, halls⟩ := ih (first + 1) t xs u hxs
    refine ⟨_, by rw [siteRecords, bind_apply hfound, bind_apply hfounds]; rfl, ?_⟩
    rw [Reference.ofRecords, List.zipIdx_cons, List.flatMap_cons]
    exact hall.append halls

end Tells

/-! ## Judging -/

/-- Where the kept references stand at the sites, the first of them that is out of bounds is
blamed. -/
theorem settle_sites {table : Table} {entries : Nat} {sites : List Site} {s : Input}
    (h : s.deferred = sites.map (Site.deferred table)) :
    settle table entries s =
      match sites.find? fun site => ¬ Table.InBounds table.reserved entries site.index with
      | some site => .error
          ⟨.danglingReference table site.index entries, some site.offset, site.place⟩
      | none => .ok ((), { s with deferred := [] }) := by
  have hmine : s.deferred.filter (fun p => decide (p.1 = table)) = s.deferred := by
    rw [h]
    simp [Site.deferred]
  have hothers : s.deferred.filter (not ∘ fun p => decide (p.1 = table)) = [] := by
    rw [h]
    simp [Site.deferred]
  have hfind : s.deferred.find? (fun p => ¬ Table.InBounds table.reserved entries p.2.index) =
      (sites.find? fun site => ¬ Table.InBounds table.reserved entries site.index).map
        (Site.deferred table) := by
    rw [h, List.find?_map]
    rfl
  simp only [settle, List.partition_eq_filter_filter, hmine, hothers, hfind]
  cases sites.find? fun site => ¬ Table.InBounds table.reserved entries site.index with
  | none => rfl
  | some site => rfl

end Reader

end ActionCode
