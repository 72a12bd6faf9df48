import Decompiler.Proofs.Bounds.Extents
import Mathlib.Order.Bounds.Basic
import Mathlib.Order.WellFounded

/-!
# The least closed run

The region of a branch is found by stretching a run of the list until no block
inside it leads beyond its end, and giving up on it if an edge from elsewhere
leads inside.  Which block stretches the run is a matter of the order in which
they are looked at, and an edge from in front of the run may be noticed before
the run has come to its end.  Neither matters:

1. A closed run that holds both ways of the branch holds every run that the
   search comes by, since each is stretched to where a block inside it leads.
   So the search can only stop at the least closed run, and a longer run is
   entered wherever a shorter one is.
2. Each step takes the end further along the list, so there are no endless
   searches.

* `Graph.Encloses`, `Graph.Entered`: closed runs, and edges into a run.
* `Graph.Searches`: the searches in any order.
* `Graph.isLeast_grow`: growing ends at the least closed run.
* `Graph.answeredAt_of_searches`: every search finds the same.
* `Graph.extent?_of_isLeast`: the region of a branch.
-/

namespace Decompiler.Graph

variable {g : Graph} {list : List Nat} {start stop far bound : Nat}
    {result : Option Nat}

/-- No block strictly inside a run has an edge to a position beyond its end. -/
def Encloses (g : Graph) (list : List Nat) (start stop : Nat) : Prop :=
  ∀ p id, start < p → p < stop → list[p]? = some id →
    ∀ t ∈ g.successors id, list.idxOf t ≤ stop

/-- The block at a position has an edge to a position strictly inside a run. -/
def ComesIn (g : Graph) (list : List Nat) (start stop p : Nat) : Prop :=
  ∃ id, list[p]? = some id ∧
    ∃ t ∈ g.successors id, start < list.idxOf t ∧ list.idxOf t < stop

/-- A block in front of a run, or from its end on, has an edge to its inside. -/
def Entered (g : Graph) (list : List Nat) (start stop : Nat) : Prop :=
  ∃ p, (p < start ∨ stop ≤ p) ∧ g.ComesIn list start stop p

/-- A block strictly inside a run leads beyond its end, and the furthest of its
edges leads to `far`. -/
def Stretches (g : Graph) (list : List Nat) (start stop far : Nat) : Prop :=
  ∃ p id, start < p ∧ p < stop ∧ list[p]? = some id ∧
    g.beyond? list stop id = some far

/-- The searches for the end of a region from a run on.  Any block that leads
beyond the end stretches the run, and an edge from in front of the run is
noticed at any time.  From its end on edges count only once the run is
closed. -/
inductive Searches (g : Graph) (list : List Nat) (start : Nat) : Nat →
      Option Nat → Prop
  | noticed {stop p : Nat} (hp : p < start) (h : g.ComesIn list start stop p) :
      Searches g list start stop none
  | stretched {stop far : Nat} {result : Option Nat}
      (h : g.Stretches list start stop far)
      (rest : Searches g list start far result) :
      Searches g list start stop result
  | entered {stop : Nat} (hclosed : g.Encloses list start stop)
      (h : g.Entered list start stop) :
      Searches g list start stop none
  | found {stop : Nat} (hclosed : g.Encloses list start stop)
      (h : ¬ g.Entered list start stop) : Searches g list start stop (some stop)

/-! ## Stretching -/

/-- The blocks inside a run stand behind its start and in front of its end. -/
theorem mem_inside_iff {id : Nat} : id ∈ (list.take stop).drop (start + 1) ↔
    ∃ p, start < p ∧ p < stop ∧ list[p]? = some id := by
  rw [List.mem_iff_getElem?]
  constructor
  · rintro ⟨k, hk⟩
    rw [List.getElem?_drop, List.getElem?_take] at hk
    split at hk
    · exact ⟨start + 1 + k, by omega, by omega, hk⟩
    · cases hk
  · rintro ⟨p, hstart, hstop, hp⟩
    refine ⟨p - (start + 1), ?_⟩
    rw [List.getElem?_drop,
      show start + 1 + (p - (start + 1)) =
        p by omega, List.getElem?_take, if_pos hstop, hp]

/-- What a block leads beyond is where one of its edges leads. -/
theorem exists_of_beyond? {id : Nat} (h : g.beyond? list stop id = some far) :
    ∃ t ∈ g.successors id, list.idxOf t = far :=
  List.mem_map.1 (List.max?_mem (Option.filter_eq_some_iff.1 h).1)

/-- An edge past the end of a run leads beyond it. -/
theorem exists_beyond? {id t : Nat} (ht : t ∈ g.successors id)
    (hlt : stop < list.idxOf t) : ∃ far, g.beyond? list stop id = some far := by
  have hmem : list.idxOf t ∈ g.landings list id := List.mem_map_of_mem ht
  obtain ⟨far, hfar⟩ :=
    Option.isSome_iff_exists.1 (List.isSome_max?_of_mem hmem)
  have hle : list.idxOf t ≤ far := (List.max?_eq_some_iff.1 hfar).2 _ hmem
  exact ⟨far,
    Option.filter_eq_some_iff.2
    ⟨hfar, by simpa using Nat.lt_of_lt_of_le hlt hle⟩⟩

/-- What stretches a run is behind its end. -/
theorem Stretches.lt (h : g.Stretches list start stop far) : stop < far := by
  obtain ⟨_, _, _, _, _, hfar⟩ := h
  exact lt_of_beyond? hfar

/-- What stretches a run is inside the list. -/
theorem Stretches.le_length (h : g.Stretches list start stop far) :
    far ≤ list.length := by
  obtain ⟨_, _, _, _, _, hfar⟩ := h
  obtain ⟨t, _, rfl⟩ := exists_of_beyond? hfar
  exact List.idxOf_le_length

/-- A run inside a closed one is stretched inside it. -/
theorem Stretches.le (h : g.Stretches list start stop far)
    (hbound : g.Encloses list start bound) (hle : stop ≤ bound) :
    far ≤ bound := by
  obtain ⟨p, id, hstart, hstop, hp, hfar⟩ := h
  obtain ⟨t, ht, rfl⟩ := exists_of_beyond? hfar
  exact hbound p id hstart (Nat.lt_of_lt_of_le hstop hle) hp t ht

/-- A run is closed if nothing stretches it. -/
theorem encloses_iff : g.Encloses list start stop ↔
      ∀ far, ¬ g.Stretches list start stop far := by
  constructor
  · intro h far hfar
    exact absurd hfar.lt (Nat.not_lt.2 (hfar.le h (Nat.le_refl stop)))
  · intro h p id hstart hstop hp t ht
    by_contra hbeyond
    obtain ⟨far, hfar⟩ := exists_beyond? ht (Nat.lt_of_not_le hbeyond)
    exact h far ⟨p, id, hstart, hstop, hp, hfar⟩

/-- The run that reaches the end of the list is closed. -/
theorem encloses_of_length_le (h : list.length ≤ stop) :
    g.Encloses list start stop :=
  fun _ _ _ _ _ _ _ => Nat.le_trans List.idxOf_le_length h

/-- There is no endless stretching. -/
theorem wellFounded_stretches (g : Graph) (list : List Nat) (start : Nat) :
    WellFounded fun far stop => g.Stretches list start stop far := by
  refine Subrelation.wf (fun {far stop} h => ?_)
    (measure fun stop => list.length - stop).wf
  have hlt := h.lt
  have hle := h.le_length
  show list.length - far < list.length - stop
  omega

/-! ## Growing -/

/-- The runs that hold a run and are closed. -/
def ClosedFrom (g : Graph) (list : List Nat) (start stop : Nat) : Set Nat :=
  {p | stop ≤ p ∧ g.Encloses list start p}

/-- **Growing** ends at the least closed run. -/
theorem isLeast_grow (g : Graph) (list : List Nat) (start : Nat)
    {fuel stop : Nat} (hfuel : list.length ≤ stop + fuel) :
    IsLeast (g.ClosedFrom list start stop) (g.grow list start fuel stop) := by
  induction fuel generalizing stop with
  | zero =>
    exact ⟨⟨Nat.le_refl stop, encloses_of_length_le hfuel⟩, fun p hp => hp.1⟩
  | succ n ih =>
    unfold grow
    cases hfind : ((list.take stop).drop (start + 1)).findSome?
      (g.beyond? list stop) with
    | none =>
      refine ⟨⟨Nat.le_refl stop, encloses_iff.2 fun far hfar => ?_⟩,
        fun p hp => hp.1⟩
      obtain ⟨p, id, hstart, hstop, hp, hfar⟩ := hfar
      rw [List.findSome?_eq_none_iff.1 hfind id (mem_inside_iff.2 ⟨p, hstart,
        hstop, hp⟩)] at hfar
      cases hfar
    | some far =>
      obtain ⟨id, hid, hfar⟩ := List.exists_of_findSome?_eq_some hfind
      obtain ⟨p, hstart, hstop, hp⟩ := mem_inside_iff.1 hid
      have hstretch : g.Stretches list start stop far :=
        ⟨p, id, hstart, hstop, hp, hfar⟩
      have hlt := hstretch.lt
      obtain ⟨⟨hle, hclosed⟩, hleast⟩ :=
        ih (show list.length ≤ far + n by omega)
      exact ⟨⟨Nat.le_trans (Nat.le_of_lt hlt) hle, hclosed⟩,
        fun q hq => hleast ⟨hstretch.le hq.2 hq.1, hq.2⟩⟩

/-! ## Edges into a run -/

theorem enters_iff {id : Nat} : g.enters list start stop id = true ↔
    ∃ t ∈ g.successors id, start < list.idxOf t ∧ list.idxOf t < stop := by
  simp [enters, landings]

theorem any_enters_iff :
    (list.take start).any (g.enters list start stop) = true ∨
    (list.drop stop).any (g.enters list start stop) = true ↔
      g.Entered list start stop := by
  simp only [List.any_eq_true, enters_iff]
  constructor
  · rintro (⟨id, hid, hedge⟩ | ⟨id, hid, hedge⟩)
    · obtain ⟨p, hp⟩ := List.mem_iff_getElem?.1 hid
      rw [List.getElem?_take] at hp
      split at hp
      · exact ⟨p, .inl ‹_›, id, hp, hedge⟩
      · cases hp
    · obtain ⟨k, hk⟩ := List.mem_iff_getElem?.1 hid
      rw [List.getElem?_drop] at hk
      exact ⟨stop + k, .inr (Nat.le_add_right _ _), id, hk, hedge⟩
  · rintro ⟨p, hp | hp, id, hget, hedge⟩
    · refine .inl ⟨id, List.mem_iff_getElem?.2 ⟨p, ?_⟩, hedge⟩
      rw [List.getElem?_take, if_pos hp, hget]
    · refine .inr ⟨id, List.mem_iff_getElem?.2 ⟨p - stop, ?_⟩, hedge⟩
      rw [List.getElem?_drop, show stop + (p - stop) = p by omega, hget]

/-- What comes into a run comes into a longer one. -/
theorem ComesIn.mono {p : Nat} (h : g.ComesIn list start stop p)
    (hle : stop ≤ bound) : g.ComesIn list start bound p := by
  obtain ⟨id, hid, t, ht, hstart, hstop⟩ := h
  exact ⟨id, hid, t, ht, hstart, Nat.lt_of_lt_of_le hstop hle⟩

/-! ## Searching -/

/-- What is found at the least closed run. -/
def AnsweredAt (g : Graph) (list : List Nat) (start stop : Nat)
    (result : Option Nat) : Prop :=
  (g.Entered list start stop → result = none) ∧
    (¬ g.Entered list start stop → result = some stop)

/-- A search from inside the least closed run finds what is found there. -/
theorem answeredAt_of_searches (h : g.Searches list start stop result)
    (hleast : IsLeast (g.ClosedFrom list start stop) bound) :
    g.AnsweredAt list start bound result := by
  induction h with
  | noticed hp h =>
    exact ⟨fun _ => rfl, fun hno => absurd ⟨_, .inl hp, h.mono hleast.1.1⟩ hno⟩
  | stretched h rest ih =>
    obtain ⟨⟨hle, hclosed⟩, hleast⟩ := hleast
    refine ih ⟨⟨h.le hclosed hle, hclosed⟩, fun p hp => hleast ⟨?_, hp.2⟩⟩
    exact Nat.le_trans (Nat.le_of_lt h.lt) hp.1
  | entered hclosed h =>
    obtain rfl := hleast.unique ⟨⟨Nat.le_refl _, hclosed⟩, fun p hp => hp.1⟩
    exact ⟨fun _ => rfl, fun hno => absurd h hno⟩
  | found hclosed h =>
    obtain rfl := hleast.unique ⟨⟨Nat.le_refl _, hclosed⟩, fun p hp => hp.1⟩
    exact ⟨fun hyes => absurd hyes h, fun _ => rfl⟩

/-- Every run can be searched from. -/
theorem exists_searches (g : Graph) (list : List Nat) (start stop : Nat) :
    ∃ result, g.Searches list start stop result := by
  induction stop using (wellFounded_stretches g list start).induction with
  | _ stop ih =>
    by_cases hstretch : ∃ far, g.Stretches list start stop far
    · obtain ⟨far, hfar⟩ := hstretch
      obtain ⟨result, hresult⟩ := ih far hfar
      exact ⟨result, .stretched hfar hresult⟩
    · have hclosed : g.Encloses list start stop :=
        encloses_iff.2 fun far hfar => hstretch ⟨far, hfar⟩
      by_cases hentered : g.Entered list start stop
      · exact ⟨none, .entered hclosed hentered⟩
      · exact ⟨some stop, .found hclosed hentered⟩

theorem AnsweredAt.unique {result' : Option Nat}
    (h : g.AnsweredAt list start stop result)
    (h' : g.AnsweredAt list start stop result') : result = result' := by
  by_cases hentered : g.Entered list start stop
  · rw [h.1 hentered, h'.1 hentered]
  · rw [h.2 hentered, h'.2 hentered]

/-! ## The region of a branch -/

/-- The first position that neither way of a branch leads beyond. -/
def nearest (list : List Nat) (taken : Nat) (otherwise : Option Nat) : Nat :=
  max (list.idxOf taken) ((otherwise.map (list.idxOf ·)).getD 0)

theorem nearest_le_iff {taken p : Nat} {otherwise : Option Nat} :
    nearest list taken otherwise ≤ p ↔
      list.idxOf taken ≤ p ∧ ∀ t ∈ otherwise, list.idxOf t ≤ p := by
  cases otherwise <;> simp [nearest]

section Branch

variable {head taken : Nat} {otherwise : Option Nat}

theorem extent?_eq_ite (hhead : list[start]? = some head)
    (hexit : g.exit head = .branches taken otherwise)
    (hforward : head < taken) :
    g.extent? list start =
      let stop := g.grow list start list.length (nearest list taken otherwise)
      if (list.take start).any (g.enters list start stop) then none
      else if (list.drop stop).any (g.enters list start stop) then none
      else some stop := by
  simp only [extent?, hhead, hexit, Exit.target?, Exit.otherwise?, Exit.isJump,
    Exit.jump?, Option.bind_eq_bind, Option.bind_some,
    if_neg (Nat.not_le.2 hforward), Option.isSome_none,
    Bool.false_eq_true, if_false]
  rfl

theorem answeredAt_extent? (hhead : list[start]? = some head)
    (hexit : g.exit head = .branches taken otherwise)
    (hforward : head < taken) :
    g.AnsweredAt list start
      (g.grow list start list.length (nearest list taken otherwise))
      (g.extent? list start) := by
  rw [extent?_eq_ite hhead hexit hforward]
  generalize g.grow list start list.length (nearest list taken otherwise) = stop
  rw [AnsweredAt, ← any_enters_iff]
  dsimp only
  by_cases hbefore : (list.take start).any (g.enters list start stop) = true
  · rw [if_pos hbefore]
    exact ⟨fun _ => rfl, fun hno => absurd (.inl hbefore) hno⟩
  by_cases hbehind : (list.drop stop).any (g.enters list start stop) = true
  · rw [if_neg hbefore, if_pos hbehind]
    exact ⟨fun _ => rfl, fun hno => absurd (.inr hbehind) hno⟩
  · rw [if_neg hbefore, if_neg hbehind]
    exact ⟨fun hyes => absurd hyes (not_or.2 ⟨hbefore, hbehind⟩), fun _ => rfl⟩

/-- **Regions.**  The region of a branch that leads forward ends at the least
position that neither of its ways leads beyond and no block inside the region
either; there is none if an edge from elsewhere leads to the inside.  The search
comes to an end and finds this in whatever order it goes. -/
theorem extent?_of_isLeast (hhead : list[start]? = some head)
    (hexit : g.exit head = .branches taken otherwise)
    (hforward : head < taken) :
    ∃ stop,
      IsLeast {p | list.idxOf taken ≤ p ∧ (∀ t ∈ otherwise, list.idxOf t ≤ p) ∧
        g.Encloses list start p} stop ∧
      (g.Entered list start stop → g.extent? list start = none) ∧
      (¬ g.Entered list start stop → g.extent? list start = some stop) ∧
      (WellFounded fun far stop => g.Stretches list start stop far) ∧
      ∀ result, g.Searches list start (nearest list taken otherwise) result ↔
        result = g.extent? list start := by
  have hleast := isLeast_grow g list start (Nat.le_add_left list.length
    (nearest list taken otherwise))
  have hanswer := answeredAt_extent? hhead hexit hforward
  have hset : g.ClosedFrom list start (nearest list taken otherwise) =
      {p | list.idxOf taken ≤ p ∧ (∀ t ∈ otherwise, list.idxOf t ≤ p) ∧
        g.Encloses list start p} := by
    ext p
    exact (and_congr_left' nearest_le_iff).trans and_assoc
  refine ⟨_, hset ▸ hleast, hanswer.1, hanswer.2,
    wellFounded_stretches g list start,
    fun result => ⟨fun h => ?_, ?_⟩⟩
  · exact (answeredAt_of_searches h hleast).unique hanswer
  · rintro rfl
    obtain ⟨result, hresult⟩ :=
      exists_searches g list start (nearest list taken otherwise)
    rwa [← (answeredAt_of_searches hresult hleast).unique hanswer]

/-- One way of a branch ends in a jump across the other, which has a branch
across the place that the jump leads to: the region is stretched twice. -/
theorem extent?_of_isLeast_stretched :
    let g : Graph :=
      { blocks := [.branches 2 (some 1), .jumps 4, .falls (some 3),
          .branches 5 (some 4), .falls (some 5), .returns].map fun exit =>
            { Block.blank with exit },
        labels := [] }
    let list := List.range 6
    list[0]? = some 0 ∧ g.exit 0 = .branches 2 (some 1) ∧ 0 < 2 ∧
      IsLeast {p | list.idxOf 2 ≤ p ∧ (∀ t ∈ some 1, list.idxOf t ≤ p) ∧
        g.Encloses list 0 p} 5 ∧
      g.extent? list 0 = some 5 ∧ g.Searches list 0 (nearest list 2 (some 1))
        (some 5) := by
  intro g list
  have hhead : list[0]? = some 0 := rfl
  have hexit : g.exit 0 = .branches 2 (some 1) := rfl
  have hextent : g.extent? list 0 = some 5 := by decide
  obtain ⟨stop, hleast, hnone, hsome, _, hsearches⟩ :=
    extent?_of_isLeast hhead hexit (by decide : 0 < 2)
  have hfree : ¬ g.Entered list 0 stop := fun hentered => by
    rw [hextent] at hnone
    cases hnone hentered
  obtain rfl : 5 = stop := Option.some.inj (hextent.symm.trans (hsome hfree))
  exact ⟨hhead, hexit, by decide, hleast, hextent, (hsearches _).2 hextent.symm⟩

end Branch

end Decompiler.Graph
