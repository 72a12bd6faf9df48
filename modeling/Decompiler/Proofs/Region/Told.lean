import Decompiler.Proofs.Chain.Order
import Decompiler.Proofs.Result
import Decompiler.Region.Partition

/-!
# Whether sections say where control goes

Sections show neither jumps nor the edges between tests.  They are trusted to
say where control goes, and nothing in taking a graph apart depends on whether
they do.  Here the same steps are taken with an eye on it: control has to leave
each block for what comes after it in the sections, and to meet the tests of
each guard in the order in which the guard asks them.

* `Told`: the work, and whether it has been so from the start.
* `Partition.told`: what comes of the work, with this kept up to date.
* `Partition.run_eq_told`: nothing else is changed.
* `Partition.faithful`, `Graph.faithful`: whether it is so in the end.
-/

namespace Decompiler

namespace Graph

/-- Where control that comes to a block is after at most `fuel` jumps. -/
def landing (g : Graph) : (fuel : Nat) → (id : Nat) → Nat
  | 0, id => id
  | n + 1, id =>
    match (g.exit id).jump? with
    | some target => g.landing n target
    | none => id

/-- Whether two edges lead to the same place, jumps followed. -/
def meets (g : Graph) (a b : Option Nat) : Bool :=
  a.map (g.landing g.blocks.length) == b.map (g.landing g.blocks.length)

/-- Whether control that leaves a block goes on at `next`, if anywhere. -/
def goesOn (g : Graph) (id : Nat) (next : Option Nat) : Bool :=
  match g.exit id with
  | .falls target => g.meets target next
  | .jumps target => g.meets (some target) next
  | .returns | .throws => true
  | .branches .. | .selects .. => false

end Graph

/-- The work, along with whether the sections found so far say where control
goes. -/
structure Told extends Work where
  faithful : Bool := true

/-- Whether the sections still say where control goes after a step. -/
def Step.faithful (w : Told) : (s : Step) → s.Answer → Bool
  | .guard ctx chain body after, c =>
    w.faithful && w.graph.keepsOrder ctx chain body after c
  | .single id next, _ => w.faithful && w.graph.goesOn id next
  | _, _ => w.faithful

namespace Partition

variable {α β : Type}

/-- What comes of the work, and whether sections say where control goes. -/
def told : Partition α → Told → Except Fault (α × Told)
  | done a, w => .ok (a, w)
  | fail fault, _ => .error fault
  | step s next, w =>
    s.run w.toWork >>= fun r => (next r.1).told ⟨r.2, s.faithful w r.1⟩

/-- Keeping an eye on the steps does not change them. -/
theorem run_eq_told (x : Partition α) (w : Told) :
    x.run w.toWork = (x.told w).map fun r => (r.1, r.2.toWork) := by
  induction x generalizing w with
  | done a => rfl
  | fail fault => rfl
  | step s next ih =>
    rw [run, told]
    cases s.run w.toWork with
    | error fault => rfl
    | ok r => exact ih r.1 ⟨r.2, _⟩

variable {w w' : Told}

/-- One way to take a graph apart after the other. -/
theorem told_bind_eq (x : Partition α) (f : α → Partition β) (w : Told) :
    (x >>= f).told w = x.told w >>= fun r => (f r.1).told r.2 := by
  induction x generalizing w with
  | done a => rfl
  | fail fault => rfl
  | step s next ih =>
    change (s.run w.toWork >>= fun r => ((next r.1) >>= f).told _) = _
    rw [told]
    cases s.run w.toWork with
    | error fault => rfl
    | ok r => exact ih r.1 _

/-- Two steps come to an end one after the other. -/
theorem told_bind {x : Partition α} {f : α → Partition β} {b : β} :
    (x >>= f).told w = .ok (b, w') ↔
      ∃ a w₁, x.told w = .ok (a, w₁) ∧ (f a).told w₁ = .ok (b, w') := by
  rw [told_bind_eq, bind_eq_ok]
  simp only [Prod.exists]

/-- What comes after a step that has come to an end. -/
theorem told_bind_of_ok {x : Partition α} {f : α → Partition β} {a : α}
    (h : x.told w = .ok (a, w')) : (x >>= f).told w = (f a).told w' := by
  rw [told_bind_eq, h]
  rfl

/-- A result that is given is at hand at once. -/
theorem told_pure {a b : α} : (pure a : Partition α).told w = .ok (b, w') ↔
      b = a ∧ w' = w := by
  constructor
  · intro h
    cases h
    exact ⟨rfl, rfl⟩
  · rintro ⟨rfl, rfl⟩
    rfl

/-! ### Asking -/

section Asking

variable {list region : List Nat} {ids : List Nat} {i id : Nat}

@[simp] theorem told_graph_bind (f : Graph → Partition β) :
    (graph ids >>= f).told w = (f w.graph).told w := rfl

@[simp] theorem told_exit_bind (f : Exit → Partition β) :
    (exit id >>= f).told w = (f (w.graph.exit id)).told w := rfl

@[simp] theorem told_pending_bind (f : List TryGroup → Partition β) :
    (pending >>= f).told w = (f w.pending).told w := rfl

@[simp] theorem told_layout?_bind {t : TryGroup}
    (f : Option TryPlan → Partition β) :
    (layout? list t >>= f).told w = (f (w.graph.tryPlan? list t)).told w := rfl

@[simp] theorem told_next?_bind (f : Option Nat → Partition β) :
    (next? list i >>= f).told w = (f list[i]?).told w := rfl

@[simp] theorem told_member_bind (f : Nat → Partition β) :
    (member list i >>= f).told w = (f (list.getD i 0)).told w := rfl

@[simp] theorem told_slice_bind {start stop : Nat}
    (f : List Nat → Partition β) : (slice list start stop >>= f).told w =
      (f ((list.take stop).drop start)).told w := rfl

@[simp] theorem told_switchPlan_bind (f : SwitchPlan → Partition β) :
    (switchPlan list i >>= f).told w = (f (w.graph.switchPlan list i)).told w :=
  rfl

@[simp] theorem told_lastBackEdge?_bind (f : Option Nat → Partition β) :
    (lastBackEdge? list i >>= f).told w =
      (f (w.graph.lastBackEdge? list i)).told w := rfl

@[simp] theorem told_jumpsIntoTest_bind (f : Bool → Partition β) :
    (jumpsIntoTest list i >>= f).told w =
      (f (w.graph.jumpsIntoTest list i)).told w := rfl

@[simp] theorem told_extent?_bind (f : Option Nat → Partition β) :
    (extent? list i >>= f).told w = (f (w.graph.extent? list i)).told w := rfl

@[simp] theorem told_headTests?_bind (f : Option Nat → Partition β) :
    (headTests? region >>= f).told w = (f (w.graph.headTests? region)).told w :=
  rfl

@[simp] theorem told_tailTestStart_bind {first : Nat}
    (f : Nat → Partition β) : (tailTestStart first region >>= f).told w =
      (f (w.graph.tailTestStart first region region.length)).told w := rfl

@[simp] theorem told_testRun?_bind {after : Option Nat} {n : Nat}
    (f : Option TestRun → Partition β) :
    (testRun? region after n >>= f).told w =
      (f (w.graph.testRun? region after n)).told w := rfl

end Asking

/-! ### Other steps -/

/-- A change changes the graph. -/
theorem told_change {ids : List Nat} {f : Graph → Graph} {u : Unit} :
    (change ids f).told w = .ok (u, w') ↔
      w' = { w with graph := f w.graph } := by
  constructor
  · intro h
    cases h
    rfl
  · rintro rfl
    rfl

/-- A group of exception ranges is used up. -/
theorem told_use {t : TryGroup} {u : Unit} :
    (use t).told w = .ok (u, w') ↔
      w' = { w with pending := w.pending.erase t } := by
  constructor
  · intro h
    cases h
    rfl
  · rintro rfl
    rfl

/-- Giving up does not come to an end. -/
theorem told_irreducible {id : Nat} {a : α} :
    (irreducible id).told w ≠ .ok (a, w') := by
  intro h
  cases h

/-- A guard is that of the graph as it is. -/
theorem told_guard {ctx : Context} {chain : List Nat} {body : Nat}
    {after : Option Nat} {c : Condition}
    (h : (guard ctx chain body after).told w = .ok (c, w')) :
    w.graph.guard ctx chain body after = .ok c ∧
      w' = { w with faithful :=
        w.faithful && w.graph.keepsOrder ctx chain body after c } := by
  obtain ⟨r, hr, h⟩ := bind_eq_ok.1 h
  obtain ⟨c', hguard, rfl⟩ := map_eq_ok.1 hr
  cases h
  exact ⟨hguard, rfl⟩

/-- A block that a region has been folded into gives up the region. -/
theorem told_single_of_folded {id : Nat} {next : Option Nat} {s : Section}
    (h : (w.graph.block id).folded = some s) :
    (single id next).told w = .ok (s, { w with
      graph := w.graph.unfold id
      faithful := w.faithful && w.graph.goesOn id next }) := by
  change ((Step.single id next).run w.toWork >>= fun r => _) = _
  rw [Step.run, h]
  rfl

/-- Any other block shows its own code. -/
theorem told_single_of_plain {id : Nat} {next : Option Nat}
    (h : (w.graph.block id).folded = none) :
    (single id next).told w = .ok (.inline id, { w with
      faithful := w.faithful && w.graph.goesOn id next }) := by
  change ((Step.single id next).run w.toWork >>= fun r => _) = _
  rw [Step.run, h]
  rfl

/-! ### From beginning to end -/

/-- Whether the sections found say where control goes, if there is a result. -/
def faithful (x : Partition α) (w : Work) : Bool :=
  match x.told ⟨w, true⟩ with
  | .ok (_, w') => w'.faithful
  | .error _ => false

/-- Work that comes to an end does so under an eye as well. -/
theorem exists_told_of_run {x : Partition α} {w w' : Work} {a : α}
    (h : x.run w = .ok (a, w')) :
    ∃ t : Told, x.told ⟨w, true⟩ = .ok (a, t) ∧ t.toWork = w' ∧
      t.faithful = x.faithful w := by
  rw [show x.run w = x.run (Told.mk w true).toWork from rfl, run_eq_told] at h
  obtain ⟨⟨b, t⟩, htold, heq⟩ := map_eq_ok.1 h
  cases heq
  exact ⟨t, htold, rfl, by rw [faithful, htold]⟩

/-- Work under an eye comes to an end as it does without. -/
theorem run_of_told {x : Partition α} {w : Work} {t : Told} {a : α}
    (h : x.told ⟨w, true⟩ = .ok (a, t)) :
    x.run w = .ok (a, t.toWork) ∧ x.faithful w = t.faithful := by
  refine ⟨?_, by rw [faithful, h]⟩
  rw [show x.run w = x.run (Told.mk w true).toWork from rfl, run_eq_told, h]
  rfl

/-- A guard is that of the graph as it is. -/
theorem run_guard {ctx : Context} {chain : List Nat} {body : Nat}
    {after : Option Nat} {w : Work} : (guard ctx chain body after).run w =
      w.graph.guard ctx chain body after >>= fun c => .ok (c, w) := by
  change ((w.graph.guard ctx chain body after).map fun c => (c, w)) >>=
    (fun r => (done r.1).run r.2) = _
  cases w.graph.guard ctx chain body after <;> rfl

/-- What has been folded into a block is the section of its own. -/
theorem run_single_of_folded {id : Nat} {next : Option Nat} {w : Work}
    {s : Section} (h : (w.graph.block id).folded = some s) :
    (single id next).run w =
      .ok (s, { w with graph := w.graph.unfold id }) :=
  (run_of_told (told_single_of_folded h)).1

/-- Any other block is a section with nothing but its own code. -/
theorem run_single_of_plain {id : Nat} {next : Option Nat} {w : Work}
    (h : (w.graph.block id).folded = none) :
    (single id next).run w = .ok (.inline id, w) :=
  (run_of_told (told_single_of_plain h)).1

end Partition

/-- Whether the sections of a graph say where control goes. -/
def Graph.faithful (g : Graph) (ctx : Context) : Bool :=
  let w := Work.start ctx g
  (Partition.sections ctx w.depth (List.range g.blocks.length) none).faithful w

end Decompiler
