import Decompiler.Proofs.Bounds.Extents
import Decompiler.Proofs.Faults
import Decompiler.Proofs.Loops.Listed
import Decompiler.Proofs.Region.Found

/-!
# Steps that stay in range

While a graph is taken apart it keeps its blocks, and its switches keep leading
forward: what is folded is no switch any more, and an edge is only turned to a
block behind the one that it led to.  The groups of exception ranges stay
proper, since they are only used up.

A step stays in range if with checks it does the same, and if it leaves the work
in this form.  Its faults are then faults of the method: neither a
block that is missing nor structures nested too deeply.

* `External`: results and faults of the method; `External.of_failsAs`.
* `Work.Bounded`: the form of the work, and what keeps it.
* `InRange`: steps that stay in range, with one rule for each way in which steps
  are put together and one for each step.
-/

namespace Decompiler

/-! ## Faults -/

/-- A result, or a fault of the method. -/
def External {α : Type} : Except Fault α → Prop
  | .ok _ => True
  | .error f => f.isInternal = false

/-- The faults of the code are faults of the method. -/
theorem External.of_failsAs {α : Type} {x : Except Fault α}
    (h : FailsAs Fault.IsOfCode x) : External x := by
  cases x with
  | ok a => trivial
  | error f => cases f <;> first | rfl | cases h

/-! ## The work -/

/-- Whether every switch leads to blocks behind it only. -/
def Graph.LeadsForward (g : Graph) : Prop :=
  ∀ id < g.blocks.length, (g.exit id).isSwitch = true →
    ∀ t ∈ g.successors id, id < t

namespace Graph.LeadsForward

variable {g g' : Graph}

instance (g : Graph) : Decidable g.LeadsForward :=
  inferInstanceAs
    (Decidable (∀ id < g.blocks.length, (g.exit id).isSwitch = true →
    ∀ t ∈ g.successors id, id < t))

/-- Changing a block so that it leads where it led, or is no switch. -/
theorem modify (h : g.LeadsForward) (id : Nat) {change : Block → Block}
    (hchange : ∀ b, (change b).exit = b.exit ∨
      (change b).exit.isSwitch = false) :
    (g.modify id change).LeadsForward := by
  intro x hx hswitch t ht
  rw [length_modify] at hx
  simp only [successors, exit] at hswitch ht
  rcases g.block_modify id x change with heq | ⟨-, heq⟩
  · rw [heq] at hswitch ht
    exact h x hx hswitch t ht
  · rw [heq] at hswitch ht
    rcases hchange (g.block x) with hsame | hplain
    · rw [hsame] at hswitch ht
      exact h x hx hswitch t ht
    · rw [hplain] at hswitch
      cases hswitch

/-- Turning edges to a block behind the one that they lead to. -/
theorem turned {head closing : Nat} {here : Nat → Prop} (h : g.LeadsForward)
    (hlength : g'.blocks.length = g.blocks.length) (hlt : head < closing)
    (hturned : ∀ id, (g.block id).Turned head closing (here id) (g'.block id)) :
    g'.LeadsForward := by
  intro id hid hswitch t ht
  obtain ⟨-, f, hexit, hother, hhead⟩ := hturned id
  rw [exit, hexit, Exit.isSwitch_mapTargets] at hswitch
  rw [successors, exit, hexit, Exit.successors_mapTargets] at ht
  obtain ⟨s, hs, rfl⟩ := List.mem_map.1 ht
  have hbehind := h id (hlength ▸ hid) hswitch s hs
  by_cases heq : s = head
  · subst heq
    rcases hhead with heq | ⟨-, heq⟩ <;> rw [heq] <;> omega
  · rwa [hother s heq]

end Graph.LeadsForward

theorem Graph.length_continueAt (g : Graph) (head closing id : Nat) :
    (g.continueAt head closing id).blocks.length = g.blocks.length := by
  unfold continueAt
  split
  · simp only [length_modify, redirect]
  · rfl

theorem Graph.length_foldl_continueAt (g : Graph) (head closing : Nat)
    (ids : List Nat) :
    (ids.foldl (fun g id => g.continueAt head closing id) g).blocks.length =
      g.blocks.length := by
  induction ids generalizing g with
  | nil => rfl
  | cons id ids ih => exact (ih _).trans (g.length_continueAt head closing id)

/-- What holds of the work on a graph of `n` blocks throughout. -/
structure Work.Bounded (n : Nat) (w : Work) : Prop where
  length : w.graph.blocks.length = n
  forward : w.graph.LeadsForward
  proper : ∀ t ∈ w.pending, t.start < t.stop

namespace Work.Bounded

variable {n : Nat} {w : Work} {list : List Nat}

theorem below (h : w.Bounded n) (hlist : InOrder n list) :
    ∀ id ∈ list, id < w.graph.blocks.length :=
  h.length ▸ hlist.below

theorem modify (h : w.Bounded n) (id : Nat) {change : Block → Block}
    (hchange : ∀ b, (change b).exit = b.exit ∨
      (change b).exit.isSwitch = false) :
    Work.Bounded n { w with graph := w.graph.modify id change } :=
  ⟨(w.graph.length_modify id change).trans h.length,
    h.forward.modify id hchange, h.proper⟩

theorem use (h : w.Bounded n) (t : TryGroup) :
    Work.Bounded n { w with pending := w.pending.erase t } :=
  ⟨h.length, h.forward, fun u hu => h.proper u (List.mem_of_mem_erase hu)⟩

theorem fold (h : w.Bounded n) (id : Nat) (s : Section) (next : Option Nat) :
    Work.Bounded n { w with graph := w.graph.fold id s next } :=
  h.modify id fun _ => .inr rfl

theorem unfold (h : w.Bounded n) (id : Nat) :
    Work.Bounded n { w with graph := w.graph.unfold id } :=
  h.modify id fun _ => .inl rfl

/-- Leading edges to the head of a loop to the jump back to it. -/
theorem continueAt (h : w.Bounded n) {head closing : Nat} (hlt : head < closing)
    (ids : List Nat) : Work.Bounded n
      { w with
        graph :=
        ids.foldl (fun g id => g.continueAt head closing id) w.graph } := by
  have hlength := w.graph.length_foldl_continueAt head closing ids
  exact ⟨hlength.trans h.length, h.forward.turned hlength hlt
    (Graph.turned_foldl_continueAt (Nat.ne_of_gt hlt) ids w.graph), h.proper⟩

end Work.Bounded

/-! ## Steps -/

/-- How a step ends that stays in range: with a result that has a property, or
with a fault of the method. -/
def Work.Ends {α : Type} (n : Nat) (Q : α → Prop) :
    Except Fault (α × Work) → Prop
  | .ok (a, w) => w.Bounded n ∧ Q a
  | .error f => f.isInternal = false

/-- Work with checks that comes to what other work comes to without them. -/
structure InRange {α : Type} (n : Nat) (w : Work) (x' x : Partition α)
    (Q : α → Prop) : Prop where
  checked_eq : (x'.checked w).run = some (x.run w)
  ends : Work.Ends n Q (x.run w)

namespace InRange

variable {α β : Type} {n : Nat} {w : Work} {P : β → Prop} {Q : α → Prop}

/-! ### Putting steps together -/

theorem bind {x' x : Partition β} {f' f : β → Partition α}
    (hx : InRange n w x' x P)
    (hf : ∀ b w', w'.Bounded n → P b → InRange n w' (f' b) (f b) Q) :
    InRange n w (x' >>= f') (x >>= f) Q := by
  have hsame := hx.checked_eq
  have hends := hx.ends
  constructor <;> rw [Partition.run_bind]
  · rw [Partition.checked_bind, ExceptT.run_bind, hsame]
    cases hrun : x.run w with
    | error e => rfl
    | ok r =>
      rw [hrun] at hends
      exact (hf r.1 r.2 hends.1 hends.2).checked_eq
  · cases hrun : x.run w with
    | error e =>
      rw [hrun] at hends
      exact hends
    | ok r =>
      rw [hrun] at hends
      exact (hf r.1 r.2 hends.1 hends.2).ends

theorem pure {a : α} (hw : w.Bounded n) (ha : Q a) :
    InRange n w (pure a) (pure a) Q :=
  ⟨rfl, hw, ha⟩

theorem fail {f : Fault} (hf : f.isInternal = false) :
    InRange n w (.fail f) (.fail f) Q := by
  refine ⟨?_, hf⟩
  rw [Partition.checked, Checked.demand_eq hf]
  rfl

theorem ite {c : Prop} [Decidable c] {x' y' x y : Partition α}
    (hx : c → InRange n w x' x Q) (hy : ¬ c → InRange n w y' y Q) :
    InRange n w (if c then x' else y') (if c then x else y) Q := by
  split
  · exact hx ‹c›
  · exact hy ‹¬ c›

theorem weaken {P : α → Prop} {x' x : Partition α} (h : InRange n w x' x P)
    (himp : ∀ a, P a → Q a) : InRange n w x' x Q := by
  refine ⟨h.checked_eq, ?_⟩
  have hends := h.ends
  cases hrun : x.run w with
  | error e =>
    rw [hrun] at hends
    exact hends
  | ok r =>
    rw [hrun] at hends
    exact ⟨hends.1, himp _ hends.2⟩

/-! ### Steps -/

/-- Looking something up leaves the work as it is. -/
theorem look {x : Partition β} {b : β} {f' f : β → Partition α}
    (hcheck : (x.checked w).run = some (.ok (b, w)))
    (hrun : x.run w = .ok (b, w)) (h : InRange n w (f' b) (f b) Q) :
    InRange n w (x >>= f') (x >>= f) Q := by
  constructor <;> rw [Partition.run_bind, hrun]
  · rw [Partition.checked_bind, ExceptT.run_bind, hcheck]
    exact h.checked_eq
  · exact h.ends

/-- A question that leads to nothing out of range has its answer. -/
theorem ask {q : Query} {a : q.Answer} {f' f : q.Answer → Partition α}
    (hcheck : q.checked w = some a) (ha : q.answer w = a)
    (h : InRange n w (f' a) (f a) Q) :
    InRange n w (Partition.ask q >>= f') (Partition.ask q >>= f) Q := by
  subst ha
  refine look ?_ rfl h
  change (Step.checked w (.ask q) >>= fun r =>
    Partition.checked (.done r.1) r.2).run = _
  rw [Step.checked, hcheck]
  rfl

theorem graph {ids : List Nat} {f' f : Graph → Partition α}
    (hids : ∀ id ∈ ids, id < w.graph.blocks.length)
    (h : InRange n w (f' w.graph) (f w.graph) Q) :
    InRange n w (Partition.graph ids >>= f') (Partition.graph ids >>= f) Q :=
  ask (q := .graph ids) (by rw [Query.checked, Checked.known_eq hids]; rfl)
    rfl h

theorem exit {id : Nat} {f' f : Exit → Partition α}
    (hid : id < w.graph.blocks.length)
    (h : InRange n w (f' (w.graph.exit id)) (f (w.graph.exit id)) Q) :
    InRange n w (Partition.exit id >>= f') (Partition.exit id >>= f) Q := by
  show InRange n w (Partition.graph [id] >>= fun g => f' (g.exit id))
    (Partition.graph [id] >>= fun g => f (g.exit id)) Q
  exact graph (by simpa using hid) h

theorem block {id : Nat} {f' f : Block → Partition α}
    (hid : id < w.graph.blocks.length)
    (h : InRange n w (f' (w.graph.block id)) (f (w.graph.block id)) Q) :
    InRange n w (Partition.block id >>= f') (Partition.block id >>= f) Q := by
  refine look ?_ (Partition.run_block_of_lt hid) h
  have hgraph : (Partition.graph []).checked w = Pure.pure (w.graph, w) := rfl
  rw [Partition.block, Partition.checked_bind, hgraph, pure_bind,
    Graph.block_mem hid]
  rfl

theorem slice {list : List Nat} {start stop : Nat}
    {f' f : List Nat → Partition α} (hle : start ≤ stop)
    (hstop : stop ≤ list.length)
    (h : InRange n w (f' ((list.take stop).drop start))
      (f ((list.take stop).drop start)) Q) :
    InRange n w (Partition.slice list start stop >>= f')
      (Partition.slice list start stop >>= f) Q :=
  ask (Checked.slice_eq hle hstop) rfl h

/-- The front of a list is a slice of it. -/
theorem front {list : List Nat} {stop : Nat} {f' f : List Nat → Partition α}
    (hstop : stop ≤ list.length)
    (h : InRange n w (f' (list.take stop)) (f (list.take stop)) Q) :
    InRange n w (Partition.slice list 0 stop >>= f')
      (Partition.slice list 0 stop >>= f) Q :=
  slice (Nat.zero_le stop) hstop h

/-- The back of a list is a slice of it. -/
theorem back {list : List Nat} {start : Nat} {f' f : List Nat → Partition α}
    (hstart : start ≤ list.length)
    (h : InRange n w (f' (list.drop start)) (f (list.drop start)) Q) :
    InRange n w (Partition.slice list start list.length >>= f')
      (Partition.slice list start list.length >>= f) Q := by
  refine slice hstart (Nat.le_refl _) ?_
  rwa [List.take_length]

theorem member {list : List Nat} {i : Nat} {f' f : Nat → Partition α}
    (hi : i < list.length)
    (h : InRange n w (f' (list.getD i 0)) (f (list.getD i 0)) Q) :
    InRange n w (Partition.member list i >>= f')
      (Partition.member list i >>= f) Q :=
  ask (show list[i]? = some (list.getD i 0) by
    rw [List.getD_eq_getElem?_getD, List.getElem?_eq_getElem hi]
    rfl) rfl h

theorem irreducible {id : Nat} (hid : id < w.graph.blocks.length) :
    InRange n w (Partition.irreducible id) (Partition.irreducible id) Q :=
  graph (by simpa using hid) (fail rfl)

/-- A step whose check holds. -/
theorem step {s : Step} {P : s.Answer → Prop}
    (hcheck : (s.checked w).run = some (s.run w))
    (hends : Work.Ends n P (s.run w)) :
    InRange n w (.step s .done) (.step s .done) P := by
  have hsame : (Partition.step s .done).run w = s.run w := by
    rw [Partition.run]
    cases s.run w <;> rfl
  refine ⟨?_, hsame ▸ hends⟩
  rw [hsame, Partition.checked, ExceptT.run_bind, hcheck]
  cases s.run w <;> rfl

theorem guard {ctx : Context} {chain : List Nat} {body : Nat}
    {after : Option Nat} (hw : w.Bounded n)
    (hchain : ∀ id ∈ chain, id < w.graph.blocks.length) :
    InRange n w (Partition.guard ctx chain body after)
      (Partition.guard ctx chain body after) fun _ => True := by
  have hguard : External (w.graph.guard ctx chain body after) :=
    .of_failsAs (.guard chain body after)
  refine step (by rw [Step.checked, Checked.known_eq hchain]; rfl) ?_
  rw [Step.run]
  cases hrun : w.graph.guard ctx chain body after with
  | error f =>
    rw [hrun] at hguard
    exact hguard
  | ok c => exact ⟨hw, trivial⟩

theorem change {list : List Nat} {f : Graph → Graph}
    (hlist : ∀ id ∈ list, id < w.graph.blocks.length)
    (hw : Work.Bounded n { w with graph := f w.graph }) :
    InRange n w (Partition.change list f) (Partition.change list f)
      fun _ => True :=
  step (by rw [Step.checked, Checked.known_eq hlist]; rfl) ⟨hw, trivial⟩

theorem use (hw : w.Bounded n) (t : TryGroup) :
    InRange n w (Partition.use t) (Partition.use t) fun _ => True :=
  step rfl ⟨hw.use t, trivial⟩

theorem single {id : Nat} (hw : w.Bounded n)
    (hid : id < w.graph.blocks.length) (next : Option Nat) :
    InRange n w (Partition.single id next) (Partition.single id next)
      fun _ => True := by
  refine step (by rw [Step.checked, Checked.known_eq (by simpa using hid)]; rfl)
    ?_
  rw [Step.run]
  split
  · exact ⟨hw.unfold id, trivial⟩
  · exact ⟨hw, trivial⟩

end InRange

end Decompiler
