import Decompiler.Proofs.Catches.Groups
import Decompiler.Proofs.Graph.Unfolded
import Decompiler.Proofs.Loops.Listed

/-!
# Changes to the work

While a graph is taken apart it is changed in a few ways only: a group of
exception ranges is used up, a region is folded into a block or its structure
taken out again, and edges to the head of a loop are led to the jump back to
it.  What a list of blocks is taken apart into changes blocks of the list.

Jumps keep what they join: control that comes to one of two joined blocks does
the same as control that comes to the other, and no change joins blocks that
were not joined before.

* `Graph.Joined`: blocks joined by jumps.
* `Work.Consistent`: what holds of the work throughout, for all methods.
* `Changes`: the changes to some blocks; `Changes.block_eq`, `Changes.joined`,
  `Changes.consistent`.
* `Told.Changes`: changes to the work under an eye.
-/

namespace Decompiler

/-! ### Jumps -/

namespace Graph

/-- Blocks that jumps lead from one to the other, or on to the same block. -/
def Joined (g : Graph) : Nat → Nat → Prop :=
  Relation.EqvGen fun id t => g.exit id = .jumps t

variable {g g' : Graph} {a b c : Nat}

/-- A block is joined to itself. -/
theorem Joined.refl (g : Graph) (a : Nat) : g.Joined a a :=
  Relation.EqvGen.refl a

/-- Joined blocks are so both ways. -/
theorem Joined.symm (h : g.Joined a b) : g.Joined b a :=
  Relation.EqvGen.symm _ _ h

/-- Joined blocks are so by way of a third. -/
theorem Joined.trans (h : g.Joined a b) (h' : g.Joined b c) : g.Joined a c :=
  Relation.EqvGen.trans _ _ _ h h'

/-- A jump joins its block to its target. -/
theorem Joined.of_jumps (h : g.exit a = .jumps b) : g.Joined a b :=
  Relation.EqvGen.rel _ _ h

/-- A graph whose jumps lead to joined blocks joins no more blocks. -/
theorem Joined.mono (h : g'.Joined a b)
    (hjumps : ∀ id t, g'.exit id = .jumps t → g.Joined id t) :
    g.Joined a b := by
  induction h with
  | rel _ _ hexit => exact hjumps _ _ hexit
  | refl => exact .refl g _
  | symm _ _ _ ih => exact ih.symm
  | trans _ _ _ _ _ ih ih' => exact ih.trans ih'

/-- A block is joined to where control that comes to it is after some jumps. -/
theorem joined_landing (g : Graph) (fuel id : Nat) :
    g.Joined id (g.landing fuel id) := by
  induction fuel generalizing id with
  | zero => exact .refl g id
  | succ n ih =>
    unfold landing
    split
    · rename_i target htarget
      exact (Joined.of_jumps (Exit.eq_jumps_of_jump? htarget)).trans (ih target)
    · exact .refl g id

/-- An edge that meets what comes next joins it. -/
theorem joined_of_meets {next : Option Nat} (h : g.meets (some a) next = true) :
    ∃ n, next = some n ∧ g.Joined a n := by
  have heq := eq_of_beq h
  cases next with
  | none => cases heq
  | some n =>
    have hland := Option.some.inj heq
    exact ⟨n, rfl, (g.joined_landing _ a).trans
      (hland ▸ (g.joined_landing _ n).symm)⟩

/-- Control that goes on at a block has only edges that join it. -/
theorem joined_of_goesOn {next : Option Nat} (h : g.goesOn a next = true)
    {t : Nat} (ht : t ∈ g.successors a) : ∃ n, next = some n ∧
      g.Joined t n := by
  rw [successors] at ht
  unfold goesOn at h
  split at h
  · rename_i target hexit
    rw [hexit] at ht
    obtain rfl : target = some t := by simpa [Exit.successors] using ht
    exact joined_of_meets h
  · rename_i target hexit
    rw [hexit] at ht
    obtain rfl := List.mem_singleton.1 ht
    exact joined_of_meets h
  · rename_i hexit
    rw [hexit] at ht
    cases ht
  · rename_i hexit
    rw [hexit] at ht
    cases ht
  · cases h
  · cases h

end Graph

/-! ### Edges -/

/-- How control leaves a block after changes: by edges to joined blocks, or as
from a folded region. -/
inductive Graph.Redirects (g : Graph) (e e' : Exit) : Prop
  | joined {f : Nat → Nat} (eq : e' = e.mapTargets f)
      (joins : ∀ t, g.Joined t (f t))
  | folded {next : Option Nat} (eq : e' = .falls next)

namespace Graph.Redirects

variable {g g' : Graph} {e e' e'' : Exit}

/-- An exit that stays as it is is redirected, if trivially. -/
theorem refl (g : Graph) (e : Exit) : g.Redirects e e :=
  .joined (Exit.mapTargets_id e).symm fun t => .refl g t

/-- An exit that is redirected twice is redirected. -/
theorem trans (h : g.Redirects e e') (h' : g.Redirects e' e'') :
    g.Redirects e e'' := by
  cases h' with
  | folded eq' => exact .folded eq'
  | @joined f' eq' joins' =>
    cases h with
    | @joined f eq joins =>
      rw [eq, Exit.mapTargets_mapTargets] at eq'
      exact .joined eq' fun t => (joins t).trans (joins' (f t))
    | folded eq =>
      rw [eq] at eq'
      exact .folded eq'

/-- An exit that is redirected along joins is so where there are more of
them. -/
theorem mono (h : g'.Redirects e e')
    (hjoined : ∀ a b, g'.Joined a b → g.Joined a b) : g.Redirects e e' := by
  cases h with
  | joined eq joins => exact .joined eq fun t => hjoined _ _ (joins t)
  | folded eq => exact .folded eq

/-- A jump leads to joined blocks. -/
theorem joined_of_jumps {id t : Nat} (h : g.Redirects (g.exit id) (.jumps t)) :
    g.Joined id t := by
  cases h with
  | folded eq => cases eq
  | @joined f eq joins =>
    cases hexit : g.exit id with
    | jumps t' =>
      rw [hexit] at eq
      cases eq
      exact (Joined.of_jumps hexit).trans (joins t')
    | falls | branches | selects | returns | throws =>
      rw [hexit] at eq; cases eq

/-- A redirected exit is a switch only if it was one. -/
theorem isSwitch (h : g.Redirects e e') (hswitch : e'.isSwitch = true) :
    e.isSwitch = true := by
  cases h with
  | joined eq =>
    rw [eq] at hswitch
    cases e <;> exact hswitch
  | folded eq =>
    rw [eq] at hswitch
    cases hswitch

end Graph.Redirects

/-! ### Blocks -/

/-- A folded region runs into what comes after it, and no group of exception
ranges is empty. -/
structure Work.Consistent (w : Work) : Prop where
  folded : ∀ id s, (w.graph.block id).folded = some s →
  ∃ next, w.graph.exit id = .falls next
  proper : ∀ t ∈ w.pending, t.start < t.stop

/-- The work on a tidy graph starts out consistent. -/
theorem Work.consistent_start {ctx : Context} {built g : Graph}
    (hbuilt : ctx.method.graph = .ok built)
    (htidy : built.tidy ctx.method = .ok g) :
    (Work.start ctx g).Consistent where
  folded id s hs := by
    have hnone := (unfolded_of_tidy hbuilt htidy).folded_block id
    rw [show (Work.start ctx g).graph = g from rfl, hnone] at hs
    cases hs
  proper _ ht := TryGroup.proper_of_mem_ofMethod (Work.mem_ofMethod_of_start ht)

/-- The changes to the work that change the given blocks only. -/
inductive Changes (ids : List Nat) : Work → Work → Prop
  | refl (w : Work) : Changes ids w w
  | trans {w w₁ w₂ : Work} (first : Changes ids w w₁)
      (rest : Changes ids w₁ w₂) :
      Changes ids w w₂
  | use (w : Work) (t : TryGroup) :
      Changes ids w { w with pending := w.pending.erase t }
  | fold (w : Work) {id : Nat} (s : Section) (next : Option Nat)
      (mem : id ∈ ids) :
      Changes ids w { w with graph := w.graph.fold id s next }
  | unfold (w : Work) {id : Nat} (mem : id ∈ ids) :
      Changes ids w { w with graph := w.graph.unfold id }
  | continueAt (w : Work) {head closing id : Nat}
      (closes : w.graph.exit closing = .jumps head)
      (mem : id ∈ ids) (headMem : head ∈ ids) (closingMem : closing ∈ ids) :
      Changes ids w { w with graph := w.graph.continueAt head closing id }

namespace Changes

variable {ids more : List Nat} {w w' : Work} {id : Nat}

/-- Changes to some blocks are changes to more. -/
theorem mono (h : Changes ids w w') (hids : ids ⊆ more) :
    Changes more w w' := by
  induction h with
  | refl w => exact .refl w
  | trans _ _ ih ih' => exact ih.trans ih'
  | use w t => exact .use w t
  | fold w s next mem => exact .fold w s next (hids mem)
  | unfold w mem => exact .unfold w (hids mem)
  | continueAt w closes mem headMem closingMem =>
    exact .continueAt w closes (hids mem) (hids headMem) (hids closingMem)

/-- Blocks that are not among those given stay as they are. -/
theorem block_eq (h : Changes ids w w') (hid : id ∉ ids) :
    w'.graph.block id = w.graph.block id := by
  have hne {x : Nat} (hx : x ∈ ids) : x ≠ id := fun heq => hid (heq ▸ hx)
  induction h with
  | refl | use => rfl
  | trans _ _ ih ih' => exact ih'.trans ih
  | fold w s next mem => exact w.graph.block_modify_of_ne _ (hne mem)
  | unfold w mem => exact w.graph.block_modify_of_ne _ (hne mem)
  | continueAt w closes mem headMem closingMem =>
    exact Graph.block_continueAt_of_ne (hne mem) (hne headMem) (hne closingMem)

/-- No groups of exception ranges are added. -/
theorem pending_subset (h : Changes ids w w') : w'.pending ⊆ w.pending := by
  induction h with
  | refl | fold | unfold | continueAt => exact List.Subset.refl _
  | trans _ _ ih ih' => exact List.Subset.trans ih' ih
  | use w t => exact List.erase_subset

/-- **Edges.**  Changes lead edges to joined blocks, or fold a region. -/
theorem redirects (h : Changes ids w w') (id : Nat) :
    w.graph.Redirects (w.graph.exit id) (w'.graph.exit id) := by
  induction h generalizing id with
  | refl | use => exact .refl _ _
  | @trans w w₁ _ _ _ ih ih' =>
    -- jumps of the graph in between lead to blocks joined in the first one
    have hjoined (a b : Nat) (hab : w₁.graph.Joined a b) : w.graph.Joined a b :=
      hab.mono fun x t hexit => (hexit ▸ ih x).joined_of_jumps
    exact (ih id).trans ((ih' id).mono hjoined)
  | @fold w x s next mem =>
    rcases w.graph.block_modify x id fun b =>
      { b with folded := some s, exit := .falls next } with
        hsame | ⟨_, hchanged⟩
    · rw [Graph.exit, Graph.exit, Graph.fold, hsame]
      exact .refl _ _
    · rw [Graph.exit, Graph.exit, Graph.fold, hchanged]
      exact .folded rfl
  | @unfold w x mem =>
    rcases w.graph.block_modify x id fun b => { b with folded := none }
      with hsame | ⟨_, hchanged⟩
    · rw [Graph.exit, Graph.exit, Graph.unfold, hsame]
      exact .refl _ _
    · rw [Graph.exit, Graph.exit, Graph.unfold, hchanged]
      exact .refl _ _
  | @continueAt w head closing x closes =>
    obtain ⟨_, f, hexit, hother, hhead⟩ :=
      w.graph.turned_continueAt head closing x id
    refine .joined hexit fun t => ?_
    by_cases ht : t = head
    · subst ht
      rcases hhead with heq | ⟨_, heq⟩
      · rw [heq]
        exact .refl _ _
      · rw [heq]
        exact (Graph.Joined.of_jumps closes).symm
    · rw [hother t ht]
      exact .refl _ _

/-- No blocks are joined that were not joined before. -/
theorem joined (h : Changes ids w w') {a b : Nat} (hab : w'.graph.Joined a b) :
    w.graph.Joined a b :=
  hab.mono fun x _ hexit => (hexit ▸ h.redirects x).joined_of_jumps

/-- What has been folded into a block runs into what comes after it. -/
theorem folded (h : Changes ids w w')
    (hfolded : ∀ id s, (w.graph.block id).folded = some s →
      ∃ next, w.graph.exit id = .falls next)
    (id : Nat) (s : Section) (hs : (w'.graph.block id).folded = some s) :
    ∃ next, w'.graph.exit id = .falls next := by
  induction h generalizing id s with
  | refl | use => exact hfolded id s hs
  | trans _ _ ih ih' => exact ih' (ih hfolded) id s hs
  | @fold w x s' next mem =>
    rcases w.graph.block_modify x id fun b =>
      { b with folded := some s', exit := .falls next } with
        hsame | ⟨_, hchanged⟩
    · rw [Graph.fold, hsame] at hs
      rw [Graph.exit, Graph.fold, hsame]
      exact hfolded id s hs
    · rw [Graph.exit, Graph.fold, hchanged]
      exact ⟨next, rfl⟩
  | @unfold w x mem =>
    rcases w.graph.block_modify x id fun b => { b with folded := none } with
      hsame | ⟨_, hchanged⟩
    · rw [Graph.unfold, hsame] at hs
      rw [Graph.exit, Graph.unfold, hsame]
      exact hfolded id s hs
    · rw [Graph.unfold, hchanged] at hs
      cases hs
  | @continueAt w head closing x =>
    obtain ⟨hsame, f, hexit, _⟩ := w.graph.turned_continueAt head closing x id
    obtain ⟨next, hfalls⟩ := hfolded id s (hsame ▸ hs)
    refine ⟨next.map f, hexit.trans ?_⟩
    rw [show (w.graph.block id).exit = .falls next from hfalls]
    rfl

/-- Changes keep the work consistent. -/
theorem consistent (h : Changes ids w w') (hw : w.Consistent) : w'.Consistent :=
  ⟨h.folded hw.folded, fun t ht => hw.proper t (h.pending_subset ht)⟩

end Changes

/-! ### Under an eye -/

/-- Changes to the work after which it is not faithful if it was not before. -/
structure Told.Changes (ids : List Nat) (w w' : Told) : Prop where
  work : Decompiler.Changes ids w.toWork w'.toWork
  faithful : w'.faithful = true → w.faithful = true

namespace Told.Changes

variable {ids more : List Nat} {w w₁ w' : Told}

/-- Work that stays as it is is not changed. -/
theorem refl (w : Told) : Told.Changes ids w w := ⟨.refl _, id⟩

/-- Changes one after the other are changes. -/
theorem trans (h : Told.Changes ids w w₁) (h' : Told.Changes ids w₁ w') :
    Told.Changes ids w w' :=
  ⟨h.work.trans h'.work, fun hf => h.faithful (h'.faithful hf)⟩

/-- Changes to some blocks are changes to more. -/
theorem mono (h : Told.Changes ids w w') (hids : ids ⊆ more) :
    Told.Changes more w w' :=
  ⟨h.work.mono hids, h.faithful⟩

/-- Using up groups of exception ranges changes no block. -/
theorem of_drops (h : w.Drops w') (ids : List Nat) : Told.Changes ids w w' := by
  cases h with
  | none => exact .refl w
  | one t => exact ⟨.use w.toWork t, id⟩

/-- Once the work is not faithful, it stays so. -/
theorem observe (w : Told) (faithful : Bool) :
    Told.Changes ids w { w with faithful := w.faithful && faithful } :=
  ⟨.refl _, fun h => (Bool.and_eq_true_iff.1 h).1⟩

end Told.Changes

end Decompiler
