import Decompiler.Proofs.Catches.Groups
import Decompiler.Proofs.Catches.Layout
import Decompiler.Proofs.Region.Steps

/-!
# Try statements come from groups of exception ranges

A try statement is made when a group of exception ranges is used up, and its
clauses are those of the group.  This is followed through every step of taking
a graph apart: what has been folded into a block holds only such statements,
and the lists of blocks ascend, so that places in a list are the order of its
blocks.

* `Section.tries`: the clauses of all try statements in a section.
* `Dispatches`: what the clauses of a group are.
* `Founded`: what holds of the work throughout.
* `Yields.sections`: the sections of a list hold only try statements of groups.
-/

namespace Decompiler

namespace Section

mutual

/-- The clauses of each try statement in a section. -/
def tries : Section → List (List (Handler Section))
  | .inline _ => []
  | .ifElse _ body rest => triesIn body ++ triesInstead rest
  | .whileLoop _ body | .doLoop body _ => triesIn body
  | .switch _ cases => triesInCases cases
  | .tryCatch body handlers =>
    handlers :: (triesIn body ++ triesInHandlers handlers)

/-- The same for some sections. -/
def triesIn : List Section → List (List (Handler Section))
  | [] => []
  | s :: ss => s.tries ++ triesIn ss

/-- The same for what comes instead of a body. -/
def triesInstead : Alternative Section → List (List (Handler Section))
  | .none => []
  | .orIf _ body rest => triesIn body ++ triesInstead rest
  | .otherwise body => triesIn body

/-- The same for the cases of a switch. -/
def triesInCases : List (Case Section) → List (List (Handler Section))
  | [] => []
  | ⟨_, _, _, body⟩ :: cs => triesIn body ++ triesInCases cs

/-- The same for the clauses of a try statement. -/
def triesInHandlers : List (Handler Section) → List (List (Handler Section))
  | [] => []
  | ⟨_, _, body⟩ :: hs => triesIn body ++ triesInHandlers hs

end

end Section

/-- Sections that some run of blocks is partitioned into while a graph is taken
apart. -/
def IsPartition (ctx : Context) (g : Graph) (run : List Nat)
    (body : List Section) : Prop :=
  ∃ depth after w w', w.graph.SamePlaces g ∧
    (Partition.sections ctx depth run after).run w = .ok (body, w')

/-- The body of a clause is the partition of the blocks of an ascending list
from the clause's handler on, up to the handler of the next clause.  A jump at
the end is left out. -/
def HasCode (ctx : Context) (g : Graph) (c : Handler Section)
    (rest : List (Handler Section)) :
    Prop :=
  ∃ (list : List Nat) (start stop : Nat), list.Pairwise (· < ·) ∧
    list[start]? = some c.block ∧
      (∀ next ∈ rest.head?, ∃ p, list[p]? = some next.block ∧
        (stop = p ∨ stop + 1 = p ∧ ∃ id, list[stop]? = some id ∧
          (g.exit id).isJump = true)) ∧
    (start < stop ∨ (g.exit c.block).isJump = true) ∧
    IsPartition ctx g ((list.take stop).drop start) c.body

/-- What the clauses are that stand for ranges with the given handler blocks and
types, which are in table order. -/
structure Dispatches (ctx : Context) (g : Graph)
    (ranges : List (Nat × Option String)) (clauses : List (Handler Section)) :
    Prop where
  nonempty : ranges ≠ []
  /-- The clauses are in the order of their handler blocks, and those with the
  same block in table order. -/
  order : clauses.map (fun c => (c.block, c.type)) = Order.sortOn (·.1) ranges
  /-- Exceptions that a range catches are those that a clause catches. -/
  caught : ∀ catches : String → Bool,
  (clauses.find? (·.type.all catches)).isSome =
    (ranges.find? (·.2.all catches)).isSome
  /-- The first clause that catches an exception has the handler block of the
  first range that does, unless another range that does has an earlier block. -/
  first : ∀ (catches : String → Bool) range clause,
    ranges.find? (·.2.all catches) = some range →
    clauses.find? (·.type.all catches) = some clause →
    (clause.block = range.1 ↔ ∀ r ∈ ranges, r.2.all catches = true →
      range.1 ≤ r.1)
  /-- A block that handles several types has its code in the last of its
  clauses, and nothing in those before. -/
  bodies : ∀ front c rest, clauses = front ++ c :: rest →
    if rest.head?.map (·.block) = some c.block then
      c.body = [] else HasCode ctx g c rest

/-- Clauses that stand for the ranges over some blocks. -/
def Handled (ctx : Context) (g : Graph) (clauses : List (Handler Section)) :
    Prop :=
  ∃ start stop, Dispatches ctx g (g.handlersOver start stop ctx.method.ranges)
    clauses

/-- Sections in which all clauses stand for ranges. -/
abbrev AllHandled (ctx : Context) (g : Graph) (ss : List Section) : Prop :=
  ∀ clauses ∈ Section.triesIn ss, Handled ctx g clauses

/-- A section in which all clauses stand for ranges. -/
abbrev SectionHandled (ctx : Context) (g : Graph) (s : Section) : Prop :=
  ∀ clauses ∈ s.tries, Handled ctx g clauses

/-- What holds of the work on a tidy graph throughout: instructions stay in
their blocks, no jumps are made, the groups are those of the method, and what
has been folded has only clauses that stand for ranges. -/
structure Founded (ctx : Context) (g : Graph) (w : Work) : Prop where
  places : w.graph.SamePlaces g
  jumps : ∀ id, (w.graph.exit id).isJump = true → (g.exit id).isJump = true
  pending : ∀ t ∈ w.pending, t ∈ TryGroup.ofMethod g ctx.method
  folded : ∀ id s, (w.graph.block id).folded = some s → SectionHandled ctx g s

/-- A step that keeps this up, and whose result has a property. -/
def Yields (ctx : Context) (g : Graph) {α : Type} (x : Partition α)
    (P : α → Prop) : Prop :=
  ∀ w a w', Founded ctx g w → x.run w = .ok (a, w') → Founded ctx g w' ∧ P a

variable {ctx : Context} {g : Graph}

/-! ### Changes to the graph -/

namespace Founded

variable {w : Work}

/-- A change to a block keeps the work founded if it keeps where the block
stands, makes no jump, and folds only what is as it should be. -/
theorem modify (h : Founded ctx g w) (id : Nat) (change : Block → Block)
    (hplaces : ∀ b, (change b).start = b.start ∧ (change b).stop = b.stop ∧
      (change b).entry = b.entry)
    (hjumps : ∀ b, (change b).exit.isJump = true → b.exit.isJump = true)
    (hfolded : ∀ b s, (change b).folded = some s → b.folded = some s ∨
      SectionHandled ctx g s) :
    Founded ctx g { w with graph := w.graph.modify id change } := by
  have hblock (x : Nat) : (w.graph.modify id change).block x = w.graph.block x ∨
      (w.graph.modify id change).block x = change (w.graph.block x) :=
    (w.graph.block_modify id x change).imp_right And.right
  refine ⟨fun x => ?_, fun x hx => ?_, h.pending, fun x s hs => ?_⟩
  · rcases hblock x with heq | heq
    · simp only [heq]
      exact h.places x
    · simp only [heq, hplaces]
      exact h.places x
  · simp only [Graph.exit] at hx
    rcases hblock x with heq | heq
    · rw [heq] at hx
      exact h.jumps x hx
    · rw [heq] at hx
      exact h.jumps x (hjumps _ hx)
  · rcases hblock x with heq | heq
    · exact h.folded x s (heq ▸ hs)
    · exact (hfolded _ s (heq ▸ hs)).elim (h.folded x s) fun hs => hs

/-- Leading edges to the head of a loop to the jump back to it instead. -/
theorem continueAt (h : Founded ctx g w) (head closing id : Nat) :
    Founded ctx g { w with graph := w.graph.continueAt head closing id } := by
  unfold Graph.continueAt
  split
  · have hedges := h.modify id
      (fun b =>
        { b with
          exit := b.exit.mapTargets fun t => if t = head then closing else t })
      (fun _ => ⟨rfl, rfl, rfl⟩)
      (fun b hb => by rwa [Exit.isJump_mapTargets] at hb)
      (fun b s hs => .inl hs)
    have herased :=
      hedges.modify head (fun b => { b with preds := b.preds.erase id })
        (fun _ => ⟨rfl, rfl, rfl⟩) (fun _ hb => hb) (fun b s hs => .inl hs)
    exact herased.modify closing
      (fun b => { b with preds := Graph.insertPred id b.preds })
      (fun _ => ⟨rfl, rfl, rfl⟩) (fun _ hb => hb) (fun b s hs => .inl hs)
  · exact h

/-- The same for any number of blocks. -/
theorem foldl_continueAt (h : Founded ctx g w) (head closing : Nat)
    (ids : List Nat) : Founded ctx g
    { w with
      graph := ids.foldl (fun g id => g.continueAt head closing id)
        w.graph } := by
  induction ids generalizing w with
  | nil => exact h
  | cons id ids ih => exact ih (h.continueAt head closing id)

end Founded

/-! ### The steps -/

namespace Yields

variable {α β : Type}

/-- Two steps one after the other, of which the second may rely on what the
first yields. -/
theorem bind {x : Partition α} {f : α → Partition β} {P : α → Prop}
    {Q : β → Prop} (hx : Yields ctx g x P)
    (hf : ∀ a, P a → Yields ctx g (f a) Q) : Yields ctx g (x >>= f) Q := by
  intro w b w' hw h
  rw [Partition.run_bind] at h
  obtain ⟨⟨a, w₁⟩, hfirst, hrest⟩ := bind_eq_ok.1 h
  obtain ⟨hw₁, ha⟩ := hx w a w₁ hw hfirst
  exact hf a ha w₁ b w' hw₁ hrest

/-- What is known at once is yielded. -/
theorem pure {P : α → Prop} {a : α} (h : P a) :
    Yields ctx g (pure a : Partition α) P := by
  intro w b w' hw hrun
  cases hrun
  exact ⟨hw, h⟩

/-- A step that fails yields whatever is asked. -/
theorem fail {P : α → Prop} (f : Fault) : Yields ctx g (.fail f) P := by
  intro w a w' hw h
  cases h

/-- Anything may be asked. -/
theorem ask {q : Query} {f : q.Answer → Partition α} {P : α → Prop}
    (hf : ∀ a, Yields ctx g (f a) P) :
    Yields ctx g (Partition.ask q >>= f) P :=
  fun w a w' hw h => hf _ w a w' hw h

theorem exit {id : Nat} {f : Exit → Partition α} {P : α → Prop}
    (hf : ∀ e, Yields ctx g (f e) P) :
    Yields ctx g (Partition.exit id >>= f) P :=
  fun w a w' hw h => hf _ w a w' hw h

/-- Members of a list that follow one another. -/
theorem slice {list : List Nat} {start stop : Nat}
    {f : List Nat → Partition α} {P : α → Prop}
    (hf : Yields ctx g (f ((list.take stop).drop start)) P) :
    Yields ctx g (Partition.slice list start stop >>= f) P :=
  fun w a w' hw h => hf w a w' hw h

/-- Giving up yields whatever is asked. -/
theorem irreducible {P : α → Prop} (id : Nat) :
    Yields ctx g (Partition.irreducible id : Partition α) P :=
  ask fun _ => fail _

/-- What has been folded into a block that is read is as it should be. -/
theorem block (id : Nat) : Yields ctx g (Partition.block id) fun b =>
    ∀ s, b.folded = some s → SectionHandled ctx g s := by
  intro w b w' hw h
  rcases Nat.lt_or_ge id w.graph.blocks.length with hid | hid
  · rw [Partition.run_block_of_lt hid] at h
    cases h
    exact ⟨hw, hw.folded id⟩
  · rw [Partition.run_block_of_length_le hid] at h
    cases h

/-- The guard of a body changes nothing that matters here. -/
theorem guard (chain : List Nat) (body : Nat) (after : Option Nat) :
    Yields ctx g (Partition.guard ctx chain body after) fun _ => True := by
  intro w c w' hw h
  rw [Partition.run_guard] at h
  obtain ⟨_, _, heq⟩ := bind_eq_ok.1 h
  cases heq
  exact ⟨hw, trivial⟩

/-- Using up a group of ranges keeps the work founded. -/
theorem use (t : TryGroup) : Yields ctx g (Partition.use t) fun _ => True := by
  intro w u w' hw h
  cases h
  exact ⟨⟨hw.places, hw.jumps, fun t ht =>
    hw.pending t (List.mem_of_mem_erase ht), hw.folded⟩, trivial⟩

/-- The group of a try statement is one of the method's, and its layout is found
in a graph with no more jumps. -/
theorem tryPlan? (list : List Nat) (id : Nat) :
    Yields ctx g (Partition.tryPlan? list id) fun r => ∀ t plan,
      r = some (t, plan) →
      t ∈ TryGroup.ofMethod g ctx.method ∧ ∃ g' : Graph,
        g'.tryPlan? list t = some plan ∧
        ∀ id, (g'.exit id).isJump = true → (g.exit id).isJump = true := by
  intro w r w' hw h
  obtain ⟨_, htold, rfl, -⟩ := Partition.exists_told_of_run h
  cases Partition.planFound_of_told htold with
  | none drops =>
    refine ⟨?_, fun _ _ heq => nomatch heq⟩
    cases drops with
    | none => exact hw
    | one t => exact (use t w () _ hw rfl).1
  | some pending _ _ plans =>
    refine ⟨hw, fun t plan heq => ?_⟩
    cases heq
    exact ⟨hw.pending _ pending, _, plans, hw.jumps⟩

/-- A change of the graph that keeps the work founded. -/
theorem change {list : List Nat} {f : Graph → Graph}
    (hf : ∀ w, Founded ctx g w → Founded ctx g { w with graph := f w.graph }) :
    Yields ctx g (Partition.change list f) fun _ => True := by
  intro w u w' hw h
  cases h
  exact ⟨hf w hw, trivial⟩

/-- Folding a section that is as it should be keeps the work founded. -/
theorem fold {s : Section} (hs : SectionHandled ctx g s) (list : List Nat)
    (id : Nat) (next : Option Nat) :
    Yields ctx g (Partition.change list fun g => g.fold id s next) fun _ =>
      True :=
  change fun _ hw => hw.modify id _ (fun _ => ⟨rfl, rfl, rfl⟩)
    (fun _ hb => nomatch hb) fun _ _ hs' => .inr (Option.some.inj hs' ▸ hs)

/-- A block that makes a section of its own has clauses as they should be. -/
theorem single (id : Nat) (next : Option Nat) :
    Yields ctx g (Partition.single id next) (SectionHandled ctx g) := by
  intro w s w' hw h
  cases hfolded : (w.graph.block id).folded with
  | some s' =>
    rw [Partition.run_single_of_folded hfolded] at h
    cases h
    exact ⟨hw.modify id _ (fun _ => ⟨rfl, rfl, rfl⟩) (fun _ hb => hb)
      (fun _ _ hs => nomatch hs), hw.folded id s hfolded⟩
  | none =>
    rw [Partition.run_single_of_plain hfolded] at h
    cases h
    exact ⟨hw, fun _ hmem => nomatch hmem⟩

end Yields

end Decompiler
