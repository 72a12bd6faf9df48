import Decompiler.Proofs.Likeness.Readers
import Decompiler.Proofs.Likeness.Tidy
import Decompiler.Proofs.Region.Told

/-!
# Graphs that are alike are taken apart alike

The steps of taking a graph apart read its edges, the tests of its branches and
the sections that have been folded into its blocks.  Two graphs that are alike
agree on all of these, and each change leaves them alike; so they give the same
sections, or faults of one kind.

* `Graph.Like.test`, `Graph.Like.guard`: tests and guards are the same.
* `Partition.Agrees`: two steps that do the same on works that are alike.
* `Partition.Agrees.sections`: the sections of a list are the same.
-/

namespace Decompiler

variable {ctx ctx' : Context} {φ : Nat → Nat} {g g' : Graph}

namespace Graph.Like

variable {m m' : Method}

/-- Past the last block both graphs have blank ones. -/
theorem block_of_length_le (h : g.Like m m' φ g') {n : Nat}
    (hn : g.blocks.length ≤ n) : g.block n = .blank ∧ g'.block n = .blank :=
  ⟨Graph.block_of_length_le hn, Graph.block_of_length_le (h.length ▸ hn)⟩

/-- Like graphs have the same exits. -/
theorem exit_eq (h : g.Like m m' φ g') : g'.exit = g.exit := by
  funext n
  rcases Nat.lt_or_ge n g.blocks.length with hlt | hge
  · exact (h.block n hlt).exit
  · obtain ⟨hn, hn'⟩ := h.block_of_length_le hge
    rw [exit, exit, hn, hn']

/-- Like graphs have the same sections folded. -/
theorem folded_eq (h : g.Like m m' φ g') (n : Nat) :
    (g'.block n).folded = (g.block n).folded := by
  rcases Nat.lt_or_ge n g.blocks.length with hlt | hge
  · exact (h.block n hlt).folded
  · obtain ⟨hn, hn'⟩ := h.block_of_length_le hge
    rw [hn, hn']

/-- Like graphs have the same predecessors. -/
theorem preds_eq (h : g.Like m m' φ g') (n : Nat) :
    (g'.block n).preds = (g.block n).preds := by
  rcases Nat.lt_or_ge n g.blocks.length with hlt | hge
  · exact (h.block n hlt).preds
  · obtain ⟨hn, hn'⟩ := h.block_of_length_le hge
    rw [hn, hn']

/-- Like graphs have the same kinds of entries. -/
theorem entry_eq (h : g.Like m m' φ g') (n : Nat) :
    (g'.block n).entry = (g.block n).entry := by
  rcases Nat.lt_or_ge n g.blocks.length with hlt | hge
  · exact (h.block n hlt).entry
  · obtain ⟨hn, hn'⟩ := h.block_of_length_le hge
    rw [hn, hn']

/-- Blocks of one number run between positions that stand level. -/
theorem level (h : g.Like m m' φ g') (n : Nat) :
    m.Level φ (g.block n).start (g'.block n).start ∧
      m.Level φ (g.block n).stop (g'.block n).stop := by
  rcases Nat.lt_or_ge n g.blocks.length with hlt | hge
  · exact ⟨(h.block n hlt).start, (h.block n hlt).stop⟩
  · obtain ⟨hn, hn'⟩ := h.block_of_length_le hge
    rw [hn, hn']
    exact ⟨Method.Mirrors.level_zero, Method.Mirrors.level_zero⟩

/-- Changing two blocks of one number in the same way. -/
theorem modify (h : g.Like m m' φ g') (id : Nat) {f f' : Block → Block}
    (hf : ∀ b b', b.Like m m' φ b' → (f b).Like m m' φ (f' b')) :
    (g.modify id f).Like m m' φ (g'.modify id f') where
  length := by rw [length_modify, length_modify, h.length]
  block n hn := by
    rw [length_modify] at hn
    by_cases heq : id = n
    · subst heq
      rw [block_modify_self _ _ hn, block_modify_self _ _ (h.length.symm ▸ hn)]
      exact hf _ _ (h.block id hn)
    · rw [block_modify_of_ne _ _ heq, block_modify_of_ne _ _ heq]
      exact h.block n hn

/-! ### Changes -/

/-- Graphs stay alike when the same section is folded into a block of both. -/
theorem fold (h : g.Like m m' φ g') (id : Nat) (s : Section)
    (next : Option Nat) : (g.fold id s next).Like m m' φ (g'.fold id s next) :=
  h.modify id fun _ _ hb =>
    ⟨hb.id, rfl, hb.entry, hb.preds, rfl, hb.start, hb.stop, hb.last, nofun⟩

/-- Graphs stay alike when a section is taken out of a block of both. -/
theorem unfold (h : g.Like m m' φ g') (id : Nat) :
    (g.unfold id).Like m m' φ (g'.unfold id) :=
  h.modify id fun _ _ hb =>
    ⟨hb.id, hb.exit, hb.entry, hb.preds, rfl, hb.start, hb.stop, hb.last,
      hb.jump⟩

/-- Graphs stay alike when the same edges of both are redirected. -/
theorem redirect (h : g.Like m m' φ g') (id : Nat) (f : Nat → Nat) :
    (g.redirect id f).Like m m' φ (g'.redirect id f) :=
  h.modify id fun _ _ hb =>
    ⟨hb.id, congrArg (Exit.mapTargets f) hb.exit, hb.entry, hb.preds, hb.folded,
      hb.start, hb.stop, hb.last, fun hjump =>
        hb.jump ((Exit.isJump_mapTargets f _).symm.trans hjump)⟩

/-- Graphs stay alike when the predecessors of a block change in both. -/
theorem setPreds (h : g.Like m m' φ g') (id : Nat) (f : List Nat → List Nat) :
    (g.modify id fun b => { b with preds := f b.preds }).Like m m' φ
      (g'.modify id fun b => { b with preds := f b.preds }) :=
  h.modify id fun _ _ hb =>
    ⟨hb.id, hb.exit, hb.entry, congrArg f hb.preds, hb.folded, hb.start,
      hb.stop, hb.last, hb.jump⟩

/-- Graphs stay alike when edges of both continue at the same jump. -/
theorem continueAt (h : g.Like m m' φ g') (head closing id : Nat) :
    (g.continueAt head closing id).Like m m' φ
      (g'.continueAt head closing id) := by
  rw [Graph.continueAt, Graph.continueAt, successors_of_exit h.exit_eq]
  split
  · exact ((h.redirect id _).setPreds head (·.erase id)).setPreds closing
      (insertPred id)
  · exact h

/-- Graphs stay alike when the same loop is closed in both. -/
theorem closed (h : g.Like m m' φ g') (head closing : Nat) (ids : List Nat) :
    (ids.foldl (fun g id => g.continueAt head closing id) g).Like m m' φ
      (ids.foldl (fun g id => g.continueAt head closing id) g') := by
  induction ids generalizing g g' with
  | nil => exact h
  | cons id ids ih => exact ih (h.continueAt head closing id)

end Graph.Like

/-! ## Tests -/

/-- Without operands there is no test. -/
theorem Instr.exists_obstacle (i : Instr) :
    ∃ o, i.jumpCondition [] = .error o := by
  cases i <;> exact ⟨_, rfl⟩

namespace Graph.Like

/-- Blocks of one number ask the same test. -/
theorem test (h : g.Like ctx.method ctx'.method φ g')
    (hctx : ctx.Mirrors ctx' φ) (id : Nat) :
    EndsAlike Eq (g.test ctx id) (g'.test ctx' id) := by
  obtain ⟨hstart, hstop⟩ := h.level id
  have hsame (operands : List Expr) (hlt : id < g.blocks.length) :=
    Instr.jumpCondition_eq_of_bare (h.block id hlt).last operands
  rw [Graph.test, Graph.test]
  rcases Nat.lt_or_ge id g.blocks.length with hlt | hge
  · refine (hctx.simulate hstart hstop []).bind fun o o' ho => ?_
    subst ho
    simp only [Outcome.rename, Stack.exprs_rename, hsame _ hlt]
    refine .ite (.error rfl) ?_
    cases (ctx.method.instr (g.block id).breakPoint).jumpCondition o.1.exprs
      with
    | ok c => exact .ok rfl
    | error obstacle => exact .error rfl
  · obtain ⟨hn, hn'⟩ := h.block_of_length_le hge
    rw [hn, hn']
    obtain ⟨o, ho⟩ := (ctx.method.instr 0).exists_obstacle
    obtain ⟨o', ho'⟩ := (ctx'.method.instr 0).exists_obstacle
    simp only [Block.blank, Context.simulate, Method.slice_self, Context.run,
      bind, Except.bind, Stack.exprs, List.reverse_nil, List.map_nil, ho, ho']
    exact .ite (.error rfl) (.error rfl)

/-- A test forks alike in like graphs. -/
theorem fork {m m' : Method} (h : g.Like m m' φ g') (chain : List Nat)
    (body : Nat) (after : Option Nat) (id : Nat) :
    EndsAlike Eq (g.fork chain body after id)
      (g'.fork chain body after id) := by
  have hdest (edge : Option Nat) :
      EndsAlike Eq (g.dest chain body after id edge)
        (g'.dest chain body after id edge) := by
    cases edge with
    | none => exact .error rfl
    | some t =>
      exact .ite (.ok rfl) (.ite (.ok rfl) (.ite (.ok rfl) (.error rfl)))
  rw [Graph.fork, Graph.fork, h.exit_eq]
  refine (hdest _).bind fun taken _ ht => ht ▸ (hdest _).bind fun fallen _ hf =>
    hf ▸ .ok rfl

/-- Chains of one kind have the same guard. -/
theorem guard (h : g.Like ctx.method ctx'.method φ g')
    (hctx : ctx.Mirrors ctx' φ) (chain : List Nat) (body : Nat)
    (after : Option Nat) :
    EndsAlike Eq (g.guard ctx chain body after)
      (g'.guard ctx' chain body after) := by
  rw [Graph.guard, Graph.guard]
  refine (EndsAlike.mapM fun id _ => h.test hctx id).bind fun tests _ htests =>
    htests ▸ ?_
  refine (EndsAlike.mapM fun id _ => h.fork chain body after id).bind
    fun forks _ hforks =>
    hforks ▸ ?_
  cases Chain.paths forks chain.length [] 0 with
  | ok ps => exact .ok rfl
  | error position => exact .error rfl

end Graph.Like

/-! ## Steps -/

/-- Two works on graphs that are alike, with the same groups of exception ranges
left. -/
structure Work.Like (m m' : Method) (φ : Nat → Nat) (w w' : Work) : Prop where
  graph : w.graph.Like m m' φ w'.graph
  pending : w'.pending = w.pending

/-- Whether the graph itself is asked for. -/
def Query.isGraph : Query → Bool
  | graph _ => true
  | _ => false

/-- Works that are alike answer alike whatever is asked, but for the graph
itself. -/
theorem Work.Like.answer_eq {m m' : Method} {w w' : Work}
    (h : w.Like m m' φ w') (q : Query) (hq : q.isGraph = false) :
    q.answer w' = q.answer w := by
  have hexit := h.graph.exit_eq
  cases q with
  | graph ids => cases hq
  | pending => exact h.pending
  | next | member | slice => rfl
  | tryPlan list t => exact congrFun (Graph.tryPlan?_of_exit hexit list) t
  | switchPlan list i => exact congrFun (Graph.switchPlan_of_exit hexit list) i
  | backEdge list i =>
    exact congrFun
      (Graph.lastBackEdge?_of_exit hexit list h.graph.preds_eq) i
  | intoTest list i => exact congrFun (Graph.jumpsIntoTest_of_exit hexit list) i
  | extent list i => exact congrFun (Graph.extent?_of_exit hexit list) i
  | headTests region => exact Graph.headTests?_of_exit hexit region
  | tailTests first region => exact Graph.tailTestStart_of_exit hexit ..
  | testRun region after n => exact Graph.testRun?_of_exit hexit region after n

namespace Partition

variable {α β γ δ : Type} {R : α → β → Prop} {S : γ → δ → Prop}

/-- Two steps that end alike on works that are alike, and leave them alike. -/
def Agrees (ctx ctx' : Context) (φ : Nat → Nat) (R : α → β → Prop)
    (x : Partition α) (x' : Partition β) : Prop :=
  ∀ w w', w.Like ctx.method ctx'.method φ w' →
    EndsAlike (fun p p' => R p.1 p'.1 ∧ p.2.Like ctx.method ctx'.method φ p'.2)
      (x.run w) (x'.run w')

/-- Two steps with the same result. -/
abbrev Same (ctx ctx' : Context) (φ : Nat → Nat) (x x' : Partition α) : Prop :=
  Agrees ctx ctx' φ Eq x x'

/-- Two ways to structure runs of blocks with the same results. -/
def AllSame (ctx ctx' : Context) (φ : Nat → Nat) (inner inner' : Structurer) :
    Prop :=
  ∀ list after, Same ctx ctx' φ (inner list after) (inner' list after)

/-- Two ways to structure regions with the same results. -/
def RegionsSame (ctx ctx' : Context) (φ : Nat → Nat)
    (nested nested' : RegionStructurer) : Prop :=
  ∀ isLoop list after, Same ctx ctx' φ (nested isLoop list after)
    (nested' isLoop list after)

namespace Agrees

/-- Two steps one after the other agree if each does, given what the first
leaves. -/
theorem bind {x : Partition α} {x' : Partition β} {f : α → Partition γ}
    {f' : β → Partition δ} (hx : Agrees ctx ctx' φ R x x')
    (hf : ∀ a b, R a b → Agrees ctx ctx' φ S (f a) (f' b)) :
    Agrees ctx ctx' φ S (x >>= f) (x' >>= f') := by
  intro w w' hw
  rw [run_bind, run_bind]
  exact (hx w w' hw).bind fun p p' ⟨hvalue, hwork⟩ =>
    hf p.1 p'.1 hvalue p.2 p'.2 hwork

/-- A step after one with the same result. -/
theorem andThen {x x' : Partition α} {f : α → Partition γ}
    {f' : α → Partition δ} (hx : Same ctx ctx' φ x x')
    (hf : ∀ a, Agrees ctx ctx' φ S (f a) (f' a)) :
    Agrees ctx ctx' φ S (x >>= f) (x' >>= f') :=
  hx.bind fun a _ heq => heq ▸ hf a

/-- Results that are alike agree at once. -/
theorem pure {a : α} {b : β} (h : R a b) :
    Agrees ctx ctx' φ R (pure a) (pure b) :=
  fun _ _ hw => .ok ⟨h, hw⟩

/-- Faults of one kind agree. -/
theorem fail {e e' : Fault} (h : e.kind = e'.kind) :
    Agrees ctx ctx' φ R (fail e : Partition α) (fail e' : Partition β) :=
  fun _ _ _ => .error h

/-- Both ways of a choice agree. -/
theorem ite {c : Prop} [Decidable c] {x y : Partition α} {x' y' : Partition β}
    (h : Agrees ctx ctx' φ R x x') (h' : Agrees ctx ctx' φ R y y') :
    Agrees ctx ctx' φ R (if c then x else y) (if c then x' else y') := by
  split
  · exact h
  · exact h'

/-- Anything else than the graph may be asked. -/
theorem ask {q : Query} {f : q.Answer → Partition γ}
    {f' : q.Answer → Partition δ}
    (hq : q.isGraph = false) (hf : ∀ a, Agrees ctx ctx' φ S (f a) (f' a)) :
    Agrees ctx ctx' φ S (Partition.ask q >>= f) (Partition.ask q >>= f') := by
  intro w w' hw
  have hrest := hf (q.answer w) w w' hw
  rw [run_bind, run_bind]
  change EndsAlike _ ((f (q.answer w)).run w) ((f' (q.answer w')).run w')
  rwa [hw.answer_eq q hq]

/-- Like graphs are read. -/
theorem graph (ids : List Nat) :
    Agrees ctx ctx' φ (Graph.Like ctx.method ctx'.method φ)
      (Partition.graph ids) (Partition.graph ids) :=
  fun _ _ hw => .ok ⟨hw.graph, hw⟩

/-- Control leaves like blocks alike. -/
theorem exit (id : Nat) :
    Same ctx ctx' φ (Partition.exit id) (Partition.exit id) :=
  (graph [id]).bind fun _ _ hg => pure (congrFun hg.exit_eq id).symm

/-- Like blocks are read. -/
theorem block (id : Nat) :
    Agrees ctx ctx' φ (Block.Like ctx.method ctx'.method φ)
    (Partition.block id) (Partition.block id) := by
  refine (graph []).bind fun g g' hg => ?_
  rcases Nat.lt_or_ge id g.blocks.length with hlt | hge
  · rw [Graph.block_mem hlt, Graph.block_mem (hg.length.symm ▸ hlt)]
    exact pure (hg.block id hlt)
  · rw [List.getElem?_eq_none hge, List.getElem?_eq_none (hg.length.symm ▸ hge)]
    exact fail rfl

/-- Giving up agrees with giving up. -/
theorem irreducible (id : Nat) : Same ctx ctx' φ
    (Partition.irreducible id : Partition α) (Partition.irreducible id) :=
  (graph [id]).bind fun _ _ _ => fail rfl

/-! ### Changes -/

/-- Changes that keep graphs alike agree. -/
theorem change {list : List Nat} {f f' : Graph → Graph}
    (hf : ∀ g g', g.Like ctx.method ctx'.method φ g' →
      (f g).Like ctx.method ctx'.method φ (f' g')) :
    Same ctx ctx' φ (Partition.change list f) (Partition.change list f') :=
  fun w w' hw => .ok ⟨rfl, ⟨hf w.graph w'.graph hw.graph, hw.pending⟩⟩

/-- Using up a group agrees with using up the same group. -/
theorem use (t : TryGroup) :
    Same ctx ctx' φ (Partition.use t) (Partition.use t) :=
  fun _ _ hw => .ok ⟨rfl, ⟨hw.graph, congrArg (·.erase t) hw.pending⟩⟩

theorem guard (hctx : ctx.Mirrors ctx' φ) (chain : List Nat) (body : Nat)
    (after : Option Nat) :
    Same ctx ctx' φ (Partition.guard ctx chain body after)
      (Partition.guard ctx' chain body after) := by
  intro w w' hw
  rw [run_guard, run_guard]
  exact (hw.graph.guard hctx chain body after).bind fun _ _ heq =>
    .ok ⟨heq, hw⟩

/-- Like blocks make the same section. -/
theorem single (id : Nat) (next : Option Nat) :
    Same ctx ctx' φ (Partition.single id next) (Partition.single id next) := by
  intro w w' hw
  have hfolded := hw.graph.folded_eq id
  cases hs : (w.graph.block id).folded with
  | some s =>
    rw [run_single_of_folded hs, run_single_of_folded (hfolded.trans hs)]
    exact .ok ⟨rfl, ⟨hw.graph.unfold id, hw.pending⟩⟩
  | none =>
    rw [run_single_of_plain hs, run_single_of_plain (hfolded.trans hs)]
    exact .ok ⟨rfl, hw⟩

/-- The try statements that start with a block agree. -/
theorem tryPlan? (list : List Nat) (id : Nat) :
    Same ctx ctx' φ (Partition.tryPlan? list id)
      (Partition.tryPlan? list id) := by
  refine ask rfl fun groups => ?_
  cases TryGroup.longest? list id groups with
  | none => exact pure rfl
  | some t =>
    refine ask rfl fun plan => ?_
    cases plan with
    | none => exact (use t).andThen fun _ => pure rfl
    | some plan => exact pure rfl

/-! ### Loops -/

variable {inner inner' : Structurer}

/-- Loops with their test at the top agree. -/
theorem headTested? (hctx : ctx.Mirrors ctx' φ)
    (hinner : AllSame ctx ctx' φ inner inner') (region : List Nat)
    (closing : Nat) (after : Option Nat) :
    Same ctx ctx' φ (Partition.headTested? ctx inner region closing after)
      (Partition.headTested? ctx' inner' region closing after) := by
  refine ask rfl fun found => ?_
  cases found with
  | none => exact pure rfl
  | some k =>
    exact ask rfl fun tests => ask rfl fun first =>
      (guard hctx _ _ _).andThen fun cond => ask rfl fun slice =>
        (hinner _ _).andThen fun body => pure rfl

/-- Loops with their test at the bottom agree. -/
theorem tailTested (hctx : ctx.Mirrors ctx' φ)
    (hinner : AllSame ctx ctx' φ inner inner') (first last : Nat)
    (region : List Nat) (after : Option Nat) :
    Same ctx ctx' φ (Partition.tailTested ctx inner first last region after)
      (Partition.tailTested ctx' inner' first last region after) := by
  refine ask rfl fun start => ask rfl fun tests => ?_
  cases tests with
  | nil => exact irreducible last
  | cons test tests =>
    exact (guard hctx _ _ _).andThen fun cond => ask rfl fun slice =>
      (hinner _ _).andThen fun body => pure rfl

/-- A loop that has not been found to ask first goes on for ever in both. -/
theorem endlessUnless (hinner : AllSame ctx ctx' φ inner inner')
    (list : List Nat) (stop : Nat) (after : Option Nat)
    (found : Option Section) :
    Same ctx ctx' φ
      (match found with
      | some s => Pure.pure s
      | none => do
        let body ← inner (← slice list 0 stop) after
        return .whileLoop (.const true) body)
      (match found with
      | some s => Pure.pure s
      | none => do
        let body ← inner' (← slice list 0 stop) after
        return .whileLoop (.const true) body) := by
  cases found with
  | some s => exact pure rfl
  | none =>
    exact ask rfl fun slice =>
      (hinner _ _).andThen fun body => pure rfl

/-- Loops with edges back to their head agree. -/
theorem loop (hctx : ctx.Mirrors ctx' φ)
    (hinner : AllSame ctx ctx' φ inner inner') (first : Nat) (rest : List Nat)
    (after : Option Nat) :
    Same ctx ctx' φ (Partition.loop ctx inner first rest after)
      (Partition.loop ctx' inner' first rest after) := by
  refine (exit _).andThen fun e => ?_
  refine ite ?_ (tailTested hctx hinner _ _ _ _)
  refine ask rfl fun body => ?_
  refine (change fun g g' hg => hg.closed first _ _).andThen fun _ => ?_
  refine (exit first).andThen fun e => ?_
  exact ite ((headTested? hctx hinner _ _ _).andThen
    (endlessUnless hinner _ _ _))
    ((pure rfl).andThen (endlessUnless hinner _ _ _))

/-- Loops that a jump enters agree. -/
theorem jumpEntered (hctx : ctx.Mirrors ctx' φ)
    (hinner : AllSame ctx ctx' φ inner inner') (first : Nat) (rest : List Nat)
    (after : Option Nat) :
    Same ctx ctx' φ (Partition.jumpEntered ctx inner first rest after)
      (Partition.jumpEntered ctx' inner' first rest after) := by
  refine (graph _).bind fun g g' hg => ?_
  simp only [hg.exit_eq]
  cases (g.exit first).target? with
  | none => exact irreducible first
  | some target =>
    cases rest with
    | nil => exact irreducible first
    | cons body rest =>
      refine ask rfl fun chain => ?_
      cases chain with
      | nil => exact irreducible first
      | cons test tests =>
        cases (test :: tests).find? fun id => !(g.exit id).isBranch with
        | some id => exact irreducible id
        | none =>
          exact (guard hctx _ _ _).andThen fun cond =>
            ask rfl fun slice =>
              (hinner _ _).andThen fun body => pure rfl

/-! ### Branches -/

/-- The tests and bodies at the front of a region agree. -/
theorem arm (hctx : ctx.Mirrors ctx' φ)
    (hinner : AllSame ctx ctx' φ inner inner') (first : Nat) (rest : List Nat)
    (after : Option Nat) :
    Same ctx ctx' φ (Partition.arm ctx inner first rest after)
      (Partition.arm ctx' inner' first rest after) := by
  refine (graph _).bind fun g g' hg => ?_
  simp only [hg.exit_eq]
  refine ask rfl fun found => ?_
  cases found with
  | none => exact irreducible first
  | some run =>
    refine ask rfl fun tests =>
      (guard hctx _ _ _).andThen fun cond => ?_
    cases Graph.alternativeStart? (first :: rest) after run with
    | none =>
      exact ask rfl fun test => fail rfl
    | some stop =>
      exact ask rfl fun slice => (hinner _ _).andThen fun body =>
        ask rfl fun others => pure rfl

/-- What comes instead of a body agrees. -/
theorem alternative (hctx : ctx.Mirrors ctx' φ)
    (hinner : AllSame ctx ctx' φ inner inner') (after : Option Nat) (fuel : Nat)
    (region : List Nat) :
    Same ctx ctx' φ (Partition.alternative ctx inner after fuel region)
      (Partition.alternative ctx' inner' after fuel region) := by
  induction fuel generalizing region with
  | zero =>
    cases region with
    | nil => exact pure rfl
    | cons first rest => exact fail rfl
  | succ n ih =>
    cases region with
    | nil => exact pure rfl
    | cons first rest =>
      refine (exit first).andThen fun e => ?_
      refine ite ?_ ((hinner _ _).andThen fun body => pure rfl)
      refine (arm hctx hinner first rest after).andThen
        fun ⟨cond, body, others⟩ => ?_
      exact (ih others).andThen fun rest => pure rfl

/-- Branch statements agree. -/
theorem branch (hctx : ctx.Mirrors ctx' φ)
    (hinner : AllSame ctx ctx' φ inner inner') (first : Nat) (rest : List Nat)
    (after : Option Nat) :
    Same ctx ctx' φ (Partition.branch ctx inner first rest after)
      (Partition.branch ctx' inner' first rest after) :=
  (arm hctx hinner first rest after).andThen fun ⟨_, _, others⟩ =>
    (alternative hctx hinner after others.length others).andThen fun _ =>
      pure rfl

/-! ### Switches and try statements -/

/-- The cases of a switch agree. -/
theorem cases (hinner : AllSame ctx ctx' φ inner inner') (list : List Nat)
    (after : Option Nat) (spans : List CaseSpan) :
    Same ctx ctx' φ (Partition.cases inner list after spans)
      (Partition.cases inner' list after spans) := by
  induction spans with
  | nil => exact pure rfl
  | cons c cs ih =>
    have hrest (body : List Section) : Same ctx ctx' φ
        (do return ⟨c.keys, c.isDefault, c.breaks, body⟩ ::
          (← Partition.cases inner list after cs))
        (do return ⟨c.keys, c.isDefault, c.breaks, body⟩ ::
          (← Partition.cases inner' list after cs)) :=
      ih.andThen fun _ => pure rfl
    exact ite (ask rfl fun _ => (hinner _ _).andThen hrest)
      ((pure rfl).andThen hrest)

/-- The handlers of a try statement agree. -/
theorem handlers (hinner : AllSame ctx ctx' φ inner inner') (list : List Nat)
    (after : Option Nat) (spans : List HandlerSpan) :
    Same ctx ctx' φ (Partition.handlers inner list after spans)
      (Partition.handlers inner' list after spans) := by
  induction spans with
  | nil => exact pure rfl
  | cons head hs ih =>
    exact ask rfl fun _ => (hinner _ _).andThen fun body =>
      ih.andThen fun _ => pure rfl

/-- Switch statements agree. -/
theorem switch (hinner : AllSame ctx ctx' φ inner inner') (list : List Nat)
    (id : Nat) (plan : SwitchPlan) (after : Option Nat) :
    Same ctx ctx' φ (Partition.switch inner list id plan after)
      (Partition.switch inner' list id plan after) :=
  (cases hinner _ _ _).andThen fun _ => pure rfl

/-- Try statements agree. -/
theorem tryStatement (hinner : AllSame ctx ctx' φ inner inner')
    (list : List Nat) (i : Nat) (group : TryGroup) (plan : TryPlan)
    (after : Option Nat) :
    Same ctx ctx' φ (Partition.tryStatement inner list i group plan after)
      (Partition.tryStatement inner' list i group plan after) :=
  (use group).andThen fun _ => ask rfl fun _ =>
    (hinner _ _).andThen fun _ =>
      (handlers hinner _ _ _).andThen fun _ => pure rfl

/-! ### Regions -/

variable {nested nested' : RegionStructurer}

/-- What ends in front of a block of the region is found the same. -/
theorem nestedBefore (region : List Nat) (stop : Nat)
    {k k' : Nat → Partition Section}
    (hk : ∀ next, Same ctx ctx' φ (k next) (k' next)) :
    Same ctx ctx' φ
      (match region[stop]? with
      | some next => do return some (stop, ← k next)
      | none => return none)
      (match region[stop]? with
      | some next => do return some (stop, ← k' next)
      | none => return none) := by
  cases region[stop]? with
  | some next => exact (hk next).andThen fun _ => pure rfl
  | none => exact pure rfl

/-- The sections of regions inside a region agree. -/
theorem nestedAt (hinner : AllSame ctx ctx' φ inner inner')
    (hnested : RegionsSame ctx ctx' φ nested nested') (region : List Nat)
    (i id : Nat) :
    Same ctx ctx' φ (Partition.nestedAt inner nested region i id)
      (Partition.nestedAt inner' nested' region i id) := by
  refine (block id).bind fun b b' hb => ?_
  simp only [hb.folded, hb.exit]
  refine ite (pure rfl) ?_
  refine (tryPlan? region id).andThen fun found => ?_
  cases found with
  | some found =>
    exact nestedBefore _ _ fun next => tryStatement hinner _ _ _ _ _
  | none =>
    refine ite (ask rfl fun plan =>
      nestedBefore _ _ fun next => switch hinner _ _ _ _) ?_
    refine ask rfl fun last => ?_
    cases last with
    | some last =>
      exact nestedBefore _ _ fun next =>
        ask rfl fun _ => hnested true _ _
    | none =>
      refine ask rfl fun jumps => ite ?_ (pure rfl)
      refine ask rfl fun stop => ?_
      cases stop.filter (i < ·) with
      | some stop =>
        exact nestedBefore _ _ fun next =>
          ask rfl fun _ => hnested false _ _
      | none => exact pure rfl

/-- Folding the regions inside a region agrees. -/
theorem foldNested (hinner : AllSame ctx ctx' φ inner inner')
    (hnested : RegionsSame ctx ctx' φ nested nested') (fuel i : Nat)
    (region : List Nat) :
    Same ctx ctx' φ (Partition.foldNested inner nested fuel i region)
      (Partition.foldNested inner' nested' fuel i region) := by
  induction fuel generalizing i region with
  | zero =>
    refine ask rfl fun found => ?_
    cases found with
    | none => exact pure rfl
    | some id => exact fail rfl
  | succ n ih =>
    refine ask rfl fun found => ?_
    cases found with
    | none => exact pure rfl
    | some id =>
      refine (nestedAt hinner hnested region i id).andThen fun found => ?_
      cases found with
      | none => exact ih (i + 1) region
      | some found =>
        refine ite (fail rfl) ?_
        exact (change fun _ _ hg => hg.fold id found.2 _).andThen fun _ =>
          ask rfl fun _ => ask rfl fun _ => ih (i + 1) _

/-- The sections of a region agree. -/
theorem regionSection (hctx : ctx.Mirrors ctx' φ)
    (hinner : AllSame ctx ctx' φ inner inner') (fuel : Nat) :
    RegionsSame ctx ctx' φ (Partition.regionSection ctx inner fuel)
      (Partition.regionSection ctx' inner' fuel) := by
  induction fuel with
  | zero =>
    intro isLoop list after
    cases list <;> exact fail rfl
  | succ n ih =>
    intro isLoop list after
    cases list with
    | nil => exact fail rfl
    | cons first rest =>
      rw [Partition.regionSection, Partition.regionSection]
      refine ite (loop hctx hinner first rest after)
        ((exit first).andThen fun e => ?_)
      refine ite (jumpEntered hctx hinner first rest after) ?_
      refine (foldNested hinner ih rest.length 1 (first :: rest)).andThen
        fun region => ?_
      cases region with
      | nil => exact fail rfl
      | cons first rest => exact branch hctx hinner first rest after

/-! ### Lists -/

/-- The sections at a position agree. -/
theorem sectionAt (hctx : ctx.Mirrors ctx' φ)
    (hinner : AllSame ctx ctx' φ inner inner') (list : List Nat)
    (after : Option Nat) (i id : Nat) :
    Same ctx ctx' φ (Partition.sectionAt ctx inner list after i id)
      (Partition.sectionAt ctx' inner' list after i id) := by
  have halone (next : Option Nat) : Same ctx ctx' φ
      (do return (← Partition.single id next, i + 1))
      (do return (← Partition.single id next, i + 1)) :=
    (single id next).andThen fun _ => pure rfl
  have hregion (isLoop : Bool) (stop : Nat) : Same ctx ctx' φ
      (do
        let s ← Partition.regionSection ctx inner (stop - i) isLoop
          (← slice list i stop) (list[stop]?.or after)
        return (s, stop))
      (do
        let s ← Partition.regionSection ctx' inner' (stop - i) isLoop
          (← slice list i stop) (list[stop]?.or after)
        return (s, stop)) :=
    ask rfl fun _ =>
      (regionSection hctx hinner _ _ _ _).andThen fun _ => pure rfl
  refine (block id).bind fun b b' hb => ?_
  simp only [hb.folded, hb.exit]
  refine ite (halone _) ?_
  refine (tryPlan? list id).andThen fun found => ?_
  cases found with
  | some found =>
    exact (tryStatement hinner _ _ _ _ _).andThen fun _ => pure rfl
  | none =>
    refine ite (ask rfl fun plan =>
      (switch hinner _ _ _ _).andThen fun _ => pure rfl) ?_
    refine ask rfl fun last => ?_
    cases last with
    | some last => exact hregion true (last + 1)
    | none =>
      refine ask rfl fun jumps => ite ?_ (halone _)
      refine ask rfl fun stop => ?_
      cases stop.filter (i < ·) with
      | some stop => exact hregion false stop
      | none => exact irreducible id

/-- The sections of a list agree. -/
theorem sectionsFrom (hctx : ctx.Mirrors ctx' φ)
    (hinner : AllSame ctx ctx' φ inner inner') (list : List Nat)
    (after : Option Nat) (fuel i : Nat) :
    Same ctx ctx' φ (Partition.sectionsFrom ctx inner list after fuel i)
      (Partition.sectionsFrom ctx' inner' list after fuel i) := by
  induction fuel generalizing i with
  | zero =>
    refine ask rfl fun found => ?_
    cases found with
    | none => exact pure rfl
    | some id => exact fail rfl
  | succ n ih =>
    refine ask rfl fun found => ?_
    cases found with
    | none => exact pure rfl
    | some id =>
      exact (sectionAt hctx hinner list after i id).andThen fun found =>
        (ih found.2).andThen fun _ => pure rfl

/-- Taking a list apart agrees, however deep. -/
theorem sections (hctx : ctx.Mirrors ctx' φ) (depth : Nat) :
    AllSame ctx ctx' φ (Partition.sections ctx depth)
      (Partition.sections ctx' depth) := by
  induction depth with
  | zero => exact fun list after => fail rfl
  | succ d ih =>
    exact fun list after => sectionsFrom hctx ih list after list.length 0

end Agrees

end Partition

/-! ## Partitioning -/

/-- **Graphs that are alike are taken apart alike**: they give the same
sections, and are alike afterwards. -/
theorem Graph.Like.partition (h : g.Like ctx.method ctx'.method φ g')
    (hctx : ctx.Mirrors ctx' φ)
    (hgroups : TryGroup.ofMethod g' ctx'.method = TryGroup.ofMethod g
      ctx.method) :
    EndsAlike (fun p p' => p'.1 = p.1 ∧ p.2.Like ctx.method ctx'.method φ p'.2)
      (g.partition ctx) (g'.partition ctx') := by
  have hstart : (Work.start ctx g).Like ctx.method ctx'.method φ
      (Work.start ctx' g') :=
    ⟨h, by rw [Work.start, Work.start, hctx.recover, hgroups]⟩
  have hdepth : (Work.start ctx' g').depth = (Work.start ctx g).depth := by
    rw [Work.depth, Work.depth, hstart.pending, hstart.graph.length]
  rw [Graph.partition, Graph.partition, Graph.takeApart, Graph.takeApart]
  simp only [hdepth, h.length]
  refine (Partition.Agrees.sections hctx _ _ none _ _ hstart).bind
    fun p p' ⟨hvalue, hwork⟩ => ?_
  exact .ok ⟨hvalue.symm, hwork.graph⟩

end Decompiler
