import Decompiler.Decompile
import Decompiler.Proofs.Likeness.Bypass
import Decompiler.Proofs.Likeness.Region

/-!
# Methods that differ in what does nothing give the same statements

Sections become statements by simulating the blocks they name.  Blocks that are
alike perform the same actions, so the same sections give the same statements.
Together with what is known of tidy graphs and of sections this leaves one
question about two methods: whether the graphs that are built of them are alike
once blocks that do nothing are left out.

* `Graph.Like.statements`: the statements of sections.
* `Context.Mirrors.decompile`: two methods whose graphs are alike are decompiled
  alike.
-/

namespace Decompiler

variable {ctx ctx' : Context} {φ : Nat → Nat} {g g' : Graph}

namespace Graph.Like

/-- Blocks of one number start with the same values on the stack. -/
theorem entryStack (h : g.Like ctx.method ctx'.method φ g') (id : Nat) :
    g'.entryStack id = (g.entryStack id).rename φ := by
  rw [Graph.entryStack, Graph.entryStack, h.entry_eq]
  cases (g.block id).entry <;> rfl

/-- Like blocks are simulated alike. -/
theorem simulate (h : g.Like ctx.method ctx'.method φ g')
    (hctx : ctx.Mirrors ctx' φ) (id : Nat) :
    EndsAlike (Context.Renamed φ) (g.simulate ctx id)
      (g'.simulate ctx' id) := by
  obtain ⟨hstart, hstop⟩ := h.level id
  rw [Graph.simulate, Graph.simulate, h.entryStack]
  exact hctx.simulate hstart hstop _

/-- Blocks of one number perform the same actions. -/
theorem actions (h : g.Like ctx.method ctx'.method φ g')
    (hctx : ctx.Mirrors ctx' φ) (id : Nat) :
    EndsAlike Eq (g.actions ctx id) (g'.actions ctx' id) := by
  rw [Graph.actions, Graph.actions, h.exit_eq]
  refine .ite (.error rfl) ?_
  refine (h.simulate hctx id).bind fun o o' ho => ?_
  subst ho
  exact .ok rfl

/-- Switches of one number select by the same value. -/
theorem selector (h : g.Like ctx.method ctx'.method φ g')
    (hctx : ctx.Mirrors ctx' φ) (id : Nat) :
    EndsAlike Eq (g.selector ctx id) (g'.selector ctx' id) := by
  rw [Graph.selector, Graph.selector, hctx.recover]
  refine (h.simulate hctx id).bind fun o o' ho => ?_
  subst ho
  obtain ⟨_ | ⟨value, rest⟩, actions⟩ := o
  · exact .error rfl
  · simp only [Outcome.rename, Stack.rename, List.map_cons, Value.expr_rename]
    exact .refl _

mutual

/-- The statements of a section. -/
theorem statement (h : g.Like ctx.method ctx'.method φ g')
    (hctx : ctx.Mirrors ctx' φ) (before : List Statement) (s : Section) :
    EndsAlike Eq (g.statement ctx before s) (g'.statement ctx' before s) := by
  cases s with
  | inline id =>
    exact (h.actions hctx id).bind fun actions _ heq => heq ▸ .ok rfl
  | ifElse cond body rest =>
    refine (h.statements hctx [] body).bind fun body _ hbody => hbody ▸ ?_
    exact (h.alternatives hctx rest).bind fun rest _ hrest => hrest ▸ .ok rfl
  | whileLoop cond body =>
    rw [Graph.statement, Graph.statement, hctx.recover]
    exact (h.statements hctx [] body).bind fun body _ hbody => hbody ▸ .refl _
  | doLoop body cond =>
    exact (h.statements hctx [] body).bind fun body _ hbody => hbody ▸ .ok rfl
  | switch id cases =>
    refine (h.selector hctx id).bind fun selector _ hselector => hselector ▸ ?_
    exact (h.casesOf hctx cases).bind fun cases _ hcases => hcases ▸ .ok rfl
  | tryCatch body handlers =>
    refine (h.statements hctx [] body).bind fun body _ hbody => hbody ▸ ?_
    exact (h.catches hctx handlers).bind fun catches _ hcatches =>
      hcatches ▸ .ok rfl

/-- The statements of some sections. -/
theorem statements (h : g.Like ctx.method ctx'.method φ g')
    (hctx : ctx.Mirrors ctx' φ) (before : List Statement) (ss : List Section) :
    EndsAlike Eq (g.statements ctx before ss)
      (g'.statements ctx' before ss) := by
  cases ss with
  | nil => exact .ok rfl
  | cons s ss =>
    refine (h.statement hctx before s).bind fun before _ hbefore => hbefore ▸ ?_
    exact h.statements hctx before ss

/-- The statements of what comes instead of a body. -/
theorem alternatives (h : g.Like ctx.method ctx'.method φ g')
    (hctx : ctx.Mirrors ctx' φ) (rest : Alternative Section) :
    EndsAlike Eq (g.alternatives ctx rest) (g'.alternatives ctx' rest) := by
  cases rest with
  | none => exact .ok rfl
  | orIf cond body rest =>
    refine (h.statements hctx [] body).bind fun body _ hbody => hbody ▸ ?_
    exact (h.alternatives hctx rest).bind fun rest _ hrest => hrest ▸ .ok rfl
  | otherwise body =>
    exact (h.statements hctx [] body).bind fun body _ hbody => hbody ▸ .ok rfl

/-- The statements of the cases of a switch. -/
theorem casesOf (h : g.Like ctx.method ctx'.method φ g')
    (hctx : ctx.Mirrors ctx' φ) (cases : List (Case Section)) :
    EndsAlike Eq (g.cases ctx cases) (g'.cases ctx' cases) := by
  match cases with
  | [] => exact .ok rfl
  | ⟨keys, isDefault, breaks, body⟩ :: cs =>
    refine (h.statements hctx [] body).bind fun body _ hbody => hbody ▸ ?_
    exact (h.casesOf hctx cs).bind fun cs _ hcs => hcs ▸ .ok rfl

/-- The statements of the handlers of a try statement. -/
theorem catches (h : g.Like ctx.method ctx'.method φ g')
    (hctx : ctx.Mirrors ctx' φ) (handlers : List (Handler Section)) :
    EndsAlike Eq (g.catches ctx handlers) (g'.catches ctx' handlers) := by
  match handlers with
  | [] => exact .ok rfl
  | ⟨type, _, body⟩ :: hs =>
    refine (h.statements hctx [] body).bind fun body _ hbody => hbody ▸ ?_
    exact (h.catches hctx hs).bind fun cs _ hcs => hcs ▸ .ok rfl

end

end Graph.Like

/-! ## Groups of exception ranges -/

/-- Two exception ranges of one type whose labels are related. -/
structure ExceptionRange.Like (sim : Label → Label → Prop)
    (r r' : ExceptionRange) : Prop where
  type : r'.type = r.type
  start : sim r.start r'.start
  stop : sim r.stop r'.stop
  handler : sim r.handler r'.handler

/-- Ranges whose labels lead to the same blocks form the same groups. -/
theorem TryGroup.ofMethod_eq {sim : Label → Label → Prop} {m m' : Method}
    (hranges : List.Forall₂ (ExceptionRange.Like sim) m.ranges m'.ranges)
    (hlabels : ∀ l l', sim l l' → g'.blockAt? l' = g.blockAt? l) :
    TryGroup.ofMethod g' m' = TryGroup.ofMethod g m := by
  have hcollect {rs rs' : List ExceptionRange}
      (hrs : List.Forall₂ (ExceptionRange.Like sim) rs rs')
      (ts : List TryGroup) : collect g' ts rs' = collect g ts rs := by
    induction hrs generalizing ts with
    | nil => rfl
    | cons head _ ih =>
      simp only [collect, hlabels _ _ head.start, hlabels _ _ head.stop,
        hlabels _ _ head.handler, head.type, ih]
  rw [ofMethod, ofMethod, hcollect hranges]

/-! ## Decompiling -/

/-- **Two methods whose graphs are alike are decompiled alike.** -/
theorem Context.Mirrors.decompile {sim : Label → Label → Prop}
    (hctx : ctx.Mirrors ctx' φ)
    (hranges : List.Forall₂ (ExceptionRange.Like sim) ctx.method.ranges
      ctx'.method.ranges)
    (hgraph : EndsAlike (Graph.SettlesLike ctx.method ctx'.method φ sim)
      ctx.method.graph
      ctx'.method.graph) : EndsAlike Eq ctx.decompile ctx'.decompile := by
  rw [Context.decompile, Context.decompile]
  refine hgraph.bind_of_eq fun built built' hbuilt hbuilt' hsettles => ?_
  have htidy := hsettles.tidy_like hctx.method hbuilt hbuilt'
  refine htidy.bind fun t t' ⟨hlike, hlabels⟩ => ?_
  have hgroups := TryGroup.ofMethod_eq hranges hlabels
  refine (hlike.partition hctx hgroups).bind fun (sections, g) (sections', g') h => ?_
  obtain ⟨rfl, hafter⟩ : sections' = sections ∧
      g.Like ctx.method ctx'.method φ g' := h
  exact hafter.statements hctx [] sections'

end Decompiler
