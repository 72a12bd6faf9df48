import Decompiler.Proofs.Assembly.Recovered
import Decompiler.Proofs.Result
import Mathlib

/-!
# `for` loops are written out

A `for` loop stands for its first action and a `while` loop whose body ends in
the update.  Recovering `for` loops while statements are made is a change to
the statements before a loop and to the end of its body, and to nothing else,
except that a handler looks at its first statement afterwards: a store of the
exception gives the handler its variable, but a `for` loop that starts with
this store does not.

* `Statement.writeOut`: statements with their `for` loops written out.
* `Graph.writeOutAll_statements`: this undoes the recovery, section by section,
  if handlers look for their variable afterwards.
* `Statement.writeOutAll_named_eq_iff`: they need not, unless a handler starts
  with a `for` loop over the exception.
* `exists_forLoops_of_decompile`: what this says of a whole method.
-/

namespace Decompiler

/-- A handler without a variable looks for one at the start of its code. -/
def Catch.named (c : Catch Statement) : Catch Statement :=
  match c.binding with
  | some _ => c
  | none => Catch.ofBody c.type c.body

namespace Statement

mutual

/-- A statement with each `for` loop in it written as its first action and a
`while` loop that ends in the update.  Handlers are finished when their code is
written out. -/
def writeOut (finish : Catch Statement → Catch Statement) : Statement →
      List Statement
  | .action a => [.action a]
  | .ifElse cond body rest =>
    [.ifElse cond (writeOutAll finish body) (writeOutInstead finish rest)]
  | .whileLoop cond body => [.whileLoop cond (writeOutAll finish body)]
  | .doLoop body cond => [.doLoop (writeOutAll finish body) cond]
  | .forLoop init cond update body =>
    [.action init,
      .whileLoop cond (writeOutAll finish body ++ (update.map .action).toList)]
  | .switch selector enum cases =>
    [.switch selector enum (writeOutCases finish cases)]
  | .tryCatch body catches =>
    [.tryCatch (writeOutAll finish body) (writeOutCatches finish catches)]

/-- The same for some statements. -/
def writeOutAll (finish : Catch Statement → Catch Statement) : List Statement →
      List Statement
  | [] => []
  | s :: ss => s.writeOut finish ++ writeOutAll finish ss

/-- The same for what comes instead of a body. -/
def writeOutInstead (finish : Catch Statement → Catch Statement) :
    Alternative Statement → Alternative Statement
  | .none => .none
  | .orIf cond body rest =>
    .orIf cond (writeOutAll finish body) (writeOutInstead finish rest)
  | .otherwise body => .otherwise (writeOutAll finish body)

/-- The same for the cases of a switch. -/
def writeOutCases (finish : Catch Statement → Catch Statement) :
    List (Case Statement) → List (Case Statement)
  | [] => []
  | ⟨keys, isDefault, breaks, body⟩ :: cs =>
    ⟨keys, isDefault, breaks, writeOutAll finish body⟩ ::
      writeOutCases finish cs

/-- The same for the handlers of a try statement. -/
def writeOutCatches (finish : Catch Statement → Catch Statement) :
    List (Catch Statement) → List (Catch Statement)
  | [] => []
  | ⟨type, binding, body⟩ :: cs =>
    finish ⟨type, binding, writeOutAll finish body⟩ :: writeOutCatches finish cs

end

variable {finish : Catch Statement → Catch Statement}

/-- Statements are written out one after the other. -/
theorem writeOutAll_append (ss ts : List Statement) :
    writeOutAll finish (ss ++ ts) = writeOutAll finish ss ++
      writeOutAll finish ts := by
  induction ss with
  | nil => simp only [writeOutAll, List.nil_append]
  | cons s ss ih =>
    simp only [writeOutAll, List.cons_append, List.append_assoc, ih]

theorem writeOutAll_singleton (s : Statement) :
    writeOutAll finish [s] = s.writeOut finish := by
  rw [writeOutAll, writeOutAll, List.append_nil]

/-- Actions are written out as they are. -/
theorem writeOutAll_actions (as : List Action) :
    writeOutAll finish (as.map .action) = as.map .action := by
  induction as with
  | nil => simp only [List.map_nil, writeOutAll]
  | cons a as ih =>
    simp only [List.map_cons, writeOutAll, writeOut, List.singleton_append, ih]

/-- An action at the end is written out as itself. -/
theorem writeOutAll_of_getLast? {ss : List Statement} {a : Action}
    (h : ss.getLast? = some (.action a)) :
    writeOutAll finish ss.dropLast ++ [.action a] = writeOutAll finish ss := by
  obtain ⟨ts, rfl⟩ := List.getLast?_eq_some_iff.1 h
  rw [List.dropLast_concat, writeOutAll_append, writeOutAll_singleton, writeOut]

/-- A recovered `for` loop is written out as what it was recovered from. -/
theorem writeOutAll_of_forLoop? {before stmts body : List Statement}
    {cond : Condition} (h : forLoop? before cond body = some stmts) :
    writeOutAll finish stmts =
      writeOutAll finish before ++
        [.whileLoop cond (writeOutAll finish body)] := by
  unfold forLoop? at h
  split at h
  case h_1 v value hinit =>
    split at h
    case isTrue =>
      cases h
      rw [writeOutAll_append, writeOutAll_singleton,
        ← writeOutAll_of_getLast? hinit, List.append_assoc,
        List.append_cancel_left_eq]
      split
      case h_1 a hupdate =>
        split
        case isTrue => rw [writeOut, ← writeOutAll_of_getLast? hupdate]; rfl
        case isFalse => rw [writeOut]; simp
      case h_2 => rw [writeOut]; simp
    case isFalse => cases h
  case h_2 => cases h

end Statement

/-- A handler has the same variable whether it looks for it before or after its
code is written out, as long as it looks for it afterwards too. -/
theorem Catch.named_ofBody (type : Option String) (body : List Statement) :
    Catch.named ⟨(Catch.ofBody type body).type, (Catch.ofBody type body).binding,
        Statement.writeOutAll Catch.named (Catch.ofBody type body).body⟩ =
      Catch.ofBody type (Statement.writeOutAll Catch.named body) := by
  unfold Catch.ofBody
  split
  case h_1 v caught body =>
    simp only [Catch.named, Statement.writeOutAll, Statement.writeOut,
      List.singleton_append]
  case h_2 => rfl

variable (ctx : Context) (g : Graph)

namespace Graph

open Statement

/-- Straight-line code has no loops to write out. -/
theorem writeOutAll_actions (finish : Catch Statement → Catch Statement)
    (id : Nat) :
    writeOutAll finish <$> g.actions ctx id = g.actions ctx id := by
  unfold actions
  split
  case isTrue => rfl
  case isFalse => simp only [map_bind, map_pure, Statement.writeOutAll_actions]

/-- So it is with what is done before a switch. -/
theorem writeOutAll_selector (finish : Catch Statement → Catch Statement)
    (id : Nat) :
    (fun r => (writeOutAll finish r.1, r.2)) <$> g.selector ctx id = g.selector
      ctx id := by
  unfold selector
  rw [map_bind]
  refine bind_congr fun r => ?_
  split
  case h_1 => rfl
  case h_2 =>
    split <;> simp only [map_pure, Statement.writeOutAll_actions]

-- The statements before a section are written out along with it: the recovery
-- of a loop changes the last of them.
mutual

/-- One section gives the same statements without loops with a counter as with
them, once those are written out. -/
theorem writeOutAll_statement (before : List Statement) (s : Section) :
    writeOutAll Catch.named <$> g.statement (ctx.withForLoops true) before s =
      g.statement (ctx.withForLoops false) (writeOutAll Catch.named before)
        s := by
  cases s with
  | inline id =>
    simp only [statement, map_bind, map_pure, actions_withForLoops,
      writeOutAll_append]
    conv => rhs; rw [← g.writeOutAll_actions ctx Catch.named, bind_map_left]
  | ifElse cond body rest =>
    have hbody := writeOutAll_statements [] body
    have hrest := writeOutInstead_alternatives rest
    rw [writeOutAll] at hbody
    simp only [statement, map_bind, map_pure, ← hbody, ← hrest, bind_map_left,
      writeOutAll_append, writeOutAll_singleton, writeOut]
  | whileLoop cond body =>
    have hbody := writeOutAll_statements [] body
    rw [writeOutAll] at hbody
    simp only [statement, map_bind, ← hbody, bind_map_left]
    refine bind_congr fun body => ?_
    split
    case h_1 stmts hloop =>
      rw [map_pure, writeOutAll_of_forLoop? hloop]
      rfl
    case h_2 =>
      rw [map_pure, writeOutAll_append, writeOutAll_singleton, writeOut]
      rfl
  | doLoop body cond =>
    have hbody := writeOutAll_statements [] body
    rw [writeOutAll] at hbody
    simp only [statement, map_bind, map_pure, ← hbody, bind_map_left,
      writeOutAll_append, writeOutAll_singleton, writeOut]
  | switch id cases =>
    have hcases := writeOutCases_cases cases
    simp only [statement, map_bind, map_pure, ← hcases, bind_map_left,
      selector_withForLoops, writeOutAll_append, writeOutAll_singleton,
      writeOut]
    conv => rhs; rw [← g.writeOutAll_selector ctx Catch.named, bind_map_left]
  | tryCatch body handlers =>
    have hbody := writeOutAll_statements [] body
    have hcatches := writeOutCatches_catches handlers
    rw [writeOutAll] at hbody
    simp only [statement, map_bind, map_pure, ← hbody, ← hcatches,
      bind_map_left, writeOutAll_append, writeOutAll_singleton, writeOut]

/-- Some sections give the same statements without loops with a counter as with
them, once those are written out. -/
theorem writeOutAll_statements (before : List Statement) (ss : List Section) :
    writeOutAll Catch.named <$> g.statements (ctx.withForLoops true) before ss =
      g.statements (ctx.withForLoops false) (writeOutAll Catch.named before)
        ss := by
  cases ss with
  | nil => rfl
  | cons s ss =>
    have hs := writeOutAll_statement before s
    have hss := fun before => writeOutAll_statements before ss
    simp only [statements, map_bind, ← hs, hss, bind_map_left]

/-- The same for what comes instead of a body. -/
theorem writeOutInstead_alternatives (rest : Alternative Section) :
    writeOutInstead Catch.named <$> g.alternatives
      (ctx.withForLoops true) rest =
      g.alternatives (ctx.withForLoops false) rest := by
  cases rest with
  | none => rfl
  | orIf cond body rest =>
    have hbody := writeOutAll_statements [] body
    have hrest := writeOutInstead_alternatives rest
    rw [writeOutAll] at hbody
    simp only [alternatives, map_bind, map_pure, ← hbody, ← hrest,
      bind_map_left, writeOutInstead]
  | otherwise body =>
    have hbody := writeOutAll_statements [] body
    rw [writeOutAll] at hbody
    simp only [alternatives, map_bind, map_pure, ← hbody, bind_map_left,
      writeOutInstead]

/-- The same for the cases of a switch. -/
theorem writeOutCases_cases (cs : List (Case Section)) :
    writeOutCases Catch.named <$> g.cases (ctx.withForLoops true) cs =
      g.cases (ctx.withForLoops false) cs := by
  cases cs with
  | nil => rfl
  | cons c cs =>
    obtain ⟨keys, isDefault, breaks, body⟩ := c
    have hbody := writeOutAll_statements [] body
    have hcs := writeOutCases_cases cs
    rw [writeOutAll] at hbody
    simp only [Graph.cases, map_bind, map_pure, ← hbody, ← hcs, bind_map_left,
      writeOutCases]

/-- The same for the clauses of a try statement. -/
theorem writeOutCatches_catches (hs : List (Handler Section)) :
    writeOutCatches Catch.named <$> g.catches (ctx.withForLoops true) hs =
      g.catches (ctx.withForLoops false) hs := by
  cases hs with
  | nil => rfl
  | cons h hs =>
    obtain ⟨type, block, body⟩ := h
    have hbody := writeOutAll_statements [] body
    have hhs := writeOutCatches_catches hs
    rw [writeOutAll] at hbody
    simp only [Graph.catches, map_bind, map_pure, ← hbody, ← hhs, bind_map_left,
      writeOutCatches, Catch.named_ofBody]

end

end Graph

/-- A method without `for` loops is the method with them, written out. -/
theorem Context.writeOutAll_decompile :
    Statement.writeOutAll Catch.named <$> (ctx.withForLoops true).decompile =
      (ctx.withForLoops false).decompile := by
  simp only [Context.decompile, map_bind, Graph.partition_withForLoops,
    Context.method_withForLoops, Graph.writeOutAll_statements,
    Statement.writeOutAll]

namespace Statement

/-- Whether some statements start with a store of the caught exception, as an
action or as the first action of a `for` loop. -/
def startsWithCaught : List Statement → Bool
  | .action (.assign _ (.caught _)) :: _ => true
  | .forLoop (.assign _ (.caught _)) _ _ _ :: _ => true
  | _ => false

mutual

/-- Whether each handler in a statement that starts with a store of the
exception binds a variable to it. -/
def bindsCaught : Statement → Bool
  | .action _ => true
  | .ifElse _ body rest => bindsCaughtAll body && bindsCaughtInstead rest
  | .whileLoop _ body | .doLoop body _ | .forLoop _ _ _ body =>
    bindsCaughtAll body
  | .switch _ _ cases => bindsCaughtCases cases
  | .tryCatch body catches => bindsCaughtAll body && bindsCaughtCatches catches

/-- The same for some statements. -/
def bindsCaughtAll : List Statement → Bool
  | [] => true
  | s :: ss => s.bindsCaught && bindsCaughtAll ss

/-- The same for what comes instead of a body. -/
def bindsCaughtInstead : Alternative Statement → Bool
  | .none => true
  | .orIf _ body rest => bindsCaughtAll body && bindsCaughtInstead rest
  | .otherwise body => bindsCaughtAll body

/-- The same for the cases of a switch. -/
def bindsCaughtCases : List (Case Statement) → Bool
  | [] => true
  | ⟨_, _, _, body⟩ :: cs => bindsCaughtAll body && bindsCaughtCases cs

/-- The same for the handlers of a try statement. -/
def bindsCaughtCatches : List (Catch Statement) → Bool
  | [] => true
  | ⟨_, binding, body⟩ :: cs =>
    (binding.isSome || !startsWithCaught body) && bindsCaughtAll body &&
      bindsCaughtCatches cs

end

/-- How many statements one is written out as does not depend on handlers. -/
theorem length_writeOut (finish : Catch Statement → Catch Statement)
    (s : Statement) : (s.writeOut finish).length = (s.writeOut id).length := by
  cases s <;> simp only [writeOut, List.length_cons, List.length_nil]

/-- A handler finds no variable in code that does not start with a store of the
exception. -/
theorem ofBody_writeOutAll_eq_iff {type : Option String}
    {body stmts : List Statement} :
    Catch.ofBody type (writeOutAll finish body) = ⟨type, none, stmts⟩ ↔
      startsWithCaught body = false ∧ writeOutAll finish body = stmts := by
  cases body with
  | nil => simp [writeOutAll, Catch.ofBody, startsWithCaught]
  | cons s ss =>
    cases s with
    | action a =>
      cases a with
      | assign v value =>
        cases value <;>
          simp [writeOutAll, writeOut, Catch.ofBody, startsWithCaught]
      | _ => simp [writeOutAll, writeOut, Catch.ofBody, startsWithCaught]
    | forLoop init cond update body =>
      cases init with
      | assign v value =>
        cases value <;>
          simp [writeOutAll, writeOut, Catch.ofBody, startsWithCaught]
      | _ => simp [writeOutAll, writeOut, Catch.ofBody, startsWithCaught]
    | _ => simp [writeOutAll, writeOut, Catch.ofBody, startsWithCaught]

mutual

/-- A statement is written out alike, whether clauses take their names from
stores or not, exactly if its clauses bind what they catch. -/
theorem writeOut_named_eq_iff (s : Statement) :
    s.writeOut Catch.named = s.writeOut id ↔ s.bindsCaught = true := by
  cases s with
  | action a => simp only [writeOut, bindsCaught]
  | ifElse cond body rest =>
    simp only [writeOut, bindsCaught, List.cons.injEq, ifElse.injEq, true_and,
      and_true, Bool.and_eq_true, writeOutAll_named_eq_iff body,
      writeOutInstead_named_eq_iff rest]
  | whileLoop cond body =>
    simp only [writeOut, bindsCaught, List.cons.injEq, whileLoop.injEq,
      true_and, and_true, writeOutAll_named_eq_iff body]
  | doLoop body cond =>
    simp only [writeOut, bindsCaught, List.cons.injEq, doLoop.injEq, and_true,
      writeOutAll_named_eq_iff body]
  | forLoop init cond update body =>
    simp only [writeOut, bindsCaught, List.cons.injEq, whileLoop.injEq,
      true_and, and_true, List.append_left_inj, writeOutAll_named_eq_iff body]
  | switch selector enum cases =>
    simp only [writeOut, bindsCaught, List.cons.injEq, switch.injEq, true_and,
      and_true, writeOutCases_named_eq_iff cases]
  | tryCatch body catches =>
    simp only [writeOut, bindsCaught, List.cons.injEq, tryCatch.injEq, and_true,
      Bool.and_eq_true, writeOutAll_named_eq_iff body,
      writeOutCatches_named_eq_iff catches]

/-- The same for statements one after the other. -/
theorem writeOutAll_named_eq_iff (ss : List Statement) :
    writeOutAll Catch.named ss = writeOutAll id ss ↔
      bindsCaughtAll ss = true := by
  cases ss with
  | nil => simp only [writeOutAll, bindsCaughtAll]
  | cons s ss =>
    simp only [writeOutAll, bindsCaughtAll, Bool.and_eq_true,
      ← writeOut_named_eq_iff s, ← writeOutAll_named_eq_iff ss]
    exact ⟨fun h => List.append_inj h (length_writeOut _ s),
      fun h => by rw [h.1, h.2]⟩

/-- The same for what comes instead of a body. -/
theorem writeOutInstead_named_eq_iff (rest : Alternative Statement) :
    writeOutInstead Catch.named rest = writeOutInstead id rest ↔
      bindsCaughtInstead rest = true := by
  cases rest with
  | none => simp only [writeOutInstead, bindsCaughtInstead]
  | orIf cond body rest =>
    simp only [writeOutInstead, bindsCaughtInstead, Alternative.orIf.injEq,
      true_and, Bool.and_eq_true, writeOutAll_named_eq_iff body,
      writeOutInstead_named_eq_iff rest]
  | otherwise body =>
    simp only [writeOutInstead, bindsCaughtInstead, Alternative.otherwise.injEq,
      writeOutAll_named_eq_iff body]

/-- The same for the cases of a switch. -/
theorem writeOutCases_named_eq_iff (cs : List (Case Statement)) :
    writeOutCases Catch.named cs = writeOutCases id cs ↔
      bindsCaughtCases cs = true := by
  cases cs with
  | nil => simp only [writeOutCases, bindsCaughtCases]
  | cons c cs =>
    obtain ⟨keys, isDefault, breaks, body⟩ := c
    simp only [writeOutCases, bindsCaughtCases, List.cons.injEq, Case.mk.injEq,
      true_and, Bool.and_eq_true, writeOutAll_named_eq_iff body,
      writeOutCases_named_eq_iff cs]

/-- The same for the clauses of a try statement. -/
theorem writeOutCatches_named_eq_iff (cs : List (Catch Statement)) :
    writeOutCatches Catch.named cs = writeOutCatches id cs ↔
      bindsCaughtCatches cs = true := by
  cases cs with
  | nil => simp only [writeOutCatches, bindsCaughtCatches]
  | cons c cs =>
    obtain ⟨type, binding, body⟩ := c
    simp only [writeOutCatches, bindsCaughtCatches, List.cons.injEq,
      Bool.and_eq_true, writeOutCatches_named_eq_iff cs]
    refine and_congr_left fun _ => ?_
    cases binding with
    | some v =>
      simp [Catch.named, writeOutAll_named_eq_iff body]
    | none =>
      change Catch.ofBody type (writeOutAll Catch.named body) =
        ⟨type, none, _⟩ ↔ _
      rw [ofBody_writeOutAll_eq_iff, writeOutAll_named_eq_iff body]
      simp

end

end Statement

/-- **The recovery of `for` loops.**  What is decompiled without it is
decompiled with it.  Writing out the `for` loops, and then lifting the stores of
caught exceptions that they had taken, gives the same statements.  Writing them
out alone does if and only if no handler starts with a `for` loop over the
exception. -/
theorem exists_forLoops_of_decompile (m : Method) (table : LocalTable)
    (recover : Recoveries) {plain : List Statement}
    (h : m.decompile table { recover with forLoops := false } = .ok plain) :
    ∃ stmts, m.decompile table { recover with forLoops := true } = .ok stmts ∧
      plain = Statement.writeOutAll Catch.named stmts ∧
      (plain = Statement.writeOutAll id stmts ↔
        Statement.bindsCaughtAll stmts = true) := by
  have hplain := Context.writeOutAll_decompile ⟨m, table.lookup, recover⟩
  change _ = m.decompile table { recover with forLoops := false } at hplain
  rw [h] at hplain
  obtain ⟨stmts, hstmts, hwritten⟩ := map_eq_ok.1 hplain
  refine ⟨stmts, hstmts, hwritten.symm, ?_⟩
  rw [← hwritten]
  exact Statement.writeOutAll_named_eq_iff stmts

/-- A handler that stores the exception and counts up in a loop: the store gives
the handler its variable before the counter is set. -/
theorem exists_forLoops_of_countingHandler :
    let x : Expr := .callStatic ⟨"C", "x", "()V"⟩ []
    let y : Expr := .callStatic ⟨"C", "y", "()V"⟩ []
    let counter : Local := ⟨2, "local2", some "I"⟩
    let m : Method :=
      { instrs := [.label ⟨0⟩, .call .static ⟨"C", "x", "()V"⟩, .label ⟨1⟩,
          .goto ⟨9⟩, .label ⟨2⟩, .store .reference 1, .constant (.int 0),
          .store .int 2, .label ⟨3⟩,
          .load .int 2, .constant (.int 10), .ifInts .ge ⟨9⟩,
          .call .static ⟨"C", "y", "()V"⟩,
          .increment 2 1, .goto ⟨3⟩, .label ⟨9⟩, .ret none],
        ranges := [⟨⟨0⟩, ⟨1⟩, ⟨2⟩, some "A"⟩] }
    let plain : List Statement :=
      [.tryCatch [.action (.evaluate x)]
          [⟨some "A", some ⟨1, "local1", none⟩,
            [.action (.assign counter (.int 0)),
              .whileLoop (.compare (.var counter) .lt (.int 10))
                [.action (.evaluate y), .action (.increment counter 1)]]⟩],
        .action (.ret none)]
    m.decompile .empty { forLoops := false } = .ok plain ∧
      ∃ stmts, m.decompile .empty { forLoops := true } = .ok stmts ∧
        plain = Statement.writeOutAll Catch.named stmts ∧
        (plain = Statement.writeOutAll id stmts ↔
          Statement.bindsCaughtAll stmts = true) := by
  intro x y counter m plain
  have hplain : m.decompile .empty { forLoops := false } = .ok plain := by cbv
  exact ⟨hplain, exists_forLoops_of_decompile m .empty {} hplain⟩

/-- A handler that stores the exception and then tests it in a loop has a
variable for it only as long as the loop is not a `for` loop. -/
theorem forLoop_hides_caught :
    let m : Method :=
      { instrs := [.label ⟨0⟩, .call .static ⟨"C", "x", "()V"⟩, .label ⟨1⟩,
          .goto ⟨9⟩, .label ⟨2⟩, .store .reference 1, .label ⟨3⟩,
          .load .reference 1, .ifNull ⟨9⟩,
          .call .static ⟨"C", "y", "()V"⟩, .goto ⟨3⟩, .label ⟨9⟩, .ret none],
        ranges := [⟨⟨0⟩, ⟨1⟩, ⟨2⟩, some "A"⟩] }
    ∃ plain stmts, m.decompile .empty { forLoops := false } = .ok plain ∧
      m.decompile .empty { forLoops := true } = .ok stmts ∧
      plain ≠ Statement.writeOutAll id stmts := by
  intro m
  let v : Local := ⟨1, "local1", none⟩
  let body : List Statement :=
    [.action (.evaluate (.callStatic ⟨"C", "x", "()V"⟩ []))]
  let calls : List Statement :=
    [.action (.evaluate (.callStatic ⟨"C", "y", "()V"⟩ []))]
  let cond : Condition := .compare (.var v) .ne .null
  refine ⟨[.tryCatch body [⟨some "A", some v, [.whileLoop cond calls]⟩],
    .action (.ret none)],
    [.tryCatch body [⟨some "A", none, [.forLoop (.assign v (.caught (some "A"))) cond none calls]⟩],
      .action (.ret none)], by cbv, by cbv, ?_⟩
  intro h
  simp [Statement.writeOutAll, Statement.writeOut,
    Statement.writeOutCatches] at h

end Decompiler
