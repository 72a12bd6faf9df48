import Decompiler.Proofs.Calls.Decompile
import Decompiler.Proofs.Loops.Settled

/-!
# Code that goes on forever keeps a loop

Control that comes back forever comes back to a loop: sections without a loop
make only so many calls, whatever the tests answer.

* `Behavior.Bounded`: at most a number of calls.
* `exists_bound_section`: sections without loops make a bounded number of calls.
* `loops_pos_of_endless`: a method that makes ever more calls keeps a loop.
-/

namespace Decompiler

/-! ## Bounded behavior -/

/-- At most a number of calls is made, whatever the tests answer. -/
def Behavior.Bounded (n : Nat) (b : Behavior) : Prop :=
  ∀ (a : Answers) (calls : List Member), b a calls → calls.length ≤ n

namespace Behavior.Bounded

variable {n k : Nat} {b c : Behavior}

/-- A bound may be raised. -/
theorem mono (h : b.Bounded n) (hle : n ≤ k) : b.Bounded k :=
  fun a calls hcalls =>
  Nat.le_trans (h a calls hcalls) hle

/-- Without calls any bound holds. -/
theorem halt (n : Nat) : Behavior.halt.Bounded n := fun _ calls hcalls => by
  have hnil : calls = [] := hcalls
  rw [hnil]
  exact Nat.zero_le n

/-- A call in front takes one more. -/
theorem call (f : Member) (h : b.Bounded n) :
    (Behavior.call f b).Bounded (n + 1)
  | _, [], _ => Nat.zero_le _
  | a, _ :: calls, hcalls => Nat.succ_le_succ (h a calls hcalls.2)

/-- A question takes one more, whatever the answer. -/
theorem ask (f : Member) {b : Bool → Behavior} (h : ∀ x, (b x).Bounded n) :
    (Behavior.ask f b).Bounded (n + 1)
  | _, [], _ => Nat.zero_le _
  | a, _ :: calls, hcalls => Nat.succ_le_succ (h (a 0) a.tail calls hcalls.2)

mutual

/-- Deciding a condition takes a bounded number of calls. -/
theorem exists_asking : (cond : Condition) →
      ∃ d, ∀ {n : Nat} {yes no : Behavior},
    yes.Bounded n → no.Bounded n → (cond.asking yes no).Bounded (n + d)
  | .test value negated => by
    refine ⟨1, fun {n yes no} hyes hno => ?_⟩
    unfold Condition.asking
    cases value.plainCall? with
    | none => exact halt _
    | some f =>
      apply ask
      intro answer
      by_cases hpositive : (answer != negated) = true
      · rw [if_pos hpositive]
        exact hyes
      · rw [if_neg hpositive]
        exact hno
  | .compare .. => ⟨0, fun _ _ => halt _⟩
  | .all cs => exists_askingAll cs
  | .any cs => exists_askingAny cs
  | .const value => by
    refine ⟨0, fun {n yes no} hyes hno => ?_⟩
    cases value with
    | true => exact hyes
    | false => exact hno

/-- Asking a conjunction takes at most so many calls more. -/
theorem exists_askingAll : (cs : List Condition) →
      ∃ d, ∀ {n : Nat} {yes no : Behavior},
    yes.Bounded n → no.Bounded n →
      (Condition.askingAll cs yes no).Bounded (n + d)
  | [] => ⟨0, fun hyes _ => hyes⟩
  | c :: cs => by
    obtain ⟨d, hd⟩ := exists_asking c
    obtain ⟨e, he⟩ := exists_askingAll cs
    refine ⟨e + d, fun {n yes no} hyes hno => ?_⟩
    exact (hd (he hyes hno) (hno.mono (Nat.le_add_right n e))).mono (by omega)

/-- Asking a disjunction takes at most so many calls more. -/
theorem exists_askingAny : (cs : List Condition) →
      ∃ d, ∀ {n : Nat} {yes no : Behavior},
    yes.Bounded n → no.Bounded n →
      (Condition.askingAny cs yes no).Bounded (n + d)
  | [] => ⟨0, fun _ hno => hno⟩
  | c :: cs => by
    obtain ⟨d, hd⟩ := exists_asking c
    obtain ⟨e, he⟩ := exists_askingAny cs
    refine ⟨e + d, fun {n yes no} hyes hno => ?_⟩
    exact (hd (hyes.mono (Nat.le_add_right n e)) (he hyes hno)).mono (by omega)

end

end Behavior.Bounded

/-- Some statements make at most a number of calls before others. -/
def AddCalls (d : Nat) (stmts : List Statement) : Prop :=
  ∀ (n : Nat) (rest : List Statement), (executing rest).Bounded n →
    (executing (stmts ++ rest)).Bounded (n + d)

namespace AddCalls

variable {d e : Nat} {xs ys : List Statement}

/-- No statements add no calls. -/
theorem nil : AddCalls 0 [] := fun _ _ h => h

/-- Statements one after the other add the calls of both. -/
theorem append (hxs : AddCalls d xs) (hys : AddCalls e ys) :
    AddCalls (d + e) (xs ++ ys) := by
  intro n rest h
  rw [List.append_assoc]
  exact (hxs _ _ (hys n rest h)).mono (by omega)

/-- A statement that execution stops at. -/
theorem of_halts {s : Statement}
    (h : ∀ rest, Code.act (.run (s :: rest)) = .halts) :
    AddCalls 0 [s] := fun n rest _ => by
  rw [List.singleton_append, executing, makes_of_halts (h rest)]
  exact .halt _

/-- Each action adds at most one call. -/
theorem actions (as : List Action) : AddCalls as.length (as.map .action) := by
  induction as with
  | nil => exact nil
  | cons a as ih =>
    intro n rest h
    have hrest := ih n rest h
    cases a with
    | evaluate call =>
      cases hcall : call.plainCall? with
      | some f =>
        have hstep :
            Code.act
            (.run (.action (.evaluate call) :: (as.map .action ++ rest))) =
            .calls f (.run (as.map .action ++ rest)) := by
          simp [Code.act, hcall]
        change (executing
          (.action (.evaluate call) :: (as.map .action ++ rest))).Bounded _
        rw [executing, makes_of_calls hstep]
        exact hrest.call f
      | none =>
        have hstep :
            Code.act
            (.run (.action (.evaluate call) :: (as.map .action ++ rest))) =
            .halts := by
          simp [Code.act, hcall]
        change (executing
          (.action (.evaluate call) :: (as.map .action ++ rest))).Bounded _
        rw [executing, makes_of_halts hstep]
        exact .halt _
    | assign | assignStatic | assignField | assignElement | increment | ret | throw =>
      change (Makes Code.act _).Bounded _
      rw [makes_of_halts rfl]
      exact .halt _

/-- A conditional adds a bounded number of calls if its branches do. -/
theorem ifElse (cond : Condition) {body : List Statement}
    {alternative : Alternative Statement} (hbody : AddCalls d body)
    (halternative : AddCalls e alternative.statements) :
    ∃ k, AddCalls k [.ifElse cond body alternative] := by
  obtain ⟨k, hk⟩ := Behavior.Bounded.exists_asking cond
  refine ⟨d + e + k, fun n rest h => ?_⟩
  rw [List.singleton_append, executing_ifElse]
  refine (hk (n := n + d + e) ?_ ?_).mono (by omega)
  · exact (hbody n rest h).mono (by omega)
  · exact (halternative n rest h).mono (by omega)

end AddCalls

variable {ctx : Context} {g : Graph}

/-- A block of straight-line code becomes actions. -/
theorem exists_actions {id : Nat} {stmts : List Statement}
    (h : g.actions ctx id = .ok stmts) :
    ∃ as : List Action, stmts = as.map .action := by
  unfold Graph.actions at h
  split at h
  · cases h
  · obtain ⟨⟨s, as⟩, _, h⟩ := bind_eq_ok.1 h
    cases h
    exact ⟨as, rfl⟩

/-- What stands in front of a switch is actions only. -/
theorem exists_selector {id : Nat} {stmts : List Statement} {value : Expr}
    {enum : Option String} (h : g.selector ctx id = .ok (stmts, value, enum)) :
    ∃ as : List Action, stmts = as.map .action := by
  obtain ⟨⟨s, as⟩, _, h⟩ := bind_eq_ok.1 h
  cases s with
  | nil => cases h
  | cons v s =>
    dsimp only at h
    split at h
    · cases h
      exact ⟨as, rfl⟩
    · cases h
      exact ⟨as, rfl⟩

mutual

/-- A section without loops makes a bounded number of calls. -/
theorem exists_bound_section : (s : Section) → s.loops = 0 →
    ∀ {before result : List Statement}, g.statement ctx before s = .ok result →
      ∃ d stmts, result = before ++ stmts ∧ AddCalls d stmts
  | .inline id, _, before, result, h => by
    obtain ⟨stmts, hstmts, h⟩ := bind_eq_ok.1 h
    cases h
    obtain ⟨as, rfl⟩ := exists_actions hstmts
    exact ⟨as.length, _, rfl, .actions as⟩
  | .ifElse cond body rest, hloops, before, result, h => by
    rw [Section.loops, Nat.add_eq_zero_iff] at hloops
    obtain ⟨stmts, hstmts, h⟩ := bind_eq_ok.1 h
    obtain ⟨others, hothers, h⟩ := bind_eq_ok.1 h
    cases h
    obtain ⟨d, stmts', hstmts', hd⟩ :=
      exists_bound_sections body hloops.1 hstmts
    obtain ⟨e, he⟩ := exists_bound_alternative rest hloops.2 hothers
    rw [List.nil_append] at hstmts'
    obtain ⟨k, hk⟩ := AddCalls.ifElse cond (hstmts' ▸ hd) he
    exact ⟨k, _, rfl, hk⟩
  | .whileLoop cond body, hloops, _, _, _ => by simp [Section.loops] at hloops
  | .doLoop body cond, hloops, _, _, _ => by simp [Section.loops] at hloops
  | .switch id cases, _, before, result, h => by
    obtain ⟨⟨stmts, value, enum⟩, hselector, h⟩ := bind_eq_ok.1 h
    obtain ⟨others, _, h⟩ := bind_eq_ok.1 h
    cases h
    obtain ⟨as, rfl⟩ := exists_selector hselector
    have hstops : AddCalls 0 [.switch value enum others] :=
      .of_halts fun _ => rfl
    exact ⟨as.length + 0, _, List.append_assoc _ _ _,
      (AddCalls.actions as).append hstops⟩
  | .tryCatch body handlers, _, before, result, h => by
    obtain ⟨stmts, _, h⟩ := bind_eq_ok.1 h
    obtain ⟨catches, _, h⟩ := bind_eq_ok.1 h
    cases h
    exact ⟨0, _, rfl, .of_halts fun _ => rfl⟩

/-- Sections without loops give statements that add a bounded number of
calls. -/
theorem exists_bound_sections : (ss : List Section) → Section.loopsOf ss = 0 →
    ∀ {before result : List Statement},
      g.statements ctx before ss = .ok result →
      ∃ d stmts, result = before ++ stmts ∧ AddCalls d stmts
  | [], _, before, result, h => by
    cases h
    exact ⟨0, [], (List.append_nil _).symm, .nil⟩
  | s :: ss, hloops, before, result, h => by
    rw [Section.loopsOf, Nat.add_eq_zero_iff] at hloops
    obtain ⟨middle, hmiddle, h⟩ := bind_eq_ok.1 h
    obtain ⟨d, stmts, rfl, hd⟩ := exists_bound_section s hloops.1 hmiddle
    obtain ⟨e, others, rfl, he⟩ := exists_bound_sections ss hloops.2 h
    exact ⟨d + e, stmts ++ others, List.append_assoc _ _ _, hd.append he⟩

/-- What comes instead of a body adds a bounded number of calls if it has no
loops. -/
theorem exists_bound_alternative : (a : Alternative Section) →
    Section.loopsOfAlternative a = 0 → ∀ {result : Alternative Statement},
      g.alternatives ctx a = .ok result → ∃ d, AddCalls d result.statements
  | .none, _, result, h => by
    cases h
    exact ⟨0, .nil⟩
  | .orIf cond body rest, hloops, result, h => by
    rw [Section.loopsOfAlternative, Nat.add_eq_zero_iff] at hloops
    obtain ⟨stmts, hstmts, h⟩ := bind_eq_ok.1 h
    obtain ⟨others, hothers, h⟩ := bind_eq_ok.1 h
    cases h
    obtain ⟨d, stmts', hstmts', hd⟩ :=
      exists_bound_sections body hloops.1 hstmts
    obtain ⟨e, he⟩ := exists_bound_alternative rest hloops.2 hothers
    rw [List.nil_append] at hstmts'
    exact AddCalls.ifElse cond (hstmts' ▸ hd) he
  | .otherwise body, hloops, result, h => by
    obtain ⟨stmts, hstmts, h⟩ := bind_eq_ok.1 h
    cases h
    obtain ⟨d, stmts', hstmts', hd⟩ := exists_bound_sections body hloops hstmts
    rw [List.nil_append] at hstmts'
    exact ⟨d, hstmts' ▸ hd⟩

end

/-- **Endless code.**  If the sections of a method say where control goes, and
the method makes ever more calls for some answers of the tests, then a loop is
among the sections. -/
theorem loops_pos_of_endless (hcode : isCallCode ctx.method.instrs = true)
    (hranges : ctx.method.ranges = []) {built tidied : Graph}
    (hbuilt : ctx.method.graph = .ok built)
    (htidied : built.tidy ctx.method = .ok tidied) {ss : List Section}
    {w : Work} (hparts : tidied.takeApart ctx = .ok (ss, w))
    (hfaithful : tidied.faithful ctx = true) {stmts : List Statement}
    (hstmts : w.graph.statements ctx [] ss = .ok stmts)
    (hendless : ∀ n, ∃ (a : Answers) (calls : List Member),
      n < calls.length ∧ ctx.method.running 0 a calls) :
      0 < Section.loopsOf ss := by
  refine Nat.pos_of_ne_zero fun hloops => ?_
  obtain ⟨d, stmts', hstmts', hd⟩ := exists_bound_sections ss hloops hstmts
  rw [List.nil_append] at hstmts'
  subst hstmts'
  obtain ⟨a, calls, hlong, hcalls⟩ := hendless d
  have hg := tidied_of_tidy hcode hranges hbuilt htidied
  rw [← executing_eq_running hcode hranges hg hparts hfaithful hstmts] at hcalls
  have hbound :=
    hd 0 [] (by rw [executing_nil]; exact .halt 0) a calls
      (by rwa [List.append_nil])
  omega

/-- A call and a jump back to it. -/
theorem loops_pos_of_jumpBack :
    let a : Member := ⟨"C", "a", "()V"⟩
    let m : Method :=
      { instrs := [.label ⟨0⟩, .call .static a, .goto ⟨0⟩], ranges := [] }
    let ctx : Context := ⟨m, LocalTable.empty.lookup, {}⟩
    ∃ built tidied ss w stmts, m.graph = .ok built ∧ built.tidy m = .ok tidied ∧
      tidied.takeApart ctx = .ok (ss, w) ∧ tidied.faithful ctx = true ∧
      w.graph.statements ctx [] ss = .ok stmts ∧
      (∀ n, ∃ (answers : Answers) (calls : List Member),
        n < calls.length ∧ m.running 0 answers calls) ∧
        0 < Section.loopsOf ss := by
  intro a m ctx
  have hround : m.running 0 = .call a (m.running 0) := by
    have hcall : m.instr 1 = .call .static a := rfl
    have hjump : m.instr 2 = .goto ⟨0⟩ := rfl
    calc m.running 0
      _ = m.running 1 := Method.running_of_label rfl
      _ = .call a (m.running 2) := Method.running_of_call hcall rfl
      _ = .call a (m.running 0) := by rw [Method.running_of_goto hjump rfl]
  have hendless : ∀ n, ∃ (answers : Answers) (calls : List Member),
      n < calls.length ∧ m.running 0 answers calls := by
    intro n
    refine ⟨fun _ => true, List.replicate (n + 1) a, by simp, ?_⟩
    induction n + 1 with
    | zero =>
      rw [hround]
      trivial
    | succ k ih =>
      rw [hround]
      exact ⟨rfl, ih⟩
  have hrun : (do
      let built ← m.graph
      let tidied ← built.tidy m
      let parts ← tidied.takeApart ctx
      let stmts ← parts.2.graph.statements ctx [] parts.1
      return (tidied.faithful ctx, stmts.length)) =
        .ok (true, 1) := by decide +kernel
  obtain ⟨built, hbuilt, hrun⟩ := bind_eq_ok.1 hrun
  obtain ⟨tidied, htidied, hrun⟩ := bind_eq_ok.1 hrun
  obtain ⟨⟨ss, w⟩, hparts, hrun⟩ := bind_eq_ok.1 hrun
  obtain ⟨stmts, hstmts, hrun⟩ := bind_eq_ok.1 hrun
  obtain ⟨hfaithful, _⟩ := Prod.mk.inj (Except.ok.inj hrun)
  exact ⟨built, tidied, ss, w, stmts, hbuilt, htidied, hparts, hfaithful,
    hstmts, hendless, loops_pos_of_endless (by decide) rfl hbuilt htidied hparts
      hfaithful hstmts hendless⟩

end Decompiler
