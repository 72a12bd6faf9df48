import Decompiler.Proofs.Result
import Decompiler.Proofs.Switches.Blocks
import Decompiler.Proofs.Switches.Continues

/-!
# The statements of switch code

Sections that are left for what comes after them become statements that do what
the code does from the first block on, if what is run behind them does what the
code does there.

Only a `while` loop looks at the statements before it, to become a `for` loop.
Without loops the statements of a switch are found case by case, so the
statements that a value enters are those of the sections that it enters.

* `Graph.statements_append`: sections in a row become statements in a row.
* `Graph.cases_entered`, `Graph.statements_onward`: the cases that a value
  enters and their code, in sections and in statements.
* `Graph.Continues.executing_eq`: the statements do what the code does.
-/

namespace Decompiler

/-- Whether a section becomes a statement whatever comes before it. -/
def Section.isPlain : Section → Bool
  | .inline _ | .switch .. => true
  | _ => false

namespace Graph

variable {g : Graph} {ctx : Context} {ss ts : List Section}
    {stmts : List Statement}
  {cs : List (Case Section)} {ds : List (Case Statement)} {next : Option Nat}

/-- The statement of a plain section comes after those before it. -/
theorem statement_eq_append {s : Section} (hs : s.isPlain = true)
    (before : List Statement) :
    g.statement ctx before s = (before ++ ·) <$> g.statement ctx [] s := by
  cases s with
  | inline id =>
    unfold statement
    cases g.actions ctx id <;> rfl
  | switch id cases =>
    unfold statement
    cases g.selector ctx id with
    | error f => rfl
    | ok r =>
      change (do
        let cases ← g.cases ctx cases
        return before ++ r.1 ++ [Statement.switch r.2.1 r.2.2 cases]) =
        (before ++ ·) <$> (do
          let cases ← g.cases ctx cases
          return [] ++ r.1 ++ [Statement.switch r.2.1 r.2.2 cases])
      cases g.cases ctx cases with
      | error f => rfl
      | ok ds => exact congrArg Except.ok (List.append_assoc ..)
  | ifElse | whileLoop | doLoop | tryCatch => cases hs

/-- The statements of plain sections come after those before them. -/
theorem statements_eq_append (hss : ∀ s ∈ ss, s.isPlain = true)
    (before : List Statement) :
    g.statements ctx before ss = (before ++ ·) <$> g.statements ctx [] ss := by
  induction ss generalizing before with
  | nil => exact congrArg Except.ok (List.append_nil before).symm
  | cons s ss ih =>
    obtain ⟨hs, hss⟩ := List.forall_mem_cons.1 hss
    rw [statements, statements, statement_eq_append hs]
    cases g.statement ctx [] s with
    | error f => rfl
    | ok stmts =>
      change g.statements ctx (before ++ stmts) ss = (before ++ ·) <$>
        g.statements ctx stmts ss
      rw [ih hss, ih hss stmts]
      cases g.statements ctx [] ss with
      | error f => rfl
      | ok others => exact congrArg Except.ok (List.append_assoc ..)

/-- Sections in a row become statements in a row. -/
theorem statements_append (hts : ∀ s ∈ ts, s.isPlain = true)
    (before : List Statement) :
    g.statements ctx before (ss ++ ts) = do
      return (← g.statements ctx before ss) ++ (← g.statements ctx [] ts) := by
  induction ss generalizing before with
  | nil => exact statements_eq_append hts before
  | cons s ss ih =>
    rw [List.cons_append, statements, statements]
    cases g.statement ctx before s with
    | error f => rfl
    | ok stmts => exact ih stmts

/-- The statements of a section in front of others. -/
theorem exists_of_statements_cons {s : Section}
    (hss : ∀ t ∈ ss, t.isPlain = true)
    (h : g.statements ctx [] (s :: ss) = .ok stmts) :
    ∃ front others, g.statement ctx [] s = .ok front ∧
      g.statements ctx [] ss = .ok others ∧ stmts = front ++ others := by
  rw [statements] at h
  obtain ⟨front, hfront, h⟩ := bind_eq_ok.1 h
  rw [statements_eq_append hss] at h
  obtain ⟨others, hothers, rfl⟩ := map_eq_ok.1 h
  exact ⟨front, others, hfront, hothers, rfl⟩

/-- The case in front of others. -/
theorem exists_of_cases_cons {c : Case Section}
    (h : g.cases ctx (c :: cs) = .ok ds) :
    ∃ body others, g.statements ctx [] c.body = .ok body ∧
      g.cases ctx cs = .ok others ∧
        ds = ⟨c.keys, c.isDefault, c.breaks, body⟩ :: others := by
  obtain ⟨body, hbody, h⟩ := bind_eq_ok.1 h
  obtain ⟨others, hothers, h⟩ := bind_eq_ok.1 h
  cases h
  exact ⟨body, others, hbody, hothers, rfl⟩

/-- Skipping cases by what they list. -/
theorem cases_dropWhile (skip : List Int32 → Bool → Bool)
    (h : g.cases ctx cs = .ok ds) :
    g.cases ctx (cs.dropWhile fun c => skip c.keys c.isDefault) =
      .ok (ds.dropWhile fun c => skip c.keys c.isDefault) := by
  induction cs generalizing ds with
  | nil =>
    cases h
    rfl
  | cons c cs ih =>
    obtain ⟨body, others, hbody, hothers, rfl⟩ := exists_of_cases_cons h
    rw [List.dropWhile_cons, List.dropWhile_cons]
    split
    · exact ih hothers
    · exact h

/-- A value enters the statements of the cases that it enters. -/
theorem cases_entered (value : Int32) (h : g.cases ctx cs = .ok ds) :
    g.cases ctx (Case.entered value cs) = .ok (Case.entered value ds) := by
  have hlisting := cases_dropWhile (fun keys _ => !keys.contains value) h
  unfold Case.entered
  split
  · rename_i hnone
    rw [hnone] at hlisting
    rw [← Except.ok.inj hlisting]
    exact cases_dropWhile (fun _ isDefault => !isDefault) h
  · rename_i c cs' hsome
    rw [hsome] at hlisting
    obtain ⟨body, others, _, _, hds⟩ := exists_of_cases_cons hlisting
    rw [hds] at hlisting ⊢
    exact hlisting

/-- The statements that are run from the first of some cases on. -/
theorem statements_onward (hplain : ∀ s ∈ Case.onward cs, s.isPlain = true)
    (h : g.cases ctx cs = .ok ds) :
    g.statements ctx [] (Case.onward cs) = .ok (Case.onward ds) := by
  induction cs generalizing ds with
  | nil =>
    cases h
    rfl
  | cons c cs ih =>
    obtain ⟨body, others, hbody, hothers, rfl⟩ := exists_of_cases_cons h
    rw [Case.onward] at hplain ⊢
    rw [statements_append fun s hs => hplain s (List.mem_append_right _ hs),
      hbody]
    cases hbreaks : c.breaks with
    | true => rfl
    | false =>
      have hlater := ih (fun s hs => hplain s
        (List.mem_append_right _ (by rw [hbreaks]; exact hs))) hothers
      change (do return body ++ (← g.statements ctx [] (Case.onward cs))) = _
      rw [hlater]
      rfl

namespace Continues

/-- Sections that are left for what comes after them are plain. -/
theorem isPlain (h : g.Continues next ss) : ∀ s ∈ ss, s.isPlain = true := by
  induction h with
  | nil => simp
  | inline _ _ _ ih => exact List.forall_mem_cons.2 ⟨rfl, ih⟩
  | switch _ _ _ _ _ _ ih => exact List.forall_mem_cons.2 ⟨rfl, ih⟩

/-- **Statements of switch code.**  Sections that are left for what comes after
them become statements that do what the code does from their first block on. -/
theorem executing_eq (h : g.Continues next ss) (values : Values)
    (hg : g.Placed ctx.method) (hslots : ctx.KeepsSlots)
    (hstmts : g.statements ctx [] ss = .ok stmts) {rest : List Statement}
    (hrest : values.executing rest = g.selecting ctx.method values next) :
    values.executing (stmts ++ rest) =
      g.selecting ctx.method values ((Section.first? ss).or next) := by
  induction h generalizing stmts rest with
  | nil =>
    cases hstmts
    exact hrest
  | inline lt goes later ih =>
    obtain ⟨front, others, hfront, hothers, rfl⟩ :=
      exists_of_statements_cons later.isPlain hstmts
    obtain ⟨actions, hactions, hfront⟩ := bind_eq_ok.1 hfront
    cases hfront
    rw [List.nil_append, List.append_assoc]
    exact hg.executing_of_goesOn lt hactions goes (ih hothers hrest)
  | @switch next id cases ss lt heads enters runs later ihRuns ih =>
    obtain ⟨front, others, hfront, hothers, rfl⟩ :=
      exists_of_statements_cons later.isPlain hstmts
    obtain ⟨⟨before, e, enum⟩, hselector, hfront⟩ := bind_eq_ok.1 hfront
    obtain ⟨ds, hds, hfront⟩ := bind_eq_ok.1 hfront
    cases hfront
    obtain ⟨fs, v, rfl, rfl, rfl, hsends⟩ :=
      hg.exists_of_selector hslots lt heads hselector
    obtain ⟨t, hnext, hfirst⟩ := enters (values v.slot)
    have hbehind := ih hothers hrest
    -- what the value enters does what is to be found where the switch sends it
    have hentered := ihRuns (values v.slot)
      (statements_onward (runs _).isPlain (cases_entered _ hds)) hbehind
    have hplace : g.selecting ctx.method values
        ((Section.first? (Case.onward (Case.entered (values v.slot) cases))).or
          ((Section.first? ss).or next)) = g.selecting ctx.method values
          (some t) := by
      rcases hfirst with hfirst | ⟨hnothing, hmeets⟩
      · rw [hfirst]
        rfl
      · rw [hnothing]
        exact (hg.selecting_eq_of_meets values hmeets).symm
    rw [List.nil_append, List.append_assoc, List.append_assoc,
      Values.executing_calls]
    change _ = g.selecting ctx.method values (some id)
    rw [hsends values t hnext, ← hplace, ← hentered]
    exact congrArg _ Values.executing_switch

end Continues

end Graph

end Decompiler
