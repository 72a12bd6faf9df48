import Decompiler.Proofs.Calls.Decompile
import Decompiler.Proofs.Structured.Blocks
import Decompiler.Proofs.Structured.Takes

/-!
# Structured code is decompiled

What `if` statements are compiled to is never refused, and the statements that
it becomes make the calls of the program that was compiled, whatever the tests
answer.

* `Source.Laid.resolved`: all labels of compiled code are placed.
* `exists_statements_of_compiles`: compiled code is decompiled to statements
  with the calls of the program.
-/

namespace Decompiler

variable {ctx : Context} {m : Method} {g : Graph} {s : Source} {is : List Instr}
    {p q : Nat}

/-- The labels in the code of a program are placed. -/
theorem Source.Laid.exists_labelIndex? (h : s.Laid m p q) {k : Nat} (hp : p ≤ k)
    (hq : k < q) {l : Label} (hl : l ∈ (m.instr k).destinations) :
    ∃ t, m.labelIndex? l = some t := by
  have hplain {i : Instr} (hi : m.instr k = i) (hnone : i.destinations = []) :
      False := by
    rw [hi, hnone] at hl
    cases hl
  -- the destination of a jump is the label that is placed for it
  have hjump {i : Instr} {l' : Label} {t : Nat} (hi : m.instr k = i)
      (hdest : i.destinations = [l'])
      (ht : m.labelIndex? l' = some t) : ∃ t, m.labelIndex? l = some t := by
    rw [hi, hdest] at hl
    obtain rfl := List.mem_singleton.1 hl
    exact ⟨t, ht⟩
  induction h with
  | done => omega
  | @call f rest p q code _ _ ih =>
    rcases Nat.eq_or_lt_of_le hp with rfl | hlt
    · exact (hplain code rfl).elim
    · exact ih hlt hq
  | @ifThen t body rest p e q l' code _ _ jump _ index _ ihBody ihRest =>
    obtain rfl | rfl | ⟨hlow, hhigh⟩ | rfl | hlow :
        k = p ∨ k = p + 1 ∨ (p + 2 ≤ k ∧ k < e) ∨ k = e ∨ e + 1 ≤ k := by omega
    · exact (hplain code rfl).elim
    · exact hjump jump rfl index
    · exact ihBody hlow hhigh
    · exact (hplain (Method.instr_of_labelIndex? index) rfl).elim
    · exact ihRest hlow hq
  | @ifElse t body other rest p e e' q l' stop code _ _ _ jump _ leave index _ index' _ ihBody
      ihOther ihRest =>
    obtain rfl | rfl | ⟨hlow, hhigh⟩ | rfl | rfl | ⟨hlow, hhigh⟩ | rfl | hlow :
        k = p ∨ k = p + 1 ∨ (p + 2 ≤ k ∧ k < e) ∨ k = e ∨ k = e + 1 ∨
          (e + 2 ≤ k ∧ k < e') ∨ k = e' ∨ e' + 1 ≤ k := by omega
    · exact (hplain code rfl).elim
    · exact hjump jump rfl index
    · exact ihBody hlow hhigh
    · exact hjump leave rfl index'
    · exact (hplain (Method.instr_of_labelIndex? index) rfl).elim
    · exact ihOther hlow hhigh
    · exact (hplain (Method.instr_of_labelIndex? index') rfl).elim
    · exact ihRest hlow hq

/-- Behind every label of compiled code something is done. -/
theorem Source.Laid.resolved (h : s.Laid m 0 q) (hret : m.instr q = .ret none)
    (hlen : m.length = q + 1) : m.Resolved := by
  intro k hk l hl
  rcases Nat.lt_or_ge k q with hlt | hge
  · obtain ⟨t, ht⟩ := h.exists_labelIndex? (Nat.zero_le k) hlt hl
    have hbound : t < m.length :=
      Method.lt_length_of_instr (Method.instr_of_labelIndex? ht) (by simp)
    exact ⟨t, ht, Method.EndsInReturn.acts ⟨q, hlen, hret⟩ hbound⟩
  · obtain rfl : k = q := by omega
    rw [hret] at hl
    cases hl

/-- The work on the graph of compiled code goes well. -/
theorem exists_sections_of_laid (hcode : isCallCode ctx.method.instrs = true)
    (hranges : ctx.method.ranges = []) (hg : Tidied ctx.method g)
    (h : s.Laid ctx.method 0 q) (hret : ctx.method.instr q = .ret none)
    (hlen : ctx.method.length = q + 1) :
    ∃ ss w stmts, g.takeApart ctx = .ok (ss, w) ∧ g.faithful ctx = true ∧
      w.graph.statements ctx [] ss = .ok stmts := by
  have hend : ctx.method.EndsInReturn := ⟨q, hlen, hret⟩
  have hstart : g.Starts ctx.method 0 0 := by
    have hfirst := hg.first
    split at hfirst
    · exact .of_reaches hfirst
    · exact absurd hfirst (hend.not_reaches_none (by omega))
  have hrows : HasRows ctx g ctx.method q .returns 0 :=
    hasRows_of_laid hg hend h (.inl hstart) ⟨hret, hlen⟩
  obtain ⟨l, next, hrows⟩ := hrows
  obtain ⟨rfl, hstop⟩ := hrows.ends
  have hids : List.range g.blocks.length = l.ids := by
    rw [hrows.ids, List.range_eq_range', ← hstop, Nat.zero_add]
  have hcourse : OnCourse ctx g ⟨Work.start ctx g, true⟩ :=
    ⟨sure_start hcode hranges hg, rfl⟩
  have hstands : AllStand ctx g := fun id hid => stands_of_tidied hcode hg hid
  have hasc : Ascends l.ids none := by
    rw [Ascends, Option.toList_none, List.append_nil, ← hids]
    exact List.pairwise_lt_range
  have hdepth : l.ids.length < (Work.start ctx g).depth := by
    rw [← hids, List.length_range, Work.depth]
    change g.blocks.length < (g.blocks.length + 1) * _
    exact Nat.lt_of_lt_of_le (Nat.lt_succ_self _)
      (Nat.le_mul_of_pos_right _ (Nat.succ_pos _))
  obtain ⟨ss, w, htold, hassembles, htaken⟩ :=
    takesLayouts_sections hstands _ l none _ hcourse hrows.fits hasc hdepth
  obtain ⟨stmts, hstmts⟩ := hassembles w htaken.course.sure []
  rw [← hids] at htold
  obtain ⟨hrun, hsame⟩ := Partition.run_of_told htold
  exact ⟨ss, w.toWork, stmts, hrun, hsame.trans htaken.course.faithful, hstmts⟩

/-- **Round trip.**  Compiled `if` statements are always decompiled, to
statements that make exactly the calls of the program: whatever the tests
answer, a list of calls comes first in the statements if it comes first in the
program. -/
theorem exists_statements_of_compiles (hs : s.Compiles is)
    (hinstrs : m.instrs = is ++ [.ret none]) (hranges : m.ranges = [])
    (table : LocalTable) (recover : Recoveries) :
    ∃ stmts, m.decompile table recover = .ok stmts ∧
      ∀ (answers : Answers) (calls : List Member),
      executing stmts answers calls ↔ calls <+: (s.calls answers).1 := by
  have hcode : isCallCode m.instrs = true := by
    rw [hinstrs]
    exact hs.isCallCode rfl
  have hlaid : s.Laid m 0 is.length := by
    have hdrop : m.instrs.drop 0 = is ++ [.ret none] := by
      rw [List.drop_zero, hinstrs]
    simpa using hs.laid hdrop
  have hret : m.instr is.length = .ret none := by
    simp [Method.instr, hinstrs]
  have hlen : m.length = is.length + 1 := by
    simp [Method.length, hinstrs]
  obtain ⟨built, g, hbuilt, htidy, hg⟩ :=
    exists_tidied hcode hranges (hlaid.resolved hret hlen)
  let ctx : Context := ⟨m, table.lookup, recover⟩
  obtain ⟨ss, w, stmts, hparts, hfaithful, hstmts⟩ :
      ∃ ss w stmts, g.takeApart ctx = .ok (ss, w) ∧ g.faithful ctx = true ∧
        w.graph.statements ctx [] ss = .ok stmts :=
    exists_sections_of_laid hcode hranges hg hlaid hret hlen
  refine ⟨stmts, ?_, fun answers calls => ?_⟩
  · exact bind_eq_ok.2
      ⟨built, hbuilt,
        bind_eq_ok.2
        ⟨g, htidy,
          bind_eq_ok.2 ⟨(ss, w.graph), bind_eq_ok.2 ⟨(ss, w), hparts, rfl⟩,
          hstmts⟩⟩⟩
  · rw [executing_eq_running hcode hranges hg hparts hfaithful hstmts,
      running_of_laid hlaid, Method.running_of_ret hret]
    exact startWith_nil_iff

/-- `if (t) { a; if (u) b } else if (v) c else a` and then `b`. -/
theorem exists_statements_of_nested :
    let t : Member := ⟨"C", "t", "()Z"⟩
    let u : Member := ⟨"C", "u", "()Z"⟩
    let v : Member := ⟨"C", "v", "()Z"⟩
    let a : Member := ⟨"C", "a", "()V"⟩
    let b : Member := ⟨"C", "b", "()V"⟩
    let c : Member := ⟨"C", "c", "()V"⟩
    let s : Source :=
      .ifElse t (.call a (.ifThen u (.call b .done) .done))
        (.ifElse v (.call c .done) (.call a .done) .done) (.call b .done)
    let bs : List Instr :=
      [.call .static a, .call .static u, .ifZero .eq ⟨1⟩, .call .static b,
        .label ⟨1⟩]
    let os : List Instr :=
      [.call .static v, .ifZero .eq ⟨3⟩, .call .static c, .goto ⟨4⟩, .label ⟨3⟩,
        .call .static a, .label ⟨4⟩]
    let is : List Instr :=
      .call .static t :: .ifZero .eq ⟨0⟩ ::
        (bs ++ .goto ⟨2⟩ :: .label ⟨0⟩ ::
          (os ++ .label ⟨2⟩ :: [.call .static b]))
    let m : Method := { instrs := is ++ [.ret none], ranges := [] }
    s.Compiles is ∧ m.instrs = is ++ [.ret none] ∧ m.ranges = [] ∧
      ∃ stmts, m.decompile = .ok stmts ∧
        ∀ (answers : Answers) (calls : List Member),
        executing stmts answers calls ↔ calls <+: (s.calls answers).1 := by
  intro t u v a b c s bs os is m
  have hb : Source.Compiles (.call b .done) [.call .static b] := .call rfl .done
  have hc : Source.Compiles (.call c .done) [.call .static c] := .call rfl .done
  have ha : Source.Compiles (.call a .done) [.call .static a] := .call rfl .done
  have hif : Source.Compiles (.ifThen u (.call b .done) .done)
      (.call .static u :: .ifZero .eq ⟨1⟩ ::
        ([.call .static b] ++ .label ⟨1⟩ :: [])) :=
    .ifThen rfl nofun hb .done
  have helse : Source.Compiles (.ifElse v (.call c .done) (.call a .done) .done)
      (.call .static v :: .ifZero .eq ⟨3⟩ ::
        ([.call .static c] ++ .goto ⟨4⟩ :: .label ⟨3⟩ ::
        ([.call .static a] ++ .label ⟨4⟩ :: []))) :=
    .ifElse rfl nofun nofun hc ha .done
  have hbody : Source.Compiles (.call a (.ifThen u (.call b .done) .done)) bs :=
    .call rfl hif
  have hother :
      Source.Compiles (.ifElse v (.call c .done) (.call a .done) .done) os :=
    helse
  have hs : s.Compiles is := .ifElse rfl nofun nofun hbody hother hb
  exact ⟨hs, rfl, rfl, exists_statements_of_compiles hs rfl rfl .empty {}⟩

end Decompiler
