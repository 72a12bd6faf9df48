import Decompiler.Proofs.Graph.Cut

/-!
# Structured sources

Programs of calls and `if` statements, and the code that they are compiled to:
a test with a jump past the body, and behind a body that has an alternative a
jump past that one.  Every jump has a label of its own.

* `Source.calls`: the calls that a program makes.
* `Source.Compiles`: the code of a program, and `Source.Laid`, the same told by
  the places of the instructions in a method.
* `running_of_laid`: compiled code makes the calls of the program.
-/

namespace Decompiler

/-- A program: calls and `if` statements in sequence. -/
inductive Source
  | done
  | call (f : Member) (rest : Source)
  | ifThen (t : Member) (body rest : Source)
  | ifElse (t : Member) (body other rest : Source)

namespace Source

/-- The calls that a program makes, and the answers that it leaves. -/
def calls : Source → Answers → List Member × Answers
  | done, a => ([], a)
  | call f rest, a => (f :: (rest.calls a).1, (rest.calls a).2)
  | ifThen t body rest, a =>
    let inside := if a 0 then body.calls a.tail else ([], a.tail)
    (t :: (inside.1 ++ (rest.calls inside.2).1), (rest.calls inside.2).2)
  | ifElse t body other rest, a =>
    let inside := if a 0 then body.calls a.tail else other.calls a.tail
    (t :: (inside.1 ++ (rest.calls inside.2).1), (rest.calls inside.2).2)

/-- Programs of calls that return nothing and tests that answer, with bodies
that are not empty. -/
def WellFormed : Source → Prop
  | done => True
  | call f rest => f.descriptor = "()V" ∧ rest.WellFormed
  | ifThen t body rest =>
    t.descriptor = "()Z" ∧ body ≠ done ∧ body.WellFormed ∧ rest.WellFormed
  | ifElse t body other rest =>
    t.descriptor = "()Z" ∧ body ≠ done ∧ other ≠ done ∧ body.WellFormed ∧
      other.WellFormed ∧ rest.WellFormed

/-- The standard code of a program.  Bodies are not empty; which labels are
used is left open. -/
inductive Compiles : Source → List Instr → Prop
  | done : Compiles done []
  | call {f : Member} {rest : Source} {is : List Instr}
      (returns : f.descriptor = "()V")
      (restCode : Compiles rest is) :
      Compiles (call f rest) (.call .static f :: is)
  | ifThen {t : Member} {body rest : Source} {bs is : List Instr} {l : Label}
      (answers : t.descriptor = "()Z") (nonempty : body ≠ .done)
      (bodyCode : Compiles body bs) (restCode : Compiles rest is) :
      Compiles (ifThen t body rest)
        (.call .static t :: .ifZero .eq l :: (bs ++ .label l :: is))
  | ifElse {t : Member} {body other rest : Source} {bs os is : List Instr}
      {l stop : Label}
      (answers : t.descriptor = "()Z") (nonempty : body ≠ .done)
      (nonempty' : other ≠ .done)
      (bodyCode : Compiles body bs) (otherCode : Compiles other os)
      (restCode : Compiles rest is) :
      Compiles (ifElse t body other rest)
        (.call .static t :: .ifZero .eq l ::
          (bs ++ .goto stop :: .label l :: (os ++ .label stop :: is)))

/-- The code of a program in a method, from one instruction up to another. -/
inductive Laid (m : Method) : Source → (start stop : Nat) → Prop
  | done {p : Nat} : Laid m done p p
  | call {f : Member} {rest : Source} {p q : Nat}
      (code : m.instr p = .call .static f)
      (returns : f.descriptor = "()V") (restLaid : Laid m rest (p + 1) q) :
      Laid m (call f rest) p q
  | ifThen {t : Member} {body rest : Source} {p k q : Nat} {l : Label}
      (code : m.instr p = .call .static t) (answers : t.descriptor = "()Z")
      (nonempty : body ≠ .done) (jump : m.instr (p + 1) = .ifZero .eq l)
      (bodyLaid : Laid m body (p + 2) k) (index : m.labelIndex? l = some k)
      (restLaid : Laid m rest (k + 1) q) : Laid m (ifThen t body rest) p q
  | ifElse {t : Member} {body other rest : Source} {p k e q : Nat}
      {l stop : Label}
      (code : m.instr p = .call .static t) (answers : t.descriptor = "()Z")
      (nonempty : body ≠ .done) (nonempty' : other ≠ .done)
      (jump : m.instr (p + 1) = .ifZero .eq l)
      (bodyLaid : Laid m body (p + 2) k)
      (leave : m.instr k = .goto stop) (index : m.labelIndex? l = some (k + 1))
      (otherLaid : Laid m other (k + 2) e)
      (index' : m.labelIndex? stop = some e)
      (restLaid : Laid m rest (e + 1) q) : Laid m (ifElse t body other rest) p q

end Source

variable {m : Method} {s : Source} {is : List Instr}

/-- A call that returns nothing may stand before any call code. -/
theorem isCallCode_call {f : Member} (hf : f.descriptor = "()V")
    (h : isCallCode is = true) : isCallCode (.call .static f :: is) = true := by
  rw [isCallCode]
  · simp [hf, h]
  · rintro op l rest rfl
    cases h

/-- The code of a program is call code. -/
theorem Source.Compiles.isCallCode (h : s.Compiles is) {rest : List Instr}
    (hrest : isCallCode rest = true) : isCallCode (is ++ rest) = true := by
  induction h generalizing rest with
  | done => exact hrest
  | call returns _ ih => exact isCallCode_call returns (ih hrest)
  | @ifThen t body s bs is l answers nonempty _ _ ihBody ihRest =>
    have hbody := @ihBody (.label l :: (is ++ rest)) (ihRest hrest)
    simpa [Decompiler.isCallCode, answers] using hbody
  | @ifElse t body other s bs os is l stop answers _ _ _ _ _ ihBody ihOther
      ihRest =>
    have hother := @ihOther (.label stop :: (is ++ rest)) (ihRest hrest)
    have hbody :=
      @ihBody (.goto stop :: .label l :: (os ++ .label stop :: (is ++ rest)))
        hother
    simpa [Decompiler.isCallCode, answers] using hbody

/-- What stands in the code of a method from an instruction on. -/
theorem Method.split_drop {p : Nat} {xs ys : List Instr}
    (h : m.instrs.drop p = xs ++ ys) : m.instrs.drop (p + xs.length) = ys := by
  rw [← List.drop_drop, h, List.drop_left]

/-- A label stands where it is found. -/
theorem Method.instr_of_labelIndex? {l : Label} {i : Nat}
    (h : m.labelIndex? l = some i) : m.instr i = .label l := by
  have hlabel := label?_instr_of_labelIndex? h
  cases hi : m.instr i <;> rw [hi] at hlabel <;> cases hlabel
  rfl

/-- Labels in ascending order from a number up to another. -/
structure FreshLabels (start stop : Nat) (ls : List Label) : Prop where
  le : start ≤ stop
  ascends : ls.Pairwise fun l l' => l.number < l'.number
  bounds : ∀ l ∈ ls, start ≤ l.number ∧ l.number < stop

namespace FreshLabels

theorem nil (n : Nat) : FreshLabels n n [] :=
  ⟨Nat.le_refl n, List.Pairwise.nil, by simp⟩

theorem cons {start stop : Nat} {ls : List Label}
    (h : FreshLabels (start + 1) stop ls) :
    FreshLabels start stop (⟨start⟩ :: ls) := by
  refine ⟨Nat.le_of_succ_le h.le,
    List.pairwise_cons.2 ⟨fun l hl => (h.bounds l hl).1, h.ascends⟩,
    List.forall_mem_cons.2 ⟨⟨Nat.le_refl start, h.le⟩, fun l hl => ?_⟩⟩
  have hbounds := h.bounds l hl
  omega

theorem append {start middle stop : Nat} {ls ls' : List Label}
    (h : FreshLabels start middle ls) (h' : FreshLabels middle stop ls') :
    FreshLabels start stop (ls ++ ls') := by
  refine ⟨Nat.le_trans h.le h'.le,
    List.pairwise_append.2 ⟨h.ascends, h'.ascends,
    fun l hl l' hl' => ?_⟩, fun l hl => ?_⟩
  · exact Nat.lt_of_lt_of_le (h.bounds l hl).2 (h'.bounds l' hl').1
  · have := h.le
    have := h'.le
    rcases List.mem_append.1 hl with hl | hl
    · have hbounds := h.bounds l hl
      omega
    · have hbounds := h'.bounds l hl
      omega

theorem nodup {start stop : Nat} {ls : List Label}
    (h : FreshLabels start stop ls) : ls.Nodup :=
  h.ascends.imp fun {l l'} hlt heq => by
    rw [heq] at hlt
    exact Nat.lt_irrefl _ hlt

end FreshLabels

/-- Every program has code with labels of its own. -/
theorem Source.exists_compiles (h : s.WellFormed) (start : Nat) :
    ∃ is stop, s.Compiles is ∧
      FreshLabels start stop (is.filterMap Instr.label?) := by
  induction s generalizing start with
  | done => exact ⟨[], start, .done, .nil start⟩
  | call f rest ih =>
    obtain ⟨returns, hrest⟩ := h
    obtain ⟨is, stop, hcode, hfresh⟩ := ih hrest start
    exact ⟨_, stop, .call returns hcode, hfresh⟩
  | ifThen t body rest ihBody ihRest =>
    obtain ⟨answers, nonempty, hbody, hrest⟩ := h
    obtain ⟨bs, l, hbodyCode, hbodyFresh⟩ := ihBody hbody start
    obtain ⟨is, stop, hrestCode, hrestFresh⟩ := ihRest hrest (l + 1)
    have hcode : Compiles (ifThen t body rest)
        (.call .static t :: .ifZero .eq ⟨l⟩ :: (bs ++ .label ⟨l⟩ :: is)) :=
      .ifThen answers nonempty hbodyCode hrestCode
    refine ⟨_, stop, hcode, ?_⟩
    simpa [Instr.label?, List.filterMap_cons]
      using hbodyFresh.append hrestFresh.cons
  | ifElse t body other rest ihBody ihOther ihRest =>
    obtain ⟨answers, nonempty, nonempty', hbody, hother, hrest⟩ := h
    obtain ⟨bs, l, hbodyCode, hbodyFresh⟩ := ihBody hbody start
    obtain ⟨os, e, hotherCode, hotherFresh⟩ := ihOther hother (l + 1)
    obtain ⟨is, stop, hrestCode, hrestFresh⟩ := ihRest hrest (e + 1)
    have hcode : Compiles (ifElse t body other rest)
        (.call .static t :: .ifZero .eq ⟨l⟩ ::
          (bs ++ .goto ⟨e⟩ :: .label ⟨l⟩ :: (os ++ .label ⟨e⟩ :: is))) :=
      .ifElse answers nonempty nonempty' hbodyCode hotherCode hrestCode
    refine ⟨_, stop, hcode, ?_⟩
    have hfresh := hbodyFresh.append (hotherFresh.append hrestFresh.cons).cons
    simpa [Instr.label?, List.filterMap_cons] using hfresh

/-- Every program is the code of a method that it returns from. -/
theorem Source.exists_method (h : s.WellFormed) :
    ∃ (m : Method) (is : List Instr), s.Compiles is ∧ m.instrs = is ++
      [.ret none] ∧ m.ranges = [] := by
  obtain ⟨is, _, hcode, hfresh⟩ := exists_compiles h 0
  have hnodup : ((is ++ [Instr.ret none]).filterMap Instr.label?).Nodup := by
    simpa [Instr.label?, List.filterMap_cons] using hfresh.nodup
  exact ⟨⟨is ++ [.ret none], [], hnodup⟩, is, hcode, rfl, rfl⟩

/-- The code of a program in a method. -/
theorem Source.Compiles.laid (h : s.Compiles is) {p : Nat} {rest : List Instr}
    (hcode : m.instrs.drop p = is ++ rest) : s.Laid m p (p + is.length) := by
  induction h generalizing p rest with
  | done => exact .done
  | @call f s is returns _ ih =>
    obtain ⟨hcall, hrest⟩ := Method.instr_of_drop hcode
    have hlen : p + (Instr.call .static f :: is).length = p + 1 +
        is.length := by
      rw [List.length_cons]
      omega
    rw [hlen]
    exact .call hcall returns (ih hrest)
  | @ifThen t body s bs is l answers nonempty _ _ ihBody ihRest =>
    simp only [List.cons_append, List.append_assoc] at hcode
    obtain ⟨hcall, hcode⟩ := Method.instr_of_drop hcode
    obtain ⟨hjump, hcode⟩ := Method.instr_of_drop hcode
    obtain ⟨hlabel, hrest⟩ := Method.instr_of_drop (Method.split_drop hcode)
    have hlen :
        p + (Instr.call .static t :: .ifZero .eq l :: (bs ++ .label l :: is)).length =
        p + 2 + bs.length + 1 + is.length := by
      simp only [List.length_cons, List.length_append]
      omega
    rw [hlen]
    exact .ifThen hcall answers nonempty hjump (ihBody hcode)
      (Method.labelIndex?_of_label? (by rw [hlabel]; rfl)) (ihRest hrest)
  | @ifElse t body other s bs os is l stop answers nonempty nonempty' _ _ _
      ihBody ihOther ihRest =>
    simp only [List.cons_append, List.append_assoc] at hcode
    obtain ⟨hcall, hcode⟩ := Method.instr_of_drop hcode
    obtain ⟨hjump, hcode⟩ := Method.instr_of_drop hcode
    obtain ⟨hleave, hothers⟩ := Method.instr_of_drop (Method.split_drop hcode)
    obtain ⟨hlabel, hothers⟩ := Method.instr_of_drop hothers
    obtain ⟨hstop, hrest⟩ := Method.instr_of_drop (Method.split_drop hothers)
    have hlen : p + (Instr.call .static t :: .ifZero .eq l ::
        (bs ++ .goto stop :: .label l :: (os ++ .label stop :: is))).length =
        p + 2 + bs.length + 2 + os.length + 1 + is.length := by
      simp only [List.length_cons, List.length_append]
      omega
    rw [hlen]
    exact .ifElse hcall answers nonempty nonempty' hjump (ihBody hcode) hleave
      (Method.labelIndex?_of_label? (by rw [hlabel]; rfl)) (ihOther hothers)
      (Method.labelIndex?_of_label? (by rw [hstop]; rfl)) (ihRest hrest)

/-! ### Execution -/

/-- The lists that start with given calls and go on as told, and those that
stop before. -/
def startWith : List Member → (List Member → Prop) → List Member → Prop
  | [], more, calls => more calls
  | _ :: _, _, [] => True
  | f :: fs, more, g :: calls => g = f ∧ startWith fs more calls

theorem startWith_append (fs gs : List Member) (more : List Member → Prop)
    (calls : List Member) :
    startWith (fs ++ gs) more calls ↔
      startWith fs (startWith gs more) calls := by
  induction fs generalizing calls with
  | nil => exact Iff.rfl
  | cons f fs ih =>
    cases calls with
    | nil => exact Iff.rfl
    | cons g calls => exact and_congr_right fun _ => ih calls

theorem startWith_congr {fs : List Member} {more more' : List Member → Prop}
    (h : ∀ calls, more calls ↔ more' calls) (calls : List Member) :
    startWith fs more calls ↔ startWith fs more' calls := by
  rw [show more = more' from funext fun calls => propext (h calls)]

theorem startWith_nil_iff {fs calls : List Member} :
    startWith fs (· = []) calls ↔ calls <+: fs := by
  induction fs generalizing calls with
  | nil => exact List.prefix_nil.symm
  | cons f fs ih =>
    cases calls with
    | nil => simp [startWith]
    | cons g calls => rw [startWith, ih, List.cons_prefix_cons]

/-- **Compiled code.**  The code of a program makes the calls of the program
and then whatever the code behind it does with the answers that are left. -/
theorem running_of_laid {p q : Nat} (h : s.Laid m p q) (a : Answers)
    (calls : List Member) :
    m.running p a calls ↔
      startWith (s.calls a).1 (m.running q (s.calls a).2) calls := by
  induction h generalizing a calls with
  | done => exact Iff.rfl
  | call code returns _ ih =>
    rw [Method.running_of_call code returns]
    cases calls with
    | nil => exact Iff.rfl
    | cons g calls => exact and_congr_right fun _ => ih a calls
  | @ifThen t body s p k q l code answers _ jump _ index _ ihBody ihRest =>
    have hlabel := Method.running_of_label (Method.instr_of_labelIndex? index)
    rw [Method.running_of_test code answers jump index]
    cases calls with
    | nil => exact Iff.rfl
    | cons g calls =>
      refine and_congr_right fun _ => ?_
      cases ha : a 0 with
      | true =>
        simp only [Source.calls, ha, Comparison.ofAnswer, Bool.not_true,
          Bool.false_eq_true, if_false, if_true]
        rw [ihBody, startWith_append]
        exact startWith_congr (fun calls => by rw [hlabel, ihRest]) calls
      | false =>
        simp only [Source.calls, ha, Comparison.ofAnswer, Bool.not_false,
          if_true, Bool.false_eq_true, if_false, List.nil_append]
        rw [hlabel, ihRest]
  | @ifElse t body other s p k e q l stop code answers _ _ jump _ leave index _ index' _ ihBody
      ihOther ihRest =>
    have hlabel := Method.running_of_label (Method.instr_of_labelIndex? index)
    have hstop := Method.running_of_label (Method.instr_of_labelIndex? index')
    have hleave := Method.running_of_goto leave index'
    rw [Method.running_of_test code answers jump index]
    cases calls with
    | nil => exact Iff.rfl
    | cons g calls =>
      refine and_congr_right fun _ => ?_
      cases ha : a 0 with
      | true =>
        simp only [Source.calls, ha, Comparison.ofAnswer, Bool.not_true,
          Bool.false_eq_true, if_false, if_true]
        rw [ihBody, startWith_append]
        exact startWith_congr (fun calls => by rw [hleave, hstop, ihRest]) calls
      | false =>
        simp only [Source.calls, ha, Comparison.ofAnswer, Bool.not_false,
          if_true, Bool.false_eq_true, if_false]
        rw [hlabel, ihOther, startWith_append]
        exact startWith_congr (fun calls => by rw [hstop, ihRest]) calls

end Decompiler
