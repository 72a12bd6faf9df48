import Decompiler.Proofs.Graph.Idempotent
import Decompiler.Proofs.Likeness.Mirrors
import Decompiler.Proofs.Simulation.Depth

/-!
# Operands that are told apart

A block that ends in a jump is split where the operands of the jump start.  The
place is found by walking back from the jump with the effects that instructions
declare, and it is right if the instructions from there on leave the operands
and nothing else.

The walk counts two narrow values wherever an instruction copies two slots, and
a result wherever a descriptor has one.  `Instr.FallsShort` is where the
simulation leaves fewer values: two slots that hold one wide value, and a
constructor that is called for a result.  The main theorem says that this is all
that can go wrong.

* `exists_depthAfter_of_operandsFrom?`: what the walk comes past.
* `length_run_le`: a run never leaves more values than its effects declare.
* `exists_run`: nor does it leave fewer, if no instruction falls short.
* `Block.simulate_operands_iff`: the operands are left exactly if no instruction
  falls short.
-/

namespace Decompiler

variable {ctx : Context} {m : Method}

/-! ## Instructions that leave fewer values than declared -/

/-- Whether an instruction gains fewer values on a stack than its effect
declares: it copies two slots that hold one wide value, or completes an object
although its descriptor has a result. -/
def Instr.FallsShort (s : Stack) : Instr → Prop
  | dup2 | dup2X1 | dup2X2 => s.wideAt 0 = true
  | call how method =>
    ∃ signature, Signature.ofDescriptor method.descriptor = .ok signature ∧
      s.completes how method signature.parameters.length = true ∧
      signature.isVoid = false
  | _ => False

/-- Whether an instruction does nothing or leaves something. -/
def Instr.Yields (i : Instr) : Prop :=
  i.isMarker = true ∨ ∃ e, i.effect = .ok e ∧ e.pushes ≠ 0

/-- What leaves something works on values. -/
theorem Instr.isData_of_pushes {i : Instr} {e : Effect} (he : i.effect = .ok e)
    (hpushes : e.pushes ≠ 0) : i.IsData := by
  cases i with
  | ifZero | ifInts | ifReferences | ifNull | ifNonNull | goto | tableSwitch
  | lookupSwitch
  | monitorEnter | monitorExit =>
    cases he
    exact absurd rfl hpushes
  | _ => exact ⟨by simp [control], by simp⟩

/-- An instruction gains as many values as it declares, or falls short. -/
theorem Instr.exists_effectOn {i : Instr} {e : Effect} (he : i.effect = .ok e)
    (hpushes : e.pushes ≠ 0) (s : Stack) :
    ∃ a, i.effectOn s = .ok a ∧
      (i.FallsShort s → a.pushes + e.pops < e.pushes + a.pops) ∧
      (¬i.FallsShort s →
        a.pops ≤ e.pops ∧ a.pushes + e.pops = e.pushes + a.pops ∧
          a.pushes ≠ 0) := by
  cases i with
  | pop2 =>
    cases he
    exact absurd rfl hpushes
  | dupX2 =>
    cases he
    refine ⟨_, rfl, False.elim, fun _ => ?_⟩
    split <;> simp
  | dup2 | dup2X1 =>
    cases he
    refine ⟨_, rfl, fun hwide => ?_, fun hwide => ?_⟩
    · simp [if_pos (show s.wideAt 0 = true from hwide)]
    · simp [if_neg (show ¬s.wideAt 0 = true from hwide)]
  | dup2X2 =>
    cases he
    refine ⟨_, rfl, fun hwide => ?_, fun hwide => ?_⟩
    · rw [if_pos (show s.wideAt 0 = true from hwide)]
      split <;> simp
    · rw [if_neg (show ¬s.wideAt 0 = true from hwide)]
      split <;> simp
  | call how method =>
    obtain ⟨signature, hsignature⟩ : ∃ signature,
        Signature.ofDescriptor method.descriptor = .ok signature := by
      cases how <;> exact (map_eq_ok.1 he).imp fun _ h => h.1
    have hvoid : signature.isVoid = false := by
      rw [effect_call hsignature] at he
      cases he
      exact eq_false_of_ne_true fun hvoid => hpushes (if_pos hvoid)
    refine ⟨if s.completes how method signature.parameters.length = true
      then { e with pushes := 0 } else e, ?_, ?_, fun hshort => ?_⟩
    · rw [effectOn, hsignature, he]
      rfl
    · rintro ⟨signature', hsignature', hcompletes, -⟩
      obtain rfl : signature = signature' :=
        Except.ok.inj (hsignature.symm.trans hsignature')
      rw [if_pos hcompletes]
      simp only
      omega
    · rw [if_neg fun hcompletes => hshort ⟨signature, hsignature,
        hcompletes, hvoid⟩]
      exact ⟨Nat.le_refl _, rfl, hpushes⟩
  | _ => exact ⟨e, he, False.elim, fun _ => ⟨Nat.le_refl _, rfl, hpushes⟩⟩

theorem Instr.not_fallsShort_of_isMarker {i : Instr} (h : i.isMarker = true)
    (s : Stack) : ¬i.FallsShort s := by
  cases i <;> first | exact id | cases h

theorem Instr.effect_of_isMarker {i : Instr} (h : i.isMarker = true) :
    i.effect = .ok ⟨0, 0⟩ := by
  cases i <;> first | rfl | cases h

/-- One instruction gains at most what it declares, and less if it falls
short. -/
theorem length_step_le {i : Instr} {e : Effect} {index : Nat} {s t : Stack}
    {actions : List Action} (hi : i.Yields) (he : i.effect = .ok e)
    (hstep : ctx.step index i s = .ok (t, actions)) :
    t.length + e.pops ≤ s.length + e.pushes ∧
      (i.FallsShort s → t.length + e.pops < s.length + e.pushes) := by
  rcases hi with hmarker | ⟨e', he', hpushes⟩
  · rw [Instr.effect_of_isMarker hmarker] at he
    rw [Context.step_of_isMarker ctx index hmarker] at hstep
    cases he
    cases hstep
    exact ⟨Nat.le_refl _, fun h =>
      absurd h (Instr.not_fallsShort_of_isMarker hmarker s)⟩
  · obtain rfl : e = e' := Except.ok.inj (he.symm.trans he')
    obtain ⟨a, ha, hshort, hexact⟩ := Instr.exists_effectOn he hpushes s
    have hcounts : Counts index s.length a.pops a.pushes (ctx.step index i s) :=
      counts_step (Instr.isData_of_pushes he hpushes) ha
    rw [hstep] at hcounts
    obtain ⟨hle, hlength, -⟩ := hcounts
    by_cases h : i.FallsShort s
    · have hlt := hshort h
      exact ⟨by omega, fun _ => by omega⟩
    · have heq := (hexact h).2.1
      exact ⟨by omega, fun h' => absurd h' h⟩

/-- One instruction that does not fall short gains what it declares. -/
theorem exists_step {i : Instr} {e : Effect} (index : Nat) {s : Stack}
    (hi : i.Yields) (he : i.effect = .ok e) (hshort : ¬i.FallsShort s)
    (hle : e.pops ≤ s.length) :
    ∃ t, ctx.step index i s = .ok (t, []) ∧
      t.length = s.length - e.pops + e.pushes := by
  rcases hi with hmarker | ⟨e', he', hpushes⟩
  · rw [Instr.effect_of_isMarker hmarker] at he
    cases he
    exact ⟨s, Context.step_of_isMarker ctx index hmarker s, rfl⟩
  · obtain rfl : e = e' := Except.ok.inj (he.symm.trans he')
    obtain ⟨a, ha, -, hexact⟩ := Instr.exists_effectOn he hpushes s
    obtain ⟨hpops, heq, hnonzero⟩ := hexact hshort
    have hcounts : Counts index s.length a.pops a.pushes (ctx.step index i s) :=
      counts_step (Instr.isData_of_pushes he hpushes) ha
    cases hstep : ctx.step index i s with
    | error f =>
      rw [hstep] at hcounts
      have hlt := hcounts.1
      omega
    | ok r =>
      obtain ⟨t, actions⟩ := r
      rw [hstep] at hcounts
      obtain ⟨-, hlength, hnone⟩ := hcounts
      rw [hnone hnonzero]
      exact ⟨t, rfl, by omega⟩

/-! ## Runs of such instructions -/

theorem Instr.depthAfter_append (xs ys : List (Nat × Instr)) (depth : Nat) :
    depthAfter (xs ++ ys) depth = depthAfter xs depth >>= depthAfter ys := by
  induction xs generalizing depth with
  | nil => rfl
  | cons x xs ih =>
    rw [List.cons_append, depthAfter, depthAfter]
    cases x.2.effect with
    | error f => rfl
    | ok e =>
      show (if depth < e.pops then _ else _) =
        (if depth < e.pops then _ else _) >>= _
      split
      · rfl
      · exact ih _

/-- What an instruction of such a run does to the declared depth. -/
theorem Instr.depthAfter_cons {x : Nat × Instr} {xs : List (Nat × Instr)}
    {depth last : Nat} (h : depthAfter (x :: xs) depth = .ok last) :
    ∃ e, x.2.effect = .ok e ∧ e.pops ≤ depth ∧
      depthAfter xs (depth - e.pops + e.pushes) = .ok last := by
  obtain ⟨e, he, h⟩ := bind_eq_ok.1 h
  split at h
  · cases h
  · exact ⟨e, he, by omega, h⟩

theorem Context.exists_of_run_append {xs ys : List (Nat × Instr)} {s t : Stack}
    {actions : List Action} (h : ctx.run (xs ++ ys) s = .ok (t, actions)) :
    ∃ u first others, ctx.run xs s = .ok (u, first) ∧
      ctx.run ys u = .ok (t, others) := by
  rw [Context.run_append] at h
  obtain ⟨⟨u, first⟩, hxs, h⟩ := bind_eq_ok.1 h
  obtain ⟨⟨v, others⟩, hys, h⟩ := bind_eq_ok.1 h
  cases h
  exact ⟨u, first, others, hxs, hys⟩

/-- A run never gains more than its effects declare. -/
theorem length_run_le {xs : List (Nat × Instr)} {s t : Stack}
    {actions : List Action} {depth last : Nat} (hxs : ∀ x ∈ xs, x.2.Yields)
    (h : Instr.depthAfter xs depth = .ok last)
    (hrun : ctx.run xs s = .ok (t, actions)) :
    t.length + depth ≤ s.length + last := by
  induction xs generalizing s depth actions with
  | nil =>
    cases h
    cases hrun
    exact Nat.le_refl _
  | cons x xs ih =>
    obtain ⟨hx, hxs⟩ := List.forall_mem_cons.1 hxs
    obtain ⟨e, he, hpops, h⟩ := Instr.depthAfter_cons h
    obtain ⟨⟨s₁, first⟩, hstep, hrun⟩ := bind_eq_ok.1 hrun
    obtain ⟨⟨s₂, others⟩, hothers, hrun⟩ := bind_eq_ok.1 hrun
    cases hrun
    have hrest := ih hxs h hothers
    have hfirst := (length_step_le hx he hstep).1
    omega

/-- The instruction that a run comes to falls short. -/
def Context.ShortAt (ctx : Context) (xs : List (Nat × Instr)) (s : Stack) :
    Prop :=
  ∃ before index i after t actions, xs = before ++ (index, i) :: after ∧
    ctx.run before s = .ok (t, actions) ∧ i.FallsShort t

/-- A run in which an instruction falls short gains less than declared. -/
theorem length_run_lt {xs : List (Nat × Instr)} {s t : Stack}
    {actions : List Action} {depth last : Nat} (hxs : ∀ x ∈ xs, x.2.Yields)
    (h : Instr.depthAfter xs depth = .ok last) (hshort : ctx.ShortAt xs s)
    (hrun : ctx.run xs s = .ok (t, actions)) :
    t.length + depth < s.length + last := by
  obtain ⟨before, index, i, after, u, others, rfl, hbefore, hfalls⟩ := hshort
  obtain ⟨hxs, hi, hafter⟩ : (∀ x ∈ before, x.2.Yields) ∧ i.Yields ∧
      ∀ x ∈ after, x.2.Yields := by
    simpa [or_imp, forall_and] using hxs
  rw [Instr.depthAfter_append] at h
  obtain ⟨middle, hmiddle, h⟩ := bind_eq_ok.1 h
  obtain ⟨e, he, hpops, h⟩ := Instr.depthAfter_cons h
  obtain ⟨u', others', rest, hbefore', hrun⟩ :=
    Context.exists_of_run_append hrun
  obtain ⟨rfl, rfl⟩ := Prod.mk.inj (Except.ok.inj (hbefore.symm.trans hbefore'))
  obtain ⟨⟨v, first⟩, hstep, hrun⟩ := bind_eq_ok.1 hrun
  obtain ⟨⟨t', others'⟩, hafterwards, hrun⟩ := bind_eq_ok.1 hrun
  cases hrun
  have hfirst := length_run_le hxs hmiddle hbefore
  have hlt := (length_step_le hi he hstep).2 hfalls
  have hlast := length_run_le hafter h hafterwards
  omega

/-- A run in which no instruction falls short gains what is declared, and does
nothing else. -/
theorem exists_run {xs : List (Nat × Instr)} {s : Stack} {last : Nat}
    (hxs : ∀ x ∈ xs, x.2.Yields) (h : Instr.depthAfter xs s.length = .ok last)
    (hshort : ¬ctx.ShortAt xs s) : ∃ t, ctx.run xs s = .ok (t, []) ∧
      t.length = last := by
  induction xs generalizing s with
  | nil =>
    cases h
    exact ⟨s, rfl, rfl⟩
  | cons x xs ih =>
    obtain ⟨hx, hxs⟩ := List.forall_mem_cons.1 hxs
    obtain ⟨e, he, hpops, h⟩ := Instr.depthAfter_cons h
    have hhere : ¬x.2.FallsShort s := fun hfalls =>
      hshort ⟨[], x.1, x.2, xs, s, [], rfl, rfl, hfalls⟩
    obtain ⟨t, hstep, hlength⟩ := exists_step x.1 hx he hhere hpops
    rw [← hlength] at h
    have hlater : ¬ctx.ShortAt xs t := by
      rintro ⟨before, index, i, after, u, actions, rfl, hrun, hfalls⟩
      refine hshort ⟨x :: before, index, i, after, u, actions, rfl, ?_, hfalls⟩
      exact bind_eq_ok.2 ⟨_, hstep, bind_eq_ok.2 ⟨_, hrun, rfl⟩⟩
    obtain ⟨t', hrun, hlast⟩ := ih hxs h hlater
    exact ⟨t', bind_eq_ok.2 ⟨_, hstep, bind_eq_ok.2 ⟨_, hrun, rfl⟩⟩, hlast⟩

/-! ## The walk back from the jump -/

theorem Instr.depthAfter_snoc {xs : List (Nat × Instr)}
    {depth middle index : Nat} {i : Instr} {e : Effect}
    (h : depthAfter xs depth = .ok middle) (he : i.effect = .ok e)
    (hpops : e.pops ≤ middle) :
    depthAfter (xs ++ [(index, i)]) depth =
      .ok (middle - e.pops + e.pushes) := by
  rw [depthAfter_append, h]
  show depthAfter [(index, i)] middle = _
  rw [depthAfter, he]
  exact if_neg (Nat.not_lt.2 hpops)

/-- The walk comes past instructions that leave something, and together they
leave what is needed. -/
theorem exists_depthAfter_of_operandsFrom? {xs : List (Nat × Instr)}
    {need k : Nat} (h : operandsFrom? need xs = .ok (some k)) :
    ∃ passed before, xs = passed.reverse ++ before ∧
      passed.head?.map (·.1) = some k ∧ Instr.depthAfter passed 0 = .ok need ∧
        ∀ y ∈ passed, y.2.Yields := by
  induction xs generalizing need with
  | nil => cases h
  | cons y xs ih =>
    obtain ⟨index, i⟩ := y
    -- the walk goes on before the instruction, with what it takes as the new
    -- need
    have hearlier {e : Effect} {need' : Nat} (hi : i.Yields)
        (he : i.effect = .ok e)
        (hpops : e.pops ≤ need') (h : operandsFrom? need' xs = .ok (some k))
        (hneed : need' - e.pops + e.pushes = need) :
        ∃ passed before, (index, i) :: xs = passed.reverse ++ before ∧
          passed.head?.map (·.1) = some k ∧
          Instr.depthAfter passed 0 = .ok need ∧ ∀ y ∈ passed, y.2.Yields := by
      obtain ⟨passed, before, rfl, hhead, hdepth, hyields⟩ := ih h
      refine ⟨passed ++ [(index, i)], before, by simp, ?_, ?_, ?_⟩
      · rw [List.head?_append, Option.map_or, hhead, Option.some_or]
      · rw [← hneed]
        exact Instr.depthAfter_snoc hdepth he hpops
      · intro y hy
        rcases List.mem_append.1 hy with hy | hy
        · exact hyields y hy
        · rw [List.mem_singleton.1 hy]
          exact hi
    rw [operandsFrom?] at h
    split at h
    · rename_i hmarker
      exact hearlier (.inl hmarker) (Instr.effect_of_isMarker hmarker)
        (Nat.zero_le _) h rfl
    · obtain ⟨e, he, h⟩ := bind_eq_ok.1 h
      split at h
      · cases h
      · have hi : i.Yields := .inr ⟨e, he, by omega⟩
        simp only at h
        split at h
        · have hk : index = k := Option.some.inj (Except.ok.inj h)
          refine ⟨[(index, i)], xs, rfl, congrArg some hk, ?_, fun y hy => ?_⟩
          · have hneed : need = 0 - e.pops + e.pushes := by omega
            rw [hneed, ← List.nil_append [(index, i)]]
            exact Instr.depthAfter_snoc rfl he (by omega)
          · rw [List.mem_singleton.1 hy]
            exact hi
        · exact hearlier hi he (by omega) h (by omega)

theorem Method.index_of_slice {start stop j : Nat} {x : Nat × Instr}
    (h : (m.slice start stop)[j]? = some x) : x.1 = start + j := by
  simp only [slice, List.getElem?_map, List.getElem?_zipIdx, Option.map_map,
    Option.map_eq_some_iff] at h
  obtain ⟨i, -, rfl⟩ := h
  rfl

/-- From the place that is found on, the instructions leave what is needed. -/
theorem depthAfter_slice_of_operandsFrom? {need start stop k : Nat}
    (h : operandsFrom? need (m.slice start stop).reverse = .ok (some k)) :
    Instr.depthAfter (m.slice k stop) 0 = .ok need ∧ ∀ x ∈ m.slice k stop,
      x.2.Yields := by
  obtain ⟨passed, before, hsplit, hhead, hdepth, hyields⟩ :=
    exists_depthAfter_of_operandsFrom? (operandsFrom?_slice h)
  have hslice : m.slice k stop = before.reverse ++ passed := by
    rw [← List.reverse_reverse (m.slice k stop), hsplit, List.reverse_append,
      List.reverse_reverse]
  obtain ⟨x, hx, rfl⟩ := Option.map_eq_some_iff.1 hhead
  -- both the first instruction and the first one passed are the one found
  have hnone : before.reverse.length = 0 := by
    have hget : (m.slice x.1 stop)[before.reverse.length]? = some x := by
      rw [hslice, List.getElem?_append_right (Nat.le_refl _), Nat.sub_self,
        ← List.head?_eq_getElem?, hx]
    have hindex := Method.index_of_slice hget
    omega
  rw [hslice, List.length_eq_zero_iff.1 hnone]
  exact ⟨hdepth, hyields⟩

/-- **Operands that are told apart** are left by the instructions from their
start on, with nothing below them and nothing done besides, exactly if none of
these instructions falls short. -/
theorem Block.simulate_operands_iff {b : Block} {k : Nat} {e : Effect}
    (hk : b.operandsFrom? ctx.method = .ok (some k))
    (he : (ctx.method.instr b.breakPoint).effect = .ok e) :
    (∃ t, ctx.simulate k b.stop [] = .ok (t, []) ∧ t.length = e.pops) ↔
      ∀ before index i after t actions, ctx.method.slice k b.stop = before ++
        (index, i) :: after →
        ctx.run before [] = .ok (t, actions) → ¬i.FallsShort t := by
  obtain ⟨e', he', hk⟩ := bind_eq_ok.1 hk
  obtain rfl : e = e' := Except.ok.inj (he.symm.trans he')
  obtain ⟨hdepth, hyields⟩ := depthAfter_slice_of_operandsFrom? hk
  constructor
  · rintro ⟨t, hrun, hlength⟩ before index i after u actions hsplit
      hbefore hfalls
    have hlt := length_run_lt hyields hdepth
      ⟨before, index, i, after, u, actions, hsplit, hbefore, hfalls⟩ hrun
    simp only [List.length_nil] at hlt
    omega
  · intro hall
    refine exists_run hyields hdepth ?_
    rintro ⟨before, index, i, after, u, actions, hsplit, hbefore, hfalls⟩
    exact hall before index i after u actions hsplit hbefore hfalls

/-- Two slots that hold two ints are copied: four operands of a call are told
apart, and they are left as counted. -/
theorem simulate_operands_of_dup2_ints :
    let m : Method :=
      { instrs := [.increment 0 1, .load .int 0, .load .int 1, .dup2,
          .call .static ⟨"C", "f", "(IIII)Z"⟩, .ifZero .eq ⟨9⟩, .label ⟨9⟩],
        ranges := [] }
    let b : Block :=
      { id := 0, breakPoint := 5, start := 0, stop := 5,
        exit := .branches 1 (some 1),
        entry := .plain }
    let ctx : Context := ⟨m, LocalTable.empty.lookup, {}⟩
    b.operandsFrom? m = .ok (some 1) ∧ (m.instr 5).effect = .ok ⟨1, 0⟩ ∧
      ∀ before index i after t actions, m.slice 1 5 = before ++
        (index, i) :: after →
        ctx.run before [] = .ok (t, actions) → ¬i.FallsShort t := by
  intro m b ctx
  have hk : b.operandsFrom? ctx.method = .ok (some 1) := rfl
  have he : (ctx.method.instr b.breakPoint).effect = .ok ⟨1, 0⟩ := rfl
  have hrun : ∃ t, ctx.simulate 1 b.stop [] = .ok (t, []) ∧ t.length = 1 :=
    ⟨[_], rfl, rfl⟩
  exact ⟨hk, he, (Block.simulate_operands_iff hk he).1 hrun⟩

/-- Two slots that hold one long are counted as two values.  The walk stops one
instruction too late, and from there on the call has too few arguments. -/
theorem dup2_of_long_is_counted_twice :
    let m : Method :=
      { instrs :=
        [.constant (.int 1), .constant (.int 2), .constant (.long 3), .dup2,
          .call .static ⟨"C", "f", "(IIJJ)Z"⟩, .ifZero .eq ⟨9⟩,
          .call .static ⟨"C", "x", "()V"⟩, .label ⟨9⟩, .ret none],
        ranges := [] }
    let ctx : Context := ⟨m, LocalTable.empty.lookup, {}⟩
    ∃ g b, m.graph = .ok g ∧ g.blocks[0]? = some b ∧ b.exit.isBranch = true ∧
      b.operandsFrom? m = .ok (some 1) ∧
      (m.instr b.breakPoint).effect = .ok ⟨1, 0⟩ ∧
      ctx.simulate 1 b.stop [] = .error (.stackUnderflow 4) := by
  intro m ctx
  exact ⟨_, _, rfl, rfl, rfl, rfl, rfl, rfl⟩

end Decompiler
