import Decompiler.Proofs.Calls.Stretch
import Decompiler.Proofs.Likeness.Step

/-!
# Methods that differ in what does nothing

Labels and debug markers do nothing.  A method mirrors another along a map of
positions if the instructions that do something are those of the other in their
order, apart from their labels.  A position of the one stands level with a
position of the other if the same instructions that do something come before.
Between positions that stand level the two methods do the same.

* `Method.Mirrors`, `Method.Level`: the two relations.
* `Method.Mirrors.acts_eq`: whether anything is done between two positions.
* `Context.Mirrors.simulate`: what is done.
* `Method.Mirrors.operandsFrom?`: where the operands of a jump start.
-/

namespace Decompiler

namespace Method

/-- The instructions of `m'` that do something are those of `m`, apart from
their labels, and `φ` tells where they stand. -/
structure Mirrors (m m' : Method) (φ : Nat → Nat) : Prop where
  mono : StrictMono φ
  inside : ∀ i, φ i < m'.length ↔ i < m.length
  bare : ∀ i, (m'.instr (φ i)).bare = (m.instr i).bare
  onto : ∀ j < m'.length, (m'.instr j).isMarker = false → ∃ i, φ i = j

/-- A position of a method and one of a method that mirrors it have the same
instructions that do something in front of them. -/
def Level (m : Method) (φ : Nat → Nat) (k k' : Nat) : Prop :=
  ∀ i < m.length, (m.instr i).isMarker = false → (k ≤ i ↔ k' ≤ φ i)

/-- The instructions of a range that do something. -/
def acting (m : Method) (start stop : Nat) : List (Nat × Instr) :=
  (m.slice start stop).filter fun x => !x.2.isMarker

/-- The instructions of a range by their indices. -/
theorem slice_eq_map (m : Method) (start stop : Nat) :
    m.slice start stop = (List.range' start (min stop m.length - start)).map
      fun k =>
      (k, m.instr k) := by
  refine List.ext_getElem? fun n => ?_
  simp only [slice, List.getElem?_map, List.getElem?_zipIdx, List.getElem?_drop,
    List.getElem?_take]
  have hlength : m.instrs.length = m.length := rfl
  rcases Nat.lt_or_ge (start + n) (min stop m.length) with hlt | hge
  · rw [if_pos (by omega), List.getElem?_range' (by omega),
      List.getElem?_eq_getElem (show start + n < m.instrs.length by omega),
      Option.map_some,
      Option.map_some, Option.map_some, Nat.one_mul, instr,
      List.getD_eq_getElem?_getD,
      List.getElem?_eq_getElem (show start + n < m.instrs.length by omega),
      Option.getD_some]
  · rw [List.getElem?_eq_none
      (show (List.range' start (min stop m.length - start)).length ≤ n by
      rw [List.length_range']; omega)]
    split
    · rw [List.getElem?_eq_none (by omega)]
      rfl
    · rfl

/-- The acting instructions of a stretch are those that are no markers. -/
theorem acting_eq_map (m : Method) (start stop : Nat) :
    m.acting start stop =
      ((List.range' start (min stop m.length - start)).filter fun k =>
      !(m.instr k).isMarker).map fun k => (k, m.instr k) := by
  rw [acting, slice_eq_map, List.filter_map]
  rfl

namespace Mirrors

variable {m m' : Method} {φ : Nat → Nat} {start stop start' stop' : Nat}

/-- Markers correspond to markers. -/
theorem isMarker_eq (h : m.Mirrors m' φ) (i : Nat) :
    (m'.instr (φ i)).isMarker = (m.instr i).isMarker :=
  Instr.isMarker_eq_of_bare (h.bare i)

/-! ### Positions -/

/-- An instruction stands level with where it stands. -/
theorem level (h : m.Mirrors m' φ) (k : Nat) : m.Level φ k (φ k) :=
  fun _ _ _ => h.mono.le_iff_le.symm

/-- What comes behind an instruction comes behind where it stands. -/
theorem level_succ (h : m.Mirrors m' φ) (k : Nat) :
    m.Level φ (k + 1) (φ k + 1) :=
  fun _ _ _ => h.mono.lt_iff_lt.symm

/-- Both methods are level at their starts. -/
theorem level_zero : m.Level φ 0 0 := fun _ _ _ => by simp

/-- Both methods are level at their ends. -/
theorem level_length (h : m.Mirrors m' φ) : m.Level φ m.length m'.length :=
  fun i hi _ => by
  have := (h.inside i).2 hi
  omega

/-! ### What is done between positions -/

/-- The indices of the instructions that do something correspond. -/
theorem indices_eq (h : m.Mirrors m' φ) (hstart : m.Level φ start start')
    (hstop : m.Level φ stop stop') :
    ((List.range' start (min stop m.length - start)).filter fun k =>
        !(m.instr k).isMarker).map φ =
      (List.range' start' (min stop' m'.length - start')).filter fun k =>
        !(m'.instr k).isMarker := by
  have hsorted (i n : Nat) (p : Nat → Bool) :
      ((List.range' i n).filter p).Pairwise (· < ·) :=
    (List.pairwise_lt_range' 1).filter _
  refine List.Pairwise.eq_of_mem_iff ((hsorted _ _ _).map φ fun _ _ hlt =>
    h.mono hlt) (hsorted _ _ _) fun j => ?_
  simp only [List.mem_map, List.mem_filter, List.mem_range'_1,
    Bool.not_eq_true']
  constructor
  · rintro ⟨i, ⟨⟨hle, hlt⟩, hacts⟩, rfl⟩
    have hlen : i < m.length := by omega
    have hin := (h.inside i).2 hlen
    have hfrom := (hstart i hlen hacts).1 hle
    have hto := (hstop i hlen hacts).not.1 (by omega)
    exact ⟨⟨hfrom, by omega⟩, (h.isMarker_eq i).trans hacts⟩
  · rintro ⟨⟨hle, hlt⟩, hacts⟩
    have hin : j < m'.length := by omega
    obtain ⟨i, rfl⟩ := h.onto j hin hacts
    have hlen := (h.inside i).1 hin
    have hmarker := (h.isMarker_eq i).symm.trans hacts
    have hfrom := (hstart i hlen hmarker).2 hle
    have hto := (hstop i hlen hmarker).not.2 (by omega)
    exact ⟨i, ⟨⟨hfrom, by omega⟩, hmarker⟩, rfl⟩

/-- The instructions that do something correspond. -/
theorem twins (h : m.Mirrors m' φ) (hstart : m.Level φ start start')
    (hstop : m.Level φ stop stop') :
    List.Forall₂ (Context.Twin φ) (m.acting start stop)
      (m'.acting start' stop') := by
  rw [acting_eq_map, acting_eq_map, ← h.indices_eq hstart hstop, List.map_map,
    List.forall₂_map_left_iff, List.forall₂_map_right_iff, List.forall₂_same]
  exact fun k _ => ⟨rfl, h.bare k⟩

/-- Something is done between two positions if it is between those level with
them. -/
theorem acts_eq (h : m.Mirrors m' φ) (hstart : m.Level φ start start')
    (hstop : m.Level φ stop stop') :
    m'.acts start' stop' = m.acts start stop := by
  rw [Bool.eq_iff_iff, ← not_iff_not, Bool.not_eq_true, Bool.not_eq_true,
    acts_eq_false_iff, acts_eq_false_iff]
  constructor
  · intro hidle i hfrom hto hlen
    by_contra hacts
    rw [Bool.not_eq_true] at hacts
    have hstop := (hstop i hlen hacts).not.1 (by omega)
    have hmarker :=
      hidle (φ i) ((hstart i hlen hacts).1 hfrom) (by omega)
        ((h.inside i).2 hlen)
    rw [h.isMarker_eq, hacts] at hmarker
    cases hmarker
  · intro hidle j hfrom hto hlen
    by_contra hacts
    rw [Bool.not_eq_true] at hacts
    obtain ⟨i, rfl⟩ := h.onto j hlen hacts
    have hi := (h.inside i).1 hlen
    have hmarker := (h.isMarker_eq i).symm.trans hacts
    have hstop := (hstop i hi hmarker).not.2 (by omega)
    rw [hidle i ((hstart i hi hmarker).2 hfrom) (by omega) hi] at hmarker
    cases hmarker

end Mirrors

end Method

/-! ## Simulation -/

namespace Context

/-- A label or a debug marker changes nothing. -/
theorem step_of_isMarker (ctx : Context) (index : Nat) {i : Instr}
    (h : i.isMarker = true) (s : Stack) : ctx.step index i s = .ok (s, []) := by
  cases i <;> first | rfl | cases h

/-- Labels and debug markers may be left out. -/
theorem run_filter (ctx : Context) (xs : List (Nat × Instr)) (s : Stack) :
    ctx.run (xs.filter fun x => !x.2.isMarker) s = ctx.run xs s := by
  induction xs generalizing s with
  | nil => rfl
  | cons x xs ih =>
    obtain ⟨index, i⟩ := x
    cases hmarker : i.isMarker with
    | true =>
      have hrest : ctx.run ((index, i) :: xs) s = ctx.run xs s := by
        rw [run, step_of_isMarker ctx index hmarker]
        simp only [bind, Except.bind]
        cases ctx.run xs s <;> rfl
      rw [hrest, ← ih, List.filter_cons_of_neg (by simp [hmarker])]
    | false =>
      rw [List.filter_cons_of_pos (by simp [hmarker]), run, run]
      simp only [ih]

/-- Two contexts that differ in what does nothing. -/
structure Mirrors (ctx ctx' : Context) (φ : Nat → Nat) : Prop where
  method : ctx.method.Mirrors ctx'.method φ
  recover : ctx'.recover = ctx.recover
  locals : ∀ slot index, ctx'.locals slot (φ index) = ctx.locals slot index

/-- **The same is done between positions that stand level.** -/
theorem Mirrors.simulate {ctx ctx' : Context} {φ : Nat → Nat}
    (h : ctx.Mirrors ctx' φ) {start stop start' stop' : Nat}
    (hstart : ctx.method.Level φ start start')
    (hstop : ctx.method.Level φ stop stop') (s : Stack) :
    EndsAlike (Renamed φ) (ctx.simulate start stop s)
      (ctx'.simulate start' stop' (s.rename φ)) := by
  rw [Context.simulate, Context.simulate,
    ← ctx.run_filter (ctx.method.slice start stop),
    ← ctx'.run_filter (ctx'.method.slice start' stop')]
  exact run_rename ⟨h.method.mono.injective, h.recover, h.locals⟩
    (h.method.twins hstart hstop) s

end Context

/-! ## Operands -/

/-- Labels and debug markers are passed on the way back to the operands. -/
theorem operandsFrom?_filter (need : Nat) (xs : List (Nat × Instr)) :
    operandsFrom? need (xs.filter fun x => !x.2.isMarker) = operandsFrom? need
      xs := by
  induction xs generalizing need with
  | nil => rfl
  | cons x xs ih =>
    obtain ⟨index, i⟩ := x
    cases hmarker : i.isMarker with
    | true =>
      rw [List.filter_cons_of_neg (by simp [hmarker]), ih, operandsFrom?,
        if_pos hmarker]
    | false =>
      rw [List.filter_cons_of_pos (by simp [hmarker]), operandsFrom?,
        operandsFrom?]
      simp only [ih]

/-- The operands of a jump start at corresponding instructions. -/
theorem operandsFrom?_twins {φ : Nat → Nat} {need : Nat}
    {xs ys : List (Nat × Instr)} (h : List.Forall₂ (Context.Twin φ) xs ys) :
    EndsAlike (fun k k' => k' = k.map φ) (operandsFrom? need xs)
      (operandsFrom? need ys) := by
  induction h generalizing need with
  | nil => exact .ok rfl
  | @cons x y xs ys head _ ih =>
    obtain ⟨index, i⟩ := x
    obtain ⟨index', i'⟩ := y
    obtain ⟨rfl, hbare⟩ : index' = φ index ∧ i'.bare = i.bare := head
    rw [operandsFrom?, operandsFrom?, Instr.isMarker_eq_of_bare hbare,
      Instr.effect_eq_of_bare hbare]
    refine .ite ih ((EndsAlike.refl _).bind fun e _ he => he ▸ ?_)
    exact .ite (.ok rfl) (.ite (.ok rfl) ih)

/-- **The same operands.** -/
theorem Method.Mirrors.operandsFrom? {m m' : Method} {φ : Nat → Nat}
    (h : m.Mirrors m' φ) {start stop start' stop' : Nat}
    (hstart : m.Level φ start start') (hstop : m.Level φ stop stop')
    (need : Nat) :
    EndsAlike (fun k k' => k' = k.map φ)
      (Decompiler.operandsFrom? need (m.slice start stop).reverse)
      (Decompiler.operandsFrom? need (m'.slice start' stop').reverse) := by
  rw [← operandsFrom?_filter need (m.slice start stop).reverse,
    ← operandsFrom?_filter need (m'.slice start' stop').reverse,
    List.filter_reverse, List.filter_reverse]
  exact operandsFrom?_twins (List.rel_reverse (h.twins hstart hstop))

end Decompiler
