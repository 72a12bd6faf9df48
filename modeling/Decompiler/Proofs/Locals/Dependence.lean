import Decompiler.Source.Condition.Basic
import Decompiler.Proofs.Lists

/-!
# Reading a variable is depending on it

A loop counts as a `for` loop if its condition reads the variable that is set
right before it.  Whether it does is found out by a search through trees.  Here
the search is compared with two other things: that the variable occurs somewhere
in a tree, and that the value of the tree can change when nothing but the
variable does.

Values are computed over a frame of variables and a world, which is all that an
expression can change: objects, arrays, static fields, and whatever calls do.
What a node makes of the values of its parts is left open, and so is whether it
throws.  All that is fixed is that parts come before the whole, that a variable
is looked up in the frame, and that nothing else looks there.

* `Expr.parts`, `Expr.Occurs`: what an expression is made of, at every depth.
* `Expr.eval`, `Condition.eval`: values.  Conditions stop as soon as they are
  decided.
* `Expr.compute_congr`, `Condition.compute_congr`: only variables that are read
  matter.
* `mentions_iff_depends`: reading, occurring and depending are the same.
-/

namespace Decompiler

namespace Expr

/-! ## Occurrences -/

/-- The expressions whose values an expression is computed from, in the order in
which they are evaluated. -/
def parts : Expr → List Expr
  | null | int _ | long _ | float _ | double _ | string _ | classLiteral _ => []
  | var _ | staticField _ | uninitialized _ | caught _ => []
  | instanceField object _ => [object]
  | element array index _ => [array, index]
  | length array => [array]
  | binary _ _ lhs rhs => [lhs, rhs]
  | neg _ operand => [operand]
  | cast _ value => [value]
  | instanceOf _ value => [value]
  | compare _ lhs rhs => [lhs, rhs]
  | callStatic _ args => args
  | callInstance _ receiver _ args => receiver :: args
  | callDynamic _ _ args => args
  | construct _ _ args => args
  | newArray _ size => [size]
  | arrayLiteral _ size values => size :: values
  | newMultiArray _ dimensions => dimensions
  | concat parts => parts

/-- Whether an expression stands somewhere in another, or is all of it. -/
inductive Occurs (e : Expr) : Expr → Prop
  | here : Occurs e e
  | inside {part whole : Expr} (mem : part ∈ whole.parts)
      (occurs : Occurs e part) :
      Occurs e whole

/-- Parts are smaller. -/
theorem sizeOf_lt_of_mem_parts {part e : Expr} (h : part ∈ e.parts) :
    sizeOf part < sizeOf e := by
  cases e with
  | callStatic _ args | callDynamic _ _ args | construct _ _ args
  | newMultiArray _ args
  | concat args =>
    have hlt := List.sizeOf_lt_of_mem (show part ∈ args from h)
    simp only [callStatic.sizeOf_spec, callDynamic.sizeOf_spec,
      construct.sizeOf_spec, newMultiArray.sizeOf_spec, concat.sizeOf_spec]
    omega
  | callInstance _ first _ args | arrayLiteral _ first args =>
    simp only [callInstance.sizeOf_spec, arrayLiteral.sizeOf_spec]
    rcases List.mem_cons.1 (show part ∈ first :: args from h) with rfl | hmem
    · omega
    · have hlt := List.sizeOf_lt_of_mem hmem
      omega
  | _ => simp [parts] at h <;> grind

/-- What holds of every expression whose parts it holds of holds of all. -/
theorem induction_parts {P : Expr → Prop}
    (h : ∀ e, (∀ part ∈ e.parts, P part) → P e) (e : Expr) : P e :=
  h e fun part _ => induction_parts h part
termination_by e
decreasing_by exact sizeOf_lt_of_mem_parts ‹_›

/-- Some expression mentions the variable. -/
theorem mentionedIn_iff {v : Local} {es : List Expr} :
    mentionedIn v es = true ↔ ∃ e ∈ es, e.mentions v = true := by
  induction es with
  | nil => simp [mentionedIn]
  | cons e es ih => simp [mentionedIn, ih]

/-- A variable is read by itself and by what has a part that reads it. -/
theorem mentions_iff_parts {v : Local} {e : Expr} :
    e.mentions v = true ↔ e = var v ∨ ∃ part ∈ e.parts,
      part.mentions v = true := by
  cases e <;> simp [mentions, parts, mentionedIn_iff]

/-- **Occurrences.**  An expression reads the variables that occur in it. -/
theorem mentions_iff_occurs {v : Local} {e : Expr} :
    e.mentions v = true ↔ Occurs (var v) e := by
  constructor
  · intro h
    induction e using induction_parts with
    | h e ih =>
      rcases mentions_iff_parts.1 h with rfl | ⟨part, hmem, hpart⟩
      · exact .here
      · exact .inside hmem (ih part hmem hpart)
  · intro h
    induction h with
    | here => exact mentions_iff_parts.2 (.inl rfl)
    | inside hmem _ ih => exact mentions_iff_parts.2 (.inr ⟨_, hmem, ih⟩)

end Expr

/-! ## Values -/

/-- How expressions come to their values, which may fail. -/
structure Interpretation (Value World Failure : Type) where
  /-- What an expression that is not a variable makes of the values of its
  parts, and of the world as they leave it. -/
  apply : Expr → List Value → World → Except Failure Value × World
  /-- Whether a value counts as true. -/
  truth : Value → Bool
  compares : Comparison → Value → Value → Bool

/-- What an expression is evaluated in. -/
structure Surroundings (Value World : Type) where
  frame : Local → Value
  world : World

/-- Surroundings that differ in nothing but the value of one variable. -/
structure Surroundings.DifferOnlyIn {Value World : Type} (v : Local)
    (s s' : Surroundings Value World) : Prop where
  frame : ∀ w, w ≠ v → s.frame w = s'.frame w
  world : s.world = s'.world

variable {Value World Failure : Type}

/-- Steps of an evaluation. -/
abbrev Evaluation (World Failure α : Type) := ExceptT Failure (StateM World) α

namespace Expr

/-- Evaluates an expression: the parts in their order, then the whole. -/
def compute (i : Interpretation Value World Failure) (frame : Local → Value) :
    Expr → Evaluation World Failure Value
  | var v => return frame v
  | e => do
    let values ← e.parts.attach.mapM fun ⟨part, _⟩ => part.compute i frame
    ExceptT.mk (i.apply e values)
termination_by e => e
decreasing_by exact sizeOf_lt_of_mem_parts ‹_›

/-- The value of an expression and the world that evaluating it leaves. -/
def eval (i : Interpretation Value World Failure) (s : Surroundings Value World)
    (e : Expr) : Except Failure Value × World :=
  e.compute i s.frame s.world

variable {i : Interpretation Value World Failure} {frame frame' : Local → Value}

/-- What is not a variable is evaluated part by part. -/
theorem compute_of_ne {e : Expr} (h : ∀ v, e ≠ var v) : e.compute i frame = (do
    let values ← e.parts.mapM (·.compute i frame)
    ExceptT.mk (i.apply e values)) := by
  rw [compute]
  · rw [List.mapM_subtype (fun _ _ => rfl), List.unattach_attach]
  · exact h

/-- **Coincidence.**  In frames that agree on the variables that an expression
reads it has the same value, and leaves the same world. -/
theorem compute_congr {e : Expr}
    (h : ∀ v, e.mentions v = true → frame v = frame' v) :
    e.compute i frame = e.compute i frame' := by
  induction e using induction_parts with
  | h e ih =>
    by_cases hvar : ∃ v, e = var v
    · obtain ⟨v, rfl⟩ := hvar
      rw [compute, compute, h v (mentions_iff_parts.2 (.inl rfl))]
    · have hne : ∀ v, e ≠ var v := fun v heq => hvar ⟨v, heq⟩
      have hparts (part : Expr) (hmem : part ∈ e.parts) :
          part.compute i frame = part.compute i frame' :=
        ih part hmem fun v hv =>
          h v (mentions_iff_parts.2 (.inr ⟨part, hmem, hv⟩))
      rw [compute_of_ne hne, compute_of_ne hne, mapM_congr hparts]

/-- The interpretation by truth values in which an expression is true if one of
its parts is. -/
def someTrue : Interpretation Bool Unit Empty where
  apply _ values world := (.ok (values.any id), world)
  truth value := value
  compares _ a b := a || b

/-- If no other variable is true, what reads a variable is as true as it. -/
theorem compute_someTrue (v : Local) (x : Bool) (e : Expr) :
    e.compute someTrue (fun w => x && w == v) = pure (x && e.mentions v) := by
  induction e using induction_parts with
  | h e ih =>
    by_cases hvar : ∃ w, e = var w
    · obtain ⟨w, rfl⟩ := hvar
      rw [compute, mentions]
    · have hne : ∀ w, e ≠ var w := fun w heq => hvar ⟨w, heq⟩
      have hany : (e.parts.map fun part => x && part.mentions v).any id =
          (x && e.mentions v) := by
        rw [Bool.eq_iff_iff, Bool.and_eq_true, mentions_iff_parts]
        simp [hne v, and_left_comm]
      rw [compute_of_ne hne, mapM_congr ih, List.mapM_pure, pure_bind, ← hany]
      rfl

end Expr

namespace Condition

mutual

/-- Evaluates a condition.  Its members are asked in order, until one
decides. -/
def compute (i : Interpretation Value World Failure) (frame : Local → Value) :
    Condition → Evaluation World Failure Bool
  | test e negated => return i.truth (← e.compute i frame) != negated
  | compare lhs op rhs =>
    return i.compares op (← lhs.compute i frame) (← rhs.compute i frame)
  | all cs => computeAll i frame cs
  | any cs => computeAny i frame cs
  | const b => return b

/-- Evaluates conditions until one fails. -/
def computeAll (i : Interpretation Value World Failure)
    (frame : Local → Value) :
    List Condition → Evaluation World Failure Bool
  | [] => return true
  | c :: cs =>
    do if ← c.compute i frame then computeAll i frame cs else return false

/-- Evaluates conditions until one holds. -/
def computeAny (i : Interpretation Value World Failure)
    (frame : Local → Value) :
    List Condition → Evaluation World Failure Bool
  | [] => return false
  | c :: cs =>
    do if ← c.compute i frame then return true else computeAny i frame cs

end

/-- Whether a condition holds, and the world that evaluating it leaves. -/
def eval (i : Interpretation Value World Failure) (s : Surroundings Value World)
    (c : Condition) : Except Failure Bool × World :=
  c.compute i s.frame s.world

variable {i : Interpretation Value World Failure} {frame frame' : Local → Value}

mutual

/-- In frames that agree on the variables that a condition reads it comes to the
same, and leaves the same world. -/
theorem compute_congr : (c : Condition) →
    (∀ v, c.mentions v = true → frame v = frame' v) →
      c.compute i frame = c.compute i frame'
  | test e negated, h => by
    rw [compute, compute, Expr.compute_congr h]
  | compare lhs op rhs, h => by
    simp only [mentions, Bool.or_eq_true] at h
    rw [compute, compute, Expr.compute_congr fun v hv => h v (.inl hv),
      Expr.compute_congr fun v hv => h v (.inr hv)]
  | all cs, h => by
    rw [compute, compute, (computes_congr cs h).1]
  | any cs, h => by
    rw [compute, compute, (computes_congr cs h).2]
  | const b, _ => by
    rw [compute, compute]

theorem computes_congr : (cs : List Condition) →
    (∀ v, mentionedIn v cs = true → frame v = frame' v) →
    computeAll i frame cs = computeAll i frame' cs ∧
      computeAny i frame cs = computeAny i frame' cs
  | [], _ => by
    simp only [computeAll, computeAny, and_self]
  | c :: cs, h => by
    simp only [mentionedIn, Bool.or_eq_true] at h
    have hfirst := compute_congr c fun v hv => h v (.inl hv)
    have hrest := computes_congr cs fun v hv => h v (.inr hv)
    simp only [computeAll, computeAny, hfirst, hrest, and_self]

end

end Condition

/-- Surroundings that differ in one variable agree on all that is read where it
is not. -/
theorem Surroundings.DifferOnlyIn.frame_eq {s s' : Surroundings Value World}
    {v : Local} (h : s.DifferOnlyIn v s') (reads : Local → Bool)
    (hreads : reads v = false) (w : Local) (hw : reads w = true) :
    s.frame w = s'.frame w := by
  refine h.frame w fun heq => ?_
  rw [heq, hreads] at hw
  cases hw

/-- A value depends on the variables that are read, and on no others. -/
theorem Expr.mentions_iff_eval_ne {e : Expr} {v : Local} : e.mentions v = true ↔
    ∃ (i : Interpretation Bool Unit Empty) (s s' : Surroundings Bool Unit),
      s.DifferOnlyIn v s' ∧ e.eval i s ≠ e.eval i s' := by
  constructor
  · intro h
    let only (x : Bool) : Surroundings Bool Unit := ⟨fun w => x && w == v, ()⟩
    refine ⟨someTrue, only true, only false, ⟨fun w hw => ?_, rfl⟩,
      fun heq => ?_⟩
    · simp [only, hw]
    · rw [eval, eval, compute_someTrue v true, compute_someTrue v false,
        h] at heq
      cases heq
  · rintro ⟨i, s, s', hs, hne⟩
    by_contra h
    rw [Bool.not_eq_true] at h
    refine hne ?_
    rw [eval, eval, hs.world, compute_congr (hs.frame_eq (e.mentions ·) h)]

/-- **Dependence.**  An expression reads exactly the variables that occur in it,
at any depth, and these are exactly the ones that its value can change with when
nothing else does.  A condition that does not read a variable comes to the same,
and leaves the same world, whatever value the variable has. -/
theorem mentions_iff_depends :
    (∀ (e : Expr) (v : Local), e.mentions v = true ↔ Expr.Occurs (.var v) e) ∧
    (∀ (e : Expr) (v : Local), e.mentions v = true ↔
      ∃ (i : Interpretation Bool Unit Empty) (s s' : Surroundings Bool Unit),
        s.DifferOnlyIn v s' ∧ e.eval i s ≠ e.eval i s') ∧
    ∀ (c : Condition) (v : Local), c.mentions v = false →
      ∀ (Value World Failure : Type) (i : Interpretation Value World Failure)
        (s s' : Surroundings Value World), s.DifferOnlyIn v s' →
        c.eval i s = c.eval i s' := by
  refine ⟨fun _ _ => Expr.mentions_iff_occurs, fun _ _ =>
    Expr.mentions_iff_eval_ne,
    fun c v hv Value World Failure i s s' hs => ?_⟩
  rw [Condition.eval, Condition.eval, hs.world,
    Condition.compute_congr c (hs.frame_eq (c.mentions ·) hv)]

/-- A condition that reads one of two variables that share a slot, four levels
down. -/
theorem mentions_iff_depends_shared_slot :
    let i : Local := ⟨1, "i", some "I"⟩
    let j : Local := ⟨1, "j", some "I"⟩
    let sum : Expr := .callStatic ⟨"C", "sum", "([I)I"⟩
      [.arrayLiteral "I" (.int 2) [.int 3, .neg .int (.var j)]]
    let cond : Condition := .any [.all [.const true, .compare sum .lt (.int 9)],
      .test (.var ⟨2, "done", some "Z"⟩) true]
    let s : Surroundings Bool Unit := ⟨fun w => w == i, ()⟩
    let s' : Surroundings Bool Unit := ⟨fun _ => false, ()⟩
    cond.mentions j = true ∧ Expr.Occurs (.var j) sum ∧
      cond.mentions i = false ∧ s.DifferOnlyIn i s' ∧
      cond.eval Expr.someTrue s = cond.eval Expr.someTrue s' := by
  intro i j sum cond s s'
  have hread : sum.mentions j = true := by decide
  have hnot : cond.mentions i = false := by decide
  have hdiffer : s.DifferOnlyIn i s' := ⟨fun w hw => by simp [s, s', hw], rfl⟩
  have hall := mentions_iff_depends
  exact ⟨by decide, (hall.1 sum j).1 hread, hnot, hdiffer,
    hall.2.2 cond i hnot Bool Unit Empty Expr.someTrue s s' hdiffer⟩

end Decompiler
