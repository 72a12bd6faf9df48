import Decompiler.Proofs.Result
import Decompiler.Simulation.Step

/-!
# Simulation undoes compilation

An expression is compiled from left to right: the code of its operands, and
then the instruction that takes them.  Two constructs need more than that.  A
constructor call completes an object that was put on the stack twice before
its arguments, and each listed element of an array is stored through a copy of
the array.

Simulating such code leaves exactly the expression on top of the stack.  The
reason is that values made by the code have identities of their own: they
differ from those of everything that was on the stack before, so completing an
object or an array changes nothing else.

* `Compiles`: the code of a list of expressions.
* `Leaves`: what simulating the code comes to, on every stack.
* `leaves_of_compiles`: simulating code leaves the expressions it came from.
-/

namespace Decompiler

/-- The variable that an access of a kind uses when there is no debug table. -/
def Local.ofAccess (kind : Kind) (slot : Nat) : Local :=
  { Local.ofSlot slot with
    descriptor := if kind = .reference then none else some kind.descriptor }

/-- A descriptor of a method with a given number of parameters. -/
def Member.Takes (f : Member) (count : Nat) (isVoid : Bool) : Prop :=
  ∃ s, Signature.ofDescriptor f.descriptor = .ok s ∧
    s.parameters.length = count ∧ s.isVoid = isVoid

/-- The code that leaves some expressions on the stack, the last one on top. -/
inductive Compiles : List Expr → List Instr → Prop
  | nil : Compiles [] []
  | cons {e : Expr} {es : List Expr} {is js : List Instr}
      (first : Compiles [e] is)
      (rest : Compiles es js) : Compiles (e :: es) (is ++ js)
  | null : Compiles [.null] [.null]
  | constant (c : Literal) : Compiles [c.expr] [.constant c]
  | load (kind : Kind) (slot : Nat) :
      Compiles [.var (.ofAccess kind slot)] [.load kind slot]
  | staticField (field : Member) :
      Compiles [.staticField field] [.getStatic field]
  | instanceField {o : Expr} {is : List Instr} (field : Member)
      (object : Compiles [o] is) :
      Compiles [.instanceField o field] (is ++ [.getField field])
  | element {a i : Expr} {is : List Instr} (kind : Kind)
      (operands : Compiles [a, i] is) :
      Compiles [.element a i kind] (is ++ [.arrayLoad kind])
  | length {a : Expr} {is : List Instr} (array : Compiles [a] is) :
      Compiles [.length a] (is ++ [.arrayLength])
  | binary {a b : Expr} {is : List Instr} (op : ArithOp) (kind : Kind)
      (operands : Compiles [a, b] is) :
      Compiles [.binary op kind a b] (is ++ [.arith op kind])
  | neg {a : Expr} {is : List Instr} (kind : Kind) (operand : Compiles [a] is) :
      Compiles [.neg kind a] (is ++ [.neg kind])
  | convert {a : Expr} {is : List Instr} (source target : Kind)
      (value : Compiles [a] is) :
      Compiles [.cast target.descriptor a] (is ++ [.convert source target])
  | checkCast {a : Expr} {is : List Instr} (type : String)
      (value : Compiles [a] is) :
      Compiles [.cast (FieldType.ofClass type) a] (is ++ [.checkCast type])
  | instanceOf {a : Expr} {is : List Instr} (type : String)
      (value : Compiles [a] is) :
      Compiles [.instanceOf (FieldType.ofClass type) a]
        (is ++ [.instanceOf type])
  | compare {a b : Expr} {is : List Instr} (how : ThreeWay)
      (operands : Compiles [a, b] is) :
      Compiles [.compare how a b] (is ++ [.compare how])
  | callStatic {args : List Expr} {is : List Instr} {f : Member}
      (takes : f.Takes args.length false) (arguments : Compiles args is) :
      Compiles [.callStatic f args] (is ++ [.call .static f])
  | callInstance {r : Expr} {args : List Expr} {is : List Instr}
      {how : CallKind} {f : Member}
      (takes : f.Takes args.length false) (receives : how ≠ .static)
      (ordinary : f.isConstructor = false)
      (operands : Compiles (r :: args) is) :
      Compiles [.callInstance how r f args] (is ++ [.call how f])
  | callDynamic {name descriptor : String} {args : List Expr} {is : List Instr}
      (takes : Member.Takes ⟨"", name, descriptor⟩ args.length false)
      (arguments : Compiles args is) :
      Compiles [.callDynamic name descriptor args]
        (is ++ [.callDynamic name descriptor])
  | construct {type descriptor : String} {args : List Expr} {is : List Instr}
      (takes : Member.Takes ⟨type, "<init>", descriptor⟩ args.length true)
      (arguments : Compiles args is) :
      Compiles [.construct type descriptor args]
        (.new type :: .dup ::
          (is ++ [.call .special ⟨type, "<init>", descriptor⟩]))
  | newArray {n : Expr} {is : List Instr} (component : String)
      (size : Compiles [n] is) :
      Compiles [.newArray component n] (is ++ [.newArray component])
  | firstElement {component : String} {n : Int32} {v : Expr}
      {is js : List Instr} (kind : Kind)
      (array : Compiles [.newArray component (.int n)] is)
      (value : Compiles [v] js) (fits : 0 < n.toInt) :
      Compiles [.arrayLiteral component (.int n) [v]]
        (is ++ .dup :: .constant (.int 0) :: (js ++ [.arrayStore kind]))
  | nextElement {component : String} {n : Int32} {values : List Expr} {v : Expr}
      {is js : List Instr} (kind : Kind)
      (array : Compiles [.arrayLiteral component (.int n) values] is)
      (value : Compiles [v] js) (fits : values.length < n.toInt) :
      Compiles [.arrayLiteral component (.int n) (values ++ [v])]
        (is ++ .dup :: .constant (.int (.ofNat values.length)) ::
          (js ++ [.arrayStore kind]))
  | newMultiArray {sizes : List Expr} {is : List Instr} (descriptor : String)
      (few : sizes.length ≤ 255) (dimensions : Compiles sizes is) :
      Compiles [.newMultiArray descriptor sizes]
        (is ++ [.newMultiArray descriptor sizes.length])

/-- Instructions that stand in a row from an index on. -/
def placed (start : Nat) (is : List Instr) : List (Nat × Instr) :=
  (is.zipIdx start).map fun (i, index) => (index, i)

theorem placed_cons (start : Nat) (i : Instr) (is : List Instr) :
    placed start (i :: is) = (start, i) :: placed (start + 1) is := rfl

theorem placed_append (start : Nat) (is js : List Instr) :
    placed start (is ++ js) = placed start is ++
      placed (start + is.length) js := by
  simp [placed, List.zipIdx_append]

/-- Where code stands in a method. -/
theorem Method.slice_eq_placed {m : Method} {before code after : List Instr}
    (h : m.instrs = before ++ code ++ after) :
    m.slice before.length (before.length + code.length) = placed before.length
      code := by
  have hcode :
      (m.instrs.take (before.length + code.length)).drop before.length =
      code := by
    rw [h, ← List.length_append, List.take_left, List.drop_left]
  rw [Method.slice, hcode, placed]

/-- The value was made by one of the instructions from `start` up to `stop`. -/
def Value.MadeIn (v : Value) (start stop : Nat) : Prop :=
  ∃ index, v.origin = .made index ∧ start ≤ index ∧ index < stop

namespace Value.MadeIn

variable {v : Value} {start stop : Nat}

theorem mono {start' stop' : Nat} (h : v.MadeIn start stop)
    (hstart : start' ≤ start) (hstop : stop ≤ stop') :
    v.MadeIn start' stop' := by
  obtain ⟨index, heq, hle, hlt⟩ := h
  exact ⟨index, heq, by omega, by omega⟩

end Value.MadeIn

/-- No value on the stack was made by an instruction from `start` on. -/
def Stack.Before (s : Stack) (start : Nat) : Prop :=
  ∀ v ∈ s, ∀ index, v.origin = .made index → index < start

namespace Stack.Before

variable {s t : Stack} {start : Nat}

theorem mono {start' : Nat} (h : s.Before start) (hle : start ≤ start') :
    s.Before start' := by
  intro v hv index heq
  exact Nat.lt_of_lt_of_le (h v hv index heq) hle

theorem append (hs : Stack.Before s start) (ht : Stack.Before t start) :
    Stack.Before (s ++ t) start := by
  intro v hv
  rcases List.mem_append.1 hv with hv | hv
  · exact hs v hv
  · exact ht v hv

theorem cons {v : Value} (hv : ∀ index, v.origin = .made index → index < start)
    (hs : s.Before start) : Stack.Before (v :: s) start := by
  intro w hw
  rcases List.mem_cons.1 hw with rfl | hw
  · exact hv
  · exact hs w hw

theorem of_madeIn {start' : Nat} (h : ∀ v ∈ s, v.MadeIn start' start) :
    s.Before start := by
  intro v hv index heq
  obtain ⟨index', heq', _, hlt⟩ := h v hv
  rw [heq] at heq'
  cases heq'
  exact hlt

/-- Completing a value that was made later leaves the stack as it is. -/
theorem replace (h : s.Before start) {index : Nat} (hle : start ≤ index)
    (new : Value) : s.replace (.made index) new = s := by
  apply Stack.replace_of_not_holds
  rw [Stack.holds, List.any_eq_false]
  intro v hv heq
  have hlt := h v hv index (eq_of_beq heq)
  omega

/-- The values at the start were made by no instruction. -/
theorem ofEntries (entries : List (Nat × Expr)) (start : Nat) :
    (Stack.ofEntries entries).Before start := by
  intro v hv index heq
  simp only [Stack.ofEntries, List.mem_reverse, List.mem_map] at hv
  obtain ⟨entry, _, rfl⟩ := hv
  cases heq

end Stack.Before

/-- On every stack, simulating the code leaves some expressions on top, as new
values, and performs no action. -/
def Leaves (ctx : Context) (es : List Expr) (is : List Instr) : Prop :=
  ∀ (start : Nat) (s : Stack), s.Before start →
    ∃ vs : Stack, vs.exprs = es ∧
      (∀ v ∈ vs, v.MadeIn start (start + is.length)) ∧
      ctx.run (placed start is) s = .ok (vs ++ s, [])

/-- The context without a debug table and without recovered concatenations. -/
def Context.plain (m : Method) : Context :=
  ⟨m, LocalTable.empty.lookup, { concatenations := false }⟩

variable {ctx : Context} {m : Method}

theorem Context.localAt_plain (kind : Kind) (slot index : Nat) :
    (Context.plain m).localAt kind slot index = .ofAccess kind slot := by
  cases kind <;> rfl

/-- A run of code that does not act may be continued. -/
theorem Context.run_append_of_ok {xs ys : List (Nat × Instr)} {s t : Stack}
    {r : Outcome} (hxs : ctx.run xs s = .ok (t, []))
    (hys : ctx.run ys t = .ok r) : ctx.run (xs ++ ys) s = .ok r := by
  rw [run_append]
  exact bind_eq_ok.2 ⟨_, hxs, bind_eq_ok.2 ⟨r, hys, rfl⟩⟩

theorem Context.run_cons_of_ok {index : Nat} {i : Instr}
    {ys : List (Nat × Instr)} {s t : Stack} {r : Outcome}
    (hi : ctx.step index i s = .ok (t, [])) (hys : ctx.run ys t = .ok r) :
    ctx.run ((index, i) :: ys) s = .ok r := by
  rw [run]
  exact bind_eq_ok.2 ⟨_, hi, bind_eq_ok.2 ⟨r, hys, rfl⟩⟩

/-- Calls on a receiver differ only in how the method is found. -/
theorem Context.step_call {how : CallKind} (h : how ≠ .static) (f : Member)
    (index : Nat) (s : Stack) : ctx.step index (.call how f) s =
      (Signature.ofDescriptor f.descriptor >>= fun signature =>
        s.popMany index signature.parameters.length fun args s =>
          s.pop index fun receiver s =>
          .ok (ctx.callInstance index how receiver f signature args s)) := by
  cases how with
  | static => exact absurd rfl h
  | _ => rfl

theorem Context.run_singleton {index : Nat} {i : Instr} {s t : Stack}
    (hi : ctx.step index i s = .ok (t, [])) :
    ctx.run [(index, i)] s = .ok (t, []) :=
  run_cons_of_ok hi rfl

/-- The expressions on a stack determine its values up to their identities. -/
theorem Stack.eq_singleton_of_exprs {vs : Stack} {e : Expr}
    (h : vs.exprs = [e]) : ∃ o, vs = [⟨o, e⟩] := by
  match vs, h with
  | [⟨o, _⟩], h => exact ⟨o, by cases h; rfl⟩
  | v :: w :: vs, h =>
    have hlen := congrArg List.length h
    simp [Stack.exprs] at hlen

theorem Stack.eq_pair_of_exprs {vs : Stack} {a b : Expr}
    (h : vs.exprs = [a, b]) : ∃ o p, vs = [⟨p, b⟩, ⟨o, a⟩] := by
  match vs, h with
  | [⟨p, _⟩, ⟨o, _⟩], h => exact ⟨o, p, by cases h; rfl⟩
  | u :: v :: w :: vs, h =>
    have hlen := congrArg List.length h
    simp [Stack.exprs] at hlen

/-- The first expression is at the bottom. -/
theorem Stack.eq_append_of_exprs {vs : Stack} {e : Expr} {es : List Expr}
    (h : vs.exprs = e :: es) :
    ∃ (ws : Stack) (w : Value), vs = ws ++ [w] ∧ ws.exprs = es ∧
      w.expr = e := by
  obtain ⟨w, ws, hreverse, rfl, rfl⟩ := List.map_eq_cons_iff.1 h
  refine ⟨ws.reverse, w, ?_, ?_, rfl⟩
  · rw [← vs.reverse_reverse, hreverse, List.reverse_cons]
  · rw [Stack.exprs, List.reverse_reverse]

theorem Stack.length_eq_of_exprs {vs : Stack} {es : List Expr}
    (h : vs.exprs = es) : vs.length = es.length := by
  rw [← h, Stack.exprs, List.length_map, List.length_reverse]

/-- All values that were put on a stack may be taken at once. -/
theorem Stack.popMany_append {α : Type} {vs : Stack} {es : List Expr} {n : Nat}
    (h : vs.exprs = es) (hn : n = es.length) (index : Nat) (s : Stack)
    (k : List Expr → Stack → Except Fault α) :
    Stack.popMany index n (vs ++ s) k = k es s := by
  have hlen : n = vs.length := hn.trans (Stack.length_eq_of_exprs h).symm
  rw [Stack.popMany, if_neg (by simp [hlen]), hlen, List.take_left,
    List.drop_left]
  exact congrArg (k · s) h

namespace Leaves

variable {es fs : List Expr} {e a b : Expr} {is js : List Instr} {i : Instr}

theorem nil : Leaves ctx [] [] := by
  intro start s _
  exact ⟨[], rfl, by simp, rfl⟩

theorem append (h : Leaves ctx es is) (h' : Leaves ctx fs js) :
    Leaves ctx (es ++ fs) (is ++ js) := by
  intro start s hs
  obtain ⟨vs, hvs, hmade, hrun⟩ := h start s hs
  have hbefore : Stack.Before (vs ++ s) (start + is.length) :=
    (Stack.Before.of_madeIn hmade).append (hs.mono (Nat.le_add_right _ _))
  obtain ⟨ws, hws, hmade', hrun'⟩ := h' (start + is.length) (vs ++ s) hbefore
  refine ⟨ws ++ vs, ?_, ?_, ?_⟩
  · rw [Stack.exprs, List.reverse_append, List.map_append, ← hvs, ← hws]
    rfl
  · intro v hv
    rw [List.length_append]
    rcases List.mem_append.1 hv with hv | hv
    · exact (hmade' v hv).mono (by omega) (by omega)
    · exact (hmade v hv).mono (by omega) (by omega)
  · rw [placed_append, List.append_assoc]
    exact Context.run_append_of_ok hrun hrun'

/-- An instruction that takes its operands and leaves one value. -/
theorem snoc (h : Leaves ctx es is)
    (hstep : ∀ (index : Nat) (vs s : Stack), vs.exprs = es →
      ctx.step index i (vs ++ s) = .ok (⟨.made index, e⟩ :: s, [])) :
    Leaves ctx [e] (is ++ [i]) := by
  intro start s hs
  obtain ⟨vs, hvs, _, hrun⟩ := h start s hs
  have hfinal := hstep (start + is.length) vs s hvs
  refine ⟨[⟨.made (start + is.length), e⟩], rfl, ?_, ?_⟩
  · intro v hv
    rw [List.mem_singleton.1 hv, List.length_append]
    exact ⟨_, rfl, by omega, by simp⟩
  · rw [placed_append]
    exact Context.run_append_of_ok hrun (Context.run_singleton hfinal)

theorem unary (h : Leaves ctx [a] is)
    (hstep : ∀ (index : Nat) (o : Origin) (s : Stack),
      ctx.step index i (⟨o, a⟩ :: s) = .ok (⟨.made index, e⟩ :: s, [])) :
    Leaves ctx [e] (is ++ [i]) := by
  apply h.snoc
  intro index vs s hvs
  obtain ⟨o, rfl⟩ := Stack.eq_singleton_of_exprs hvs
  exact hstep index o s

theorem binary (h : Leaves ctx [a, b] is)
    (hstep : ∀ (index : Nat) (o p : Origin) (s : Stack),
      ctx.step index i (⟨p, b⟩ :: ⟨o, a⟩ :: s) =
        .ok (⟨.made index, e⟩ :: s, [])) :
    Leaves ctx [e] (is ++ [i]) := by
  apply h.snoc
  intro index vs s hvs
  obtain ⟨o, p, rfl⟩ := Stack.eq_pair_of_exprs hvs
  exact hstep index o p s

/-- An instruction that only leaves a value. -/
theorem push (hstep : ∀ (index : Nat) (s : Stack),
      ctx.step index i s = .ok (⟨.made index, e⟩ :: s, [])) :
      Leaves ctx [e] [i] := by
  have hnil : Leaves ctx [] [] := nil
  apply hnil.snoc
  intro index vs s hvs
  obtain rfl : vs = [] :=
    List.length_eq_zero_iff.1 (Stack.length_eq_of_exprs hvs)
  exact hstep index s

/-- A constructor call completes both copies of the object below its
arguments, and nothing else. -/
theorem construct {type descriptor : String}
    (takes : Member.Takes ⟨type, "<init>", descriptor⟩
      es.length true) (h : Leaves ctx es is) :
      Leaves ctx [.construct type descriptor es]
        (.new type :: .dup ::
            (is ++ [.call .special ⟨type, "<init>", descriptor⟩])) := by
  intro start s hs
  have hpending : ∀ index, Origin.made start = .made index →
      index < start + 2 := by
    intro index heq
    cases heq
    omega
  have hbefore : Stack.Before (⟨.made start, .uninitialized type⟩ ::
      ⟨.made start, .uninitialized type⟩ :: s) (start + 2) :=
    .cons hpending (.cons hpending (hs.mono (by omega)))
  obtain ⟨vs, hvs, _, hrun⟩ := h (start + 2) _ hbefore
  obtain ⟨signature, hsignature, hlength, _⟩ := takes
  have hcall :
      ctx.step (start + 2 + is.length)
      (.call .special ⟨type, "<init>", descriptor⟩)
      (vs ++ ⟨.made start, .uninitialized type⟩ ::
        ⟨.made start, .uninitialized type⟩ :: s) =
      .ok ([⟨.made (start + 2 + is.length), .construct type descriptor es⟩] ++
        s, []) := by
    rw [Context.step_call (by decide)]
    refine bind_eq_ok.2 ⟨signature, hsignature, ?_⟩
    rw [Stack.popMany_append hvs hlength, Stack.pop, Context.callInstance]
    simp [Member.isConstructor, Stack.holds, Stack.replace]
    exact hs.replace (Nat.le_refl start) _
  refine ⟨[⟨.made (start + 2 + is.length), .construct type descriptor es⟩],
    rfl, ?_, ?_⟩
  · intro v hv
    rw [List.mem_singleton.1 hv]
    exact ⟨_, rfl, by omega, by simp; omega⟩
  · rw [placed_cons, placed_cons, placed_append]
    exact Context.run_cons_of_ok rfl (Context.run_cons_of_ok rfl
      (Context.run_append_of_ok hrun (Context.run_singleton hcall)))

/-- A store through a copy of a fresh array adds the element to the array below,
and changes nothing else. -/
theorem store {array literal value : Expr} {k : Int32} (kind : Kind)
    (hfold : ctx.recover.arrayLiterals = true)
    (hextended : array.extended? (.int k) value = some literal)
    (h : Leaves ctx [array] is) (h' : Leaves ctx [value] js) :
    Leaves ctx [literal]
      (is ++ .dup :: .constant (.int k) :: (js ++ [.arrayStore kind])) := by
  intro start s hs
  obtain ⟨vs, hvs, hmade, hrun⟩ := h start s hs
  obtain ⟨o, rfl⟩ := Stack.eq_singleton_of_exprs hvs
  obtain ⟨made, rfl, hle, hlt⟩ := hmade _ List.mem_cons_self
  have hcopy : ∀ index, Origin.made made = .made index →
      index < start + is.length + 2 := by
    intro index heq
    cases heq
    omega
  have hindex : ∀ index, Origin.made (start + is.length + 1) = .made index →
      index < start + is.length + 2 := by
    intro index heq
    cases heq
    omega
  have hbefore :
      Stack.Before
      (⟨.made (start + is.length + 1), .int k⟩ :: ⟨.made made, array⟩ ::
      ⟨.made made, array⟩ :: s) (start + is.length + 2) :=
    .cons hindex (.cons hcopy (.cons hcopy (hs.mono (by omega))))
  obtain ⟨ws, hws, _, hrun'⟩ := h' (start + is.length + 2) _ hbefore
  obtain ⟨p, rfl⟩ := Stack.eq_singleton_of_exprs hws
  have hstore : ctx.step (start + is.length + 2 + js.length) (.arrayStore kind)
      (⟨p, value⟩ :: ⟨.made (start + is.length + 1), .int k⟩ ::
        ⟨.made made, array⟩ :: ⟨.made made, array⟩ :: s) =
      .ok ([⟨.made (start + is.length + 2 + js.length), literal⟩] ++ s,
        []) := by
    simp [Context.step, Stack.pop, Context.storeElement, hfold, hextended,
      Stack.holds, Stack.replace]
    exact hs.replace hle _
  refine ⟨[⟨.made (start + is.length + 2 + js.length), literal⟩], rfl, ?_, ?_⟩
  · intro v hv
    rw [List.mem_singleton.1 hv]
    exact ⟨_, rfl, by omega, by simp; omega⟩
  · rw [placed_append, placed_cons, placed_cons, placed_append]
    exact Context.run_append_of_ok hrun
      (Context.run_cons_of_ok rfl (Context.run_cons_of_ok rfl
      (Context.run_append_of_ok hrun' (Context.run_singleton hstore))))

end Leaves

/-- An index that is listed next is the number of elements listed so far. -/
theorem toInt_ofNat_of_lt_toInt {k : Nat} {n : Int32} (h : k < n.toInt) :
    (Int32.ofNat k).toInt = k := by
  have hbound := n.toInt_lt
  apply Int32.toInt_ofNat_of_lt
  omega

theorem Expr.extended?_newArray {component : String} {n : Int32}
    (h : 0 < n.toInt) (v : Expr) :
    (Expr.newArray component (.int n)).extended? (.int 0) v =
      some (.arrayLiteral component (.int n) [v]) := by
  rw [Expr.extended?, if_pos ⟨rfl, h⟩]

theorem Expr.extended?_arrayLiteral {component : String} {n : Int32}
    {values : List Expr} (h : values.length < n.toInt) (v : Expr) :
    (Expr.arrayLiteral component (.int n) values).extended?
      (.int (.ofNat values.length)) v =
      some (.arrayLiteral component (.int n) (values ++ [v])) := by
  have hindex := toInt_ofNat_of_lt_toInt h
  rw [Expr.extended?, if_pos ⟨hindex, hindex ▸ h⟩]

/-- **Compiled expressions.**  Simulating the code of some expressions leaves
these expressions. -/
theorem leaves_of_compiles {es : List Expr} {is : List Instr}
    (h : Compiles es is) : Leaves (.plain m) es is := by
  induction h with
  | nil => exact .nil
  | cons _ _ ihFirst ihRest => exact ihFirst.append ihRest
  | null => exact .push fun index s => rfl
  | constant c => exact .push fun index s => rfl
  | load kind slot =>
    apply Leaves.push
    intro index s
    rw [Context.step, Context.localAt_plain]
  | staticField field => exact .push fun index s => rfl
  | instanceField field _ ih => exact ih.unary fun index o s => rfl
  | element kind _ ih => exact ih.binary fun index o p s => rfl
  | length _ ih => exact ih.unary fun index o s => rfl
  | binary op kind _ ih => exact ih.binary fun index o p s => rfl
  | neg kind _ ih => exact ih.unary fun index o s => rfl
  | convert source target _ ih => exact ih.unary fun index o s => rfl
  | checkCast type _ ih => exact ih.unary fun index o s => rfl
  | instanceOf type _ ih => exact ih.unary fun index o s => rfl
  | compare how _ ih => exact ih.binary fun index o p s => rfl
  | callStatic takes _ ih | callDynamic takes _ ih =>
    obtain ⟨signature, hsignature, hlength, hvoid⟩ := takes
    apply ih.snoc
    intro index vs s hvs
    rw [Context.step]
    refine bind_eq_ok.2 ⟨signature, hsignature, ?_⟩
    rw [Stack.popMany_append hvs hlength, Context.afterCall, hvoid]
    rfl
  | @callInstance r args is how f takes receives ordinary _ ih =>
    obtain ⟨signature, hsignature, hlength, hvoid⟩ := takes
    apply ih.snoc
    intro index vs s hvs
    -- the receiver is below the arguments
    obtain ⟨ws, w, rfl, hws, rfl⟩ := Stack.eq_append_of_exprs hvs
    have hcall : (Context.plain m).callInstance index how w f signature args s =
        (⟨.made index, .callInstance how w.expr f args⟩ :: s, []) := by
      rw [Context.callInstance, ordinary]
      simp [Context.plain, Context.afterCall, hvoid]
    rw [Context.step_call receives]
    refine bind_eq_ok.2 ⟨signature, hsignature, ?_⟩
    rw [List.append_assoc, Stack.popMany_append hws hlength]
    exact congrArg Except.ok hcall
  | construct takes _ ih => exact ih.construct takes
  | newArray component _ ih => exact ih.unary fun index o s => rfl
  | firstElement kind _ _ fits ihArray ihValue =>
    exact .store kind rfl (Expr.extended?_newArray fits _) ihArray ihValue
  | nextElement kind _ _ fits ihArray ihValue =>
    exact .store kind rfl (Expr.extended?_arrayLiteral fits _) ihArray ihValue
  | newMultiArray descriptor _ _ ih =>
    apply ih.snoc
    intro index vs s hvs
    rw [Context.step, Stack.popMany_append hvs rfl]

/-- **Simulation undoes compilation.**  Simulating the code of an expression,
wherever it stands in a method and whatever is on the stack, leaves the
expression on top, as a new value, and performs no action. -/
theorem simulate_of_compiles {e : Expr} {before code after : List Instr}
    (hcode : Compiles [e] code) (hm : m.instrs = before ++ code ++ after)
    (entries : List (Nat × Expr)) :
    ∃ index, (Context.plain m).simulate before.length
      (before.length + code.length)
      (.ofEntries entries) = .ok (⟨.made index, e⟩ :: Stack.ofEntries entries,
          []) := by
  obtain ⟨vs, hvs, hmade, hrun⟩ :=
    leaves_of_compiles hcode (m := m) before.length _
      (Stack.Before.ofEntries entries _)
  obtain ⟨o, rfl⟩ := Stack.eq_singleton_of_exprs hvs
  obtain ⟨index, rfl, _⟩ := hmade _ List.mem_cons_self
  refine ⟨index, ?_⟩
  rw [Context.simulate]
  change (Context.plain m).run (m.slice _ _) _ = _
  rw [Method.slice_eq_placed hm]
  exact hrun

/-- `new A(new A(), new int[] { local0, 1 })`. -/
def nestedObject : Expr :=
  .construct "A" "(LA;[I)V"
    [.construct "A" "()V" [],
      .arrayLiteral "I" (.int 2) [.var (.ofAccess .int 0), .int 1]]

/-- The code of `nestedObject`. -/
def nestedObjectCode : List Instr :=
  [.new "A", .dup,
    .new "A", .dup, .call .special ⟨"A", "<init>", "()V"⟩,
    .constant (.int 2), .newArray "I",
    .dup, .constant (.int 0), .load .int 0, .arrayStore .int,
    .dup, .constant (.int 1), .constant (.int 1), .arrayStore .int,
    .call .special ⟨"A", "<init>", "(LA;[I)V"⟩]

theorem compiles_nestedObject : Compiles [nestedObject] nestedObjectCode := by
  have hinner : Compiles [.construct "A" "()V" []]
      [.new "A", .dup, .call .special ⟨"A", "<init>", "()V"⟩] :=
    .construct ⟨⟨[], "V"⟩, by rfl, rfl, by rfl⟩ .nil
  have hfirst := Compiles.firstElement .int (.newArray "I" (.constant (.int 2)))
    (.load .int 0) (by decide)
  have harray :=
    Compiles.nextElement .int hfirst (.constant (.int 1)) (by decide)
  exact .construct ⟨⟨["LA;", "[I"], "V"⟩, by rfl, rfl, by rfl⟩
    (.cons hinner (.cons harray .nil))

/-- Each constructor call and each store finds its own object below equal
ones. -/
theorem simulate_nestedObject : Compiles [nestedObject] nestedObjectCode ∧
    ∃ index,
      (Context.plain ⟨[.nop] ++ nestedObjectCode ++ [.throw],
        [], by decide⟩).simulate 1 17
      (.ofEntries [(0, .uninitialized "A"), (1, .newArray "I" (.int 2))]) =
        .ok (⟨.made index, nestedObject⟩ ::
          Stack.ofEntries
            [(0, .uninitialized "A"), (1, .newArray "I" (.int 2))], []) :=
  ⟨compiles_nestedObject,
    @simulate_of_compiles _ _ [.nop] _ [.throw] compiles_nestedObject rfl _⟩

end Decompiler
