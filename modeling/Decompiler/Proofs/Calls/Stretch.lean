import Decompiler.Proofs.Calls.Bytecode
import Decompiler.Proofs.Calls.Code
import Decompiler.Proofs.Result
import Decompiler.Simulation.Step

/-!
# Straight stretches of call code

Between two jumps a method of calls places labels and makes calls that return
nothing.  Executing such a stretch makes its calls; simulating it leaves them
behind as actions.  A stretch without a call does nothing at all.

* `Stretch.running`: execution makes the calls of the stretch first.
* `Stretch.simulate_succ`: simulation leaves the calls of the stretch.
* `exists_stretch`: instructions that are labels or calls make a stretch.
-/

namespace Decompiler

/-- An action that calls a static method without arguments. -/
def Action.ofCall (f : Member) : Action := .evaluate (.callStatic f [])

namespace Method

variable {m : Method} {i j k : Nat}

/-- The instructions of a slice are those at its positions. -/
theorem mem_range_iff {x : Instr} :
    x ∈ (m.instrs.take j).drop i ↔ ∃ k, i ≤ k ∧ k < j ∧ k < m.length ∧
      m.instr k = x := by
  rw [List.mem_iff_getElem?]
  constructor
  · rintro ⟨n, hn⟩
    rw [List.getElem?_drop, List.getElem?_take] at hn
    split at hn
    · rename_i hlt
      obtain ⟨hlen, _⟩ := List.getElem?_eq_some_iff.1 hn
      refine ⟨i + n, by omega, hlt, hlen, ?_⟩
      rw [instr, List.getD_eq_getElem?_getD, hn, Option.getD_some]
    · cases hn
  · rintro ⟨k, hik, hkj, hk, rfl⟩
    have hlen : k < m.instrs.length := hk
    refine ⟨k - i, ?_⟩
    rw [List.getElem?_drop, List.getElem?_take,
      show i + (k - i) =
        k by omega, if_pos hkj, List.getElem?_eq_getElem hlen, instr, List.getD_eq_getElem?_getD,
      List.getElem?_eq_getElem hlen, Option.getD_some]

/-- Nothing happens in a range of labels and debug markers. -/
theorem acts_eq_false_iff : m.acts i j = false ↔
    ∀ k, i ≤ k → k < j → k < m.length → (m.instr k).isMarker = true := by
  simp only [acts, List.any_eq_false, mem_range_iff, Bool.not_eq_true',
    Bool.not_eq_false]
  constructor
  · exact fun h k hik hkj hk => h _ ⟨k, hik, hkj, hk, rfl⟩
  · rintro h _ ⟨k, hik, hkj, hk, rfl⟩
    exact h k hik hkj hk

/-- An empty stretch does nothing. -/
theorem acts_self (m : Method) (i : Nat) : m.acts i i = false :=
  acts_eq_false_iff.2 fun k hik hki => absurd hik (by omega)

/-- Two stretches that do nothing do nothing together. -/
theorem acts_trans (hij : m.acts i j = false) (hjk : m.acts j k = false) :
    m.acts i k = false := by
  rw [acts_eq_false_iff] at *
  intro n hin hnk hn
  by_cases hnj : n < j
  · exact hij n hin hnj hn
  · exact hjk n (by omega) hnk hn

/-- Part of a stretch that does nothing does nothing. -/
theorem acts_mono {i' j' : Nat} (h : m.acts i j = false) (hi : i ≤ i')
    (hj : j' ≤ j) : m.acts i' j' = false := by
  rw [acts_eq_false_iff] at *
  exact fun k hik hkj hk => h k (by omega) (by omega) hk

/-- A stretch that does something is not empty. -/
theorem lt_of_acts (h : m.acts i j = true) : i < j := by
  refine Nat.lt_of_not_le fun hle => ?_
  have hidle : m.acts i j = false := acts_eq_false_iff.2 fun k hik hkj => by
    omega
  rw [h] at hidle
  cases hidle

@[simp] theorem slice_self (m : Method) (i : Nat) : m.slice i i = [] := by
  have hnil : (m.instrs.take i).drop i = [] :=
    List.drop_eq_nil_iff.2 (List.length_take_le _ _)
  simp [slice, hnil]

/-- A slice starts with the instruction at its start. -/
theorem slice_of_lt (hij : i < j) (hi : i < m.length) :
    m.slice i j = (i, m.instr i) :: m.slice (i + 1) j := by
  have hlen : i < (m.instrs.take j).length := by
    have hm : m.length = m.instrs.length := rfl
    rw [List.length_take]
    omega
  have hget : (m.instrs.take j)[i] = m.instr i := by
    rw [List.getElem_take, instr, List.getD_eq_getElem?_getD,
      List.getElem?_eq_getElem hi, Option.getD_some]
    rfl
  rw [slice, List.drop_eq_getElem_cons hlen, hget]
  rfl

/-- Whether only labels stand in a range, and calls that return nothing. -/
def Straight (m : Method) (i j : Nat) : Prop :=
  ∀ k, i ≤ k → k < j →
    (∃ l, m.instr k = .label l) ∨ ∃ f, m.instr k = .call .static f ∧
    f.descriptor = "()V"

/-- The calls in a range of labels and calls that return nothing. -/
inductive Stretch (m : Method) : (i j : Nat) → List Member → Prop
  | nil {i : Nat} : Stretch m i i []
  | label {i j : Nat} {l : Label} {fs : List Member} (h : m.instr i = .label l)
      (rest : Stretch m (i + 1) j fs) : Stretch m i j fs
  | call {i j : Nat} {f : Member} {fs : List Member}
      (h : m.instr i = .call .static f)
      (hf : f.descriptor = "()V") (rest : Stretch m (i + 1) j fs) :
      Stretch m i j (f :: fs)

/-- Straight code makes some calls. -/
theorem exists_stretch (hij : i ≤ j) (h : m.Straight i j) :
    ∃ fs, m.Stretch i j fs := by
  induction hn : j - i generalizing i with
  | zero =>
    obtain rfl : i = j := by omega
    exact ⟨[], .nil⟩
  | succ n ih =>
    obtain ⟨fs, hfs⟩ :=
      ih (i := i + 1) (by omega) (fun k hk => h k (by omega)) (by omega)
    rcases h i (Nat.le_refl i) (by omega) with ⟨l, hl⟩ | ⟨f, hcall, hf⟩
    · exact ⟨fs, .label hl hfs⟩
    · exact ⟨f :: fs, .call hcall hf hfs⟩

namespace Stretch

variable {fs : List Member}

/-- A stretch ends behind its start. -/
theorem le (h : m.Stretch i j fs) : i ≤ j := by
  induction h with
  | nil => exact Nat.le_refl _
  | label _ _ ih | call _ _ _ ih => omega

/-- A stretch without calls does nothing. -/
theorem acts_eq_false (h : m.Stretch i j []) : m.acts i j = false := by
  generalize hfs : ([] : List Member) = fs at h
  induction h with
  | nil => exact m.acts_self _
  | @label i j l fs hl _ ih =>
    have hfirst : m.acts i (i + 1) = false :=
      acts_eq_false_iff.2 fun k hik hki _ => by
        obtain rfl : k = i := by omega
        rw [hl]
        rfl
    exact acts_trans hfirst (ih hfs)
  | call => cases hfs

/-- A stretch that does nothing has no calls. -/
theorem eq_nil (h : m.Stretch i j fs) (hacts : m.acts i j = false) :
    fs = [] := by
  induction h with
  | nil => rfl
  | label _ _ ih => exact ih (acts_mono hacts (by omega) (Nat.le_refl _))
  | @call i j f fs hcall _ rest ih =>
    have hi : i < m.length := lt_length_of_instr hcall (by simp)
    have hle := rest.le
    have hmarker := acts_eq_false_iff.1 hacts i (Nat.le_refl i) (by omega) hi
    rw [hcall] at hmarker
    cases hmarker

/-- Execution makes the calls of a stretch first. -/
theorem running (h : m.Stretch i j fs) :
    m.running i = .callAll fs (m.running j) := by
  induction h with
  | nil => rfl
  | label hl _ ih => rw [running_of_label hl, ih]
  | call hcall hf _ ih =>
    rw [running_of_call hcall hf, ih]
    rfl

/-- Simulation leaves the calls of a stretch behind as actions. -/
theorem run_slice (ctx : Context) (h : ctx.method.Stretch i j fs) (s : Stack) :
    ctx.run (ctx.method.slice i j) s = .ok (s, fs.map Action.ofCall) := by
  induction h with
  | nil =>
    rw [slice_self]
    rfl
  | @label i j l fs hl rest ih =>
    have hi : i < ctx.method.length := lt_length_of_instr hl (by simp)
    have hle := rest.le
    have hstep : ctx.step i (.label l) s = .ok (s, []) := rfl
    rw [slice_of_lt (by omega) hi, hl, Context.run, hstep]
    change (do let r ← ctx.run _ s; return (r.1, [] ++ r.2)) = _
    rw [ih]
    rfl
  | @call i j f fs hcall hf rest ih =>
    have hi : i < ctx.method.length := lt_length_of_instr hcall (by simp)
    have hle := rest.le
    have hstep :
        ctx.step i (.call .static f) s = .ok (s, [Action.ofCall f]) := by
      rw [Context.step, hf]
      rfl
    rw [slice_of_lt (by omega) hi, hcall, Context.run, hstep]
    change (do let r ← ctx.run _ s; return (r.1, [Action.ofCall f] ++ r.2)) = _
    rw [ih]
    rfl

end Stretch

/-- Nothing is cut out behind the end of the code. -/
theorem slice_of_length_le (h : m.length ≤ i) (j : Nat) : m.slice i j = [] := by
  have hnil : (m.instrs.take j).drop i = [] :=
    List.drop_eq_nil_of_le (Nat.le_trans (List.length_take_le' _ _) h)
  simp [slice, hnil]

/-- A slice splits at any position inside it. -/
theorem slice_append (hik : i ≤ k) (hkj : k ≤ j) : m.slice i j = m.slice i k ++
      m.slice k j := by
  induction hn : k - i generalizing i with
  | zero =>
    obtain rfl : i = k := by omega
    rw [slice_self, List.nil_append]
  | succ n ih =>
    by_cases hi : i < m.length
    · rw [slice_of_lt (i := i) (j := j) (by omega) hi,
        slice_of_lt (i := i) (j := k) (by omega) hi, ih (by omega) (by omega),
        List.cons_append]
    · have hlen : m.length ≤ i := by omega
      rw [slice_of_length_le hlen, slice_of_length_le hlen,
        slice_of_length_le (by omega)]
      rfl

/-- A stretch before one more instruction. -/
theorem Stretch.simulate_succ {fs : List Member} {ctx : Context}
    (h : ctx.method.Stretch i k fs) (hk : k < ctx.method.length) :
    ctx.simulate i (k + 1) [] = do
      let (s, actions) ← ctx.step k (ctx.method.instr k) []
      return (s, fs.map Action.ofCall ++ actions) := by
  rw [Context.simulate, slice_append h.le (Nat.le_succ k), Context.run_append,
    h.run_slice ctx, slice_of_lt (Nat.lt_succ_self k) hk, slice_self]
  change (do
    let (s, actions) ← ctx.run [(k, ctx.method.instr k)] []
    return (s, fs.map Action.ofCall ++ actions)) = _
  rw [Context.run]
  cases ctx.step k (ctx.method.instr k) [] with
  | error f => rfl
  | ok r => simp [Context.run, bind, Except.bind, pure, Except.pure]

/-- The only markers in call code are labels. -/
theorem exists_label_of_isMarker (hcode : isCallCode m.instrs = true)
    (hi : i < m.length) (h : (m.instr i).isMarker = true) :
    ∃ l, m.instr i = .label l := by
  have hkind := callInstr hcode hi
  generalize m.instr i = x at h hkind
  cases hkind with
  | label l => exact ⟨l, rfl⟩
  | _ => cases h

/-- What markers do not change, and the end of the code does not either, is the
same all over a stretch that does nothing. -/
theorem eq_of_acts_eq_false {γ : Type} {f : Nat → γ}
    (hmarker : ∀ i < m.length, (m.instr i).isMarker = true → f i = f (i + 1))
    (hend : ∀ i, m.length ≤ i → f i = f m.length) (hij : i ≤ j)
    (h : m.acts i j = false) : f i = f j := by
  induction hn : j - i generalizing i with
  | zero =>
    obtain rfl : i = j := by omega
    rfl
  | succ n ih =>
    rcases Nat.lt_or_ge i m.length with hi | hi
    · rw [hmarker i hi (acts_eq_false_iff.1 h i (Nat.le_refl i) (by omega) hi)]
      exact ih (by omega) (acts_mono h (Nat.le_succ i) (Nat.le_refl j))
        (by omega)
    · rw [hend i hi, hend j (Nat.le_trans hi hij)]

/-- Labels do nothing in execution. -/
theorem running_of_acts_eq_false (hcode : isCallCode m.instrs = true)
    (hij : i ≤ j) (h : m.acts i j = false) : m.running i = m.running j := by
  refine eq_of_acts_eq_false (fun i hi hmarker => ?_) (fun i hi => ?_) hij h
  · obtain ⟨l, hl⟩ := exists_label_of_isMarker hcode hi hmarker
    rw [running_of_label hl]
  · rw [running_of_length_le hi, running_of_length_le (Nat.le_refl _)]

end Method

end Decompiler
