import Decompiler.Bytecode.Kind

/-!
# Calls and answers

Code whose only effects are calls is known by the calls it makes.  Some of the
calls are tests: they answer yes or no, and what is called next may depend on
the answers.  The answers themselves come from outside, as an endless sequence
that is used up in order.

* `trace` lists the calls that a machine makes within a number of steps.
* `Makes` says which lists of calls are the first ones that a machine makes,
  however many steps they take.  This is the behavior of the machine.
* `Behavior.Agree` says that two behaviors are the same up to a number of
  calls; behaviors that agree up to every number are equal.

A loop is compared with another up to ever more calls: each round of it makes
at least one.
-/

namespace Decompiler

/-- What a machine does in one step. -/
inductive Act (σ : Type)
  | halts
  | moves (next : σ)
  | calls (method : Member) (next : σ)
  /-- Calls a method that answers yes or no. -/
  | asks (method : Member) (next : Bool → σ)

/-- The answers that tests give, in the order in which they are asked. -/
abbrev Answers := Nat → Bool

/-- The answers after the first. -/
def Answers.tail (a : Answers) : Answers := fun n => a (n + 1)

/-- For each sequence of answers, the lists of calls that come first. -/
abbrev Behavior := Answers → List Member → Prop

section Machine

variable {σ : Type} (step : σ → Act σ)

/-- The calls that a machine makes within a number of steps. -/
def trace : (steps : Nat) → Answers → σ → List Member
  | 0, _, _ => []
  | n + 1, a, s =>
    match step s with
    | .halts => []
    | .moves t => trace n a t
    | .calls f t => f :: trace n a t
    | .asks f next => f :: trace n a.tail (next (a 0))

/-- The first calls that a machine makes. -/
def Makes (s : σ) : Behavior := fun a calls => ∃ n, calls <+: trace step n a s

end Machine

namespace Behavior

/-- Makes no call any more. -/
def halt : Behavior := fun _ calls => calls = []

/-- Makes one call before others. -/
def call (f : Member) (b : Behavior) : Behavior
  | _, [] => True
  | a, g :: calls => g = f ∧ b a calls

/-- Makes some calls before others. -/
def callAll (fs : List Member) (b : Behavior) : Behavior := fs.foldr call b

/-- Asks a test and goes on as its answer tells. -/
def ask (f : Member) (b : Bool → Behavior) : Behavior
  | _, [] => True
  | a, g :: calls => g = f ∧ b (a 0) a.tail calls

/-- The two behaviors have the same lists of fewer than `n` calls. -/
def Agree (n : Nat) (b c : Behavior) : Prop :=
  ∀ (a : Answers) (calls : List Member), calls.length < n →
    (b a calls ↔ c a calls)

variable {b c d : Behavior} {n : Nat}

/-- Without calls, a behavior is what comes after them. -/
@[simp] theorem callAll_nil (b : Behavior) : callAll [] b = b := rfl

/-- Calls are made one after the other. -/
@[simp] theorem callAll_cons (f : Member) (fs : List Member) (b : Behavior) :
    callAll (f :: fs) b = call f (callAll fs b) := rfl

/-- Any two behaviors agree before the first call. -/
theorem Agree.zero (b c : Behavior) : Agree 0 b c :=
  fun _ _ h => absurd h (Nat.not_lt_zero _)

/-- A behavior agrees with itself. -/
theorem Agree.refl (n : Nat) (b : Behavior) : Agree n b b :=
  fun _ _ _ => Iff.rfl

/-- Behaviors that agree for some calls agree for fewer. -/
theorem Agree.mono {k : Nat} (h : Agree n b c) (hk : k ≤ n) : Agree k b c :=
  fun a calls hlen => h a calls (Nat.lt_of_lt_of_le hlen hk)

/-- Behaviors that agree up to every number of calls are equal. -/
theorem eq_of_agree (h : ∀ n, Agree n b c) : b = c := by
  funext a calls
  exact propext (h (calls.length + 1) a calls (Nat.lt_succ_self _))

/-- A call in front makes behaviors agree on one call more. -/
theorem Agree.call (f : Member) (h : Agree n b c) :
    Agree (n + 1) (call f b) (call f c) := by
  intro a calls hlen
  cases calls with
  | nil => exact Iff.rfl
  | cons g calls =>
    have hcalls : calls.length < n := by simpa using hlen
    exact and_congr_right fun _ => h a calls hcalls

/-- Each call made in front lets behaviors agree for one more. -/
theorem Agree.callAll (fs : List Member) (h : Agree n b c) :
    Agree (n + fs.length) (callAll fs b) (callAll fs c) := by
  induction fs with
  | nil => exact h
  | cons f fs ih => exact ih.call f

/-- A test in front makes behaviors agree on one call more. -/
theorem Agree.ask (f : Member) {b c : Bool → Behavior}
    (h : ∀ x, Agree n (b x) (c x)) : Agree (n + 1) (ask f b) (ask f c) := by
  intro a calls hlen
  cases calls with
  | nil => exact Iff.rfl
  | cons g calls =>
    have hcalls : calls.length < n := by simpa using hlen
    exact and_congr_right fun _ => h (a 0) a.tail calls hcalls

end Behavior

section Machine

variable {σ : Type} {step : σ → Act σ} {s : σ}

/-- A state that halts makes no calls. -/
theorem makes_of_halts (h : step s = .halts) :
    Makes step s = Behavior.halt := by
  funext a calls
  refine propext ⟨fun ⟨n, hn⟩ => ?_, fun hc => ⟨0, hc ▸ List.prefix_refl _⟩⟩
  cases n with
  | zero => simpa [trace, Behavior.halt] using hn
  | succ n => simpa [trace, h, Behavior.halt] using hn

/-- A state that moves on makes the calls of the next one. -/
theorem makes_of_moves {t : σ} (h : step s = .moves t) :
    Makes step s = Makes step t := by
  funext a calls
  refine propext ⟨fun ⟨n, hn⟩ => ?_, fun ⟨n, hn⟩ => ⟨n + 1, by simpa [trace, h] using hn⟩⟩
  cases n with
  | zero => exact ⟨0, by simpa [trace] using hn⟩
  | succ n => exact ⟨n, by simpa [trace, h] using hn⟩

/-- The first call of a step that makes one, and the calls that follow it. -/
theorem makes_cons_iff {f g : Member} {t : σ} {a b : Answers}
    {calls : List Member}
    (h : ∀ n, trace step (n + 1) a s = f :: trace step n b t) :
    Makes step s a (g :: calls) ↔ g = f ∧ Makes step t b calls := by
  refine ⟨fun ⟨n, hn⟩ => ?_, fun ⟨hg, n, hn⟩ => ⟨n + 1, ?_⟩⟩
  · cases n with
    | zero => simp [trace] at hn
    | succ n =>
      rw [h, List.cons_prefix_cons] at hn
      exact ⟨hn.1, n, hn.2⟩
  · rw [h, List.cons_prefix_cons]
    exact ⟨hg, hn⟩

/-- No calls at all is a start of whatever is made. -/
theorem makes_nil (step : σ → Act σ) (s : σ) (a : Answers) :
    Makes step s a [] :=
  ⟨0, List.nil_prefix⟩

/-- A state that calls makes the call and then what the next one makes. -/
theorem makes_of_calls {f : Member} {t : σ} (h : step s = .calls f t) :
    Makes step s = Behavior.call f (Makes step t) := by
  funext a calls
  cases calls with
  | nil => exact propext (iff_of_true (makes_nil step s a) trivial)
  | cons g calls => exact propext (makes_cons_iff fun n => by rw [trace, h])

/-- A state that asks goes on by the answer. -/
theorem makes_of_asks {f : Member} {next : Bool → σ}
    (h : step s = .asks f next) :
    Makes step s = Behavior.ask f fun x => Makes step (next x) := by
  funext a calls
  cases calls with
  | nil => exact propext (iff_of_true (makes_nil step s a) trivial)
  | cons g calls => exact propext (makes_cons_iff fun n => by rw [trace, h])

end Machine

end Decompiler
