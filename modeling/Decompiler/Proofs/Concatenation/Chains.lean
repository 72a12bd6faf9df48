import Decompiler.Source.Idiom
import Mathlib.Data.List.Forall2
import Mathlib.Data.List.Induction

/-!
# Chains of builder calls

A chain makes a builder, appends to it any number of times and asks for the
text.  It is met from its last call inwards, while its parts are listed from the
first call on, with what the construction puts in before all of them.  The
builder may change its class from one call to the next, and each call may be of
any kind and descriptor.

What is accepted is exactly the chains.  There is no second way to accept a
call: a call that is no append, or a construction that makes room instead of
putting a text in, is not a shorter chain, wherever it stands.

* `Builder.Chain`: a chain, with what makes it one; `Builder.Chain.call` is its
  expression.
* `Builder.Seeds`: what the argument of a construction puts in.
* `Builder.Chain.Gives`: the parts of a chain.
* `Expr.seed_eq_iff`: what a construction starts with.
* `Expr.appended?_foldl_after`, `Expr.exists_of_appended?`: the appends to it.
* `Expr.concatenation?_iff_chain`: chains and concatenations.
-/

namespace Decompiler

namespace Builder

/-- The classes that build strings by appending. -/
inductive IsClass : String → Prop
  | builder : IsClass "java/lang/StringBuilder"
  | buffer : IsClass "java/lang/StringBuffer"

/-- A builder that is made from nothing, or from one argument that is not its
capacity. -/
structure Construction where
  type : String
  descriptor : String
  init : Option Expr
  isClass : IsClass type
  content : init.isSome → descriptor ≠ "(I)V"

/-- The expression of a construction. -/
def Construction.made (start : Construction) : Expr :=
  .construct start.type start.descriptor start.init.toList

/-- A call that appends its one argument. -/
structure Append where
  how : CallKind
  method : Member
  arg : Expr
  name_eq : method.name = "append"
  isClass : IsClass method.owner

/-- The expression of an append to a receiver. -/
def Append.after (receiver : Expr) (a : Append) : Expr :=
  .callInstance a.how receiver a.method [a.arg]

/-- A construction, the appends in the order of the calls, and the call for the
text. -/
structure Chain where
  start : Construction
  appends : List Append
  how : CallKind
  method : Member
  name_eq : method.name = "toString"
  isClass : IsClass method.owner

/-- The expression of a chain. -/
def Chain.call (c : Chain) : Expr :=
  .callInstance c.how (c.appends.foldl Append.after c.start.made) c.method []

/-- A conversion to a string around a value that is a string already. -/
def Wraps (init part : Expr) : Prop :=
  ∃ method : Member, init = .callStatic method [part] ∧
    method.owner = "java/lang/String" ∧ method.name = "valueOf" ∧
    ((∃ text, part = .string text) ∨
      part.descriptor? = some "Ljava/lang/String;")

/-- What the argument of a construction puts in: what it wraps, or else
itself. -/
def Seeds (init part : Expr) : Prop :=
  Wraps init part ∨ part = init ∧ ∀ e, ¬ Wraps init e

/-- The parts of a construction and of the appends to it. -/
def Gives (start : Construction) (appends : List Append) (parts : List Expr) :
    Prop :=
  ∃ front, List.Forall₂ Seeds start.init.toList front ∧ parts = front ++
    appends.map Append.arg

/-- The parts of a chain. -/
def Chain.Gives (c : Chain) (parts : List Expr) : Prop :=
  Builder.Gives c.start c.appends parts

end Builder

namespace Expr

open Builder

variable {e init part : Expr} {parts : List Expr} {type : String}

/-- The types that build strings are those of the two builder classes. -/
theorem buildsStrings_iff : buildsStrings type = true ↔ IsClass type := by
  constructor
  · intro h
    rcases Bool.or_eq_true_iff.1 h with h | h
    · exact eq_of_beq h ▸ .builder
    · exact eq_of_beq h ▸ .buffer
  · rintro (_ | _) <;> rfl

/-! ### The construction -/

/-- A part is a text if it is written as one or has that type. -/
theorem isString_iff :
    part.isString = true ↔
      (∃ text, part = .string text) ∨
        part.descriptor? = some "Ljava/lang/String;" := by
  cases part <;> simp [isString, descriptor?, stringType]

/-- What has been wrapped as a text is the seed. -/
theorem seed_of_wraps (h : Wraps init part) : init.seed = part := by
  obtain ⟨method, rfl, howner, hname, hstring⟩ := h
  simp [seed, howner, hname, isString_iff.2 hstring]

/-- What has not been wrapped is the seed itself. -/
theorem seed_of_not_wraps (h : ∀ e, ¬ Wraps init e) : init.seed = init := by
  unfold seed
  split
  · rename_i method arg
    refine if_neg fun hwraps => h arg ⟨method, rfl, ?_⟩
    simpa [isString_iff, and_assoc] using hwraps
  · rfl

/-- The text that a builder starts with is what the argument wraps, or else the
argument. -/
theorem seed_eq_iff : init.seed = part ↔ Seeds init part := by
  constructor
  · rintro rfl
    by_cases h : ∃ e, Wraps init e
    · obtain ⟨e, he⟩ := h
      exact .inl (seed_of_wraps he ▸ he)
    · have hnone := not_exists.1 h
      exact .inr ⟨seed_of_not_wraps hnone, hnone⟩
  · rintro (h | ⟨rfl, h⟩)
    · exact seed_of_wraps h
    · exact seed_of_not_wraps h

/-- A builder that has just been made holds what it is made from. -/
theorem appended?_made (start : Construction) :
    start.made.appended? = some (start.init.toList.map seed) := by
  have htype := buildsStrings_iff.2 start.isClass
  unfold Construction.made
  cases hinit : start.init with
  | none => simp [appended?, htype]
  | some init => simp [appended?, htype, start.content (by simp [hinit])]

/-- The parts of a chain are what the builder is made from and what is
appended. -/
theorem gives_iff {start : Construction} {appends : List Append} :
    Gives start appends parts ↔
      parts = start.init.toList.map seed ++ appends.map Append.arg := by
  have hfront (front : List Expr) :
      List.Forall₂ Seeds start.init.toList front ↔
      front = start.init.toList.map seed := by
    rw [eq_comm, ← List.forall₂_eq_eq_eq, List.forall₂_map_left_iff]
    simp only [seed_eq_iff]
  simp only [Gives, hfront, exists_eq_left]

/-! ### The calls after it -/

/-- One more call appends one more part. -/
theorem appended?_after (receiver : Expr) (a : Append) :
    (a.after receiver).appended? = receiver.appended?.map (· ++ [a.arg]) := by
  simp [Append.after, appended?, a.name_eq, buildsStrings_iff.2 a.isClass]

/-- Every construction and every row of appends to it is accepted. -/
theorem appended?_foldl_after (start : Construction) (appends : List Append) :
    (appends.foldl Append.after start.made).appended? =
      some (start.init.toList.map seed ++ appends.map Append.arg) := by
  induction appends using List.reverseRecOn with
  | nil => rw [List.foldl_nil, appended?_made, List.map_nil, List.append_nil]
  | append_singleton appends a ih =>
    rw [List.foldl_concat, appended?_after, ih, Option.map_some,
      List.map_append, ← List.append_assoc]
    rfl

/-- Nothing else is accepted: the calls are peeled off from the last one. -/
theorem exists_of_appended? (h : e.appended? = some parts) :
    ∃ (start : Construction) (appends : List Append),
      e = appends.foldl Append.after start.made := by
  induction e using appended?.induct generalizing parts with
  | case1 how receiver method arg hcall ih =>
    obtain ⟨hname, hclass⟩ := (Bool.and_eq_true_iff).1 hcall
    rw [appended?, if_pos hcall] at h
    obtain ⟨before, hbefore, -⟩ := Option.map_eq_some_iff.1 h
    obtain ⟨start, appends, rfl⟩ := ih hbefore
    let a : Append :=
      ⟨how, method, arg, eq_of_beq hname, buildsStrings_iff.1 hclass⟩
    refine ⟨start, appends ++ [a], ?_⟩
    rw [List.foldl_concat]
    rfl
  | case3 type descriptor htype =>
    exact ⟨⟨type, descriptor, none, buildsStrings_iff.1 htype, by simp⟩,
      [], rfl⟩
  | case5 type descriptor arg hmade =>
    obtain ⟨htype, hdescriptor⟩ := (Bool.and_eq_true_iff).1 hmade
    exact ⟨⟨type, descriptor, some arg, buildsStrings_iff.1 htype,
      fun _ => bne_iff_ne.1 hdescriptor⟩, [], rfl⟩
  | case2 how receiver method arg hcall => simp [appended?, hcall] at h
  | case4 type descriptor htype => simp [appended?, htype] at h
  | case6 type descriptor arg hmade => simp [appended?, hmade] at h
  | case7 e => simp_all [appended?]

/-! ### The whole chain -/

/-- A chain of calls is read as the concatenation of its parts. -/
theorem concatenation?_call (c : Chain) :
    c.call.concatenation? =
      some (concat (c.start.init.toList.map seed ++ c.appends.map Append.arg)) := by
  simp [Chain.call, concatenation?, c.name_eq, buildsStrings_iff.2 c.isClass,
    appended?_foldl_after]

/-- Only a chain of calls is read as a concatenation. -/
theorem exists_of_concatenation? {r : Expr} (h : e.concatenation? = some r) :
    ∃ c : Chain, e = c.call := by
  unfold concatenation? at h
  split at h
  · rename_i how receiver method
    split at h
    · rename_i hcall
      obtain ⟨hname, hclass⟩ := (Bool.and_eq_true_iff).1 hcall
      obtain ⟨parts, hparts, -⟩ := Option.map_eq_some_iff.1 h
      obtain ⟨start, appends, rfl⟩ := exists_of_appended? hparts
      exact ⟨⟨start, appends, how, method, eq_of_beq hname,
        buildsStrings_iff.1 hclass⟩, rfl⟩
    · cases h
  · cases h

/-- **Chains.**  A call is taken for a concatenation exactly if it asks a
builder for its text after any number of appends to a fresh builder.  The
concatenation is of what the construction puts in, if it has an argument, and of
the arguments of the appends in the order of the calls. -/
theorem concatenation?_iff_chain :
    (∀ e : Expr, e.concatenation?.isSome ↔ ∃ c : Chain, e = c.call) ∧
      ∀ (c : Chain) (r : Expr),
        c.call.concatenation? = some r ↔ ∃ parts, c.Gives parts ∧
          r = concat parts := by
  refine ⟨fun e => ⟨fun h => ?_, ?_⟩, fun c r => ?_⟩
  · obtain ⟨r, hr⟩ := Option.isSome_iff_exists.1 h
    exact exists_of_concatenation? hr
  · rintro ⟨c, rfl⟩
    rw [concatenation?_call, Option.isSome_some]
  · simp only [concatenation?_call, Chain.Gives, gives_iff, exists_eq_left,
      Option.some.injEq, eq_comm]

/-- A builder that becomes a buffer, and a conversion that is left out. -/
example :
    let text : Expr := callStatic ⟨"java/lang/String", "valueOf",
      "(Ljava/lang/Object;)Ljava/lang/String;"⟩ [string "a"]
    let start :=
      construct "java/lang/StringBuilder" "(Ljava/lang/String;)V" [text]
    let appended := callInstance .virtual start
      ⟨"java/lang/StringBuffer", "append", "(I)Ljava/lang/StringBuffer;"⟩
      [int 1]
    (callInstance .virtual appended
      ⟨"java/lang/StringBuilder", "toString", "()Ljava/lang/String;"⟩
      []).concatenation? =
        some (concat [string "a", int 1]) := rfl

end Expr

end Decompiler
