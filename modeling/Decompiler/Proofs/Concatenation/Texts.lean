import Decompiler.Proofs.Concatenation.Chains

/-!
# The text of a concatenation

A builder turns an operand into text as the parameter of the append asks: the
same word is a number, a character or a truth value, and an array of characters
is its content.  A concatenation has no parameters and goes by what is known of
the operand itself, as source code does, where an array is an object like any
other.

A chain gives up the parameters of its appends when it becomes a concatenation.
So the text stays the same for all operands exactly if every operand by itself
asks for what the parameter asked for.  A constant is a number by itself, so a
chain that appends a constant as a character spells it out as a number
afterwards; an array of characters that is appended by content is never kept.
One operand that disagrees is enough, since its two texts can be told apart by
their first character, whatever the others are.

* `Builder.Conversion.text?`: the text of a value.
* `Builder.Chain.run?`: what the calls of a chain build.
* `Builder.joined?`: the parts, each by its own type, put together.
* `Builder.Operand.Agrees`: the parameter asks for what the operand is by
  itself.
* `Builder.joined?_of_agrees`: operands that agree keep the text.
* `Builder.Conversion.exists_clash`, `Builder.exists_values_of_not_agrees`:
  others do not.
* `Builder.Chain.keepsText_iff`: the two together.
* `Builder.letter_is_spelled_out`: a constant that is appended as a character.
-/

namespace Decompiler.Builder

/-- The UTF-16 code units of a text. -/
abbrev Text := List UInt16

/-- A text that is written in ASCII. -/
def ascii (s : String) : Text := s.toList.map fun c => UInt16.ofNat c.toNat

/-- A value of an operand.  Arrays of characters stand apart from the other
objects, with their hash in hexadecimal and their content. -/
inductive Datum (Object : Type)
  | word (n : Int32)
  | long (n : Int64)
  | float (word : UInt32)
  | double (word : UInt64)
  | null
  | string (text : Text)
  | chars (hash content : Text)
  | object (o : Object)

/-- What the class library writes for floating-point numbers and for objects, if
it does not throw instead. -/
structure Library (Object : Type) where
  float : UInt32 → Text
  double : UInt64 → Text
  object : Object → Option Text

/-- The ways in which a value becomes text. -/
inductive Conversion
  | int
  | long
  | float
  | double
  | char
  | boolean
  | object
  /-- The content of an array of characters. -/
  | chars
  /-- The content of a text that has to be there. -/
  | content
deriving DecidableEq, Repr

namespace Conversion

/-- The text of a value.  There is none if the value is not of the type, or if
the call throws. -/
def text? {Object : Type} (lib : Library Object) : Conversion → Datum Object →
      Option Text
  | int, .word n => some (ascii (toString n.toInt))
  | char, .word n =>
    if n.toUInt32 < 0x10000 then some [n.toUInt32.toUInt16] else none
  | boolean, .word n =>
    if n = 0 then
      some (ascii "false") else if n = 1 then some (ascii "true") else none
  | long, .long n => some (ascii (toString n.toInt))
  | float, .float w => some (lib.float w)
  | double, .double w => some (lib.double w)
  | object, .null => some (ascii "null")
  | object, .string t | content, .string t => some t
  | object, .chars hash _ => some (ascii "[C@" ++ hash)
  | chars, .chars _ text => some text
  | object, .object o | content, .object o => lib.object o
  | _, _ => none

/-- How source code turns a value of a type into text. -/
def ofType : String → Conversion
  | "I" | "B" | "S" => int
  | "J" => long
  | "F" => float
  | "D" => double
  | "C" => char
  | "Z" => boolean
  | _ => object

/-- How a parameter of a type does.  Only parameters take an array by its
content. -/
def ofParameter (type : String) : Conversion :=
  if type = "[C" then chars else ofType type

/-- How a method does that has one parameter. -/
def ofMethod? (descriptor : String) : Option Conversion :=
  match Signature.ofDescriptor? descriptor with
  | some ⟨[type], _⟩ => some (ofParameter type)
  | _ => none

/-- How an expression does by itself.  What nothing is known of is an object. -/
def own (e : Expr) : Conversion :=
  match e.descriptor? with
  | some type => ofType type
  | none => object

end Conversion

/-- A part of the concatenation, and what the call that took it asks for. -/
structure Operand where
  part : Expr
  asked : Option Conversion

namespace Operand

/-- The operand of a construction.  A conversion that is left out has asked for
its argument; a text that is put in directly has to be there. -/
def ofInit : Expr → Operand
  | .callStatic method [arg] =>
    if method.owner == "java/lang/String" && method.name == "valueOf" &&
      arg.isString then
      ⟨arg, Conversion.ofMethod? method.descriptor⟩
    else ⟨.callStatic method [arg], some .content⟩
  | e => ⟨e, some .content⟩

/-- The operand of an append. -/
def ofAppend (a : Append) : Operand :=
  ⟨a.arg, Conversion.ofMethod? a.method.descriptor⟩

/-- The parameter asks for what the operand is by itself.  A text that has to be
there is an object. -/
def Agrees (x : Operand) : Prop :=
  x.asked = some (.own x.part) ∨ x.asked = some .content ∧
    Conversion.own x.part = .object

instance (x : Operand) : Decidable x.Agrees :=
  inferInstanceAs (Decidable (_ ∨ _))

end Operand

/-- The operands of a chain in the order of the calls. -/
def Chain.operands (c : Chain) : List Operand :=
  c.start.init.toList.map Operand.ofInit ++ c.appends.map Operand.ofAppend

/-- Every call of a chain that takes an operand has one parameter for it. -/
def Chain.TakesOne (c : Chain) : Prop := ∀ x ∈ c.operands, x.asked.isSome

instance (c : Chain) : Decidable c.TakesOne :=
  inferInstanceAs (Decidable (∀ x ∈ c.operands, x.asked.isSome))

section

variable {Object : Type} (lib : Library Object)

/-- The text that calls add to what has been built. -/
def run? : List Operand → List (Datum Object) → Text → Option Text
  | [], [], built => some built
  | x :: xs, d :: ds, built => do
    let asked ← x.asked
    let text ← asked.text? lib d
    run? xs ds (built ++ text)
  | _, _, _ => none

/-- The text that the calls of a chain build. -/
def Chain.run? (c : Chain) (values : List (Datum Object)) : Option Text :=
  Builder.run? lib c.operands values []

/-- The text of the parts of a concatenation, each by its own type. -/
def joined? : List Expr → List (Datum Object) → Option Text
  | [], [] => some []
  | part :: parts, d :: ds => do
    let text ← (Conversion.own part).text? lib d
    (joined? parts ds).map (text ++ ·)
  | _, _ => none

/-- The concatenation has the text that the calls build, whatever the operands
are. -/
def Chain.KeepsText (c : Chain) : Prop :=
  ∀ parts values text, c.call.concatenation? = some (.concat parts) →
    c.run? lib values = some text → joined? lib parts values = some text

end

section

variable {Object : Type} {lib : Library Object} {x : Operand}
    {xs : List Operand}
  {d : Datum Object} {values : List (Datum Object)} {built text : Text}

/-- An operand that is asked for adds its text. -/
theorem run?_cons {asked : Conversion} (hasked : x.asked = some asked)
    (htext : asked.text? lib d = some text) :
    run? lib (x :: xs) (d :: values) built = run? lib xs values
      (built ++ text) := by
  simp [run?, hasked, htext]

/-- A part adds its own text. -/
theorem joined?_cons {part : Expr} {parts : List Expr}
    (htext : (Conversion.own part).text? lib d = some text) :
    joined? lib (part :: parts) (d :: values) = (joined? lib parts values).map
      (text ++ ·) := by
  simp [joined?, htext]

/-- A chain that runs asks for each of its operands. -/
theorem isSome_asked_of_run? (h : run? lib xs values built = some text) :
    ∀ x ∈ xs, x.asked.isSome := by
  induction xs generalizing values built with
  | nil => exact List.forall_mem_nil _
  | cons x xs ih =>
    cases values with
    | nil => cases h
    | cons d ds =>
      obtain ⟨asked, hasked, hrest⟩ := Option.bind_eq_some_iff.1 h
      obtain ⟨first, -, hrest⟩ := Option.bind_eq_some_iff.1 hrest
      exact List.forall_mem_cons.2 ⟨Option.isSome_of_eq_some hasked, ih hrest⟩

/-! ### Operands that agree -/

/-- The part of what the builder is made from is its seed. -/
theorem Operand.ofInit_part (init : Expr) : (ofInit init).part = init.seed := by
  unfold ofInit
  split
  · rw [Expr.seed]
    split <;> rfl
  · rename_i hother
    rw [Expr.seed]
    exact hother

/-- A chain of calls is read as the concatenation of the parts of its
operands. -/
theorem Chain.concatenation?_call (c : Chain) :
    c.call.concatenation? = some (.concat (c.operands.map Operand.part)) := by
  have hinit : c.start.init.toList.map Expr.seed =
      (c.start.init.toList.map Operand.ofInit).map Operand.part := by
    simp only [List.map_map, Function.comp_def, Operand.ofInit_part]
  have happend : c.appends.map Append.arg = (c.appends.map Operand.ofAppend).map
      Operand.part := by
    rw [List.map_map]
    rfl
  rw [Expr.concatenation?_call, hinit, happend, ← List.map_append]
  rfl

/-- What is there is an object. -/
theorem Conversion.text?_object_of_content
    (h : content.text? lib d = some text) : object.text? lib d = some text := by
  cases d <;> first | exact h | cases h

/-- Where the two conversions agree, the part's own gives the text that is asked
for. -/
theorem Operand.Agrees.own_text? {asked : Conversion} (h : x.Agrees)
    (hasked : x.asked = some asked) (htext : asked.text? lib d = some text) :
    (Conversion.own x.part).text? lib d = some text := by
  rcases h with h | ⟨h, hown⟩ <;> obtain rfl :=
    Option.some.inj (hasked.symm.trans h)
  · exact htext
  · rw [hown]
    exact Conversion.text?_object_of_content htext

/-- Operands that agree give the parts the texts that the calls have added. -/
theorem joined?_of_agrees (h : ∀ x ∈ xs, x.Agrees)
    (hrun : run? lib xs values built = some text) :
    ∃ added, joined? lib (xs.map Operand.part) values = some added ∧
      text = built ++ added := by
  induction xs generalizing values built with
  | nil =>
    cases values with
    | nil =>
      cases hrun
      exact ⟨[], rfl, (List.append_nil _).symm⟩
    | cons d ds => cases hrun
  | cons x xs ih =>
    cases values with
    | nil => cases hrun
    | cons d ds =>
      obtain ⟨asked, hasked, hrest⟩ := Option.bind_eq_some_iff.1 hrun
      obtain ⟨first, hfirst, hrest⟩ := Option.bind_eq_some_iff.1 hrest
      obtain ⟨hx, hxs⟩ := List.forall_mem_cons.1 h
      obtain ⟨added, hadded, rfl⟩ := ih hxs hrest
      refine ⟨first ++ added, ?_, List.append_assoc ..⟩
      rw [List.map_cons, joined?_cons (hx.own_text? hasked hfirst), hadded,
        Option.map_some]

/-! ### Operands that do not -/

namespace Conversion

/-- A value that every conversion that does not agree refuses or starts
differently. -/
def sample (Object : Type) : Conversion → Datum Object
  | int | char | boolean => .word 1
  | long => .long 0
  | float => .float 0
  | double => .double 0
  | object => .null
  | chars => .chars [] [0]
  | content => .string []

/-- Each conversion has a value with a text. -/
theorem exists_text?_sample (lib : Library Object) (asked : Conversion) :
    ∃ text, asked.text? lib (asked.sample Object) = some text := by
  cases asked <;> exact ⟨_, rfl⟩

/-- Two conversions that do not agree can be told apart by the first character
of what they write for one value, if the other writes anything. -/
theorem exists_clash (lib : Library Object) {asked own : Conversion}
    (hne : asked ≠ own) (hcontent : ¬ (asked = content ∧ own = object)) :
    ∃ text, asked.text? lib (asked.sample Object) = some text ∧
      ∀ other, own.text? lib (asked.sample Object) = some other →
        ∀ s t, text ++ s ≠ other ++ t := by
  obtain ⟨text, htext⟩ := exists_text?_sample lib asked
  refine ⟨text, htext, fun other hother s t heq => ?_⟩
  cases asked <;> cases own <;> first
    | exact hne rfl
    | exact hcontent ⟨rfl, rfl⟩
    | (cases hother; done)
    | (cases htext; cases hother; cases (List.cons.inj heq).1)

end Conversion

/-- A chain that asks for each of its operands runs on some values. -/
theorem exists_values (h : ∀ x ∈ xs, x.asked.isSome) (lib : Library Object) :
    ∃ values added, ∀ built,
      run? lib xs values built = some (built ++ added) := by
  induction xs with
  | nil =>
    exact ⟨[], [], fun built => congrArg some (List.append_nil built).symm⟩
  | cons x xs ih =>
    obtain ⟨hx, hxs⟩ := List.forall_mem_cons.1 h
    obtain ⟨asked, hasked⟩ := Option.isSome_iff_exists.1 hx
    obtain ⟨text, htext⟩ := asked.exists_text?_sample lib
    obtain ⟨values, added, hrun⟩ := ih hxs
    refine ⟨asked.sample Object :: values, text ++ added, fun built => ?_⟩
    rw [run?_cons hasked htext, hrun, List.append_assoc]

/-- The first operand that does not agree gets a value that tells the two texts
apart. -/
theorem exists_values_of_not_agrees (hasked : ∀ x ∈ xs, x.asked.isSome)
    (h : ¬ ∀ x ∈ xs, x.Agrees) (lib : Library Object) :
    ∃ values added,
      (∀ built, run? lib xs values built = some (built ++ added)) ∧
      joined? lib (xs.map Operand.part) values ≠ some added := by
  induction xs with
  | nil => exact absurd (List.forall_mem_nil _) h
  | cons x xs ih =>
    obtain ⟨hx, hxs⟩ := List.forall_mem_cons.1 hasked
    obtain ⟨asked, hx⟩ := Option.isSome_iff_exists.1 hx
    by_cases hagrees : x.Agrees
    · have hothers : ¬ ∀ y ∈ xs, y.Agrees := fun hall =>
        h (List.forall_mem_cons.2 ⟨hagrees, hall⟩)
      obtain ⟨text, htext⟩ := asked.exists_text?_sample lib
      obtain ⟨values, added, hrun, hne⟩ := ih hxs hothers
      refine ⟨asked.sample Object :: values, text ++ added, fun built => ?_,
        fun hjoined => hne ?_⟩
      · rw [run?_cons hx htext, hrun, List.append_assoc]
      · rw [List.map_cons, joined?_cons (hagrees.own_text? hx htext)] at hjoined
        obtain ⟨others, hothers, heq⟩ := Option.map_eq_some_iff.1 hjoined
        rw [hothers, List.append_cancel_left heq]
    · obtain ⟨hne, hcontent⟩ := not_or.1 hagrees
      rw [hx] at hne hcontent
      obtain ⟨text, htext, hclash⟩ := Conversion.exists_clash lib
        (fun heq => hne (congrArg some heq))
        (fun ⟨heq, hown⟩ => hcontent ⟨congrArg some heq, hown⟩)
      obtain ⟨values, added, hrun⟩ := exists_values hxs lib
      refine ⟨asked.sample Object :: values, text ++ added, fun built =>
        ?_, fun hjoined => ?_⟩
      · rw [run?_cons hx htext, hrun, List.append_assoc]
      · obtain ⟨other, hother, hrest⟩ := Option.bind_eq_some_iff.1 hjoined
        obtain ⟨rest, -, heq⟩ := Option.map_eq_some_iff.1 hrest
        exact hclash other hother added rest heq.symm

/-! ### Both -/

/-- **The text of a concatenation.**  A chain whose calls have one parameter
each keeps its text, whatever its operands are, exactly if every operand by
itself asks for what its parameter asks for. -/
theorem Chain.keepsText_iff (lib : Library Object) (c : Chain) :
    c.KeepsText lib ↔ (c.TakesOne → ∀ x ∈ c.operands, x.Agrees) := by
  constructor
  · intro hkeeps htakes
    by_contra hnot
    obtain ⟨values, added, hrun, hne⟩ :=
      exists_values_of_not_agrees htakes hnot lib
    exact hne (hkeeps _ values added c.concatenation?_call (hrun []))
  · intro hagrees parts values text hparts hrun
    obtain rfl : parts = c.operands.map Operand.part := by
      simpa [c.concatenation?_call, eq_comm] using hparts
    obtain ⟨added, hadded, rfl⟩ :=
      joined?_of_agrees (hagrees (isSome_asked_of_run? hrun)) hrun
    exact hadded

end

/-- A library without objects. -/
def Library.bare : Library Empty := ⟨fun _ => [], fun _ => [], nofun⟩

/-- A builder that starts with a text and gets a number and a character by
themselves. -/
def counted : Chain where
  start := ⟨"java/lang/StringBuilder", "(Ljava/lang/String;)V",
    some (.callStatic ⟨"java/lang/String", "valueOf", "(Ljava/lang/Object;)Ljava/lang/String;"⟩
      [.string "n"]), .builder, by decide⟩
  appends := [
    ⟨.virtual,
      ⟨"java/lang/StringBuilder", "append", "(C)Ljava/lang/StringBuilder;"⟩,
      .var ⟨1, "c", some "C"⟩, rfl, .builder⟩,
    ⟨.virtual,
      ⟨"java/lang/StringBuilder", "append", "(I)Ljava/lang/StringBuilder;"⟩,
      .int 97, rfl, .builder⟩]
  how := .virtual
  method := ⟨"java/lang/StringBuilder", "toString", "()Ljava/lang/String;"⟩
  name_eq := rfl
  isClass := .builder

/-- The character stays a character, and the constant a number. -/
theorem counted_keeps_text :
    counted.TakesOne ∧ counted.call.concatenation? =
        some (.concat [.string "n", .var ⟨1, "c", some "C"⟩, .int 97]) ∧
      counted.run? Library.bare [.string (ascii "n"), .word 97, .word 97] =
        some (ascii "na97") ∧
      counted.KeepsText Library.bare := by
  have hasked : counted.TakesOne := by decide +kernel
  have hagrees : ∀ x ∈ counted.operands, x.Agrees := by decide +kernel
  exact ⟨hasked,
    rfl, by decide +kernel, (counted.keepsText_iff Library.bare).2 fun _ => hagrees⟩

/-! ### A character that is a constant -/

/-- A builder that gets one constant as a character. -/
def letter : Chain where
  start := ⟨"java/lang/StringBuilder", "()V", none, .builder, nofun⟩
  appends :=
    [⟨.virtual,
      ⟨"java/lang/StringBuilder", "append", "(C)Ljava/lang/StringBuilder;"⟩,
      .int 97, rfl, .builder⟩]
  how := .virtual
  method := ⟨"java/lang/StringBuilder", "toString", "()Ljava/lang/String;"⟩
  name_eq := rfl
  isClass := .builder

/-- The calls write the letter, the concatenation its code. -/
theorem letter_is_spelled_out :
    letter.call.concatenation? = some (.concat [.int 97]) ∧
      letter.run? Library.bare [.word 97] = some (ascii "a") ∧
      joined? Library.bare [.int 97] [.word 97] = some (ascii "97") ∧
      ¬ letter.KeepsText Library.bare := by
  have hcall : letter.call.concatenation? = some (.concat [.int 97]) := rfl
  have hrun : letter.run? Library.bare [.word 97] = some (ascii "a") := by
    decide +kernel
  have hjoined :
      joined? Library.bare [.int 97] [.word 97] = some (ascii "97") := by
    decide +kernel
  refine ⟨hcall, hrun, hjoined, fun hkeeps => ?_⟩
  have hsame := (hkeeps _ _ _ hcall hrun).symm.trans hjoined
  exact absurd hsame (by decide +kernel)

end Decompiler.Builder
