import Decompiler.Bytecode.Signature
import Mathlib.Data.List.TakeWhile

/-!
# The grammar of descriptors

A field type is any number of brackets before a primitive letter or before a
class name between `L` and a semicolon.  The signature of a method is written as
its parameter types between parentheses and its result type.  Reading accepts
exactly these texts.

Two things could break this.  Types are read one after the other with nothing
between them, so a type has to tell by itself where it ends: a class name ends
at the first semicolon and brackets go with what comes next, so no type is the
front of another.  And the closing parenthesis is looked for before any type has
been read, so a parameter whose class name has one in it is cut there; the
result may have any number of them.

* `FieldType.Written`: texts that are field types.
* `FieldType.read?_append`, `FieldType.written_of_read?`: one type at the front
  of a text.
* `FieldType.readAll?_eq_some_iff`: types one after the other.
* `Signature.Spells`: the grammar of signatures; `Signature.read?_eq_some_iff`.
* `Signature.ofDescriptor_grammar`: reading and writing.
-/

namespace Decompiler

/-! ### Texts up to a character -/

section

variable {stop : Char} {front : List Char}

/-- What stands in front of the first stop is taken. -/
theorem takeWhile_ne_append (h : stop ∉ front) (rest : List Char) :
    (front ++ stop :: rest).takeWhile (· != stop) = front := by
  have hfront : ∀ c ∈ front, (c != stop) = true := fun c hc =>
    bne_iff_ne.2 (ne_of_mem_of_not_mem hc h)
  rw [List.takeWhile_append_of_pos hfront, List.takeWhile_cons_of_neg (by simp),
    List.append_nil]

/-- The first stop and what is behind it are left. -/
theorem dropWhile_ne_append (h : stop ∉ front) (rest : List Char) :
    (front ++ stop :: rest).dropWhile (· != stop) = stop :: rest := by
  have hfront : ∀ c ∈ front, (c != stop) = true := fun c hc =>
    bne_iff_ne.2 (ne_of_mem_of_not_mem hc h)
  rw [List.dropWhile_append_of_pos hfront, List.dropWhile_cons_of_neg (by simp)]

end

namespace FieldType

/-- A letter of a primitive type, or a class name between `L` and a
semicolon. -/
inductive Simple : List Char → Prop
  | primitive {c : Char} (mem : c ∈ ['B', 'C', 'D', 'F', 'I', 'J', 'S', 'Z']) :
      Simple [c]
  | named {name : List Char} (nonempty : name ≠ []) (closed : ';' ∉ name) :
      Simple ('L' :: name ++ [';'])

/-- A field type: brackets before a simple type. -/
def Written (type : List Char) : Prop :=
  ∃ n simple, type = List.replicate n '[' ++ simple ∧ Simple simple

variable {cs type rest : List Char} {types : List (List Char)} {n : Nat}

/-- An array type is written with a bracket in front. -/
theorem Written.array (h : Written type) : Written ('[' :: type) := by
  obtain ⟨n, simple, rfl, hsimple⟩ := h
  exact ⟨n + 1, simple, by rw [List.replicate_succ, List.cons_append], hsimple⟩

/-- A simple type is a written type. -/
theorem Simple.written (h : Simple type) : Written type := ⟨0, type, rfl, h⟩

/-- A written type is not empty. -/
theorem Written.ne_nil (h : Written type) : type ≠ [] := by
  obtain ⟨n, simple, rfl, hsimple⟩ := h
  cases hsimple <;> simp

/-! ### One type -/

/-- A class name ends at the first semicolon, whatever comes after it. -/
theorem read?_append_of_simple (h : Simple type) (rest : List Char) :
    read? (type ++ rest) = some (type, rest) := by
  cases h with
  | @primitive c mem =>
    have hletter : c ≠ '[' ∧ c ≠ 'L' := by
      constructor <;> rintro rfl <;> exact absurd mem (by decide)
    simp only [List.singleton_append]
    unfold read?
    split
    · rename_i heq
      cases heq
    · rename_i heq
      exact absurd (List.cons.inj heq).1 hletter.1
    · rename_i heq
      exact absurd (List.cons.inj heq).1 hletter.2
    · rename_i heq
      obtain ⟨rfl, rfl⟩ := List.cons.inj heq
      exact if_pos mem
  | @named name nonempty closed =>
    obtain ⟨first, others, rfl⟩ := List.exists_cons_of_ne_nil nonempty
    have hsplit : 'L' :: (first :: others) ++ [';'] ++ rest =
        'L' :: ((first :: others) ++ ';' :: rest) := by simp
    rw [hsplit, read?, takeWhile_ne_append closed, dropWhile_ne_append closed]

/-- A type is read off the front of any text. -/
theorem read?_append (h : Written type) (rest : List Char) :
    read? (type ++ rest) = some (type, rest) := by
  obtain ⟨n, simple, rfl, hsimple⟩ := h
  induction n with
  | zero => exact read?_append_of_simple hsimple rest
  | succ n ih =>
    rw [List.replicate_succ, List.cons_append, List.cons_append, read?, ih]
    rfl

/-- What is read is a type. -/
theorem written_of_read? (h : read? cs = some (type, rest)) : Written type := by
  induction cs generalizing type with
  | nil => simp [read?] at h
  | cons c cs ih =>
    unfold read? at h
    split at h
    · cases h
    · rename_i cs' heq
      obtain ⟨rfl, rfl⟩ := List.cons.inj heq
      obtain ⟨⟨element, after⟩, helement, heq⟩ := Option.map_eq_some_iff.1 h
      obtain ⟨rfl, rfl⟩ := Prod.mk.inj heq
      exact (ih helement).array
    · rename_i cs' heq
      obtain ⟨rfl, rfl⟩ := List.cons.inj heq
      split at h
      · rename_i first others _ _ hname _
        obtain ⟨rfl, rfl⟩ := Prod.mk.inj (Option.some.inj h)
        refine (Simple.named (List.cons_ne_nil first others) fun hmem =>
          ?_).written
        rw [← hname] at hmem
        simpa using List.mem_takeWhile_imp hmem
      · cases h
    · rename_i c' cs' _ _ heq
      obtain ⟨rfl, rfl⟩ := List.cons.inj heq
      split at h
      · rename_i mem
        obtain ⟨rfl, rfl⟩ := Prod.mk.inj (Option.some.inj h)
        exact (Simple.primitive mem).written
      · cases h

/-- The check of a type accepts just the written types. -/
theorem isType_iff : isType cs = true ↔ Written cs := by
  constructor
  · intro h
    unfold isType at h
    split at h
    · rename_i type hread
      have htype := written_of_read? hread
      rwa [← append_of_read? hread, List.append_nil]
    · cases h
  · intro h
    have hread := read?_append h []
    rw [List.append_nil] at hread
    rw [isType, hread]

/-! ### Types one after the other -/

theorem readAll?_succ_cons (n : Nat) (c : Char) (cs : List Char) :
    readAll? (n + 1) (c :: cs) = match read? (c :: cs) with
      | none => none
      | some (type, rest) => (readAll? n rest).map (type :: ·) := rfl

/-- **Types one after the other.**  A text is cut into types in one way at most,
and any fuel that is no less than its length is enough. -/
theorem readAll?_eq_some_iff (hfuel : cs.length ≤ n) :
    readAll? n cs = some types ↔ cs = types.flatten ∧ ∀ type ∈ types,
      Written type := by
  constructor
  · intro h
    -- the fuel plays no part in what has been read
    clear hfuel
    induction n generalizing cs types with
    | zero =>
      cases cs with
      | nil =>
        cases h
        exact ⟨rfl, List.forall_mem_nil _⟩
      | cons c cs => cases h
    | succ n ih =>
      cases cs with
      | nil =>
        cases h
        exact ⟨rfl, List.forall_mem_nil _⟩
      | cons c cs =>
        rw [readAll?_succ_cons] at h
        split at h
        · cases h
        · rename_i type rest hread
          obtain ⟨others, hothers, rfl⟩ := Option.map_eq_some_iff.1 h
          obtain ⟨rfl, hwritten⟩ := ih hothers
          refine ⟨(append_of_read? hread).symm, fun x hx => ?_⟩
          rcases List.mem_cons.1 hx with rfl | hx
          · exact written_of_read? hread
          · exact hwritten x hx
  · rintro ⟨rfl, hwritten⟩
    induction types generalizing n with
    | nil => cases n <;> rfl
    | cons type types ih =>
      obtain ⟨c, others, rfl⟩ :=
        List.exists_cons_of_ne_nil (hwritten type List.mem_cons_self).ne_nil
      rw [List.flatten_cons, List.length_append, List.length_cons] at hfuel
      cases n with
      | zero => omega
      | succ n =>
        have hread := read?_append (hwritten _ List.mem_cons_self) types.flatten
        have hrest :=
          ih (n := n) (fun x hx => hwritten x (List.mem_cons_of_mem _ hx))
            (by omega)
        rw [List.flatten_cons]
        rw [List.cons_append] at hread ⊢
        rw [readAll?_succ_cons, hread]
        simp only [hrest, Option.map_some]

end FieldType

namespace Signature

variable {d : String} {s : Signature}

/-- The grammar of signatures. -/
structure Spells (s : Signature) (d : String) : Prop where
  text : d = "(" ++ String.join s.parameters ++ ")" ++ s.result
  parameters : ∀ type ∈ s.parameters, FieldType.Written type.toList ∧
  ')' ∉ type.toList
  result : s.result = "V" ∨ FieldType.Written s.result.toList

/-- The parameters hold no closing parenthesis, so the first one ends them. -/
theorem Spells.read?_eq (h : s.Spells d) : read? d.toList = some s := by
  have hinside : ')' ∉ s.parameters.flatMap String.toList := by
    intro hmem
    obtain ⟨type, htype, hparen⟩ := List.mem_flatMap.1 hmem
    exact (h.parameters type htype).2 hparen
  have htext : d.toList =
      '(' ::
      (s.parameters.flatMap String.toList ++ ')' :: s.result.toList) := by
    rw [h.text]
    simp [String.toList_join]
  have hall : FieldType.readAll? (s.parameters.flatMap String.toList).length
      (s.parameters.flatMap String.toList) =
      some (s.parameters.map String.toList) := by
    refine (FieldType.readAll?_eq_some_iff (Nat.le_refl _)).2
      ⟨rfl, fun type htype => ?_⟩
    obtain ⟨p, hp, rfl⟩ := List.mem_map.1 htype
    exact (h.parameters p hp).1
  have hresult : s.result.toList = ['V'] ∨
      FieldType.isType s.result.toList = true := by
    refine h.result.imp (fun heq => ?_) FieldType.isType_iff.2
    rw [heq]
    rfl
  rw [htext, read?, takeWhile_ne_append hinside, dropWhile_ne_append hinside,
    hall]
  simp only [hresult, if_true, List.map_map, String.ofList_toList,
    Function.comp_def, List.map_id']

/-- What is read follows the grammar. -/
theorem spells_of_read? (h : read? d.toList = some s) : s.Spells d := by
  unfold read? at h
  split at h
  · rename_i cs htext
    dsimp only at h
    split at h
    · rename_i types close result htypes hclose
      have hhead : close = ')' := by
        have hnot := List.head?_dropWhile_not (· != ')') cs
        rw [hclose] at hnot
        simpa using hnot
      obtain ⟨hinside, hwritten⟩ :=
        (FieldType.readAll?_eq_some_iff (Nat.le_refl _)).1 htypes
      have hcs : cs = types.flatten ++ ')' :: result := calc
        cs = cs.takeWhile (· != ')') ++ cs.dropWhile (· != ')') :=
          List.takeWhile_append_dropWhile.symm
        _ = types.flatten ++ ')' :: result := by rw [hinside, hclose, hhead]
      split at h
      · rename_i hresult
        obtain rfl := Option.some.inj h
        refine ⟨String.toList_inj.1 ?_, fun type htype => ?_, ?_⟩
        · rw [htext, hcs]
          simp [String.toList_join, List.flatMap_map, List.flatMap_id']
        · obtain ⟨cs', hmem, rfl⟩ := List.mem_map.1 htype
          rw [String.toList_ofList]
          refine ⟨hwritten cs' hmem, fun hparen => ?_⟩
          have hall : ')' ∈ types.flatten :=
            List.mem_flatten.2 ⟨cs', hmem, hparen⟩
          rw [← hinside] at hall
          simpa using List.mem_takeWhile_imp hall
        · rw [String.toList_ofList]
          exact hresult.imp (fun heq => by rw [heq]) FieldType.isType_iff.1
      · cases h
    · cases h
  · cases h

/-- Reading accepts exactly the texts of the grammar. -/
theorem read?_eq_some_iff : read? d.toList = some s ↔ s.Spells d :=
  ⟨spells_of_read?, Spells.read?_eq⟩

/-- **Reading signatures.**  A text gives a signature exactly if it is the
parameter types between parentheses and the result type, the parameters without
a closing parenthesis in them.  No text can be taken apart in two ways, and
every text that cannot be taken apart is reported as it stands. -/
theorem ofDescriptor_grammar (d : String) :
    (∀ s, ofDescriptor d = .ok s ↔ s.Spells d) ∧
      (∀ s t : Signature, s.Spells d → t.Spells d → s = t) ∧
      ∀ f, ofDescriptor d = .error f ↔
        f = .invalidDescriptor d ∧ ∀ s : Signature, ¬ s.Spells d := by
  have hiff (s : Signature) : ofDescriptor? d = some s ↔ s.Spells d :=
    read?_eq_some_iff
  refine ⟨fun s => ?_, fun s t hs ht => ?_, fun f => ?_⟩
  · rw [← hiff, ofDescriptor]
    cases ofDescriptor? d <;> simp
  · exact Option.some.inj (((hiff s).2 hs).symm.trans ((hiff t).2 ht))
  · simp only [← hiff, ofDescriptor]
    cases ofDescriptor? d <;> simp [eq_comm]

/-- An array of class types next to a primitive type, and a result with a
parenthesis in its name. -/
theorem ofDescriptor_grammar_parenthesis :
    let s : Signature := ⟨["I", "[[Ljava/lang/String;", "J"], "La)b;"⟩
    let d := "(I[[Ljava/lang/String;J)La)b;"
    s.Spells d ∧ ofDescriptor d = .ok s ∧ ∀ t : Signature, t.Spells d →
    t = s := by
  intro s d
  have hread : ofDescriptor d = .ok s := by decide +kernel
  obtain ⟨hok, hunique, _⟩ := ofDescriptor_grammar d
  have hspells := (hok s).1 hread
  exact ⟨hspells, hread, fun t ht => hunique t s ht hspells⟩

/-- A parenthesis in the class name of a parameter ends the parameters. -/
example : ofDescriptor "(La)b;)V" = .error (.invalidDescriptor "(La)b;)V") := by
  decide +kernel

end Signature

end Decompiler
