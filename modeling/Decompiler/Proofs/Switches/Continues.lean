import Decompiler.Proofs.Switches.Sections

/-!
# Blocks that are left for what comes after them

Sections have no jumps, so a block of straight-line code must be left for what
comes after it: the next section, what follows the switch if it ends a case
that breaks, and the next case if it ends one that does not.  Where the code of
a case starts is known already; only a value that runs no code at all must go
straight to what follows the switch.

* `Graph.continues`: whether sections are left like that.
* `Graph.Continues`: the same for all values, each with the code that it runs;
  `continues_of_enters`.
-/

namespace Decompiler

namespace Graph

/-- Whether the values that run no code of a switch go to what follows it. -/
def passesOn (g : Graph) (id : Nat) (cases : List (Case Section))
    (next : Option Nat) : Bool :=
  match g.exit id with
  | .selects arms default =>
    (arms.all fun a => a.keys.all fun key =>
      !(Case.onward (Case.entered key cases)).isEmpty ||
        g.meets (some a.target) next) &&
    (!(Case.onward (cases.dropWhile fun c => !c.isDefault)).isEmpty ||
      g.meets (some default) next)
  | _ => false

mutual

/-- Whether some sections are left for what comes after them, in the end for
`next`. -/
def continues (g : Graph) (next : Option Nat) : List Section → Bool
  | [] => true
  | s :: ss =>
    g.sectionContinues ((Section.first? ss).or next) s && g.continues next ss

/-- Whether a section is left for `next`. -/
def sectionContinues (g : Graph) (next : Option Nat) : Section → Bool
  | .inline id => g.goesOn id next
  | .switch id cases => g.passesOn id cases next && g.casesContinue next cases
  | _ => false

/-- Whether the cases of a switch are left for what follows it, or for the next
case if they do not break. -/
def casesContinue (g : Graph) (next : Option Nat) : List (Case Section) → Bool
  | [] => true
  | ⟨_, _, breaks, body⟩ :: cs =>
    g.continues (if breaks then next else (Section.first? (Case.onward cs)).or next) body &&
      g.casesContinue next cs

end

/-- Sections that are left for what comes after them, whatever values the
switches are on. -/
inductive Continues (g : Graph) : (next : Option Nat) → List Section → Prop
  | nil {next : Option Nat} : g.Continues next []
  | inline {next : Option Nat} {id : Nat} {ss : List Section}
      (lt : id < g.blocks.length)
      (goes : g.goesOn id ((Section.first? ss).or next) = true)
      (rest : g.Continues next ss) :
      g.Continues next (.inline id :: ss)
  | switch {next : Option Nat} {id : Nat} {cases : List (Case Section)}
      {ss : List Section}
      (lt : id < g.blocks.length) (heads : (g.exit id).isSwitch = true)
      (enters : ∀ value, ∃ t, (g.exit id).next? (.value value) = some t ∧
        (Section.first? (Case.onward (Case.entered value cases)) = some t ∨
          Case.onward (Case.entered value cases) = [] ∧
            g.meets (some t) ((Section.first? ss).or next) = true))
      (runs : ∀ value,
        g.Continues ((Section.first? ss).or next)
          (Case.onward (Case.entered value cases)))
      (rest : g.Continues next ss) : g.Continues next (.switch id cases :: ss)

namespace Continues

variable {g : Graph} {next : Option Nat} {xs ys : List Section}

theorem first?_append (h : g.Continues next xs) (ys : List Section)
    (last : Option Nat) :
    (Section.first? (xs ++ ys)).or last =
      (Section.first? xs).or ((Section.first? ys).or last) := by
  cases h with
  | nil => rfl
  | inline | switch => rfl

/-- Sections that are left for others, and these. -/
theorem append (hxs : g.Continues ((Section.first? ys).or next) xs)
    (hys : g.Continues next ys) : g.Continues next (xs ++ ys) := by
  generalize hmiddle : (Section.first? ys).or next = middle at hxs
  induction hxs with
  | nil => exact hys
  | inline lt goes rest ih =>
    subst hmiddle
    exact .inline lt (rest.first?_append ys next ▸ goes) (ih rfl)
  | switch lt heads enters runs rest _ ih =>
    subst hmiddle
    have hnext := rest.first?_append ys next
    exact .switch lt heads (hnext ▸ enters) (hnext ▸ runs) (ih rfl)

end Continues

end Graph

/-- The cases that a value enters are the last ones from some case on. -/
theorem Case.exists_entered_eq_dropWhile {α : Type} (value : Int32)
    (cases : List (Case α)) :
    ∃ skip : Case α → Bool, entered value cases = cases.dropWhile skip := by
  unfold entered
  split
  · exact ⟨_, rfl⟩
  · rename_i c cs h
    exact ⟨_, h.symm⟩

/-- A value that runs no code goes to what follows the switch. -/
theorem Graph.meets_of_passesOn {g : Graph} {id t default : Nat}
    {arms : List SwitchArm} {cases : List (Case Section)} {next : Option Nat}
    (h : g.passesOn id cases next = true)
    (hexit : g.exit id = .selects arms default) {value : Int32}
    (hunlisted : (∀ arm ∈ arms, value ∉ arm.keys) →
      Case.entered value cases = cases.dropWhile fun c => !c.isDefault)
    (hnext : (g.exit id).next? (.value value) = some t)
    (hnothing : Case.onward (Case.entered value cases) = []) :
    g.meets (some t) next = true := by
  rw [passesOn, hexit] at h
  simp only [Bool.and_eq_true, List.all_eq_true, Bool.or_eq_true] at h
  obtain ⟨hlisted, hdefault⟩ := h
  rw [hexit] at hnext
  simp only [Exit.next?, Option.some.injEq] at hnext
  cases hfind : arms.find? (·.keys.contains value) with
  | some arm =>
    rw [hfind] at hnext
    have hkey : value ∈ arm.keys := by simpa using List.find?_some hfind
    have harm := hlisted arm (List.mem_of_find?_eq_some hfind) value hkey
    rw [hnothing] at harm
    subst hnext
    simpa using harm
  | none =>
    rw [hfind] at hnext
    have hnone := hunlisted fun arm harm hkey => by
      have hnot := List.find?_eq_none.1 hfind arm harm
      simp [hkey] at hnot
    rw [← hnone, hnothing] at hdefault
    subst hnext
    simpa using hdefault

mutual

/-- Sections that values enter, and that are left for what comes after them. -/
theorem continues_of_enters {g : Graph} (next : Option Nat) :
    (ss : List Section) →
    (∀ s ∈ ss, g.Enters s) → g.continues next ss = true → g.Continues next ss
  | [], _, _ => .nil
  | s :: ss, henters, h => by
    rw [Graph.continues, Bool.and_eq_true] at h
    obtain ⟨hs, hss⟩ := List.forall_mem_cons.1 henters
    exact continues_cons_of_enters next s ss hs h.1
      (continues_of_enters next ss hss h.2)

theorem continues_cons_of_enters {g : Graph} (next : Option Nat) :
    (s : Section) → (ss : List Section) → g.Enters s →
      g.sectionContinues ((Section.first? ss).or next) s = true →
        g.Continues next ss → g.Continues next (s :: ss)
  | .inline id, ss, henters, h, hrest => by
    cases henters with
    | inline lt => exact .inline lt h hrest
  | .switch id cases, ss, henters, h, hrest => by
    rw [Graph.sectionContinues, Bool.and_eq_true] at h
    cases henters with
    | @switch _ _ arms default lt exit starts unlisted bodies =>
      refine .switch lt (exit ▸ rfl) (fun value => ?_) (fun value => ?_) hrest
      · obtain ⟨t, hnext, hnothing | hfirst⟩ := starts value
        · exact ⟨t, hnext, .inr ⟨hnothing,
            Graph.meets_of_passesOn h.1 exit (unlisted value) hnext hnothing⟩⟩
        · exact ⟨t, hnext, .inl hfirst⟩
      · obtain ⟨skip, hskip⟩ := Case.exists_entered_eq_dropWhile value cases
        rw [hskip]
        exact continues_onward_of_enters _ cases bodies h.2 skip
  | .ifElse .., _, henters, _, _ | .whileLoop .., _, henters, _, _
  | .doLoop .., _, henters, _, _
  | .tryCatch .., _, henters, _, _ => nomatch henters

/-- The code that is run from some case of a switch on. -/
theorem continues_onward_of_enters {g : Graph} (next : Option Nat) :
    (cs : List (Case Section)) →
    (∀ c ∈ cs, ∀ s ∈ c.body, g.Enters s) → g.casesContinue next cs = true →
      ∀ skip : Case Section → Bool,
        g.Continues next (Case.onward (cs.dropWhile skip))
  | [], _, _, _ => .nil
  | ⟨keys, isDefault, breaks, body⟩ :: cs, henters, h, skip => by
    rw [Graph.casesContinue, Bool.and_eq_true] at h
    obtain ⟨hbody, hcs⟩ := List.forall_mem_cons.1 henters
    have hlater := continues_onward_of_enters next cs hcs h.2
    have hhere := continues_of_enters _ body hbody h.1
    rw [List.dropWhile_cons]
    split
    · exact hlater skip
    · cases breaks with
      | true =>
        rw [Case.onward, if_pos rfl, List.append_nil]
        exact hhere
      | false =>
        have hall := hlater fun _ => false
        have hkept : (cs.dropWhile fun _ => false) = cs := by cases cs <;> rfl
        rw [hkept] at hall
        exact hhere.append hall

end

end Decompiler
