import Decompiler.Proofs.Region.Steps

/-!
# What taking a graph apart leaves alone

Each step of taking a graph apart changes blocks of the list it works on and
no others, and never moves the instructions of a block.  Once a section does
not say where control goes, the work is not faithful any more.

* `Sure`: what holds of the work throughout, when jumps lead to what does the
  same.
* `Kept`: the blocks that a step leaves as they are.
* `Confined.sections`: taking apart a list keeps the blocks outside it.
-/

namespace Decompiler

/-- Jumps lead to what does the same. -/
abbrev Sure (ctx : Context) (g₀ : Graph) (w : Told) : Prop :=
  Steady (g₀.behavior ctx.method) g₀ w

/-- Only the blocks of a list change, and unfaithful work stays so. -/
structure Kept (ids : List Nat) (w w' : Told) : Prop where
  others : ∀ id, id ∉ ids → w'.graph.block id = w.graph.block id
  faithful : w'.faithful = true → w.faithful = true

namespace Kept

variable {ids more : List Nat} {w w' w'' : Told}

/-- Work that stays as it is is kept. -/
theorem refl (ids : List Nat) (w : Told) : Kept ids w w := ⟨fun _ _ => rfl, id⟩

/-- Work that is kept twice is kept. -/
theorem trans (h : Kept ids w w') (h' : Kept ids w' w'') : Kept ids w w'' :=
  ⟨fun id hid => (h'.others id hid).trans (h.others id hid), fun hf =>
    h.faithful (h'.faithful hf)⟩

/-- More blocks may be left out. -/
theorem mono (h : Kept ids w w') (hids : ids ⊆ more) : Kept more w w' :=
  ⟨fun id hid => h.others id fun hmem => hid (hids hmem), h.faithful⟩

end Kept

/-- A step that only changes the blocks of a list. -/
def Confined {β : Type} (place : Option Nat → β) (g₀ : Graph) (ids : List Nat)
    {α : Type} (x : Partition α) : Prop :=
  ∀ (w : Told) (a : α) (w' : Told), Steady place g₀ w → x.told w = .ok (a, w') →
    Steady place g₀ w' ∧ Kept ids w w'

/-- A step that only changes the blocks of a list, and leads jumps to what does
the same. -/
abbrev Keeps (ctx : Context) (g₀ : Graph) (ids : List Nat) {α : Type}
    (x : Partition α) : Prop :=
  Confined (g₀.behavior ctx.method) g₀ ids x

variable {ctx : Context} {β : Type} {place : Option Nat → β} {g₀ : Graph}
    {ids : List Nat}

namespace Confined

variable {α γ : Type}

/-- Two steps that are confined to some blocks are so one after the other. -/
theorem bind {x : Partition α} {f : α → Partition γ}
    (hx : Confined place g₀ ids x) (hf : ∀ a, Confined place g₀ ids (f a)) :
    Confined place g₀ ids (x >>= f) := by
  intro w b w' hw h
  obtain ⟨a, w₁, hfirst, hrest⟩ := Partition.told_bind.1 h
  obtain ⟨hw₁, hkept⟩ := hx w a w₁ hw hfirst
  obtain ⟨hw', hkept'⟩ := hf a w₁ b w' hw₁ hrest
  exact ⟨hw', hkept.trans hkept'⟩

/-- A step may rely on what is known of the result of the step before. -/
theorem bind_of {x : Partition α} {f : α → Partition γ} {P : α → Prop}
    (hx : Confined place g₀ ids x)
    (hP : ∀ w a w', Steady place g₀ w → x.told w = .ok (a, w') → P a)
    (hf : ∀ a, P a → Confined place g₀ ids (f a)) :
    Confined place g₀ ids (x >>= f) := by
  intro w b w' hw h
  obtain ⟨a, w₁, hfirst, hrest⟩ := Partition.told_bind.1 h
  obtain ⟨hw₁, hkept⟩ := hx w a w₁ hw hfirst
  obtain ⟨hw', hkept'⟩ := hf a (hP w a w₁ hw hfirst) w₁ b w' hw₁ hrest
  exact ⟨hw', hkept.trans hkept'⟩

/-- A result that is given touches no block. -/
theorem pure (a : α) : Confined place g₀ ids (pure a : Partition α) := by
  intro w b w' hw h
  obtain ⟨rfl, rfl⟩ := Partition.told_pure.1 h
  exact ⟨hw, .refl _ _⟩

/-- A step may be confined to more blocks. -/
theorem mono {less : List Nat} {x : Partition α} (hx : Confined place g₀ less x)
    (h : less ⊆ ids) : Confined place g₀ ids x := by
  intro w a w' hw hrun
  obtain ⟨hw', hkept⟩ := hx w a w' hw hrun
  exact ⟨hw', hkept.mono h⟩

/-- A step that fails touches no block. -/
theorem fail (f : Fault) :
    Confined place g₀ ids (Partition.fail f : Partition α) := by
  intro w a w' hw h
  cases h

/-- Giving up touches no block. -/
theorem irreducible (id : Nat) :
    Confined place g₀ ids (Partition.irreducible id : Partition α) :=
  fun _ _ _ _ h => absurd h Partition.told_irreducible

/-- Asking touches no block. -/
theorem ask (q : Query) : Confined place g₀ ids (Partition.ask q) := by
  intro w a w' hw h
  cases h
  exact ⟨hw, .refl _ _⟩

theorem graph (list : List Nat) :
    Confined place g₀ ids (Partition.graph list) := ask _

theorem exit (id : Nat) : Confined place g₀ ids (Partition.exit id) :=
  (ask _).bind fun _ => pure _

/-- The members of a list are those that there are. -/
theorem slice {list : List Nat} {start stop : Nat}
    {f : List Nat → Partition α}
    (h : Confined place g₀ ids (f ((list.take stop).drop start))) :
    Confined place g₀ ids (Partition.slice list start stop >>= f) := h

/-- A list goes on as far as it goes. -/
theorem next {list : List Nat} {i : Nat} {f : Option Nat → Partition α}
    (h : Confined place g₀ ids (f list[i]?)) :
    Confined place g₀ ids (Partition.next? list i >>= f) := h

/-- Finding a guard touches no block. -/
theorem guard (chain : List Nat) (body : Nat) (after : Option Nat) :
    Confined place g₀ ids (Partition.guard ctx chain body after) := by
  intro w c w' hw h
  obtain ⟨_, rfl⟩ := Partition.told_guard h
  exact ⟨⟨hw.length, hw.places, hw.jumps, hw.noSwitch, hw.branches, hw.pending,
    hw.entries⟩,
    fun _ _ => rfl, fun hf => (Bool.and_eq_true_iff.1 hf).1⟩

end Confined

/-! ### Changes to the graph -/

/-- The graphs differ only in edges that lead to blocks that do the same. -/
structure Redirected {β : Type} (place : Option Nat → β) (g g' : Graph) :
    Prop where
  length : g'.blocks.length = g.blocks.length
  blocks : ∀ id, ∃ f : Nat → Nat, (∀ t, place (some (f t)) = place (some t)) ∧
    (g'.block id).exit = (g.block id).exit.mapTargets f ∧
    (g'.block id).start = (g.block id).start ∧
    (g'.block id).stop = (g.block id).stop ∧
    (g'.block id).breakPoint = (g.block id).breakPoint ∧
    (g'.block id).entry = (g.block id).entry ∧
    (g'.block id).folded = (g.block id).folded

namespace Redirected

variable {g g' g'' : Graph}

/-- A graph is redirected to itself. -/
theorem refl (place : Option Nat → β) (g : Graph) : Redirected place g g :=
  ⟨rfl, fun _ =>
    ⟨id, fun _ => rfl, (Exit.mapTargets_id _).symm, rfl, rfl, rfl, rfl, rfl⟩⟩

/-- A graph that is redirected twice is redirected. -/
theorem trans (h : Redirected place g g') (h' : Redirected place g' g'') :
    Redirected place g g'' := by
  refine ⟨h'.length.trans h.length, fun id => ?_⟩
  obtain ⟨f, hf, hexit, hstart, hstop, hbreak, hentry, hfolded⟩ := h.blocks id
  obtain ⟨f', hf', hexit', hstart', hstop', hbreak', hentry', hfolded'⟩ :=
    h'.blocks id
  refine ⟨f' ∘ f, fun t => (hf' (f t)).trans (hf t), ?_, hstart'.trans hstart,
    hstop'.trans hstop, hbreak'.trans hbreak, hentry'.trans hentry,
    hfolded'.trans hfolded⟩
  rw [hexit', hexit, Exit.mapTargets_mapTargets]

/-- Redirecting makes and removes no jump. -/
theorem isJump_exit (h : Redirected place g g') (id : Nat) :
    (g'.exit id).isJump = (g.exit id).isJump := by
  obtain ⟨f, _, hexit, _⟩ := h.blocks id
  rw [Graph.exit, hexit, Graph.exit]
  cases (g.block id).exit <;> rfl

/-- A change to a block redirects a graph if it moves edges to the same
places. -/
theorem modify (g : Graph) (id : Nat) {change : Block → Block} {f : Nat → Nat}
    (hf : ∀ t, place (some (f t)) = place (some t))
    (hchange : ∀ b : Block, (change b).exit = b.exit.mapTargets f ∧
      (change b).start = b.start ∧ (change b).stop = b.stop ∧
      (change b).breakPoint = b.breakPoint ∧ (change b).entry = b.entry ∧
      (change b).folded = b.folded) :
      Redirected place g (g.modify id change) := by
  refine ⟨g.length_modify id change, fun x => ?_⟩
  rcases g.block_modify id x change with hsame | ⟨_, hchanged⟩
  · rw [hsame]
    exact (refl place g).blocks x
  · rw [hchanged]
    exact ⟨f, hf, hchange _⟩

/-- Leading edges to the head of a loop to the jump back to it instead. -/
theorem continueAt {head closing : Nat}
    (h : place (some closing) = place (some head)) (g : Graph) (id : Nat) :
    Redirected place g (g.continueAt head closing id) := by
  unfold Graph.continueAt
  split
  · have hedges : Redirected place g
        (g.redirect id fun t => if t = head then closing else t) := by
      refine modify g id (fun t => ?_) fun b => ⟨rfl, rfl, rfl, rfl, rfl, rfl⟩
      split
      · rename_i ht
        rw [h, ht]
      · rfl
    have hpreds (g : Graph) (id : Nat) (change : List Nat → List Nat) :
        Redirected place g
          (g.modify id fun b => { b with preds := change b.preds }) :=
      modify g id (fun t => rfl) fun b =>
        ⟨(Exit.mapTargets_id _).symm, rfl, rfl, rfl, rfl, rfl⟩
    exact (hedges.trans (hpreds _ head (·.erase id))).trans
      (hpreds _ closing (Graph.insertPred id))
  · exact refl place g

/-- Edges may continue at the jump that closes a loop, which leads to the same
place. -/
theorem foldl_continueAt {head closing : Nat}
    (h : place (some closing) = place (some head)) (ids : List Nat)
    (g : Graph) :
    Redirected place g
      (ids.foldl (fun g id => g.continueAt head closing id) g) := by
  induction ids generalizing g with
  | nil => exact refl place g
  | cons id ids ih => exact (continueAt h g id).trans (ih _)

/-- Closing a loop redirects the graph. -/
theorem closed {first : Nat} {rest : List Nat}
    (h : place (some (rest.getLastD first)) = place (some first)) (w : Work) :
    Redirected place w.graph (w.closed first rest).graph :=
  foldl_continueAt h rest.dropLast w.graph

end Redirected

/-- Other blocks stay as they are when edges of a block continue elsewhere. -/
theorem Graph.block_continueAt_of_ne {g : Graph} {head closing id x : Nat}
    (hid : id ≠ x) (hhead : head ≠ x) (hclosing : closing ≠ x) :
    (g.continueAt head closing id).block x = g.block x := by
  unfold continueAt
  split
  · rw [block_modify_of_ne _ _ hclosing, block_modify_of_ne _ _ hhead, redirect,
      block_modify_of_ne _ _ hid]
  · rfl

/-- The same for edges of any number of blocks. -/
theorem Graph.block_foldl_continueAt {g : Graph} {head closing x : Nat}
    {ids : List Nat} (hids : x ∉ ids) (hhead : head ≠ x)
    (hclosing : closing ≠ x) :
    (ids.foldl (fun g id => g.continueAt head closing id) g).block x =
      g.block x := by
  induction ids generalizing g with
  | nil => rfl
  | cons id ids ih =>
    simp only [List.mem_cons, not_or] at hids
    rw [List.foldl_cons, ih hids.2,
      block_continueAt_of_ne (Ne.symm hids.1) hhead hclosing]

namespace Steady

variable {w : Told}

/-- Redirecting keeps the work steady. -/
theorem redirect (h : Steady place g₀ w) {g : Graph}
    (hg : Redirected place w.graph g) :
    Steady place g₀ { w with graph := g } := by
  refine ⟨hg.length.trans h.length, fun id => ?_, fun id t ht =>
    ?_, fun id => ?_,
    fun id hid => ?_, h.pending, h.entries⟩
  · obtain ⟨f, _, _, hstart, hstop, _, hentry, _⟩ := hg.blocks id
    obtain ⟨hs, ht, he⟩ := h.places id
    exact ⟨hstart.trans hs, hstop.trans ht, hentry.trans he⟩
  · obtain ⟨f, hf, hexit, _⟩ := hg.blocks id
    change (g.block id).exit = _ at ht
    rw [hexit] at ht
    cases hw : (w.graph.block id).exit with
    | jumps t' =>
      rw [hw] at ht
      cases ht
      rw [h.jumps id t' hw, hf]
    | _ => rw [hw] at ht; cases ht
  · obtain ⟨f, hf, hexit, _⟩ := hg.blocks id
    have hsame := h.noSwitch id
    simp only [Graph.exit, hexit] at hsame ⊢
    revert hsame
    cases (w.graph.block id).exit <;> exact fun h => h
  · obtain ⟨f, hf, hexit, _⟩ := hg.blocks id
    have hsame := h.branches id
    refine hsame ?_
    simp only [Graph.exit, hexit] at hid ⊢
    revert hid
    cases (w.graph.block id).exit <;> exact fun h => h

/-- Folding a region and taking its structure out again. -/
theorem modify (h : Steady place g₀ w) (id : Nat) {change : Block → Block}
    (hchange : ∀ b : Block, (change b).start = b.start ∧
      (change b).stop = b.stop ∧ (change b).entry = b.entry ∧
      ((change b).exit = b.exit ∨ ∃ next, (change b).exit = .falls next)) :
    Steady place g₀ { w with graph := w.graph.modify id change } := by
  have hblock (x : Nat) : (w.graph.modify id change).block x = w.graph.block x ∨
      (w.graph.modify id change).block x = change (w.graph.block x) :=
    (w.graph.block_modify id x change).imp_right And.right
  refine ⟨(w.graph.length_modify id change).trans h.length, fun x =>
    ?_, fun x t ht => ?_,
    fun x => ?_, fun x hx => ?_, h.pending, h.entries⟩
  · rcases hblock x with heq | heq
    · simp only [heq]
      exact h.places x
    · obtain ⟨hstart, hstop, hentry, _⟩ := hchange (w.graph.block x)
      simp only [heq, hstart, hstop, hentry]
      exact h.places x
  · simp only [Graph.exit] at ht
    rcases hblock x with heq | heq
    · rw [heq] at ht
      exact h.jumps x t ht
    · rw [heq] at ht
      rcases (hchange (w.graph.block x)).2.2.2 with hexit | ⟨next, hexit⟩
      · exact h.jumps x t (hexit.symm.trans ht)
      · rw [hexit] at ht
        cases ht
  · simp only [Graph.exit]
    rcases hblock x with heq | heq
    · rw [heq]
      exact h.noSwitch x
    · rw [heq]
      rcases (hchange (w.graph.block x)).2.2.2 with hexit | ⟨next, hexit⟩
      · rw [hexit]
        exact h.noSwitch x
      · rw [hexit]
        rfl
  · simp only [Graph.exit] at hx
    rcases hblock x with heq | heq
    · rw [heq] at hx
      exact h.branches x hx
    · rw [heq] at hx
      rcases (hchange (w.graph.block x)).2.2.2 with hexit | ⟨next, hexit⟩
      · rw [hexit] at hx
        exact h.branches x hx
      · rw [hexit] at hx
        cases hx

/-- Edges that lead to the same block once jumps are followed lead to what is
the same. -/
theorem place_eq_of_meets (h : Steady place g₀ w) {a b : Option Nat}
    (hmeets : w.graph.meets a b = true) : place a = place b ∧
      a.isSome = b.isSome :=
  Graph.place_eq_of_meets h.jumps hmeets

end Steady

/-! ### The steps -/

/-- A way to structure runs of blocks that only changes the blocks of the
run. -/
def StructurerConfined {β : Type} (place : Option Nat → β) (g₀ : Graph)
    (inner : Structurer) : Prop :=
  ∀ (list : List Nat) (after : Option Nat),
    Confined place g₀ list (inner list after)

/-- The same for what jumps lead to doing the same. -/
abbrev StructurerKeeps (ctx : Context) (g₀ : Graph) (inner : Structurer) :
    Prop :=
  StructurerConfined (g₀.behavior ctx.method) g₀ inner

variable {inner : Structurer}

namespace Confined

/-- Folding a region touches its first block. -/
theorem fold {id : Nat} {list : List Nat} (s : Section) (next : Option Nat)
    (hid : id ∈ ids) :
    Confined place g₀ ids
      (Partition.change list fun g => g.fold id s next) := by
  intro w u w' hw h
  obtain rfl := Partition.told_change.1 h
  refine ⟨hw.modify id fun b => ⟨rfl, rfl, rfl, .inr ⟨next, rfl⟩⟩, fun x hx =>
    ?_, fun h => h⟩
  exact w.graph.block_modify_of_ne _ fun heq => hx (heq ▸ hid)

/-- Making a block a section of its own touches that block. -/
theorem single {id : Nat} (next : Option Nat) (hid : id ∈ ids) :
    Confined place g₀ ids (Partition.single id next) := by
  intro w s w' hw h
  have hfaithful : (w.faithful && w.graph.goesOn id next) = true →
      w.faithful = true := fun h => (Bool.and_eq_true_iff.1 h).1
  cases hfolded : (w.graph.block id).folded with
  | none =>
    rw [Partition.told_single_of_plain hfolded] at h
    cases h
    exact ⟨⟨hw.length, hw.places, hw.jumps, hw.noSwitch, hw.branches,
      hw.pending, hw.entries⟩, fun _ _ => rfl, hfaithful⟩
  | some s =>
    rw [Partition.told_single_of_folded hfolded] at h
    cases h
    have hunfold : Steady place g₀ { w with graph := w.graph.unfold id } :=
      hw.modify id fun b => ⟨rfl, rfl, rfl, .inl rfl⟩
    refine ⟨⟨hunfold.length, hunfold.places, hunfold.jumps, hunfold.noSwitch,
      hunfold.branches, hunfold.pending, hunfold.entries⟩, fun x hx => ?_,
      hfaithful⟩
    exact w.graph.block_modify_of_ne _ fun heq => hx (heq ▸ hid)

/-- A loop with its test at the top is confined to its blocks. -/
theorem headTested? (hinner : StructurerConfined place g₀ inner)
    (region : List Nat) (closing : Nat) (after : Option Nat) :
    Confined place g₀ region
      (Partition.headTested? ctx inner region closing after) := by
  unfold Partition.headTested?
  refine (ask _).bind fun tests => ?_
  split
  · exact pure _
  · refine slice ((ask _).bind fun body => ?_)
    refine (guard _ _ _).bind fun cond => slice ?_
    exact ((hinner _ _).mono (slice_subset _ _ _)).bind fun body => pure _

/-- A loop with its test at the bottom is confined to its blocks. -/
theorem tailTested (hinner : StructurerConfined place g₀ inner)
    (first last : Nat) (region : List Nat) (after : Option Nat) :
    Confined place g₀ region
      (Partition.tailTested ctx inner first last region after) := by
  unfold Partition.tailTested
  refine (ask _).bind fun start => slice ?_
  split
  · exact irreducible _
  · refine (guard _ _ _).bind fun cond => slice ?_
    exact ((hinner _ _).mono (slice_subset _ _ _)).bind fun body => pure _

/-- The edges back to the head of a loop may lead to the jump that closes it. -/
theorem loop (hinner : StructurerConfined place g₀ inner) (first : Nat)
    (rest : List Nat) (after : Option Nat) :
    Confined place g₀ (first :: rest)
      (Partition.loop ctx inner first rest after) := by
  intro w s w' hw h
  have hclosed (closes : w.graph.exit (rest.getLastD first) = .jumps first) :
      Steady place g₀ (w.closed first rest) ∧
      Kept (first :: rest) w (w.closed first rest) := by
    refine ⟨hw.redirect (Redirected.closed (hw.jumps _ _ closes) w.toWork),
      fun x hx => ?_, fun h => h⟩
    refine Graph.block_foldl_continueAt (fun hmem => ?_)
      (fun heq => ?_) fun heq => ?_
    · exact hx (List.mem_cons_of_mem _ (List.dropLast_subset _ hmem))
    · exact hx (heq ▸ List.mem_cons_self)
    · exact hx (heq ▸ List.getLastD_mem_cons)
  cases Partition.told_loop h with
  | headTested closes run =>
    obtain ⟨hw₁, hkept₁⟩ := hclosed closes
    obtain ⟨hw', hkept⟩ := headTested? hinner _ _ _ _ _ _ hw₁ run
    exact ⟨hw', hkept₁.trans hkept⟩
  | forever closes run =>
    obtain ⟨hw₁, hkept₁⟩ := hclosed closes
    obtain ⟨hw', hkept⟩ :=
      (hinner _ _).mono (List.dropLast_subset _) _ _ _ hw₁ run
    exact ⟨hw', hkept₁.trans hkept⟩
  | tailTested run => exact tailTested hinner _ _ _ _ _ _ _ hw run

/-- A loop that a jump enters is confined to its blocks. -/
theorem jumpEntered (hinner : StructurerConfined place g₀ inner) (first : Nat)
    (rest : List Nat) (after : Option Nat) :
    Confined place g₀ (first :: rest)
      (Partition.jumpEntered ctx inner first rest after) := by
  unfold Partition.jumpEntered
  refine (graph _).bind fun g => ?_
  split
  · refine slice ?_
    split
    · exact irreducible _
    · exact irreducible _
    · refine (guard _ _ _).bind fun cond => slice ?_
      refine ((hinner _ _).mono fun id hid => ?_).bind fun body => pure _
      exact List.mem_cons_of_mem _ (slice_subset _ _ _ hid)
  · exact irreducible _

/-- An arm is confined to its region. -/
theorem arm (hinner : StructurerConfined place g₀ inner) (first : Nat)
    (rest : List Nat) (after : Option Nat) :
    Confined place g₀ (first :: rest)
      (Partition.arm ctx inner first rest after) := by
  unfold Partition.arm
  refine (graph _).bind fun g => (ask _).bind fun run => ?_
  split
  · exact irreducible _
  · refine slice ((guard _ _ _).bind fun cond => ?_)
    split
    · exact (ask _).bind fun _ => fail _
    · refine slice (((hinner _ _).mono (slice_subset _ _ _)).bind fun body => ?_)
      exact slice (pure _)

end Confined

/-- The alternative of an arm is the end of its region. -/
theorem Partition.drop_of_arm {first : Nat} {rest : List Nat}
    {after : Option Nat} {w w' : Told} {cond : Condition} {body : List Section}
    {others : List Nat}
    (h : (Partition.arm ctx inner first rest after).told w =
      .ok ((cond, body, others), w')) :
    ∃ stop, others = (first :: rest).drop stop := by
  obtain ⟨_, _, stop, _, _, _, _, hothers, _⟩ := Partition.told_arm h
  exact ⟨stop, hothers⟩

namespace Confined

/-- What comes instead of a body is confined to its blocks. -/
theorem alternative (hinner : StructurerConfined place g₀ inner)
    (after : Option Nat) (fuel : Nat) (list : List Nat) :
    Confined place g₀ list
      (Partition.alternative ctx inner after fuel list) := by
  induction fuel generalizing list with
  | zero =>
    cases list with
    | nil => exact pure _
    | cons first rest => exact fail _
  | succ n ih =>
    cases list with
    | nil => exact pure _
    | cons first rest =>
      refine (exit _).bind fun e => ?_
      split
      · refine (arm hinner first rest after).bind_of
          (P := fun r => ∃ stop, r.2.2 = (first :: rest).drop stop)
          (fun w r w' _ h => Partition.drop_of_arm h) fun r ⟨stop, hstop⟩ => ?_
        obtain ⟨cond, body, others⟩ := r
        obtain rfl := hstop
        exact ((ih _).mono (List.drop_subset _ _)).bind fun _ => pure _
      · exact (hinner _ _).bind fun _ => pure _

/-- A branch statement is confined to its region. -/
theorem branch (hinner : StructurerConfined place g₀ inner) (first : Nat)
    (rest : List Nat) (after : Option Nat) :
    Confined place g₀ (first :: rest)
      (Partition.branch ctx inner first rest after) := by
  refine (arm hinner first rest after).bind_of
    (P := fun r => ∃ stop, r.2.2 = (first :: rest).drop stop)
    (fun w r w' _ h => Partition.drop_of_arm h) fun r ⟨stop, hstop⟩ => ?_
  obtain ⟨cond, body, others⟩ := r
  obtain rfl := hstop
  exact ((alternative hinner _ _ _).mono (List.drop_subset _ _)).bind fun _ =>
    pure _

/-- Without switches and exception ranges the regions inside a region are loops
and branches. -/
theorem nestedAt {nested : Partition.RegionStructurer}
    (hnested : ∀ isLoop list after,
      Confined place g₀ list (nested isLoop list after))
    {region : List Nat} {i id : Nat} (hid : region[i]? = some id) :
    Confined place g₀ region (Partition.nestedAt inner nested region i id) := by
  intro w r w' hw h
  obtain ⟨rfl, rfl⟩ | ⟨isLoop, stop, s, next, rfl, _, _, _, hrun⟩ :=
    Partition.nested_of_steady hw (Partition.nestedFound_of_told hid h)
  · exact ⟨hw, .refl _ _⟩
  · obtain ⟨hw', hkept⟩ := hnested _ _ _ _ _ _ hw hrun
    exact ⟨hw', hkept.mono (slice_subset _ _ _)⟩

/-- Folding takes blocks off a region and adds none. -/
theorem foldNested {nested : Partition.RegionStructurer}
    (hnested : ∀ isLoop list after,
      Confined place g₀ list (nested isLoop list after))
    (fuel i : Nat) {region : List Nat} (hregion : region ⊆ ids) :
    Confined place g₀ ids
      (Partition.foldNested inner nested fuel i region) := by
  induction fuel generalizing i region with
  | zero =>
    refine next ?_
    split
    · exact pure _
    · exact fail _
  | succ n ih =>
    refine next ?_
    split
    · exact pure _
    · rename_i id hid
      refine ((nestedAt hnested hid).mono hregion).bind fun found => ?_
      split
      · exact ih _ hregion
      · split
        · exact fail _
        refine (fold _ _ (hregion (List.mem_of_getElem? hid))).bind fun _ =>
          slice (slice (ih _ ?_))
        exact List.append_subset.2
          ⟨fun x hx => hregion (slice_subset _ _ _ hx),
          fun x hx => hregion (slice_subset _ _ _ hx)⟩

end Confined

/-- Folding takes blocks off a region and keeps the order of the others. -/
theorem Partition.sublist_of_foldNested {nested : Partition.RegionStructurer}
    {fuel i : Nat} {region region' : List Nat} {w w' : Told}
    (h : (Partition.foldNested inner nested fuel i region).told w =
      .ok (region', w')) :
    region'.Sublist region := by
  induction fuel generalizing i region w with
  | zero =>
    obtain ⟨-, rfl, -⟩ := Partition.foldNested_zero_eq_ok h
    exact .refl _
  | succ n ih =>
    cases Partition.foldTaken_of_told h with
    | ends _ eq => exact eq ▸ .refl _
    | passes _ run => exact ih run
    | folds _ _ lt _ rest => exact (ih rest).trans (take_append_drop_sublist lt)

namespace Confined

/-- The section of a region is confined to the region. -/
theorem regionSection (hinner : StructurerConfined place g₀ inner) (fuel : Nat)
    (isLoop : Bool) (list : List Nat) (after : Option Nat) :
    Confined place g₀ list
      (Partition.regionSection ctx inner fuel isLoop list after) := by
  induction fuel generalizing isLoop list after with
  | zero => cases list <;> exact fail _
  | succ n ih =>
    cases list with
    | nil => exact fail _
    | cons first rest =>
      unfold Partition.regionSection
      split
      · exact loop hinner first rest after
      · refine (exit _).bind fun e => ?_
        split
        · exact jumpEntered hinner first rest after
        · refine (foldNested ih _ _ (List.Subset.refl _)).bind_of
            (P := (· ⊆ first :: rest))
            (fun w r w' _ h => (Partition.sublist_of_foldNested h).subset)
            fun r hr => ?_
          split
          · exact (branch hinner _ _ _).mono hr
          · exact fail _

end Confined

namespace Confined

/-- The section at a position of a list changes the blocks that it takes up. -/
theorem sectionAt (hinner : StructurerConfined place g₀ inner) {list : List Nat}
    (after : Option Nat) {i id : Nat} (hid : list[i]? = some id) {w w' : Told}
    {s : Section} {next : Nat} (hw : Steady place g₀ w)
    (h : (Partition.sectionAt ctx inner list after i id).told w =
      .ok ((s, next), w')) :
    Steady place g₀ w' ∧ Kept ((list.take next).drop i) w w' ∧ i < next := by
  have hhere := mem_slice_of_getElem? hid (Nat.lt_succ_self i)
  cases Partition.told_sectionAt hw hid h with
  | folded holds =>
    obtain ⟨hw', hkept⟩ := single (list[i + 1]?.or after) hhere w _ _ hw
      (Partition.told_single_of_folded holds)
    exact ⟨hw', hkept, Nat.lt_succ_self i⟩
  | inline plain =>
    obtain ⟨hw', hkept⟩ := single (list[i + 1]?.or after) hhere w _ _ hw
      (Partition.told_single_of_plain plain)
    exact ⟨hw', hkept, Nat.lt_succ_self i⟩
  | region lt head run =>
    obtain ⟨hw', hkept⟩ := regionSection hinner _ _ _ _ _ _ _ hw run
    exact ⟨hw', hkept, lt⟩

/-- The sections of a list are confined to the list. -/
theorem sectionsFrom (hinner : StructurerConfined place g₀ inner)
    (list : List Nat) (after : Option Nat) (fuel i : Nat) :
    Confined place g₀ list
      (Partition.sectionsFrom ctx inner list after fuel i) := by
  induction fuel generalizing i with
  | zero =>
    intro w ss w' hw h
    obtain ⟨-, -, rfl⟩ := Partition.sectionsFrom_zero_eq_ok h
    exact ⟨hw, .refl _ _⟩
  | succ n ih =>
    intro w ss w' hw h
    cases Partition.sectionsTaken_of_told h with
    | ends _ _ same =>
      subst same
      exact ⟨hw, .refl _ _⟩
    | takes here run rest =>
      obtain ⟨hw₁, hkept, _⟩ := sectionAt hinner after here hw run
      obtain ⟨hw', hkept'⟩ := ih _ _ _ _ hw₁ rest
      exact ⟨hw', (hkept.mono (slice_subset _ _ _)).trans hkept'⟩

/-- Taking apart a list of blocks changes no others. -/
theorem sections (depth : Nat) :
    StructurerConfined place g₀ (Partition.sections ctx depth) := by
  induction depth with
  | zero => exact fun list after => fail _
  | succ n ih => exact fun list after => sectionsFrom ih list after _ _

end Confined

end Decompiler
