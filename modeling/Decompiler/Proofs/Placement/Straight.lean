import Decompiler.Proofs.Faults
import Decompiler.Proofs.Loops.Listed
import Decompiler.Proofs.Placement.Fills

/-!
# Straight-line code stays straight

A block is shown as straight-line code when it is come to in a list and ends in
neither a test nor a switch.  What happens to it later cannot make it end in
one: edges are led elsewhere, and a region that is folded falls through to what
comes after it.  A region may wait in its first block while others are taken
apart, so what is shown in it has to be known all that time, and also if it is
never taken out again.

* `Graph.Straight`: blocks that end in neither.
* `Work.Knows`: blocks that are straight-line code, and what keeps them so.
* `Partition.Resolves`: a step that shows straight-line code only, with one rule
  for each way in which steps are put together and for each change to the work.
-/

namespace Decompiler

/-- Whether a fault is one of a test or switch that is shown as straight-line
code. -/
def Fault.IsUnresolved : Fault → Prop
  | .unresolvedConditional _ => True
  | _ => False

/-- A fault of the code is not that of a block left unresolved. -/
theorem Fault.IsOfCode.not_isUnresolved {f : Fault} (h : f.IsOfCode) :
    ¬ f.IsUnresolved := by
  cases f <;> first | exact id | cases h

/-- Whether a block ends in neither a test nor a switch. -/
def Graph.Straight (g : Graph) (id : Nat) : Prop :=
  (g.exit id).isBranch = false ∧ (g.exit id).isSwitch = false

/-! ## The work -/

/-- Some blocks are straight-line code, and so are those that are shown as such
in regions that have been folded. -/
structure Work.Knows (w : Work) (known : List Nat) : Prop where
  folded : ∀ id s, (w.graph.block id).folded = some s → ∀ x ∈ s.inlined,
  w.graph.Straight x
  straight : ∀ id ∈ known, w.graph.Straight id

namespace Work.Knows

variable {w : Work} {known less : List Nat}

/-- Fewer blocks may be known. -/
theorem mono (h : w.Knows known) (hsubset : less ⊆ known) : w.Knows less :=
  ⟨h.folded, fun id hid => h.straight id (hsubset hid)⟩

/-- A change of the graph that leaves straight-line code as it is, and folds in
nothing but what is known. -/
theorem change {g : Graph} (h : w.Knows known)
    (hstraight : ∀ id, w.graph.Straight id → g.Straight id)
    (hfolded : ∀ id s, (g.block id).folded = some s →
      (w.graph.block id).folded = some s ∨ s.inlined ⊆ known) :
    Work.Knows { w with graph := g } known := by
  refine ⟨fun id s hs x hx => hstraight x ?_, fun id hid =>
    hstraight id (h.straight id hid)⟩
  rcases hfolded id s hs with hs | hs
  · exact h.folded id s hs x hx
  · exact h.straight x (hs hx)

/-- A block whose edges are left alone, or that falls through from now on. -/
theorem modify (h : w.Knows known) (id : Nat) {change : Block → Block}
    (hexit : ∀ b, (change b).exit = b.exit ∨ ∃ next,
      (change b).exit = .falls next)
    (hfolded : ∀ b s, (change b).folded = some s → s.inlined ⊆ known) :
    Work.Knows { w with graph := w.graph.modify id change } known := by
  refine h.change (fun x hx => ?_) fun x s hs => ?_
  · rw [Graph.Straight, Graph.exit]
    rcases w.graph.block_modify id x change with heq | ⟨-, heq⟩ <;> rw [heq]
    · exact hx
    · rcases hexit (w.graph.block x) with hsame | ⟨next, hfalls⟩
      · rw [hsame]
        exact hx
      · rw [hfalls]
        exact ⟨rfl, rfl⟩
  · rcases w.graph.block_modify id x change with heq | ⟨-, heq⟩ <;>
      rw [heq] at hs
    · exact .inl hs
    · exact .inr (hfolded _ s hs)

/-- Folding a section of known blocks keeps them known. -/
theorem fold (h : w.Knows known) (id : Nat) {s : Section}
    (hs : s.inlined ⊆ known) (next : Option Nat) :
    Work.Knows { w with graph := w.graph.fold id s next } known :=
  h.modify id (fun _ => .inr ⟨next, rfl⟩) fun _ _ ht => Option.some.inj ht ▸ hs

/-- Taking a section out of a block keeps blocks known. -/
theorem unfold (h : w.Knows known) (id : Nat) :
    Work.Knows { w with graph := w.graph.unfold id } known :=
  h.modify id (fun _ => .inl rfl) fun _ _ ht => nomatch ht

/-- Turning edges to the jump that closes a loop keeps blocks known. -/
theorem continueAt (h : w.Knows known) (head closing id : Nat) :
    Work.Knows { w with graph := w.graph.continueAt head closing id }
      known := by
  have hturned (x : Nat) := w.graph.turned_continueAt head closing id x
  refine h.change (fun x hx => ?_) fun x s hs => .inl ((hturned x).1 ▸ hs)
  obtain ⟨-, f, hexit, -⟩ := hturned x
  rw [Graph.Straight, Graph.exit, hexit, Exit.isBranch_mapTargets,
    Exit.isSwitch_mapTargets]
  exact hx

/-- The same for any number of blocks. -/
theorem foldl_continueAt (h : w.Knows known) (head closing : Nat)
    (ids : List Nat) : Work.Knows
    { w with
      graph := ids.foldl (fun g id => g.continueAt head closing id) w.graph }
      known := by
  induction ids generalizing w with
  | nil => exact h
  | cons id ids ih => exact ih (h.continueAt head closing id)

end Work.Knows

namespace Partition

/-! ## Steps -/

/-- What comes of a step that keeps what is known, and shows no more than comes
to be known with its result.  Its faults are others than that of a test or
switch left over. -/
def Settles {α : Type} (known : List Nat) (shown : α → List Nat) :
    Except Fault (α × Work) → Prop
  | .ok (a, w) => w.Knows (known ++ shown a)
  | .error f => ¬ f.IsUnresolved

/-- Less may be known than is. -/
theorem Settles.mono {α : Type} {known less : List Nat} {shown : α → List Nat}
    {r : Except Fault (α × Work)} (h : Settles known shown r)
    (hsubset : less ⊆ known) : Settles less shown r := by
  cases r with
  | error f => exact h
  | ok r => exact Work.Knows.mono h (List.append_subset.2
      ⟨List.subset_append_of_subset_left _ hsubset,
        List.subset_append_right _ _⟩)

/-- A step that settles what it does, wherever some blocks are known. -/
def Resolves {α : Type} (known : List Nat) (x : Partition α)
    (shown : α → List Nat) : Prop :=
  ∀ w : Work, w.Knows known → Settles known shown (x.run w)

/-- What is known of a block once it has been looked at: what has been folded
into it shows straight-line code, and so does the block if it ends like that. -/
def shownBy (id : Nat) (b : Block) : List Nat :=
  b.folded.elim [] Section.inlined ++ if b.exit.isBranch ||
    b.exit.isSwitch then [] else [id]

/-- What a block shows is straight. -/
theorem straight_of_mem_shownBy {w : Work} {known : List Nat}
    (hw : w.Knows known) {id x : Nat} (hx : x ∈ shownBy id (w.graph.block id)) :
    w.graph.Straight x := by
  rcases List.mem_append.1 hx with hx | hx
  · cases hfolded : (w.graph.block id).folded with
    | none =>
      rw [hfolded] at hx
      cases hx
    | some s =>
      rw [hfolded] at hx
      exact hw.folded id s hfolded x hx
  · split at hx
    · cases hx
    · rename_i hends
      obtain rfl := List.mem_singleton.1 hx
      simpa [Graph.Straight, Graph.exit] using hends

/-- Looking at a block makes it known. -/
theorem knows_shownBy {w : Work} {known : List Nat} (hw : w.Knows known)
    (id : Nat) : w.Knows (known ++ shownBy id (w.graph.block id)) :=
  ⟨hw.folded, List.forall_mem_append.2
    ⟨hw.straight, fun _ hx => straight_of_mem_shownBy hw hx⟩⟩

namespace Resolves

variable {α β : Type} {known : List Nat} {shown : α → List Nat} {id : Nat}

/-- A step may rely on what the step before shows. -/
theorem bind {x : Partition β} {k : β → Partition α} {first : β → List Nat}
    (hx : Resolves known x first)
    (hk : ∀ b, Resolves (known ++ first b) (k b) shown) :
    Resolves known (x >>= k) shown := by
  intro w hw
  have hfirst := hx w hw
  rw [run_bind]
  cases hrun : x.run w with
  | error f =>
    rw [hrun] at hfirst
    exact hfirst
  | ok r =>
    rw [hrun] at hfirst
    exact (hk r.1 r.2 hfirst).mono (List.subset_append_left _ _)

/-- A step that shows nothing comes first. -/
theorem seq {x : Partition β} {k : β → Partition α}
    (hx : Resolves known x fun _ => []) (hk : ∀ b, Resolves known (k b) shown) :
    Resolves known (x >>= k) shown :=
  hx.bind fun b => by
    rw [List.append_nil]
    exact hk b

/-- A result shows blocks that are known. -/
theorem pure {a : α} (h : shown a ⊆ known) : Resolves known (pure a) shown :=
  fun _ hw => hw.mono (List.append_subset.2 ⟨List.Subset.refl known, h⟩)

/-- A step may fail, but not for a block left unresolved. -/
theorem fail {f : Fault} (h : ¬ f.IsUnresolved) :
    Resolves known (fail f) shown :=
  fun _ _ => h

/-- Anything may be asked. -/
theorem ask {q : Query} {k : q.Answer → Partition α}
    (hk : ∀ a, Resolves known (k a) shown) :
    Resolves known (Partition.ask q >>= k) shown :=
  fun w hw => hk _ w hw

theorem exit {k : Exit → Partition α} (hk : ∀ e, Resolves known (k e) shown) :
    Resolves known (Partition.exit id >>= k) shown :=
  fun w hw => hk _ w hw

/-- A group may be used up. -/
theorem use {t : TryGroup} {k : Unit → Partition α}
    (hk : Resolves known (k ()) shown) :
    Resolves known (Partition.use t >>= k) shown :=
  fun w hw => hk { w with pending := w.pending.erase t }
    ⟨hw.folded, hw.straight⟩

theorem change {list : List Nat} {f : Graph → Graph} {k : Unit → Partition α}
    (hf : ∀ w : Work, w.Knows known →
      Work.Knows { w with graph := f w.graph } known)
    (hk : Resolves known (k ()) shown) :
    Resolves known (Partition.change list f >>= k) shown :=
  fun w hw => hk { w with graph := f w.graph } (hf w hw)

/-- A block that is read becomes known. -/
theorem block {k : Block → Partition α}
    (hk : ∀ b, Resolves (known ++ shownBy id b) (k b) shown) :
    Resolves known (Partition.block id >>= k) shown := by
  intro w hw
  rw [run_bind]
  rcases Nat.lt_or_ge id w.graph.blocks.length with hid | hid
  · rw [run_block_of_lt hid]
    exact (hk _ w (knows_shownBy hw id)).mono (List.subset_append_left _ _)
  · rw [run_block_of_length_le hid]
    exact fun h => h

/-- A known block may become a section of its own. -/
theorem single {next : Option Nat} (h : id ∈ known) :
    Resolves known (Partition.single id next) Section.inlined := by
  intro w hw
  cases hfolded : (w.graph.block id).folded with
  | some s =>
    rw [run_single_of_folded hfolded]
    have hs : w.Knows (known ++ s.inlined) := ⟨hw.folded,
      List.forall_mem_append.2 ⟨hw.straight, hw.folded id s hfolded⟩⟩
    exact hs.unfold id
  | none =>
    rw [run_single_of_plain hfolded]
    exact ⟨hw.folded, List.forall_mem_append.2
      ⟨hw.straight, List.forall_mem_singleton.2 (hw.straight id h)⟩⟩

/-- A block that holds a region may become a section of its own at once, whether
it is known or not. -/
theorem block_or_single {next : Option Nat} {k : Block → Partition α}
    {k' : Section → Partition α}
    (hk : ∀ b, Resolves (known ++ shownBy id b) (k b) shown)
    (hk' : ∀ s, Resolves (known ++ s.inlined) (k' s) shown) :
    Resolves known (Partition.block id >>= fun b =>
      if b.folded.isSome then Partition.single id next >>= k' else k b)
      shown := by
  intro w hw
  rw [run_bind]
  rcases Nat.lt_or_ge id w.graph.blocks.length with hid | hid
  · rw [run_block_of_lt hid]
    change Settles known shown (Partition.run (ite _ _ _) w)
    split
    · rename_i hfolded
      obtain ⟨s, hs⟩ := Option.isSome_iff_exists.1 hfolded
      have hknown : s.inlined ⊆ shownBy id (w.graph.block id) := by
        rw [shownBy, hs]
        exact List.subset_append_left _ _
      have hw' := (knows_shownBy hw id).mono (List.append_subset.2
        ⟨List.subset_append_left _ _,
          List.subset_append_of_subset_right _ hknown⟩)
      rw [run_bind, run_single_of_folded hs]
      exact (hk' s _ (hw'.unfold id)).mono (List.subset_append_left _ _)
    · exact (hk _ w (knows_shownBy hw id)).mono (List.subset_append_left _ _)
  · rw [run_block_of_length_le hid]
    exact fun h => h

/-- A step may give up. -/
theorem irreducible : Resolves known (Partition.irreducible id) shown :=
  ask fun _ => fail fun h => h

/-- A guard shows no block. -/
theorem guard {ctx : Context} {chain : List Nat} {body : Nat}
    {after : Option Nat} :
    Resolves known (Partition.guard ctx chain body after) fun _ => [] := by
  intro w hw
  rw [run_guard]
  have hfails : FailsAs Fault.IsOfCode (w.graph.guard ctx chain body after) :=
    .guard chain body after
  cases hguard : w.graph.guard ctx chain body after with
  | error f => exact (hfails.of_eq_error hguard).not_isUnresolved
  | ok c => exact hw.mono (List.append_subset.2
      ⟨List.Subset.refl known, List.nil_subset _⟩)

/-- Looking for a try statement at most uses up a group of ranges. -/
theorem tryPlan? {list : List Nat} :
    Resolves known (Partition.tryPlan? list id) fun _ => [] := by
  refine ask fun groups => ?_
  split
  · exact pure (List.nil_subset _)
  · refine ask fun plan => ?_
    split
    · exact pure (List.nil_subset _)
    · exact use (pure (List.nil_subset _))

end Resolves

end Partition

end Decompiler
