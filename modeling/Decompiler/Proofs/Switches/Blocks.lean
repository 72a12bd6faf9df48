import Decompiler.Assembly
import Decompiler.Proofs.Region.Steps
import Decompiler.Proofs.Switches.Code
import Decompiler.Proofs.Switches.Routes

/-!
# What the blocks of switch code do

Seen from outside a block of a tidy graph makes some calls, and then what is to
be found at the end of an edge.  The statements that its simulation leaves make
the same calls; behind a switch they leave the local that the switch is on.

* `Graph.selecting`: what the code does from a block on.
* `Graph.selecting_eq_of_meets`: edges that meet lead to the same.
* `Graph.executing_of_goesOn`: a block of straight-line code that goes on
  somewhere, and statements that do what is there.
* `Graph.exists_of_selector`: a block that heads a switch.
-/

namespace Decompiler

/-- What a method does from a block of a graph on; without a block it is
over. -/
def Graph.selecting (g : Graph) (m : Method) (values : Values) : Option Nat →
      Behavior
  | some id => m.selecting values (g.block id).start
  | none => .halt

/-- Whether variables keep the slots that they are found in. -/
def Context.KeepsSlots (ctx : Context) : Prop :=
  ∀ kind slot index, (ctx.localAt kind slot index).slot = slot

variable {ctx : Context} {m : Method} {g : Graph} {values : Values} {id : Nat}
  {next : Option Nat}

/-- Only labels stand in front of a block that is reached. -/
theorem Graph.Reaches.selecting_eq (hcode : m.isSwitchCode = true) {i : Nat}
    (h : g.Reaches m i next) :
    m.selecting values i = g.selecting m values next := by
  cases next with
  | some t => exact Method.selecting_of_acts_eq_false hcode h.2.1 h.2.2
  | none =>
    rcases Nat.le_total i m.length with hle | hge
    · rw [Method.selecting_of_acts_eq_false hcode hle h]
      exact Method.selecting_of_length_le (Nat.le_refl _)
    · exact Method.selecting_of_length_le hge

/-- A debug table names variables by their slots. -/
theorem LocalTable.keepsSlots (table : LocalTable) (m : Method)
    (recover : Recoveries) : Context.KeepsSlots ⟨m, table.lookup, recover⟩ := by
  intro kind slot index
  have hslot : (table.lookup slot index).slot = slot := by
    unfold lookup
    split
    · rename_i r hlatest
      have hcovers := (List.mem_filter.1 (mem_of_latest? hlatest)).2
      simp only [LocalRange.covers, Bool.and_eq_true, beq_iff_eq] at hcovers
      exact hcovers.1.1
    · rfl
  unfold Context.localAt
  dsimp only
  split <;> exact hslot

namespace Graph

/-- The places of a tidy graph of switch code: blocks are routed, and a jump
has nothing in front of it. -/
structure Placed (g : Graph) (m : Method) : Prop extends g.Selects m where
  code : m.isSwitchCode = true
  bare : ∀ n < g.blocks.length, ∀ t, g.exit n = .jumps t →
    m.acts (g.block n).start (g.block n).stop = false

namespace Placed

/-- A jump does what is to be found where it leads. -/
theorem selecting_of_jumps (h : g.Placed m) (values : Values) (n t : Nat)
    (hexit : g.exit n = .jumps t) :
    g.selecting m values (some n) = g.selecting m values (some t) := by
  rcases Nat.lt_or_ge n g.blocks.length with hn | hge
  · have hbare := h.bare n hn t hexit
    cases h.routed n hn with
    | jumps exit le straight goto index leads =>
      cases hexit.symm.trans exit
      change m.selecting values (g.block n).start = _
      rw [Method.selecting_of_acts_eq_false h.code le hbare,
        Method.selecting_of_goto goto index, leads.selecting_eq h.code]
    | falls exit | selects exit | returns exit => cases hexit.symm.trans exit
  · rw [Graph.exit, Graph.block_of_length_le hge] at hexit
    cases hexit

/-- Edges that meet lead to what does the same. -/
theorem selecting_eq_of_meets (h : g.Placed m) (values : Values)
    {a b : Option Nat} (hmeets : g.meets a b = true) :
    g.selecting m values a = g.selecting m values b :=
  (Graph.place_eq_of_meets (h.selecting_of_jumps values) hmeets).1

/-- The calls of a block of straight-line code come in front of what is to be
found where it goes on. -/
theorem executing_of_goesOn (h : g.Placed ctx.method)
    (hid : id < g.blocks.length) {stmts rest : List Statement}
    (hactions : g.actions ctx id = .ok stmts) (hgoes : g.goesOn id next = true)
    (hrest : values.executing rest = g.selecting ctx.method values next) :
    values.executing (stmts ++ rest) = g.selecting ctx.method values
      (some id) := by
  have hstack : g.entryStack id = [] := by
    rw [entryStack, h.plain id hid]
  unfold actions at hactions
  unfold goesOn at hgoes
  unfold simulate at hactions
  rw [hstack] at hactions
  change _ = ctx.method.selecting values (g.block id).start
  have hcalls {fs : List Member} {there : Option Nat}
      (hfs : ctx.method.Stretch (g.block id).start (g.block id).stop fs)
      (hthere : ctx.method.selecting values (g.block id).stop =
        g.selecting ctx.method values there)
          (hmeets : g.meets there next = true) :
      values.executing ((fs.map Action.ofCall).map .action ++ rest) =
        ctx.method.selecting values (g.block id).start := by
    rw [List.map_map, hfs.selecting, hthere,
      h.selecting_eq_of_meets values hmeets, ← hrest]
    exact Values.executing_calls fs
  cases h.routed id hid with
  | falls exit le straight leads =>
    obtain ⟨fs, hfs⟩ := Method.exists_stretch le straight
    change g.exit id = _ at exit
    rw [exit] at hactions hgoes
    rw [Context.simulate, hfs.run_slice ctx] at hactions
    cases hactions
    exact hcalls hfs (leads.selecting_eq h.code) hgoes
  | jumps exit le straight goto index leads =>
    obtain ⟨fs, hfs⟩ := Method.exists_stretch le straight
    change g.exit id = _ at exit
    rw [exit] at hactions hgoes
    rw [Context.simulate, hfs.run_slice ctx] at hactions
    cases hactions
    exact hcalls hfs
      ((Method.selecting_of_goto goto index).trans (leads.selecting_eq h.code))
      hgoes
  | selects exit =>
    change g.exit id = _ at exit
    rw [exit] at hgoes
    cases hgoes
  | @returns k exit stop le straight ret =>
    obtain ⟨fs, hfs⟩ := Method.exists_stretch le straight
    have hk : k < ctx.method.length := Method.lt_length_of_instr ret (by simp)
    change g.exit id = _ at exit
    rw [exit] at hactions
    rw [stop, hfs.simulate_succ hk, ret] at hactions
    cases hactions
    rw [List.map_append, List.map_map, List.append_assoc]
    exact (Values.executing_calls fs).trans (by
      rw [hfs.selecting, Method.selecting_of_ret ret]
      exact congrArg _ Values.executing_ret)

/-- The calls in front of a switch, and the local that it is on: what is to be
found where the switch sends its value comes after the calls. -/
theorem exists_of_selector (h : g.Placed ctx.method) (hslots : ctx.KeepsSlots)
    (hid : id < g.blocks.length) (hheads : (g.exit id).isSwitch = true)
    {stmts : List Statement} {e : Expr} {enum : Option String}
    (hselector : g.selector ctx id = .ok (stmts, e, enum)) :
    ∃ (fs : List Member) (v : Local),
      stmts = fs.map (fun f => .action (.ofCall f)) ∧
      e = .var v ∧ enum = none ∧ ∀ values t,
        (g.exit id).next? (.value (values v.slot)) = some t →
          g.selecting ctx.method values (some id) =
            .callAll fs (g.selecting ctx.method values (some t)) := by
  have hstack : g.entryStack id = [] := by
    rw [entryStack, h.plain id hid]
  unfold selector simulate at hselector
  rw [hstack] at hselector
  cases h.routed id hid with
  | @selects arms other k slot pairs default exit stop le straight load table breakPoint apart
      leads =>
    obtain ⟨fs, hfs⟩ := Method.exists_stretch le straight
    have hk : k < ctx.method.length := Method.lt_length_of_instr load (by simp)
    rw [stop, hfs.simulate_succ hk, load] at hselector
    have henum : (if ctx.recover.enumSwitches then
        (Expr.var (ctx.localAt .int slot k)).enumSelector? else none) = none :=
          ite_self _
    obtain ⟨outcome, hrun, hselector⟩ := bind_eq_ok.1 hselector
    cases hrun
    dsimp only at hselector
    rw [henum] at hselector
    cases hselector
    refine ⟨fs,
      ctx.localAt .int slot k, by rw [List.append_nil, List.map_map]; rfl, rfl, rfl,
      fun values t hnext => ?_⟩
    rw [hslots] at hnext
    obtain ⟨t', target, hvalue, htarget, hreaches⟩ := leads (values slot)
    obtain rfl : t = t' := Option.some.inj (hnext.symm.trans hvalue)
    change ctx.method.selecting values (g.block id).start = _
    rw [hfs.selecting, Method.selecting_of_switch load table htarget,
      hreaches.selecting_eq h.code]
  | falls exit | jumps exit | returns exit =>
    change g.exit id = _ at exit
    rw [exit] at hheads
    cases hheads

end Placed

end Graph

end Decompiler
