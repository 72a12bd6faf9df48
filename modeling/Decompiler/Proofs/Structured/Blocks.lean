import Decompiler.Proofs.Graph.Total
import Decompiler.Proofs.Structured.Layout
import Decompiler.Proofs.Structured.Source

/-!
# The blocks of structured code

The tidy graph of compiled `if` statements is a layout.  The blocks follow the
code: walking through the code of a program, one is always in front of a block
or inside one that makes calls.  A test ends its block and starts a branch; the
label behind a body, and the jump in front of it, are where blocks part.

* `Graph.Starts`: a block starts where an instruction is come to.
* `Graph.Inside`: a block goes on at an instruction.
* `Layout.Rows`: a layout of consecutive blocks for code that ends in a tail.
* `hasRows_of_laid`: the blocks of the code of a program have a layout.
-/

namespace Decompiler

variable {ctx : Context} {m : Method} {g : Graph} {p q n k : Nat}

/-- An instruction of the method that does something. -/
def Method.Acting (m : Method) (k : Nat) : Prop :=
  k < m.length ∧ (m.instr k).isMarker = false

theorem Method.acting_of_instr {i : Instr} (h : m.instr k = i) (hi : i ≠ .nop)
    (hacts : i.isMarker = false) : m.Acting k :=
  ⟨lt_length_of_instr h hi, by rw [h]; exact hacts⟩

theorem Method.exists_acting {i j : Nat} (h : m.acts i j = true) :
    ∃ k, i ≤ k ∧ k < j ∧ m.Acting k := by
  by_contra hnone
  have hidle : m.acts i j = false := acts_eq_false_iff.2 fun k hik hkj hk => by
    cases hacts : (m.instr k).isMarker with
    | true => rfl
    | false => exact absurd ⟨k, hik, hkj, hk, hacts⟩ hnone
  rw [h] at hidle
  cases hidle

/-- What is done from an instruction on is what is done from the start of a
block on. -/
structure Graph.Starts (g : Graph) (m : Method) (p n : Nat) : Prop where
  lt : n < g.blocks.length
  same : ∀ k, m.Acting k → (p ≤ k ↔ (g.block n).start ≤ k)

/-- A block that is straight up to its end goes on at an instruction. -/
structure Graph.Inside (g : Graph) (m : Method) (p n : Nat) : Prop where
  lt : n < g.blocks.length
  /-- The block has done something before. -/
  past : ∃ k, m.Acting k ∧ (g.block n).start ≤ k ∧ k < p
  ends : (∃ t, g.exit n = .falls (some t) ∧ p ≤ (g.block n).stop ∧
      m.Straight (g.block n).start (g.block n).stop ∧
      g.Reaches m (g.block n).stop (some t)) ∨
    ∃ e, g.exit n = .returns ∧ p ≤ e ∧ m.Straight (g.block n).start e ∧
      m.instr e = .ret none ∧ (g.block n).stop = e + 1

namespace Graph.Starts

theorem of_reaches (h : g.Reaches m p (some n)) : g.Starts m p n := by
  obtain ⟨hlt, hle, hacts⟩ := h
  refine ⟨hlt, fun k hk =>
    ⟨fun hpk => Nat.le_of_not_lt fun hkn => ?_, fun hnk => by omega⟩⟩
  have hmarker := Method.acts_eq_false_iff.1 hacts k hpk hkn hk.1
  rw [hk.2] at hmarker
  cases hmarker

/-- A label is passed at once. -/
theorem succ (h : g.Starts m p n) (hmarker : (m.instr p).isMarker = true) :
    g.Starts m (p + 1) n := by
  refine ⟨h.lt, fun k hk => ?_⟩
  rw [← h.same k hk]
  have hne : p ≠ k := by
    rintro rfl
    have hacts := hk.2
    rw [hmarker] at hacts
    cases hacts
  omega

end Graph.Starts

/-! ## Every block does something -/

/-- Code that ends in a return. -/
def Method.EndsInReturn (m : Method) : Prop :=
  ∃ last, m.length = last + 1 ∧ m.instr last = .ret none

theorem Method.EndsInReturn.acts (hend : m.EndsInReturn) (hp : p < m.length) :
    m.acts p m.length = true := by
  obtain ⟨last, hlen, hret⟩ := hend
  refine eq_true_of_ne_false fun hidle => ?_
  have hmarker :=
    acts_eq_false_iff.1 hidle last (by omega) (by omega) (by omega)
  rw [hret] at hmarker
  cases hmarker

theorem Method.EndsInReturn.not_reaches_none (hend : m.EndsInReturn)
    (hp : p < m.length) :
    ¬ g.Reaches m p none := fun hidle => by
  have hacts := hend.acts hp
  rw [show m.acts p m.length = false from hidle] at hacts
  cases hacts

namespace Tidied

/-- No block runs off the end of code that ends in a return. -/
theorem exists_next (hg : Tidied m g) (hend : m.EndsInReturn)
    (hn : n < g.blocks.length) {next : Option Nat}
    (hexit : g.exit n = .falls next) : ∃ t, next = some t := by
  cases next with
  | some t => exact ⟨t, rfl⟩
  | none =>
    obtain ⟨_, hstraight, hleads⟩ := (hg.wellCut n hn).of_falls hexit
    obtain ⟨last, hlen, hret⟩ := id hend
    have hstart := hg.start_lt n hn
    rcases Nat.lt_or_ge last (g.block n).stop with hlt | hge
    · rcases hstraight last (by omega) hlt with ⟨l, hl⟩ | ⟨f, hf, _⟩
      · rw [hret] at hl
        cases hl
      · rw [hret] at hf
        cases hf
    · exact absurd hleads (hend.not_reaches_none (by omega))

theorem exists_acting (hg : Tidied m g) (hend : m.EndsInReturn)
    (hn : n < g.blocks.length) :
    ∃ k, m.Acting k ∧ (g.block n).start ≤ k ∧ k < (g.block n).finish := by
  have hbare := hg.lean n hn
  cases hg.wellCut n hn with
  | @falls next exit le straight leads =>
    obtain ⟨t, rfl⟩ := hg.exists_next hend hn exit
    simp only [Bare, exit] at hbare
    obtain ⟨k, hstart, hstop, hk⟩ := Method.exists_acting hbare
    exact ⟨k, hk, hstart, by simpa [Block.finish, exit] using hstop⟩
  | jumps exit le straight goto =>
    refine ⟨(g.block n).stop, Method.acting_of_instr goto (by simp) rfl, le, ?_⟩
    simp [Block.finish, exit]
  | @branches t target k o f op l exit stop le straight call =>
    refine ⟨k, Method.acting_of_instr call (by simp) rfl, le, ?_⟩
    simp only [Block.finish, exit]
    omega
  | @returns k exit stop le straight ret =>
    refine ⟨k, Method.acting_of_instr ret (by simp) rfl, le, ?_⟩
    simp only [Block.finish, exit]
    omega

/-- The block that starts at an instruction is the only one. -/
theorem starts_unique (hg : Tidied m g) (hend : m.EndsInReturn) {n' : Nat}
    (h : g.Starts m p n) (h' : g.Starts m p n') : n = n' := by
  have hnot {n n' : Nat} (h : g.Starts m p n) (h' : g.Starts m p n') :
      ¬ n < n' := by
    intro hlt
    obtain ⟨k, hk, hstart, hfinish⟩ := hg.exists_acting hend h.lt
    have hp := (h.same k hk).2 hstart
    have hlater := (h'.same k hk).1 hp
    have hbefore := (hg.before n n' hlt h'.lt).1
    omega
  exact Nat.le_antisymm (Nat.le_of_not_lt (hnot h' h))
    (Nat.le_of_not_lt (hnot h h'))

/-- The next block starts where a block is over. -/
theorem starts_finish (hg : Tidied m g) (hend : m.EndsInReturn)
    (hn : n < g.blocks.length) (hlt : (g.block n).finish < m.length) :
    g.Starts m (g.block n).finish (n + 1) := by
  have hnext := hg.next n hn
  split at hnext
  · exact .of_reaches hnext
  · exact absurd hnext (hend.not_reaches_none hlt)

/-- A block that runs into another runs into the next. -/
theorem eq_succ_of_falls (hg : Tidied m g) (hend : m.EndsInReturn)
    (hn : n < g.blocks.length) {t : Nat} (hexit : g.exit n = .falls (some t)) :
    t = n + 1 := by
  obtain ⟨_, _, hleads⟩ := (hg.wellCut n hn).of_falls hexit
  have hstarts := Graph.Starts.of_reaches hleads
  have hfinish : (g.block n).finish = (g.block n).stop := by
    have hexit' : (g.block n).exit = .falls (some t) := hexit
    simp [Block.finish, hexit']
  obtain ⟨k, hk, hkt, _⟩ := hg.exists_acting hend hstarts.lt
  have hlt : (g.block n).finish < m.length := by
    rw [hfinish]
    exact Nat.lt_of_le_of_lt ((hstarts.same k hk).2 hkt) hk.1
  have hnext := hg.starts_finish hend hn hlt
  rw [hfinish] at hnext
  exact hg.starts_unique hend hstarts hnext

/-- Behind the block that ends with the code there is no other. -/
theorem last_of_finish (hg : Tidied m g) (hn : n < g.blocks.length)
    (hfinish : (g.block n).finish = m.length) : n + 1 = g.blocks.length := by
  refine Nat.le_antisymm hn (Nat.le_of_not_lt fun hlt => ?_)
  have hbefore := (hg.before n (n + 1) (Nat.lt_succ_self n) hlt).1
  have hstart := hg.start_lt (n + 1) hlt
  omega

end Tidied

/-- What stands where a block starts that does something. -/
inductive Graph.Front (g : Graph) (m : Method) (p n : Nat) : Prop
  | call {f : Member} (code : m.instr p = .call .static f)
      (returns : f.descriptor = "()V") (inside : g.Inside m (p + 1) n)
  | goto {t e : Nat} {l : Label} (code : m.instr p = .goto l)
      (exit : g.exit n = .jumps t)
      (index : m.labelIndex? l = some e) (leads : g.Starts m e t)
      (behind : p + 1 < m.length → g.Starts m (p + 1) (n + 1))
  | test {f : Member} {l : Label} {op : Comparison} {t e : Nat}
      (code : m.instr p = .call .static f)
      (answers : f.descriptor = "()Z") (jump : m.instr (p + 1) = .ifZero op l)
      (exit : g.exit n = .branches t (some (n + 1)))
      (index : m.labelIndex? l = some e)
      (taken : g.Starts m e t) (fallen : g.Starts m (p + 2) (n + 1))
  | ret (code : m.instr p = .ret none) (exit : g.exit n = .returns)
      (finish : (g.block n).finish = p + 1)

theorem Method.isMarker_of_acts_eq_false {i j : Nat} (h : m.acts i j = false)
    (hi : i ≤ k) (hj : k < j) : ¬ m.Acting k := fun hk => by
  have hmarker := acts_eq_false_iff.1 h k hi hj hk.1
  rw [hk.2] at hmarker
  cases hmarker

theorem Graph.Starts.front (hg : Tidied m g) (hend : m.EndsInReturn)
    (h : g.Starts m p n) (hp : m.Acting p) : g.Front m p n := by
  have hstart := (h.same p hp).1 (Nat.le_refl p)
  have hbare := hg.lean n h.lt
  have hbehind (hlt : (g.block n).finish < m.length) :=
    hg.starts_finish hend h.lt hlt
  -- a label is no instruction that does something
  have hcall {e : Nat} (hstraight : m.Straight (g.block n).start e)
      (hpe : p < e) :
      ∃ f, m.instr p = .call .static f ∧ f.descriptor = "()V" := by
    refine (hstraight p hstart hpe).resolve_left fun ⟨l, hl⟩ => ?_
    have hacts := hp.2
    rw [hl] at hacts
    cases hacts
  cases hg.wellCut n h.lt with
  | @falls next exit le straight leads =>
    obtain ⟨t, rfl⟩ := hg.exists_next hend h.lt exit
    simp only [Bare, exit] at hbare
    obtain ⟨k, hk, hkstop, hacting⟩ := Method.exists_acting hbare
    have hpk := (h.same k hacting).2 hk
    obtain ⟨f, hf, hreturns⟩ := hcall straight (by omega)
    exact .call hf hreturns ⟨h.lt, ⟨p, hp, hstart, Nat.lt_succ_self p⟩,
      .inl ⟨t, exit, by omega, straight, leads⟩⟩
  | jumps exit le straight goto index leads =>
    simp only [Bare, exit] at hbare
    have hle := (h.same _ (Method.acting_of_instr goto (by simp) rfl)).2 le
    obtain rfl : p = (g.block n).stop := by
      refine Nat.le_antisymm hle (Nat.le_of_not_lt fun hlt => ?_)
      exact Method.isMarker_of_acts_eq_false hbare hstart hlt hp
    refine .goto goto exit index (.of_reaches leads) fun hlt => ?_
    rw [show (g.block n).finish = (g.block n).stop +
      1 by simp [Block.finish, exit]] at hbehind
    exact hbehind hlt
  | @branches t target k o f op l exit stop le straight call answers jump _ _
      index taken fallen =>
    simp only [Bare, exit, stop, Nat.add_sub_cancel] at hbare
    have hle := (h.same _ (Method.acting_of_instr call (by simp) rfl)).2 le
    obtain rfl : p = k := by
      refine Nat.le_antisymm hle (Nat.le_of_not_lt fun hlt => ?_)
      exact Method.isMarker_of_acts_eq_false hbare hstart hlt hp
    have hlt : p + 2 < m.length := by
      obtain ⟨last, hlen, hret⟩ := id hend
      have hjump : p + 1 < m.length := Method.lt_length_of_instr jump (by simp)
      have hne : p + 1 ≠ last := by
        rintro rfl
        rw [jump] at hret
        cases hret
      omega
    have hfallen : g.Starts m (p + 2) (n + 1) := by
      rw [show (g.block n).finish = p + 2 by simp [Block.finish, exit, stop]] at hbehind
      exact hbehind hlt
    cases o with
    | none => exact absurd fallen (hend.not_reaches_none hlt)
    | some t' =>
      obtain rfl := hg.starts_unique hend (.of_reaches fallen) hfallen
      exact .test call answers jump exit index (.of_reaches taken) hfallen
  | @returns k exit stop le straight ret =>
    have hle := (h.same _ (Method.acting_of_instr ret (by simp) rfl)).2 le
    rcases Nat.eq_or_lt_of_le hle with rfl | hlt
    · exact .ret ret exit (by simpa [Block.finish, exit] using stop)
    · obtain ⟨f, hf, hreturns⟩ := hcall straight hlt
      exact .call hf hreturns ⟨h.lt, ⟨p, hp, hstart, Nat.lt_succ_self p⟩,
        .inr ⟨k, exit, hlt, straight, ret, stop⟩⟩

/-- How a block goes on. -/
inductive Graph.Onward (g : Graph) (m : Method) (p n : Nat) : Prop
  | straight (code : (∃ l, m.instr p = .label l) ∨
      ∃ f, m.instr p = .call .static f ∧ f.descriptor = "()V")
        (inside : g.Inside m (p + 1) n)
  | finished (exit : g.exit n = .falls (some (n + 1)))
      (starts : g.Starts m p (n + 1))
  | ret (code : m.instr p = .ret none) (exit : g.exit n = .returns)
      (finish : (g.block n).finish = p + 1)

namespace Graph.Inside

theorem onward (hg : Tidied m g) (hend : m.EndsInReturn) (h : g.Inside m p n) :
    g.Onward m p n := by
  obtain ⟨k, hk, hstart, hkp⟩ := h.past
  have hpast : ∃ k, m.Acting k ∧ (g.block n).start ≤ k ∧ k < p + 1 :=
    ⟨k, hk, hstart, Nat.lt_succ_of_lt hkp⟩
  rcases h.ends with ⟨t, hexit, hle, hstraight, hleads⟩ | ⟨e, hexit, hle,
    hstraight, hret, hstop⟩
  · rcases Nat.eq_or_lt_of_le hle with rfl | hlt
    · obtain rfl := hg.eq_succ_of_falls hend h.lt hexit
      exact .finished hexit (.of_reaches hleads)
    · exact .straight (hstraight p (by omega) hlt) ⟨h.lt, hpast,
        .inl ⟨t, hexit, hlt, hstraight, hleads⟩⟩
  · rcases Nat.eq_or_lt_of_le hle with rfl | hlt
    · have hexit' : (g.block n).exit = .returns := hexit
      exact .ret hret hexit (by simpa [Block.finish, hexit'] using hstop)
    · exact .straight (hstraight p (by omega) hlt) ⟨h.lt, hpast,
        .inr ⟨e, hexit, hlt, hstraight, hret, hstop⟩⟩

/-- Where another block starts this one is over. -/
theorem over_of_starts (hg : Tidied m g) (hend : m.EndsInReturn)
    (h : g.Inside m p n) {n' : Nat} (h' : g.Starts m p n') :
    g.exit n = .falls (some (n + 1)) ∧ n' = n + 1 := by
  obtain ⟨c, hc, hstart, hcp⟩ := h.past
  obtain ⟨c', hc', hstart', hfinish'⟩ := hg.exists_acting hend h'.lt
  have hpc' := (h'.same c' hc').2 hstart'
  have hnotc : ¬ (g.block n').start ≤ c := fun hle => by
    have hpc := (h'.same c hc).2 hle
    omega
  -- the other block stands behind this one
  have hbefore : (g.block n).finish ≤ (g.block n').start := by
    rcases Nat.lt_trichotomy n n' with hlt | rfl | hlt
    · exact (hg.before n n' hlt h'.lt).1
    · exact absurd hstart hnotc
    · have hearlier := (hg.before n' n hlt h.lt).1
      omega
  rcases h.ends
    with ⟨t, hexit, hle, _, hleads⟩ | ⟨e, hexit, hle, _, hret, hstop⟩
  · obtain rfl := hg.eq_succ_of_falls hend h.lt hexit
    have hexit' : (g.block n).exit = .falls (some (n + 1)) := hexit
    simp only [Block.finish, hexit'] at hbefore
    have hacts : m.acts p (g.block n).stop = false := by
      refine Bool.eq_false_iff.2 fun hacts => ?_
      obtain ⟨k, hpk, hkstop, hk⟩ := Method.exists_acting hacts
      have hlater := (h'.same k hk).1 hpk
      omega
    exact ⟨hexit,
      hg.starts_unique hend h' (.of_reaches (hleads.of_acts hle hacts))⟩
  · have hexit' : (g.block n).exit = .returns := hexit
    simp only [Block.finish, hexit', hstop] at hbefore
    have hlater := (h'.same e (Method.acting_of_instr hret (by simp) rfl)).1 hle
    omega

end Graph.Inside

/-! ## Rows of blocks -/

/-- What comes behind the code of a program. -/
inductive Tail
  | falls (block : Nat)
  /-- A jump to what stands at an index. -/
  | jumps (index : Nat)
  | returns

/-- The code that is a tail. -/
def Tail.At (g : Graph) (m : Method) (q : Nat) : Tail → Prop
  | falls b => g.Starts m q b
  | jumps e =>
    q + 1 < m.length ∧ ∃ l, m.instr q = .goto l ∧ m.labelIndex? l = some e
  | returns => m.instr q = .ret none ∧ m.length = q + 1

/-- How the layout of code in front of a tail ends, with the block `stop`
behind it. -/
def Tail.Ends (g : Graph) (m : Method) (q : Nat) (l : Layout)
    (next : Option Nat) (stop : Nat) :
    Tail → Prop
  | falls b => l.stops = true ∧ next = some b ∧ stop = b
  | jumps e =>
    l.leaves = true ∧ (∃ t, next = some t ∧ g.Starts m e t) ∧
    g.Starts m (q + 1) stop
  | returns => next = none ∧ stop = g.blocks.length

/-- A layout of consecutive blocks, for code with a tail at an instruction. -/
structure Layout.Rows (ctx : Context) (g : Graph) (m : Method) (q : Nat)
    (tail : Tail) (n : Nat) (l : Layout) (next : Option Nat) : Prop where
  fits : l.Fits ctx g g next
  first : l.first next = some n
  ids : l.ids = List.range' n l.ids.length
  ends : tail.Ends g m q l next (n + l.ids.length)

/-- The code from a block on has a layout. -/
def HasRows (ctx : Context) (g : Graph) (m : Method) (q : Nat) (tail : Tail)
    (n : Nat) : Prop :=
  ∃ l next, Layout.Rows ctx g m q tail n l next

variable {tail : Tail}

theorem Tidied.untouched (hg : Tidied m g) (hn : n < g.blocks.length) :
    g.Untouched g n :=
  ⟨rfl, (hg.fresh n hn).2.2⟩

/-- A block that runs into the next stands in front of its layout. -/
theorem HasRows.plain (hg : Tidied m g) (hn : n < g.blocks.length)
    (hexit : g.exit n = .falls (some (n + 1)))
    (h : HasRows ctx g m q tail (n + 1)) : HasRows ctx g m q tail n := by
  obtain ⟨l, next, h⟩ := h
  have hfresh := (hg.untouched hn).2
  refine ⟨.plain n l, next,
    .plain ⟨by rw [hexit, h.first], fun _ => hg.untouched hn,
    fun s hs => ?_⟩ h.fits, rfl, ?_, ?_⟩
  · rw [hfresh] at hs
    cases hs
  · rw [Layout.ids, List.length_cons, List.range'_succ, ← h.ids]
  · have hends := h.ends
    rw [Layout.ids, List.length_cons, ← Nat.add_assoc, Nat.add_right_comm]
    cases tail <;> exact hends

/-- In front of its tail a program is done. -/
theorem Graph.Starts.hasRows_done (hg : Tidied m g) (hend : m.EndsInReturn)
    (h : g.Starts m p n) (hat : tail.At g m p) : HasRows ctx g m p tail n := by
  cases tail with
  | falls b =>
    obtain rfl := hg.starts_unique hend h hat
    exact ⟨.stop, some n, .stop, rfl, rfl, rfl, rfl, rfl⟩
  | jumps e =>
    obtain ⟨hlt, l, hgoto, hindex⟩ := hat
    cases h.front hg hend (Method.acting_of_instr hgoto (by simp) rfl) with
    | @goto t e' l' code exit index leads behind =>
      cases hgoto.symm.trans code
      cases hindex.symm.trans index
      exact ⟨.leave n, some t, .leave (hg.untouched h.lt) exit, rfl, rfl, rfl,
        ⟨t, rfl, leads⟩, behind hlt⟩
    | call code => cases hgoto.symm.trans code
    | test code => cases hgoto.symm.trans code
    | ret code => cases hgoto.symm.trans code
  | returns =>
    obtain ⟨hret, hlen⟩ := hat
    cases h.front hg hend (Method.acting_of_instr hret (by simp) rfl) with
    | ret _ exit finish =>
      exact ⟨.ret n, none, .ret (hg.untouched h.lt) exit, rfl, rfl, rfl,
        hg.last_of_finish h.lt (finish.trans hlen.symm)⟩
    | call code => cases hret.symm.trans code
    | goto code => cases hret.symm.trans code
    | test code => cases hret.symm.trans code

/-- A block is over in front of what is no part of it. -/
theorem Graph.Inside.hasRows (hg : Tidied m g) (hend : m.EndsInReturn)
    (h : g.Inside m p n) (hlabel : ∀ l, m.instr p ≠ .label l)
    (hcall : ∀ f, m.instr p = .call .static f → f.descriptor = "()V" → False)
    (hret : m.instr p ≠ .ret none)
    (hrows : ∀ n', g.Starts m p n' → HasRows ctx g m q tail n') :
    HasRows ctx g m q tail n := by
  cases h.onward hg hend with
  | straight code =>
    rcases code with ⟨l, hl⟩ | ⟨f, hf, hreturns⟩
    · exact absurd hl (hlabel l)
    · exact (hcall f hf hreturns).elim
  | finished exit starts => exact (hrows _ starts).plain hg h.lt exit
  | ret code => exact absurd code hret

theorem Graph.Inside.hasRows_done (hg : Tidied m g) (hend : m.EndsInReturn)
    (h : g.Inside m p n) (hat : tail.At g m p) : HasRows ctx g m p tail n := by
  cases tail with
  | falls b =>
    obtain ⟨hexit, rfl⟩ := h.over_of_starts hg hend hat
    have hdone : HasRows ctx g m p (.falls (n + 1)) (n + 1) :=
      Graph.Starts.hasRows_done hg hend hat hat
    exact hdone.plain hg h.lt hexit
  | jumps e =>
    obtain ⟨l, hgoto, _⟩ := hat.2
    refine h.hasRows hg hend (by simp [hgoto]) (by simp [hgoto])
      (by simp [hgoto]) fun n' h' => ?_
    exact h'.hasRows_done hg hend hat
  | returns =>
    cases h.onward hg hend with
    | straight code =>
      rcases code with ⟨l, hl⟩ | ⟨f, hf, _⟩
      · cases hat.1.symm.trans hl
      · cases hat.1.symm.trans hf
    | finished exit starts =>
      exact (starts.hasRows_done hg hend hat).plain hg h.lt exit
    | ret _ exit finish =>
      exact ⟨.ret n, none, .ret (hg.untouched h.lt) exit, rfl, rfl, rfl,
        hg.last_of_finish h.lt (finish.trans hat.2.symm)⟩

/-- A test with its body, and with what comes instead, stands in front of the
rest. -/
theorem HasRows.branch (hg : Tidied m g) (hn : n < g.blocks.length) {b : Nat}
    {body other : Layout} (hexit : g.exit n = .branches k (some (n + 1)))
    (hbody : body.Fits ctx g g (some b))
    (hfirst : body.first (some b) = some (n + 1))
    (hids : body.ids = List.range' (n + 1) body.ids.length)
    (hne : body.ids ≠ []) (hother : other.Fits ctx g g (some b))
    (hskip : other.first (some b) = some k)
    (hids' : other.ids = List.range' (n + 1 + body.ids.length) other.ids.length)
    (hends : other = .stop ∧ body.stops = true ∨ other.ids ≠ [] ∧
      body.leaves = true)
    (hstops : other.stops = true)
    (hb : n + 1 + body.ids.length + other.ids.length = b)
    (h : HasRows ctx g m q tail b) : HasRows ctx g m q tail n := by
  obtain ⟨l, next, h⟩ := h
  have hhead : body.ids.head? = some (n + 1) := by
    rw [← hfirst, Layout.first]
    cases hbody : body.ids with
    | nil => exact absurd hbody hne
    | cons => rfl
  rw [← h.first] at hbody hother hskip
  have hlength : n + (Layout.branch n body other l).ids.length = b +
      l.ids.length := by
    simp only [Layout.ids, List.length_cons, List.length_append]
    omega
  refine ⟨.branch n body other l, next,
    .branch (hg.untouched hn) (by rw [hexit, hhead]) hskip hne
    hends hstops hbody hother h.fits, rfl, ?_, ?_⟩
  · calc (Layout.branch n body other l).ids
        = n :: (List.range' (n + 1) body.ids.length ++
            (List.range' (n + 1 + body.ids.length) other.ids.length ++
              List.range' b l.ids.length)) := by
          rw [Layout.ids, ← hids, ← hids', ← h.ids]
      _ = List.range' n
          (body.ids.length + (other.ids.length + l.ids.length) + 1) := by
          rw [← hb, List.range'_append_1, List.range'_append_1,
            List.range'_succ]
      _ = List.range' n (Layout.branch n body other l).ids.length := by
          simp [Layout.ids]
  · rw [hlength]
    have hends := h.ends
    cases tail <;> exact hends

/-! ## The code of a program -/

namespace Source.Laid

variable {s : Source}

theorem le (h : s.Laid m p q) : p ≤ q := by
  induction h <;> omega

/-- A program that is not done starts with a call. -/
theorem exists_front (h : s.Laid m p q) (hs : s ≠ .done) : m.Acting p ∧
      p < q := by
  cases h with
  | done => exact absurd rfl hs
  | call code _ rest =>
    exact ⟨Method.acting_of_instr code (by simp) rfl, rest.le⟩
  | ifThen code _ _ _ body _ rest =>
    refine ⟨Method.acting_of_instr code (by simp) rfl, ?_⟩
    have := body.le
    have := rest.le
    omega
  | ifElse code _ _ _ _ body _ _ other _ rest =>
    refine ⟨Method.acting_of_instr code (by simp) rfl, ?_⟩
    have := body.le
    have := other.le
    have := rest.le
    omega

end Source.Laid

/-- Something is done between two places where different blocks start. -/
theorem Graph.Starts.ne {p' n' : Nat} (h : g.Starts m p n)
    (h' : g.Starts m p' n') (hp : m.Acting p) (hlt : p < p') : n' ≠ n := by
  rintro rfl
  have hle := (h'.same p hp).2 ((h.same p hp).1 (Nat.le_refl p))
  omega

/-- A test ends its block in a branch. -/
theorem Graph.Starts.exists_branch (hg : Tidied m g) (hend : m.EndsInReturn)
    (h : g.Starts m p n) {f : Member} {op : Comparison} {l : Label} {e : Nat}
    (code : m.instr p = .call .static f) (answers : f.descriptor = "()Z")
    (jump : m.instr (p + 1) = .ifZero op l) (index : m.labelIndex? l = some e) :
    ∃ t, g.exit n = .branches t (some (n + 1)) ∧ g.Starts m e t ∧
      g.Starts m (p + 2) (n + 1) := by
  cases h.front hg hend (Method.acting_of_instr code (by simp) rfl) with
  | @test f' l' op' t e' code' _ jump' exit index' taken fallen =>
    cases jump.symm.trans jump'
    cases index.symm.trans index'
    exact ⟨t, exit, taken, fallen⟩
  | call code' returns =>
    cases code.symm.trans code'
    exact absurd (returns.symm.trans answers) (by decide)
  | goto code' => cases code.symm.trans code'
  | ret code' => cases code.symm.trans code'

/-- A block is over in front of a test. -/
theorem HasRows.of_test (hg : Tidied m g) (hend : m.EndsInReturn)
    (hat : g.Starts m p n ∨ g.Inside m p n) {f : Member}
    (code : m.instr p = .call .static f) (answers : f.descriptor = "()Z")
    (hrows : ∀ n', g.Starts m p n' → HasRows ctx g m q tail n') :
    HasRows ctx g m q tail n := by
  rcases hat with h | h
  · exact hrows n h
  · refine h.hasRows hg hend (by simp [code]) (fun f' code' returns => ?_)
      (by simp [code]) hrows
    cases code.symm.trans code'
    exact absurd (returns.symm.trans answers) (by decide)

/-- **Rows.**  The blocks of the code of a program have a layout. -/
theorem hasRows_of_laid (hg : Tidied m g) (hend : m.EndsInReturn) {s : Source}
    (h : s.Laid m p q) (hat : g.Starts m p n ∨ g.Inside m p n)
    (htail : tail.At g m q) : HasRows ctx g m q tail n := by
  induction h generalizing n tail with
  | done =>
    rcases hat with h | h
    · exact h.hasRows_done hg hend htail
    · exact h.hasRows_done hg hend htail
  | @call f rest p q code returns _ ih =>
    have hstarts {n : Nat} (h : g.Starts m p n) : HasRows ctx g m q tail n := by
      cases h.front hg hend (Method.acting_of_instr code (by simp) rfl) with
      | call _ _ inside => exact ih (.inr inside) htail
      | goto code' => cases code.symm.trans code'
      | test code' answers =>
        cases code.symm.trans code'
        exact absurd (returns.symm.trans answers) (by decide)
      | ret code' => cases code.symm.trans code'
    rcases hat with h | h
    · exact hstarts h
    · cases h.onward hg hend with
      | straight _ inside => exact ih (.inr inside) htail
      | finished exit starts => exact (hstarts starts).plain hg h.lt exit
      | ret code' => cases code.symm.trans code'
  | @ifThen t body rest p k q l code answers nonempty jump bodyLaid index _
      ihBody ihRest =>
    refine HasRows.of_test hg hend hat code answers fun n h => ?_
    obtain ⟨b, hexit, htaken, hfallen⟩ :=
      h.exists_branch hg hend code answers jump index
    have hlabel : (m.instr k).isMarker = true := by
      rw [Method.instr_of_labelIndex? index]; rfl
    have hbody : HasRows ctx g m k (.falls b) (n + 1) :=
      ihBody (.inl hfallen) htaken
    obtain ⟨body, _, hbody⟩ := hbody
    obtain ⟨hstops, rfl, hstop⟩ := hbody.ends
    obtain ⟨hacting, hlt⟩ := bodyLaid.exists_front nonempty
    have hne : body.ids ≠ [] := fun hnil => by
      rw [hnil] at hstop
      exact hfallen.ne htaken hacting hlt hstop.symm
    refine HasRows.branch hg h.lt hexit hbody.fits hbody.first hbody.ids
      hne .stop rfl rfl (.inl ⟨rfl, hstops⟩) rfl hstop ?_
    exact ihRest (.inl (htaken.succ hlabel)) htail
  | @ifElse t body other rest p k e q l stop code answers nonempty nonempty' jump bodyLaid leave
      index otherLaid index' _ ihBody ihOther ihRest =>
    refine HasRows.of_test hg hend hat code answers fun n h => ?_
    obtain ⟨c, hexit, htaken, hfallen⟩ :=
      h.exists_branch hg hend code answers jump index
    have hlabel : (m.instr (k + 1)).isMarker = true := by
      rw [Method.instr_of_labelIndex? index]; rfl
    have hlabel' : (m.instr e).isMarker = true := by
      rw [Method.instr_of_labelIndex? index']; rfl
    have hlt : k + 1 < m.length :=
      Method.lt_length_of_instr (Method.instr_of_labelIndex? index) (by simp)
    have hbody : HasRows ctx g m k (.jumps e) (n + 1) :=
      ihBody (.inl hfallen) ⟨hlt, stop, leave, index'⟩
    obtain ⟨body, _, hbody⟩ := hbody
    obtain ⟨hleaves, ⟨b, rfl, hb⟩, hstop⟩ := hbody.ends
    obtain rfl := hg.starts_unique hend hstop htaken
    have hother : HasRows ctx g m e (.falls b) _ :=
      ihOther (.inl (htaken.succ hlabel)) hb
    obtain ⟨other, _, hother⟩ := hother
    obtain ⟨hstops, rfl, hstop'⟩ := hother.ends
    obtain ⟨hacting, hlt'⟩ := otherLaid.exists_front nonempty'
    have hne : other.ids ≠ [] := fun hnil => by
      rw [hnil] at hstop'
      exact (htaken.succ hlabel).ne hb hacting hlt' hstop'.symm
    refine HasRows.branch hg h.lt hexit hbody.fits hbody.first hbody.ids
      (Layout.ids_ne_nil_of_leaves hleaves) hother.fits hother.first hother.ids
      (.inr ⟨hne, hleaves⟩) hstops hstop' ?_
    exact ihRest (.inl (hb.succ hlabel')) htail

end Decompiler
