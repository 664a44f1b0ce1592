import LogicMachine.Proofs.Search.Performing
import LogicMachine.Proofs.Search.Reached
import LogicMachine.Proofs.Search.Requests
import Mathlib.Algebra.Order.BigOperators.Group.List
import Mathlib.Algebra.Order.Group.Nat

/-!
# Every branch ends its turn

Under the interleaved strategy a call goes through only if its block is not running yet. Without
rules and without jumps back, a branch can therefore go on only as long as there are instructions
left in what is running, or blocks that are not. The measure weighs every instruction left by what
it could still bring about: a call that goes through takes one block away from those that are idle,
and puts at most all instructions of the program in their place.
-/

namespace LogicMachine

/-- No jump leads back. A choice may, because what it leaves there is another branch. -/
def Forward (code : List Instr) : Prop := ∀ offset, Instr.goto offset ∈ code → 0 ≤ offset

namespace Module

/-- The labels of the blocks that can be called. -/
def labels (p : Module) : Finset BlockLabel := (p.definitions.map (·.2.label)).toFinset

/-- The number of instructions. -/
def size (p : Module) : Nat := (p.definitions.map (·.2.code.length)).sum

/-- What one instruction is charged while `idle` blocks are not running: itself, and if it calls one
of them, all that its block could bring about. -/
def charge (p : Module) : (idle : Nat) → Nat
  | 0 => 1
  | idle + 1 => p.size * p.charge idle + 1

variable {p : Module} {sig : Signature} {block : Block}

/-- Even a single instruction is charged for. -/
theorem charge_pos (p : Module) (idle : Nat) : 0 < p.charge idle := by
  cases idle <;> exact Nat.succ_pos _

/-- Every block of the program is among those that can be called. -/
theorem label_mem_labels (hblock : p.get? sig = some block) : block.label ∈ p.labels :=
  List.mem_toFinset.mpr (List.mem_map_of_mem (mem_of_get? hblock))

/-- No block has more instructions than the program. -/
theorem length_le_size (hblock : p.get? sig = some block) : block.code.length ≤ p.size :=
  List.single_le_sum (fun _ _ => Nat.zero_le _) _ (List.mem_map_of_mem (mem_of_get? hblock))

end Module

/-- How many instructions an activation has before it. -/
def Activation.left (a : Activation) : Nat := a.block.code.length - a.pc

/-- An activation with an instruction before it is inside its block. -/
theorem Activation.pc_lt {a : Activation} {instr : Instr} (hcur : a.current? = some instr) :
    a.pc < a.block.code.length :=
  (List.getElem?_eq_some_iff.mp hcur).1

/-- What runs and what has called it, innermost first. -/
def Continuation.activations (k : Continuation) : List Activation := k.running :: k.callers

/-- Their blocks. -/
def Continuation.blocks (k : Continuation) : List Block := k.activations.map (·.block)

namespace Machine

/-- There are no rules, and the program has no jump back. -/
structure Straight (m : Machine) : Prop where
  rules : m.rules.rules = []
  definitions : ∀ d ∈ m.program.definitions, Forward d.2.code

/-- The blocks that can be called and that none of the activations runs. -/
def idle (m : Machine) (as : List Activation) : Finset BlockLabel :=
  m.program.labels \ (as.map (·.block.label)).toFinset

/-- What is left to do: the instructions before each activation, each at the charge for the blocks
that neither the activation nor one of its callers runs. -/
def work (m : Machine) : List Activation → Nat
  | [] => 0
  | a :: as => a.left * m.program.charge (m.idle (a :: as)).card + m.work as

variable {m : Machine} {a a' : Activation} {as : List Activation}

/-- To move on inside a block leaves the same blocks idle. -/
theorem idle_congr (hblock : a'.block = a.block) : m.idle (a' :: as) = m.idle (a :: as) := by
  simp only [idle, List.map_cons, hblock]

/-- To call an idle block takes it from those that are idle. -/
theorem card_idle_call {sig : Signature} (hblock : m.program.get? sig = some a.block)
    (hidle : ∀ b ∈ as, b.block.label ≠ a.block.label) :
    (m.idle (a :: as)).card + 1 = (m.idle as).card := by
  have hmem : a.block.label ∈ m.idle as := by
    simp only [idle, Finset.mem_sdiff, List.mem_toFinset, List.mem_map, not_exists, not_and]
    exact ⟨Module.label_mem_labels hblock, hidle⟩
  have herase : m.idle (a :: as) = (m.idle as).erase a.block.label := by
    simp only [idle, List.map_cons, List.toFinset_cons, Finset.sdiff_insert]
  rw [herase]
  exact Finset.card_erase_add_one hmem

/-- An activation that moves on has less to do. -/
theorem work_lt_of_pc (hblock : a'.block = a.block) (hpc : a.pc < a'.pc)
    (hin : a.pc < a.block.code.length) : m.work (a' :: as) < m.work (a :: as) := by
  have hleft : a'.left < a.left := by
    simp only [Activation.left, hblock]
    omega
  have hcharge := m.program.charge_pos (m.idle (a :: as)).card
  have hless := Nat.mul_lt_mul_of_pos_right hleft hcharge
  rw [work, work, idle_congr hblock]
  omega

/-- Its caller alone has less to do. -/
theorem work_lt_leave (hin : a.pc < a.block.code.length) : m.work as < m.work (a :: as) := by
  have hleft : 0 < a.left := by
    simp only [Activation.left]
    omega
  have hpos := Nat.mul_pos hleft (m.program.charge_pos (m.idle (a :: as)).card)
  rw [work]
  omega

/-- The instruction that called an idle block is charged for more than what the call brings. -/
theorem work_lt_call {sig : Signature} {callee : Activation}
    (hcallee : m.program.get? sig = some callee.block)
    (hidle : ∀ b ∈ a :: as, b.block.label ≠ callee.block.label) (hblock : a'.block = a.block)
    (hpc : a'.pc = a.pc + 1) (hin : a.pc < a.block.code.length) :
    m.work (callee :: a' :: as) < m.work (a :: as) := by
  have hidle' : ∀ b ∈ a' :: as, b.block.label ≠ callee.block.label := by
    rw [List.forall_mem_cons] at hidle ⊢
    rwa [hblock]
  have hleft : a.left = a'.left + 1 := by
    simp only [Activation.left, hblock, hpc]
    omega
  -- one block less is idle for the callee, and for the caller as many as before
  have hcard := card_idle_call hcallee hidle'
  have hcharge : callee.left * m.program.charge (m.idle (callee :: a' :: as)).card <
      m.program.charge (m.idle (a' :: as)).card := by
    rw [← hcard, Module.charge, Nat.lt_succ_iff]
    exact Nat.mul_le_mul_right _ ((Nat.sub_le _ _).trans (Module.length_le_size hcallee))
  rw [work, work, work, ← idle_congr hblock, hleft, Nat.succ_mul]
  omega

end Machine

/-! ### Branches without rules -/

namespace Frame

variable {rs : RuleSet} {f g : Frame} {c : Constraint} {cs rerun : List Constraint}

/-- What runs and what has called it is without jumps back. -/
def Forward (f : Frame) : Prop := ∀ block ∈ f.cont.blocks, LogicMachine.Forward block.code

/-- Without rules nothing is called by a pass. -/
theorem cont_matched (hrs : rs.rules = []) (f : Frame) (c : Constraint) :
    (f.matched rs c).cont = f.cont := by
  have hoccurrences : rs.occurrences c.sig = [] := by rw [RuleSet.occurrences, hrs]; rfl
  simp only [matched, Store.matchRules, hoccurrences, List.foldl_nil]

/-- Nor by several passes, so the branch goes on where it was. -/
theorem Rematches.cont_eq (h : Rematches rs f cs rerun g) (hrs : rs.rules = []) :
    g.cont = f.cont := by
  induction h with
  | done f => rfl
  | live _ _ _ ih => rw [ih, cont_matched hrs]
  | deleted _ _ ih => exact ih

end Frame

/-- The next step ends the turn of the running branch. -/
inductive Machine.EndsTurn (m : Machine) (st : Search) : Prop
  /-- It is about to call a block that is running already, and waits for the others. -/
  | delays {f : Frame} (hf : st.frame = some f) (hreenters : m.Reenters f)
      (hrequest : m.request? st = some .delay)
  /-- It has failed, and the next branch is taken out of the choice points. -/
  | backtracks {request : Request} (hrequest : m.request? st = some request)
      (hfails : request = .fail ∨ request = .failAndDelay)
  /-- It has answered the query. -/
  | answers {s : Solution} (hresult : (m.step st).result = .ok (some s))
  /-- The program is at fault, and the search is over. -/
  | faults {e : ProgramError} (hresult : (m.step st).result = .error e)

namespace Machine

variable {m : Machine} {f g : Frame} {c : Counters} {instr : Instr} {o : Outcome} {st : Search}
  {q : Query} {n : Nat}

/-- Whatever an instruction does, the blocks it goes on with are those of the program and those that
were running already. -/
theorem Performs.forward (hperforms : m.Performs f c instr o) (hm : m.Straight) (h : f.Forward) :
    ∀ g ∈ o.children, g.Forward := by
  cases hperforms with
  | invoke hargs hblock =>
    refine List.forall_mem_singleton.mpr (List.forall_mem_cons.mpr ⟨?_, h⟩)
    exact hm.definitions _ (Module.mem_of_get? hblock)
  | constraint =>
    refine List.forall_mem_singleton.mpr ?_
    rw [Frame.Forward, Frame.cont_matched hm.rules]
    exact h
  | goto | fresh => exact List.forall_mem_singleton.mpr h
  | choice => exact List.forall_mem_cons.mpr ⟨h, List.forall_mem_singleton.mpr h⟩
  | unify _ _ _ hpasses =>
    refine List.forall_mem_singleton.mpr ?_
    rw [Frame.Forward, hpasses.cont_eq hm.rules]
    exact h
  | leave hk =>
    have hcallers : f.cont.callers = _ := Continuation.callers_of_return? hk
    rw [Frame.Forward, Continuation.blocks, Continuation.activations, hcallers] at h
    exact List.forall_mem_singleton.mpr (List.forall_mem_cons.mp h).2
  | clash | answer | fail | fault => exact nofun

/-- What an instruction goes on with first has less to do, unless it calls a block that is running
already. -/
theorem Performs.work_lt (hperforms : m.Performs f c instr o)
    (hcur : f.cont.running.current? = some instr) (hstrategy : m.strategy = .interleaved)
    (hm : m.Straight) (h : f.Forward) (hreenters : ¬m.Reenters f) (hg : o.children.head? = some g) :
    m.work g.cont.activations < m.work f.cont.activations := by
  have hin := Activation.pc_lt hcur
  cases hperforms with
  | invoke hargs hblock =>
    -- the block is idle, or else the call would wait
    obtain rfl := Option.some.inj hg
    refine work_lt_call hblock (fun b hb hlabel => hreenters ?_) rfl rfl hin
    exact ⟨hstrategy, _, _, _, _, hcur, hargs, hblock,
      List.any_eq_true.mpr ⟨b, hb, decide_eq_true hlabel⟩⟩
  | constraint =>
    obtain rfl := Option.some.inj hg
    rw [Frame.cont_matched hm.rules]
    exact work_lt_of_pc rfl (Nat.lt_succ_self _) hin
  | @goto offset pc hpc =>
    obtain rfl := Option.some.inj hg
    have hoffset : 0 ≤ offset := h _ List.mem_cons_self offset (List.mem_of_getElem? hcur)
    have htarget : (pc : Int) = f.cont.running.pc + 1 + offset :=
      (Continuation.target_eq_ok_iff.mp hpc).1
    have hahead : f.cont.running.pc < pc := by omega
    exact work_lt_of_pc rfl hahead hin
  | choice | fresh =>
    obtain rfl := Option.some.inj hg
    exact work_lt_of_pc rfl (Nat.lt_succ_self _) hin
  | unify _ _ _ hpasses =>
    obtain rfl := Option.some.inj hg
    rw [hpasses.cont_eq hm.rules]
    exact work_lt_of_pc rfl (Nat.lt_succ_self _) hin
  | leave hk =>
    obtain rfl := Option.some.inj hg
    have hcallers : f.cont.callers = _ := Continuation.callers_of_return? hk
    change _ < m.work (f.cont.running :: f.cont.callers)
    rw [hcallers]
    exact work_lt_leave hin
  | clash | answer | fail | fault => cases hg

/-- A branch without jumps back makes way for such branches. -/
theorem forward_advance (hm : m.Straight) (c : Counters) (f : Frame) (h : f.Forward) :
    ∀ g ∈ (m.advance f c).1.children, g.Forward := by
  intro g hg
  obtain ⟨instr, -, hperforms⟩ := exists_performs_of_mem hg
  exact hperforms.forward hm h g hg

/-- A branch that is asked to go on goes on as the first of what its instruction makes of it. -/
theorem step_of_proceed (hf : st.frame = some f) (hrequest : m.request? st = some .proceed) :
    ∃ g, (m.step st).search.frame = some g ∧
      (m.advance f.detached st.counters).1.children.head? = some g.detached := by
  let b : Branch := ⟨f, st.shared, []⟩
  have hproceed : (b.run m).1 = .proceed := by
    simpa only [request?, hf, Option.map_some, Option.some.injEq] using hrequest
  rcases b.run_cases m with ⟨cont, pc, reports, -, hrun, hadvance⟩ |
    ⟨request, b', -, hrun, -, -, hadvance⟩
  · refine ⟨_, (step_of_request hf hrun).1, ?_⟩
    exact congrArg (fun r : Outcome × Counters => r.1.children.head?) hadvance
  · obtain rfl : request = .proceed := by rw [← hproceed, hrun]
    refine ⟨_, (step_of_request hf hrun).1, ?_⟩
    exact congrArg (fun r : Outcome × Counters => r.1.children.head?) hadvance

/-- To go on leaves less to do. -/
theorem work_lt_of_proceed (hstrategy : m.strategy = .interleaved) (hm : m.Straight)
    (h : f.Forward) (hf : st.frame = some f) (hrequest : m.request? st = some .proceed) :
    ∃ g, (m.step st).search.frame = some g ∧ g.Forward ∧
      m.work g.cont.activations < m.work f.cont.activations := by
  obtain ⟨g, hg, hhead⟩ := step_of_proceed hf hrequest
  have hmem := List.mem_of_head? hhead
  obtain ⟨instr, hcur, hperforms⟩ := exists_performs_of_mem hmem
  have hreenters : ¬m.Reenters f := by
    intro hreenters
    have hwaits := request_of_reenters (b := ⟨f, st.shared, []⟩) hreenters
    simp only [request?, hf, Option.map_some, Option.some.injEq] at hrequest
    simp [hrequest] at hwaits
  have hforward : g.detached.Forward := forward_advance hm _ f.detached h _ hmem
  have hless : m.work g.detached.cont.activations < m.work f.detached.cont.activations :=
    hperforms.work_lt hcur hstrategy hm h hreenters hhead
  exact ⟨g, hg, hforward, hless⟩

/-- What is asked for is to go on, or else the turn is over. -/
theorem proceeds_or_endsTurn (hf : st.frame = some f) :
    m.request? st = some .proceed ∨ m.EndsTurn st := by
  have hrequest : m.request? st = some (Branch.run m ⟨f, st.shared, []⟩).1 := by
    rw [request?, hf, Option.map_some]
  rcases hrun : Branch.run m ⟨f, st.shared, []⟩ with ⟨request, b⟩
  rw [hrun] at hrequest
  cases request with
  | proceed => exact .inl hrequest
  | fail => exact .inr (.backtracks hrequest (.inl rfl))
  | failAndDelay => exact .inr (.backtracks hrequest (.inr rfl))
  | delay => exact .inr (.delays hf (reenters_of_delay hrun) hrequest)
  | answer s => exact .inr (.answers (s := s) (by simp only [step, hf, move, hrun]))
  | abort e => exact .inr (.faults (e := e) (by simp only [step, hf, move, hrun]))

/-- A turn is over after as many steps as there is work, at the latest. -/
theorem turn_ends_of_forward (hstrategy : m.strategy = .interleaved) (hm : m.Straight)
    (h : f.Forward) (hf : st.frame = some f) :
    ∃ k ≤ m.work f.cont.activations,
      (∀ j < k, m.request? (m.after j st) = some .proceed) ∧ m.EndsTurn (m.after k st) := by
  -- by induction on the work, which every step that goes on makes less
  induction hwork : m.work f.cont.activations using Nat.strong_induction_on generalizing st f with
  | _ work ih =>
    subst hwork
    rcases m.proceeds_or_endsTurn hf with hproceed | hends
    · obtain ⟨g, hg, hgforward, hless⟩ := work_lt_of_proceed hstrategy hm h hf hproceed
      obtain ⟨k, hk, hbefore, hends⟩ := ih _ hless hgforward hg rfl
      refine ⟨k + 1, by omega, fun j hj => ?_, m.after_succ_left k st ▸ hends⟩
      cases j with
      | zero => exact hproceed
      | succ j =>
        rw [after_succ_left]
        exact hbefore j (by omega)
    · exact ⟨0, Nat.zero_le _, nofun, hends⟩

/-- Under the interleaved strategy, for every program without rules and without jumps back, from
every state of a run: the running branch goes on for at most as many steps as the measure says, and
then it delays a call of a block that is running already, backtracks, answers, or ends the search
with a fault. -/
theorem turn_ends (hstrategy : m.strategy = .interleaved) (hm : m.Straight) (hq : Forward q.code)
    (hf : (m.after n (.start q)).frame = some f) :
    ∃ k ≤ m.work f.cont.activations,
      (∀ j < k, m.request? (m.after (n + j) (.start q)) = some .proceed) ∧
      m.EndsTurn (m.after (n + k) (.start q)) := by
  have hstart : (Frame.start q.env q.code).Forward := List.forall_mem_singleton.mpr hq
  have hforward : f.detached.Forward :=
    forall_pool hstart (forward_advance hm) n _ (Search.detached_mem_pool_of_frame hf)
  simp only [after_add]
  exact turn_ends_of_forward hstrategy hm hforward hf

/-- `ping :- pong.` and `pong :- ping.` -/
def volley : Machine where
  program := (Module.empty.define "ping" 0 [.invoke "pong" [], .success]).define "pong" 0
    [.invoke "ping" [], .success]
  strategy := .interleaved

/-- Two predicates that do nothing but call each other, after the first choice: the second call of
`ping` waits for the other branch. -/
theorem turn_ends_volley :
    let q : Query := .ofCode 0 [.choice 1, .invoke "ping" [], .success]
    volley.strategy = .interleaved ∧ volley.Straight ∧ Forward q.code ∧
      ∃ f, (volley.after 1 (.start q)).frame = some f ∧
        ∃ k ≤ volley.work f.cont.activations,
          (∀ j < k, volley.request? (volley.after (1 + j) (.start q)) = some .proceed) ∧
          volley.EndsTurn (volley.after (1 + k) (.start q)) := by
  intro q
  have hstraight : volley.Straight := ⟨rfl, by simp [volley, Forward, Module.empty, Module.define,
    Module.newBlock, Module.install]⟩
  have hforward : Forward q.code := by simp [q, Query.ofCode, Forward]
  have hrunning : (volley.after 1 (.start q)).frame.isSome = true := by decide +kernel
  obtain ⟨f, hf⟩ := Option.isSome_iff_exists.mp hrunning
  exact ⟨rfl, hstraight, hforward, f, hf, turn_ends rfl hstraight hforward hf⟩

end Machine

end LogicMachine
