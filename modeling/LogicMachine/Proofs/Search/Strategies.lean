import Mathlib.Algebra.Group.Prod
import Mathlib.Algebra.GroupWithZero.Nat
import LogicMachine.Proofs.Search.DepthFirst
import LogicMachine.Proofs.Search.Pool
import LogicMachine.Samples

/-!
# The strategies find the same answers

Under either strategy every branch meets its fate, only at another time and with other numbers. When
the depth-first search comes to an end, its branches have fates; an interleaved search that starts
from the same query goes through the same trees, node by node in its own order.
-/

namespace LogicMachine

/-- Two answers agree up to a renaming that leaves the variables below `k` alone. -/
def Solution.RenamedFrom (k : Nat) (s s' : Solution) : Prop :=
  ∃ ρ : Renaming, (∀ v < k, ρ.vars v v) ∧ s.Renamed ρ s'

/-- `Tracked m k c gs n d S`: every branch in `gs` agrees with one that has a fate, up to a renaming
that leaves the variables below `k` alone and pairs only numbers drawn before. Together the fates
cost `n` and `d` and yield `S`. -/
inductive Tracked (m : Machine) (k : Nat) (c : Counters) :
    List Frame → Nat → Nat × Nat → Multiset Solution → Prop
  | nil : Tracked m k c [] 0 0 0
  | cons {ρ : Renaming} {f g : Frame} {gs : List Frame} {cf : Counters} {n n' : Nat}
      {d d' : Nat × Nat} {S S' : Multiset Solution} (hfate : Fate m f cf n d S)
      (hf : f.Renamed ρ g) (hbelow : ρ.Below cf c) (hquery : ∀ v < k, ρ.vars v v)
      (rest : Tracked m k c gs n' d' S') : Tracked m k c (g :: gs) (n + n') (d + d') (S + S')

namespace Counters

variable {c : Counters} {d d' : Nat × Nat}

/-- Room for two draws is room for the first. -/
theorem HasRoom.left (h : c.HasRoom (d + d')) : c.HasRoom d := by
  have hvars := h.vars
  have hserials := h.serials
  rw [Prod.fst_add] at hvars
  rw [Prod.snd_add] at hserials
  constructor <;> omega

/-- After some of the numbers were drawn there is room for the others. -/
theorem HasRoom.right (h : c.HasRoom (d + d')) : (c.drawn d).HasRoom d' := by
  have hvars := h.vars
  have hserials := h.serials
  rw [Prod.fst_add] at hvars
  rw [Prod.snd_add] at hserials
  constructor
  · rw [h.left.drawn.1]
    omega
  · rw [h.left.drawn.2]
    omega

end Counters

/-- As counters move on, all paired numbers stay below them. -/
theorem Renaming.Below.mono {ρ : Renaming} {c c' e e' : Counters} (h : ρ.Below c c')
    (hvars : c.vars.next ≤ e.vars.next) (hvars' : c'.vars.next ≤ e'.vars.next)
    (hserials : c.serials.next ≤ e.serials.next) (hserials' : c'.serials.next ≤ e'.serials.next) :
    ρ.Below e e' :=
  ⟨Pairing.Below.mono h.vars hvars hvars', Pairing.Below.mono h.serials hserials hserials'⟩

namespace Tracked

variable {m : Machine} {k : Nat} {c c' : Counters} {gs gs' : List Frame} {n n' : Nat}
  {d d' : Nat × Nat} {S S' : Multiset Solution}

/-- Branches are still tracked when the counters have moved on. -/
theorem mono (h : Tracked m k c gs n d S) (hvars : c.vars.next ≤ c'.vars.next)
    (hserials : c.serials.next ≤ c'.serials.next) : Tracked m k c' gs n d S := by
  induction h with
  | nil => exact .nil
  | cons hfate hf hbelow hquery _ ih =>
    exact .cons hfate hf (hbelow.mono le_rfl hvars le_rfl hserials) hquery ih

/-- Two lists of tracked branches are tracked together, and their fates add up. -/
theorem append (h : Tracked m k c gs n d S) (h' : Tracked m k c gs' n' d' S') :
    Tracked m k c (gs ++ gs') (n + n') (d + d') (S + S') := by
  induction h with
  | nil =>
    rw [zero_add, zero_add, zero_add]
    exact h'
  | @cons ρ f g gs cf n₁ n₂ d₁ d₂ S₁ S₂ hfate hf hbelow hquery _ ih =>
    rw [add_assoc n₁, add_assoc d₁, add_assoc S₁]
    exact .cons hfate hf hbelow hquery ih

/-- The order of the branches makes no difference. -/
theorem perm (h : Tracked m k c gs n d S) (hperm : gs.Perm gs') : Tracked m k c gs' n d S := by
  induction hperm generalizing n d S with
  | nil => exact h
  | cons g _ ih =>
    cases h with
    | cons hfate hf hbelow hquery rest => exact .cons hfate hf hbelow hquery (ih rest)
  | swap g g' gs =>
    cases h with
    | @cons _ _ _ _ _ n₁ _ d₁ _ S₁ _ hfate hf hbelow hquery rest =>
      cases rest with
      | @cons _ _ _ _ _ n₂ _ d₂ _ S₂ _ hfate' hf' hbelow' hquery' rest =>
        rw [add_left_comm n₁, add_left_comm d₁, add_left_comm S₁]
        exact .cons hfate' hf' hbelow' hquery' (.cons hfate hf hbelow hquery rest)
  | trans _ _ ih ih' => exact ih' (ih h)

/-- A branch that agrees with one that has a fate is tracked. -/
theorem singleton {ρ : Renaming} {f g : Frame} {cf : Counters} (hfate : Fate m f cf n d S)
    (hf : f.Renamed ρ g) (hbelow : ρ.Below cf c) (hquery : ∀ v < k, ρ.vars v v) :
    Tracked m k c [g] n d S := by
  have h := Tracked.cons hfate hf hbelow hquery .nil
  rwa [add_zero, add_zero, add_zero] at h

end Tracked

/-- What became of a tracked branch by one instruction: the instruction is taken off its fate, and
what the branch has left is tracked in turn. -/
structure Tracked.Advanced (m : Machine) (k : Nat) (c : Counters) (o : Outcome) (n : Nat)
    (d : Nat × Nat) (S : Multiset Solution) : Prop where
  no_fault : ∀ e, o ≠ .fault e
  left : ∃ n' S₀ S', n = n' + 1 ∧ S = S₀ + S' ∧ Tracked m k c o.children n' d S' ∧
    Multiset.Rel (Solution.RenamedFrom k) S₀ o.solution?.toList

/-- A branch with a fate meets the same fate under another strategy and with other counters. -/
theorem Fate.advanced {m : Machine} (hm : m.isClosed = true) (strategy : Strategy) {k n : Nat}
    {c cf : Counters} {ρ : Renaming} {f g : Frame} {d : Nat × Nat} {S : Multiset Solution}
    (h : Fate m f cf n d S) (hf : f.Renamed ρ g) (hbelow : ρ.Below cf c)
    (hquery : ∀ v < k, ρ.vars v v) (hroom : c.HasRoom d) :
    ∃ d', d = g.demand + d' ∧ Tracked.Advanced m k (c.drawn g.demand)
      ((m.under strategy).advance g c).1 n d' S := by
  rw [← hf.demand_eq]
  have hquery' : ∀ v < k, (ρ.grow hbelow f.demand).vars v v :=
    fun v hv => (Renaming.extends_grow hbelow f.demand).vars.le (hquery v hv)
  cases h with
  | go h hroomf rest =>
    have hadvance := hf.advance hm strategy hbelow hroomf hroom.left
    have hbelow' := Renaming.below_grow hbelow hroomf hroom.left
    rw [h] at hadvance
    refine ⟨_, rfl, ?_⟩
    generalize ((m.under strategy).advance g c).1 = o at hadvance ⊢
    cases hadvance with
    | go hg =>
      exact ⟨by simp, _, 0, _, rfl, (zero_add _).symm, .singleton rest hg hbelow' hquery', .zero⟩
  | split h hroomf first hvars hserials second =>
    have hadvance := hf.advance hm strategy hbelow hroomf hroom.left
    have hbelow' := Renaming.below_grow hbelow hroomf hroom.left
    rw [h] at hadvance
    refine ⟨_, rfl, ?_⟩
    generalize ((m.under strategy).advance g c).1 = o at hadvance ⊢
    cases hadvance with
    | split hg hg' =>
      -- the alternative's fate begins with counters that the first part has moved on
      have hbelow'' := hbelow'.mono hvars le_rfl hserials le_rfl
      exact ⟨by simp, _, 0, _, rfl, (zero_add _).symm,
        .cons first hg hbelow' hquery' (.singleton second hg' hbelow'' hquery'), .zero⟩
  | dead h hroomf =>
    have hadvance := hf.advance hm strategy hbelow hroomf hroom
    rw [h] at hadvance
    refine ⟨0, (add_zero _).symm, ?_⟩
    generalize ((m.under strategy).advance g c).1 = o at hadvance ⊢
    cases hadvance with
    | dead => exact ⟨by simp, 0, 0, 0, rfl, rfl, .nil, .zero⟩
  | answer h hroomf =>
    have hadvance := hf.advance hm strategy hbelow hroomf hroom
    rw [h] at hadvance
    refine ⟨0, (add_zero _).symm, ?_⟩
    generalize ((m.under strategy).advance g c).1 = o at hadvance ⊢
    cases hadvance with
    | answer hs =>
      exact ⟨by simp, 0, _, 0, rfl, (add_zero _).symm, .nil, .cons ⟨_, hquery', hs⟩ .zero⟩

namespace Machine

variable {m : Machine} {st : Search} {f : Frame} {k n count limit : Nat} {d : Nat × Nat}
  {S : Multiset Solution}

/-- A step takes one instruction off the fates of the branches still to run. -/
theorem tracked_step (strategy : Strategy) (hm : m.isClosed = true)
    (h : st.shared.choices.Sound f.alt) (hf : st.frame = some f)
    (htracked : Tracked m k st.counters st.pool n d S)
    (hroom : st.counters.HasRoom d) :
    ∃ n' d' S₀ S' answer?, n = n' + 1 ∧ S = S₀ + S' ∧
      ((m.under strategy).step st).result = .ok answer? ∧
      Multiset.Rel (Solution.RenamedFrom k) S₀ answer?.toList ∧
      ((m.under strategy).step st).search.shared.choices.Sound
        (((m.under strategy).step st).search.frame.bind (·.alt)) ∧
      Tracked m k ((m.under strategy).step st).search.counters
        ((m.under strategy).step st).search.pool n' d' S' ∧
      ((m.under strategy).step st).search.counters.HasRoom d' := by
  rw [Search.pool_of_some hf] at htracked
  cases htracked with
  | @cons _ _ _ _ _ _ _ _ d₂ _ _ hfate hrenamed hbelow hquery rest =>
    obtain ⟨d', hd, hadvanced⟩ := hfate.advanced hm strategy hrenamed hbelow hquery hroom.left
    obtain ⟨n', S₀, S', hn, hS, hchildren, hrel⟩ := hadvanced.left
    obtain ⟨hresult, hsound, hperm⟩ := (m.under strategy).step_pool h hf hadvanced.no_fault
    have hcounters := ((m.under strategy).step_result hf).2
    rw [hd, add_assoc] at hroom
    have hdrawn := hroom.left.drawn
    have hrest := rest.mono (hdrawn.1 ▸ Nat.le_add_right _ _) (hdrawn.2 ▸ Nat.le_add_right _ _)
    refine ⟨_, d' + d₂, S₀, _, _, by rw [hn, Nat.add_right_comm], by rw [hS, add_assoc],
      hresult, hrel, hsound, ?_, ?_⟩
    · rw [hcounters]
      exact (hchildren.append hrest).perm hperm.symm
    · rw [hcounters]
      exact hroom.right

/-- When no branch is running, none is left. -/
theorem tracked_of_none {c : Counters} (h : st.shared.choices.Sound (st.frame.bind (·.alt)))
    (hf : st.frame = none) (htracked : Tracked m k c st.pool n d S) : n = 0 ∧ S = 0 := by
  rw [Search.pool_of_none h hf] at htracked
  cases htracked
  exact ⟨rfl, rfl⟩

/-- A run goes through the fates of the branches still to run, and then it is over. -/
theorem trace_of_tracked (strategy : Strategy) (hm : m.isClosed = true)
    (h : st.shared.choices.Sound (st.frame.bind (·.alt)))
    (htracked : Tracked m k st.counters st.pool n d S) (hroom : st.counters.HasRoom d)
    (hcount : n ≤ count) (hlimit : count < limit) (t : Tally) :
    ∃ answers : List Solution, Multiset.Rel (Solution.RenamedFrom k) S ↑answers ∧
      let e := Tally.exploration ((m.under strategy).trace Tally.count count limit st t)
      e.ending = .exhausted ∧ e.used = t.steps + n ∧ e.solutions = t.solutions ++ answers := by
  -- induction on the number of steps; `n` counts the ones that the fates still need
  induction count generalizing st n d S limit t with
  | zero =>
    cases hf : st.frame with
    | none =>
      obtain ⟨rfl, rfl⟩ := tracked_of_none h hf htracked
      exact ⟨[], .zero, by simp [exploration_of_none _ hf]⟩
    | some f =>
      rw [hf] at h
      obtain ⟨n', -, -, -, -, hn, -⟩ := tracked_step strategy hm h hf htracked hroom
      omega
  | succ count ih =>
    cases hf : st.frame with
    | none =>
      obtain ⟨rfl, rfl⟩ := tracked_of_none h hf htracked
      exact ⟨[], .zero, by simp [exploration_of_none _ hf]⟩
    | some f =>
      rw [hf] at h
      obtain ⟨n', d', S₀, S', answer?, hn, hS, hresult, hrel, hsound, htracked', hroom'⟩ :=
        tracked_step strategy hm h hf htracked hroom
      obtain ⟨limit', hlimit', hstep⟩ := exploration_succ hf hlimit hresult t
      rw [hstep]
      obtain ⟨answers, hrel', hend, hused, hsolutions⟩ := ih hsound htracked' hroom' (by omega)
        hlimit' ⟨t.solutions ++ answer?.toList, t.steps + 1⟩
      refine ⟨answer?.toList ++ answers, ?_, hend, ?_, ?_⟩
      · rw [hS, ← Multiset.coe_add]
        exact hrel.add hrel'
      · rw [hused, hn, Nat.add_assoc, Nat.add_comm 1]
      · rw [hsolutions, List.append_assoc]

end Machine

/-- Two answers have the same values for the variables up to `n` and the same constraints in the
same order, up to a renaming of the other variables and of the serial numbers that keeps their
order. -/
def Solution.Alike (n : Nat) (s s' : Solution) : Prop :=
  ∃ ρ : Renaming, (∀ v ≤ n, ρ.vars v v) ∧
    (∀ v ≤ n, (s.resolve v).Renamed ρ.vars (s'.resolve v)) ∧
    List.Forall₂ (fun c c' : Constraint => ρ.serials c.serial c'.serial ∧ c.sig = c'.sig ∧
      List.Forall₂ (Term.Renamed ρ.vars) (c.args.map s.subst.resolve)
        (c'.args.map s'.subst.resolve)) s.store.constraints s'.store.constraints

/-- Answers that agree as stores and substitutions have the same values for the query's variables,
and the same constraints. -/
theorem Solution.RenamedFrom.alike {n : Nat} {s s' : Solution} (h : s.RenamedFrom (n + 1) s') :
    s.Alike n s' := by
  obtain ⟨ρ, hquery, hs⟩ := h
  have hvars : ∀ v ≤ n, ρ.vars v v := fun v hv => hquery v (Nat.lt_succ_of_le hv)
  refine ⟨ρ, hvars, fun v hv => hs.subst.resolveVar (hvars v hv), hs.store.constraints.imp ?_⟩
  intro c c' hc
  exact ⟨hc.serial, hc.sig_eq, List.rel_map (fun _ _ ht => hs.subst.resolve ht) hc.args⟩

namespace Query

/-- The counter stands behind the variables of the query, as long as it has not come to its end. -/
theorem env_ofCode {n : Nat} (hn : 1 + n ≤ Counter.largest) (code : List Instr) :
    (ofCode n code).env = (List.range' 1 n).map .var ∧ (ofCode n code).vars.next = n + 1 := by
  have hdraw : Counter.drawMany {} n = (List.range' 1 n, ⟨1 + n⟩) := Counter.drawMany_of_le hn
  rw [ofCode, hdraw, Nat.add_comm n 1]
  exact ⟨rfl, rfl⟩

end Query

/-- A query agrees with itself. -/
theorem Frame.renamed_start {n : Nat} (hn : 1 + n ≤ Counter.largest) {code : List Instr}
    (hcode : code.all Instr.isClosed = true) :
    (Frame.start (Query.ofCode n code).env code).Renamed ⟨.upTo (n + 1), .upTo 1⟩
      (.start (Query.ofCode n code).env code) := by
  refine ⟨Subst.renamed_empty, Store.renamed_empty, ⟨rfl, rfl, ?_, hcode⟩, .nil⟩
  have hids : List.Forall₂ (Pairing.upTo (n + 1)) (List.range' 1 n) (List.range' 1 n) := by
    refine List.forall₂_same.mpr fun v hv => ⟨rfl, ?_⟩
    rw [List.mem_range'_1] at hv
    omega
  rw [Frame.start, (Query.env_ofCode hn code).1]
  exact List.rel_map (fun _ _ hv => .var hv) hids

namespace Machine

/-- If the depth-first search for a query comes to an end without a fault, then so does the
interleaved search, after the same number of steps, and each answer of the one belongs to one answer
of the other. The counters are 64 bits wide, and neither may have come to its end. -/
theorem interleaved_same_answers {m : Machine} {code : List Instr} {n count : Nat}
    (hm : m.isClosed = true) (hcode : code.all Instr.isClosed = true)
    (hend : ((m.under .depthFirst).observe count (.ofCode n code)).ending = .exhausted)
    (hunspent : ((m.under .depthFirst).observe count (.ofCode n code)).counters.Unspent) :
    ((m.under .interleaved).observe count (.ofCode n code)).ending = .exhausted ∧
      ((m.under .interleaved).observe count (.ofCode n code)).used =
        ((m.under .depthFirst).observe count (.ofCode n code)).used ∧
      Multiset.Rel (Solution.Alike n)
        ↑((m.under .depthFirst).observe count (.ofCode n code)).solutions
        ↑((m.under .interleaved).observe count (.ofCode n code)).solutions := by
  set q := Query.ofCode n code with hq
  have hcount : ((m.under .depthFirst).observe count q).used ≤ count := used_observe_le _ _ q
  rw [observe_of_depthFirst (m := m.under .depthFirst) rfl, exploreAll_singleton]
    at hend hunspent hcount ⊢
  -- the depth-first run, seen as the recursion, tells the fate of the one branch at the start
  obtain ⟨d, hfate, hahead⟩ := fate_of_explore hend hunspent
  have hn : 1 + n ≤ Counter.largest := by
    have hvars := (hahead.unspent hunspent).vars
    exact (Counter.drawMany_lt hvars).le
  have hnext : q.vars.next = n + 1 := (Query.env_ofCode hn code).2
  have hbelow : Renaming.Below ⟨.upTo (n + 1), .upTo 1⟩ ⟨q.vars, {}⟩ ⟨q.vars, {}⟩ := by
    refine ⟨?_, Pairing.below_upTo 1⟩
    rw [hnext]
    exact Pairing.below_upTo (n + 1)
  have htracked := Tracked.singleton hfate (Frame.renamed_start hn hcode) hbelow
    (k := n + 1) fun v hv => ⟨rfl, hv⟩
  have hsound : (Search.start q).shared.choices.Sound ((Search.start q).frame.bind (·.alt)) :=
    ChoicePoints.sound_empty
  have hroom : (Search.start q).counters.HasRoom d := by
    have hvars := hunspent.vars
    have hserials := hunspent.serials
    rw [hahead.vars] at hvars
    rw [hahead.serials] at hserials
    exact ⟨hvars.le, hserials.le⟩
  -- the other strategy only takes the branches with these fates in another order
  obtain ⟨answers, hrel, hend', hused, hsolutions⟩ := trace_of_tracked (m := m.under .depthFirst)
    .interleaved hm hsound htracked hroom hcount (Nat.lt_succ_self count) {}
  refine ⟨hend', hused.trans (Nat.zero_add _), ?_⟩
  have hanswers : ((m.under .interleaved).observe count q).solutions = answers := hsolutions
  rw [hanswers]
  exact hrel.mono fun s _ s' _ h => h.alike

/-- Two bits, one of them behind a variable that the partial order ties to the other. -/
theorem interleaved_same_answers_bit :
    let m : Machine := { program := Samples.predicates, rules := Samples.leq }
    let code : List Instr := [.invoke "bit" [.register 0], .fresh 1,
      .constraint "leq" [.register 0, .register 1], .invoke "bit" [.register 0], .success]
    ((m.under .depthFirst).observe 40 (.ofCode 1 code)).ending = .exhausted ∧
      ((m.under .interleaved).observe 40 (.ofCode 1 code)).ending = .exhausted ∧
      ((m.under .interleaved).observe 40 (.ofCode 1 code)).used = 34 ∧
      Multiset.Rel (Solution.Alike 1)
        ↑((m.under .depthFirst).observe 40 (.ofCode 1 code)).solutions
        ↑((m.under .interleaved).observe 40 (.ofCode 1 code)).solutions := by
  intro m code
  have hend : ((m.under .depthFirst).observe 40 (.ofCode 1 code)).ending = .exhausted := by
    decide +kernel
  have hused : ((m.under .depthFirst).observe 40 (.ofCode 1 code)).used = 34 := by
    decide +kernel
  have hunspent : ((m.under .depthFirst).observe 40 (.ofCode 1 code)).counters.Unspent :=
    ⟨by decide +kernel, by decide +kernel⟩
  obtain ⟨hend', hused', hrel⟩ :=
    interleaved_same_answers (m := m) (n := 1) (by decide +kernel) (by decide +kernel) hend hunspent
  exact ⟨hend, hend', hused'.trans hused, hrel⟩

end Machine

end LogicMachine
