import LogicMachine.Proofs.Clauses.Step
import LogicMachine.Proofs.Search.Strategies

/-!
# The answers to a query

A search tells what follows from a program of definite clauses, whatever the strategy. All instances
of its answers follow; and when it comes to its end, all instances that follow are among those of
its answers.
-/

namespace LogicMachine

/-! ### Searches for what is said -/

/-- All numbers in the frame were drawn before. -/
def Frame.DrawnBefore (c : Counters) (f : Frame) : Prop :=
  ∃ ρ : Renaming, f.Renamed ρ f ∧ ρ.Below c c

/-- Some valuation meets the frame, and it gives the variables below `k` the same values as `θ`. -/
structure Frame.Promises (D : String → List Term → Prop) (k : Nat) (θ : Valuation) (c : Counters)
    (f : Frame) : Prop where
  definite : f.Definite
  drawn : f.DrawnBefore c
  le : k ≤ c.vars.next
  met : ∃ θ' : Valuation, (∀ v, (θ' v).isData = true) ∧ (∀ v < k, θ' v = θ v) ∧ f.Meets D θ'

/-- Some valuation satisfies the answer, and it gives the variables below `k` the same values as
`θ`. -/
structure Solution.Keeps (k : Nat) (θ : Valuation) (s : Solution) : Prop where
  plain : s.subst.IsPlain
  met : ∃ θ' : Valuation, (∀ v, (θ' v).isData = true) ∧ (∀ v < k, θ' v = θ v) ∧
    s.subst.SatisfiedBy θ'

variable {m : Machine} {D : String → List Term → Prop} {f : Frame} {c : Counters} {k : Nat}
  {d : Nat × Nat} {θ : Valuation} {q : Query} {count : Nat}

namespace Frame

/-- What was drawn before a draw was drawn before what comes after it. -/
theorem DrawnBefore.mono (h : f.DrawnBefore c) (hroom : c.HasRoom d) :
    f.DrawnBefore (c.drawn d) := by
  obtain ⟨ρ, hf, hbelow⟩ := h
  have hvars : c.vars.next ≤ (c.drawn d).vars.next := hroom.drawn.1 ▸ Nat.le_add_right _ _
  have hserials : c.serials.next ≤ (c.drawn d).serials.next :=
    hroom.drawn.2 ▸ Nat.le_add_right _ _
  exact ⟨ρ, hf, hbelow.mono hvars hvars hserials hserials⟩

/-- All variables of such a frame lie below the counter. -/
theorem DrawnBefore.below (h : f.DrawnBefore c) : f.Below c.vars.next := by
  obtain ⟨ρ, hf, hbelow⟩ := h
  exact hf.below hbelow

/-- A step draws what it brings into the frames that it leads to. -/
theorem DrawnBefore.advance (hm : m.isClosed = true) (h : f.DrawnBefore c)
    (hroom : c.HasRoom f.demand) :
    ∀ g ∈ (m.advance f c).1.children, g.DrawnBefore (c.drawn f.demand) := by
  obtain ⟨ρ, hf, hbelow⟩ := h
  have hadvance := hf.advance hm m.strategy hbelow hroom hroom
  exact fun g hg => ⟨_, hadvance.of_mem_children hg, Renaming.below_grow hbelow hroom hroom⟩

/-- A promise is not broken by numbers that are drawn elsewhere. -/
theorem Promises.mono (h : f.Promises D k θ c) (hroom : c.HasRoom d) :
    f.Promises D k θ (c.drawn d) :=
  ⟨h.definite, h.drawn.mono hroom, h.le.trans (hroom.drawn.1 ▸ Nat.le_add_right _ _), h.met⟩

/-- A step hands on what a frame promises, or keeps it. -/
theorem Promises.advance (hm : m.Explains D) (hclosed : m.isClosed = true)
    (h : f.Promises D k θ c) (hroom : c.HasRoom f.demand)
    (hfault : ∀ e, (m.advance f c).1 ≠ .fault e) :
    (∃ g ∈ (m.advance f c).1.children, g.Promises D k θ (c.drawn f.demand)) ∨
      ∃ s, (m.advance f c).1.solution? = some s ∧ s.Keeps k θ := by
  obtain ⟨instr, hcur, hreads⟩ := h.definite.reads hfault
  obtain ⟨θ', hdata, hθ, hmeets⟩ := h.met
  obtain ⟨θ'', hdata', hθ', hmet⟩ :=
    hmeets.of_reads hm h.definite hcur hreads h.drawn.below hroom hdata
  have hsame : ∀ v < k, θ'' v = θ v := fun v hv =>
    (hθ' v (hv.trans_le h.le)).trans (hθ v hv)
  have hle : k ≤ (c.drawn f.demand).vars.next :=
    h.le.trans (hroom.drawn.1 ▸ Nat.le_add_right _ _)
  rcases hmet with ⟨g, hg, hmet⟩ | ⟨s, hs, hsubst⟩
  · exact .inl ⟨g, hg, h.definite.of_reads hm hcur hreads g hg,
      h.drawn.advance hclosed hroom g hg, hle, θ'', hdata', hsame, hmet⟩
  · refine .inr ⟨s, hs, ?_, θ'', hdata', hsame, hsubst⟩
    rw [subst_of_reads hreads hs]
    exact h.definite.plain

end Frame

namespace Machine

/-- Whatever satisfies an answer meets the query. -/
theorem meets_of_mem_solutions (hm : m.Explains D)
    (hstart : (Frame.start q.env q.code).Definite) :
    ∀ s ∈ (m.observe count q).solutions, s.subst.Acyclic ∧ s.subst.IsPlain ∧
      ∀ θ : Valuation, (∀ v, (θ v).isData = true) → s.subst.SatisfiedBy θ →
        (Frame.start q.env q.code).Meets D θ := by
  have hsound : (Search.start q).shared.choices.Sound ((Search.start q).frame.bind (·.alt)) :=
    ChoicePoints.sound_empty
  have hpool : ∀ g ∈ (Search.start q).pool, g.Definite ∧
      ∀ θ : Valuation, (∀ v, (θ v).isData = true) → g.Meets D θ →
        (Frame.start q.env q.code).Meets D θ := by
    intro g hg
    obtain rfl := List.mem_singleton.mp hg
    exact ⟨hstart, fun θ _ h => h⟩
  refine forall_solutions ?_ hsound (Nat.lt_succ_self count) hpool fun s hs => by cases hs
  rintro f c ⟨hf, hmeets⟩ hfault
  obtain ⟨instr, hcur, hreads⟩ := hf.reads hfault
  constructor
  · refine fun g hg => ⟨hf.of_reads hm hcur hreads g hg, fun θ hdata hmet => ?_⟩
    exact hmeets θ hdata (Frame.meets_of_reads hm hf hcur hreads hdata (.inl ⟨g, hg, hmet⟩))
  · intro s hs
    have hsubst := Frame.subst_of_reads hreads hs
    refine ⟨hsubst ▸ hf.acyclic, hsubst ▸ hf.plain, fun θ hdata hmet => ?_⟩
    exact hmeets θ hdata (Frame.meets_of_reads hm hf hcur hreads hdata (.inr ⟨s, hs, hmet⟩))

/-- When the search comes to its end, whatever meets the query satisfies an answer, the variables
that were made on the way apart. -/
theorem exists_solution_of_meets (hm : m.Explains D) (hclosed : m.isClosed = true)
    (hstart : (Frame.start q.env q.code).Definite)
    (hdrawn : (Frame.start q.env q.code).DrawnBefore ⟨q.vars, {}⟩)
    (hdata : ∀ v, (θ v).isData = true) (hmeets : (Frame.start q.env q.code).Meets D θ)
    (hend : (m.observe count q).ending = .exhausted)
    (hunspent : (m.observe count q).counters.Unspent) :
    ∃ s ∈ (m.observe count q).solutions, s.Keeps q.vars.next θ := by
  have hsound : (Search.start q).shared.choices.Sound ((Search.start q).frame.bind (·.alt)) :=
    ChoicePoints.sound_empty
  have hpromises : (Frame.start q.env q.code).Promises D q.vars.next θ (Search.start q).counters :=
    ⟨hstart, hdrawn, Nat.le_refl _, θ, hdata, fun _ _ => rfl, hmeets⟩
  exact exists_solution (fun c d g h hroom => h.mono hroom)
    (fun f c h hroom hfault => h.advance hm hclosed hroom hfault) hsound (Nat.lt_succ_self count)
    (.inr ⟨_, List.mem_singleton_self _, hpromises⟩) hend hunspent

end Machine

/-! ### Programs and goals -/

namespace Expr

/-- A list is closed when each of its expressions is. -/
theorem isClosedAll_eq_all (es : List Expr) : isClosedAll es = es.all isClosed := by
  induction es with
  | nil => rfl
  | cons e es ih => simp [isClosedAll, ih]

/-- The constants of plain expressions are data, and data have no variables. -/
theorem isClosed_of_isPlain {e : Expr} (h : e.isPlain = true) : e.isClosed = true := by
  induction e using induction with
  | register i => simp [isClosed]
  | build f args ih =>
    rw [isClosed, isClosedAll_eq_all, List.all_eq_true]
    exact fun e he => ih e he ((isPlain_build_iff.mp h).2 e he)
  | const t =>
    rw [isPlain] at h
    rw [isClosed]
    exact (Term.isData_iff.mp h).2

end Expr

/-- Instructions of definite clauses have plain operands, which are closed. -/
theorem Instr.isClosed_of_isDefinite {instr : Instr} (h : instr.isDefinite = true) :
    instr.isClosed = true := by
  cases instr with
  | invoke name args =>
    rw [isDefinite, List.all_eq_true] at h
    rw [isClosed, Expr.isClosedAll_eq_all, List.all_eq_true]
    exact fun e he => Expr.isClosed_of_isPlain (h e he)
  | unify x y =>
    rw [isDefinite, Bool.and_eq_true] at h
    rw [isClosed, Bool.and_eq_true]
    exact ⟨Expr.isClosed_of_isPlain h.1, Expr.isClosed_of_isPlain h.2⟩
  | choice | fresh | success => rfl
  | constraint | goto | fail => cases h

/-- The same for code. -/
theorem Instr.all_isClosed_of_isDefinite {code : List Instr}
    (h : code.all Instr.isDefinite = true) : code.all Instr.isClosed = true :=
  List.all_eq_true.mpr fun instr hinstr =>
    isClosed_of_isDefinite (List.all_eq_true.mp h instr hinstr)

/-- The machine for a program, without constraint rules and without a depth limit. -/
def Program.machine (p : Program) (strategy : Strategy) : Machine :=
  { program := p.compile, strategy }

namespace Program

variable (p : Program) (strategy : Strategy)

/-- The blocks of the program say what follows from it. -/
theorem explains : (p.machine strategy).Explains (Derives p.clauses) where
  definite hblock := by
    rw [p.code_of_get?_compile hblock]
    exact p.isDefinite_code _
  block_iff hblock := by
    rw [p.derives_iff_code, p.code_of_get?_compile hblock]

/-- Programs of definite clauses have no constants with variables, and no rules. -/
theorem isClosed_machine : (p.machine strategy).isClosed = true := by
  refine Bool.and_eq_true_iff.mpr ⟨List.all_eq_true.mpr fun d hd => ?_, rfl⟩
  rw [p.code_of_mem_compile d hd]
  exact Instr.all_isClosed_of_isDefinite (p.isDefinite_code d.1)

end Program

/-- The query for a conjunction of goals over `n` variables. -/
def Query.ofGoals {n : Nat} (goals : List (Goal n)) : Query :=
  .ofCode n (goals.map Goal.call ++ [.success])

/-- An instance of an answer: the values of registers, once `θ` gives values to the variables that
the answer has left open. -/
def Solution.values (s : Solution) (env : Env) (θ : Valuation) : List Term :=
  env.map fun t => (s.subst.resolve t).apply θ

section Goals

variable {n : Nat} (goals : List (Goal n))

namespace Query

/-- The code of goals consists of calls and a return. -/
theorem isDefinite_ofGoals : (ofGoals goals).code.all Instr.isDefinite = true := by
  have hcode : (ofGoals goals).code = goals.map Goal.call ++ [.success] := rfl
  rw [hcode, List.all_eq_true]
  intro instr hinstr
  rcases List.mem_append.mp hinstr with hinstr | hinstr
  · obtain ⟨g, -, rfl⟩ := List.mem_map.mp hinstr
    exact g.plain
  · obtain rfl := List.mem_singleton.mp hinstr
    rfl

/-- The registers of a query hold variables. -/
theorem isPlain_env_ofGoals : ∀ t ∈ (ofGoals goals).env, t.isPlain = true :=
  List.forall_mem_map.mpr fun v _ => Term.isPlain_var v

/-- A conjunction of goals starts as a definite branch. -/
theorem definite_start :
    (Frame.start (ofGoals goals).env (ofGoals goals).code).Definite where
  store_eq := rfl
  acyclic := Subst.acyclic_empty
  weighed := Subst.weighed_empty
  plain := Subst.isPlain_empty
  running := ⟨isPlain_env_ofGoals goals, isDefinite_ofGoals goals⟩
  callers a ha := by cases ha

/-- To meet the query is to make its goals follow. -/
theorem meets_start_iff {D : String → List Term → Prop} {θ : Valuation} :
    (Frame.start (ofGoals goals).env (ofGoals goals).code).Meets D θ ↔
      ∀ g ∈ goals, D g.name (g.values ((ofGoals goals).env.map (Term.apply θ))) := by
  have hholds : (Frame.start (ofGoals goals).env (ofGoals goals).code).cont.running.Holds D θ ↔
      ∀ g ∈ goals, D g.name (g.values ((ofGoals goals).env.map (Term.apply θ))) := by
    have hcode : (ofGoals goals).code = goals.map Goal.call ++ [.success] := rfl
    rw [Activation.Holds, Frame.start, List.drop_zero, hcode, says_calls, Says, and_true]
  refine ⟨fun h => hholds.mp h.running, fun h => ⟨?_, hholds.mpr h, ?_⟩⟩
  · exact Subst.satisfiedBy_empty θ
  · exact fun a ha => by cases ha

end Query

end Goals

/-! ### Instances of answers -/

namespace Solution

variable {s : Solution} {env : Env} {θ : Valuation}

/-- An instance of an answer comes from values for all variables of the query. -/
theorem values_eq_map (henv : ∀ t ∈ env, t.isPlain = true) :
    s.values env θ = env.map (Term.apply fun v => (s.subst.resolveVar v).apply θ) := by
  refine List.map_congr_left fun t ht => ?_
  rw [Subst.IsPlain.resolve_eq_apply (henv t ht), Term.apply_apply]

/-- A valuation that satisfies an answer gives an instance of it. -/
theorem values_of_satisfiedBy (henv : ∀ t ∈ env, t.isPlain = true) (hs : s.subst.IsPlain)
    (hθ : s.subst.SatisfiedBy θ) : s.values env θ = env.map (Term.apply θ) :=
  List.map_congr_left fun t ht => hθ.resolve hs (henv t ht)

end Solution

namespace Query

/-- The variables of a query can have any values. -/
theorem exists_valuation {n : Nat} (hn : 1 + n ≤ Counter.largest) (code : List Instr)
    {vals : List Term} (hlength : vals.length = n) (hdata : ∀ t ∈ vals, t.isData = true) :
    ∃ θ : Valuation, (∀ v, (θ v).isData = true) ∧
      (ofCode n code).env.map (Term.apply θ) = vals := by
  refine ⟨Valuation.extend (fun _ => .int 0) 1 vals,
    Valuation.isData_extend (fun _ => rfl) hdata, ?_⟩
  rw [(env_ofCode hn code).1, List.map_map]
  exact (List.map_congr_left fun v _ => Term.apply_var _ v).trans (Valuation.map_extend hlength)

/-- The variables of a query are drawn before it starts. -/
theorem drawnBefore_start {n : Nat} (hn : 1 + n ≤ Counter.largest) {code : List Instr}
    (hcode : code.all Instr.isClosed = true) :
    (Frame.start (ofCode n code).env code).DrawnBefore ⟨(ofCode n code).vars, {}⟩ := by
  refine ⟨_, Frame.renamed_start hn hcode, ?_, Pairing.below_upTo 1⟩
  rw [(env_ofCode hn code).2]
  exact Pairing.below_upTo (n + 1)

end Query

namespace Program

variable {p : Program} {strategy : Strategy} {n count : Nat} {goals : List (Goal n)}

/-- All instances of an answer follow. -/
theorem derives_of_answer {s : Solution}
    (hs : s ∈ ((p.machine strategy).observe count (.ofGoals goals)).solutions) {θ : Valuation}
    (hdata : ∀ v, (θ v).isData = true) : ∀ g ∈ goals, Derives p.clauses g.name
      (g.values (s.values (Query.ofGoals goals).env θ)) := by
  obtain ⟨hacyclic, hplain, hmeets⟩ := Machine.meets_of_mem_solutions (p.explains strategy)
    (Query.definite_start goals) s hs
  rw [Solution.values_eq_map (Query.isPlain_env_ofGoals goals), ← Query.meets_start_iff]
  refine hmeets _ (fun v => ?_) (hacyclic.satisfiedBy_resolve hplain θ)
  exact Term.isData_apply (hplain.resolveVarWithin _ v) hdata

/-- When the search comes to its end, all instances that follow are instances of an answer. -/
theorem answer_of_derives
    (hend : ((p.machine strategy).observe count (.ofGoals goals)).ending = .exhausted)
    (hunspent : ((p.machine strategy).observe count (.ofGoals goals)).counters.Unspent)
    {vals : List Term} (hlength : vals.length = n) (hvals : ∀ t ∈ vals, t.isData = true)
    (hfollows : ∀ g ∈ goals, Derives p.clauses g.name (g.values vals)) :
    ∃ s ∈ ((p.machine strategy).observe count (.ofGoals goals)).solutions,
      ∃ θ : Valuation, (∀ v, (θ v).isData = true) ∧
        s.values (Query.ofGoals goals).env θ = vals := by
  have hn : 1 + n ≤ Counter.largest := Machine.le_largest_of_observe hunspent
  obtain ⟨θ, hdata, henv⟩ := Query.exists_valuation hn _ hlength hvals
  have hmeets : (Frame.start (Query.ofGoals goals).env (Query.ofGoals goals).code).Meets
      (Derives p.clauses) θ := by
    rw [Query.meets_start_iff, Query.ofGoals, henv]
    exact hfollows
  have hdrawn := Query.drawnBefore_start hn
    (Instr.all_isClosed_of_isDefinite (Query.isDefinite_ofGoals goals))
  obtain ⟨s, hs, hkeeps⟩ := Machine.exists_solution_of_meets (p.explains strategy)
    (p.isClosed_machine strategy) (Query.definite_start goals) hdrawn hdata hmeets hend hunspent
  obtain ⟨θ', hdata', hsame, hsubst⟩ := hkeeps.met
  refine ⟨s, hs, θ', hdata', ?_⟩
  rw [Solution.values_of_satisfiedBy (Query.isPlain_env_ofGoals goals) hkeeps.plain hsubst,
    ← henv]
  refine List.map_congr_left fun t ht => Term.apply_congr fun v hv => hsame v ?_
  exact hdrawn.below.running t ht v hv

/-- The answers of a finite program of definite clauses to a conjunction of goals are correct, under
either strategy and for runs of any length. All instances of an answer follow from the clauses. When
the search comes to its end without a fault, all instances of the goals that follow are instances of
an answer. The counters are 64 bits wide, and for this they may not have come to their end. -/
theorem answers_correct (p : Program) (strategy : Strategy) {n : Nat} (goals : List (Goal n))
    (count : Nat) :
    let q := Query.ofGoals goals
    let e := (p.machine strategy).observe count q
    (∀ s ∈ e.solutions, ∀ θ : Valuation, (∀ v, (θ v).isData = true) →
      ∀ g ∈ goals, Derives p.clauses g.name (g.values (s.values q.env θ))) ∧
    (e.ending = .exhausted → e.counters.Unspent →
      ∀ vals : List Term, vals.length = n → (∀ t ∈ vals, t.isData = true) →
        (∀ g ∈ goals, Derives p.clauses g.name (g.values vals)) →
        ∃ s ∈ e.solutions, ∃ θ : Valuation, (∀ v, (θ v).isData = true) ∧
          s.values q.env θ = vals) := by
  intro q e
  constructor
  · intro s hs θ hdata
    exact derives_of_answer hs hdata
  · intro hend hunspent vals hlength hvals hfollows
    exact answer_of_derives hend hunspent hlength hvals hfollows

/-- A list of one element is split in two ways, one of them with the element in front. -/
theorem answers_correct_appending :
    let p := Samples.appending
    let nil : Term := .compound (.named "nil") []
    let one : Term := .compound (.named "cons") [.int 1, nil]
    let goal : Goal 2 :=
      { name := "append"
        args := [.register 0, .register 1, .app "cons" [.int 1, .atom "nil"]] }
    let q := Query.ofGoals [goal]
    let e := (p.machine .interleaved).observe 30 q
    e.ending = .exhausted ∧ e.solutions.length = 2 ∧
      ∃ s ∈ e.solutions, ∃ θ : Valuation, s.values q.env θ = [one, nil] ∧
        Derives p.clauses "append" (goal.values (s.values q.env θ)) := by
  intro p nil one goal q e
  have hend : e.ending = .exhausted := by decide +kernel
  have hunspent : e.counters.Unspent := ⟨by decide +kernel, by decide +kernel⟩
  have hlength : e.solutions.length = 2 := by decide +kernel
  have hbase : Derives p.clauses "append" [nil, nil, nil] := by
    have hclause : p.clauses[0] ∈ p.clauses := List.getElem_mem _
    exact .clause hclause (rfl : [nil].length = 1) (by decide) fun g hg => by cases hg
  have hfollows : Derives p.clauses "append" [one, nil, one] := by
    have hclause : p.clauses[1] ∈ p.clauses := List.getElem_mem _
    refine .clause hclause (rfl : [.int 1, nil, nil, nil].length = 4) (by decide) fun g hg => ?_
    obtain rfl := List.mem_singleton.mp hg
    exact hbase
  obtain ⟨hsound, hcomplete⟩ := p.answers_correct .interleaved [goal] 30
  obtain ⟨s, hs, θ, hdata, hvals⟩ := hcomplete hend hunspent [one, nil] rfl (by decide)
    (List.forall_mem_singleton.mpr hfollows)
  exact ⟨hend, hlength, s, hs, θ, hvals, hsound s hs θ hdata goal (List.mem_singleton_self goal)⟩

end Program

end LogicMachine
