import LogicMachine.Proofs.Clauses.Program

/-!
# What code says

Code that only unifies, calls and tries alternatives can be read as a statement about the values of
the registers, given what is known of the predicates. Read so, the block of a predicate says that
one of its clauses applies: what follows from the clauses makes every block say what it should.
-/

namespace LogicMachine

/-- Instructions that can be read as statements: jumps only forward and as alternatives, and no
constraints. -/
def Instr.isDefinite : Instr → Bool
  | .invoke _ args => args.all Expr.isPlain
  | .unify x y => x.isPlain && y.isPlain
  | .choice offset => 0 ≤ offset
  | .fresh _ | .success => true
  | .constraint _ _ | .goto _ | .fail => false

/-- What code says about the values of the registers, if `D` is known of the predicates. The code
behind a return says nothing. -/
def Says (D : String → List Term → Prop) : List Term → List Instr → Prop
  | regs, .invoke name args :: rest => D name (args.map (Expr.value regs)) ∧ Says D regs rest
  | regs, .unify x y :: rest => x.value regs = y.value regs ∧ Says D regs rest
  | regs, .fresh n :: rest =>
    ∃ vals : List Term, vals.length = n ∧ (∀ t ∈ vals, t.isData = true) ∧
      Says D (vals ++ regs) rest
  | regs, .choice offset :: rest => Says D regs rest ∨ Says D regs (rest.drop offset.toNat)
  | _, .success :: _ => True
  | _, _ => False
termination_by _ code => code.length

variable {D : String → List Term → Prop} {regs : List Term} {rest : List Instr}

/-! ### Clauses -/

/-- Calls in a row say what each of them says. -/
theorem says_calls {n : Nat} (goals : List (Goal n)) :
    Says D regs (goals.map Goal.call ++ rest) ↔
      (∀ g ∈ goals, D g.name (g.values regs)) ∧ Says D regs rest := by
  induction goals with
  | nil => simp
  | cons g goals ih =>
    rw [List.map_cons, List.cons_append, Goal.call, Says, ih, List.forall_mem_cons, and_assoc]
    rfl

/-- Unifications in a row say what each of them says. -/
theorem says_unifies (equations : List (Expr × Expr)) :
    Says D regs (equations.map (fun e => .unify e.1 e.2) ++ rest) ↔
      (∀ e ∈ equations, e.1.value regs = e.2.value regs) ∧ Says D regs rest := by
  induction equations with
  | nil => simp
  | cons e equations ih =>
    rw [List.map_cons, List.cons_append, Says, ih, List.forall_mem_cons, and_assoc]

/-- The arguments agree with the patterns, register by register, exactly if they are the values of
the patterns. -/
theorem forall_registers_iff {n : Nat} {patterns : List Expr} {vals args : List Term}
    (hover : patterns.all (Expr.isOver n) = true) (hvals : vals.length = n)
    (hargs : args.length = patterns.length) :
    (∀ e ∈ patterns.mapIdx (fun i p => (Expr.register (n + i), p)),
        e.1.value (vals ++ args) = e.2.value (vals ++ args)) ↔
      args = patterns.map (Expr.value vals) := by
  have hregister : ∀ i, (vals ++ args).getD (n + i) default = args.getD i default := by
    intro i
    rw [List.getD_append_right _ _ _ _ (by omega), hvals, Nat.add_sub_cancel_left]
  have hpattern : ∀ p ∈ patterns, p.value (vals ++ args) = p.value vals := fun p hp =>
    Expr.value_append (List.all_eq_true.mp hover p hp) hvals args
  constructor
  · intro h
    refine List.ext_getElem (by rw [hargs, List.length_map]) fun i hi hi' => ?_
    rw [List.length_map] at hi'
    have heq := h (Expr.register (n + i), patterns[i])
      (List.mem_mapIdx.mpr ⟨i, hi', rfl⟩)
    rw [Expr.value_register, hregister, hpattern _ (List.getElem_mem hi')] at heq
    rw [List.getElem_map, ← heq, List.getD_eq_getElem _ _ hi]
  · rintro hall e he
    obtain ⟨i, hi, rfl⟩ := List.mem_mapIdx.mp he
    have hi' : i < args.length := hargs ▸ hi
    rw [Expr.value_register, hregister, hpattern _ (List.getElem_mem hi),
      List.getD_eq_getElem _ _ hi']
    simp only [hall, List.getElem_map]

/-- The clause applies to the arguments: they are an instance of its head, and of the goals of its
body the same instance holds. -/
def Clause.Applies (D : String → List Term → Prop) (c : Clause) (args : List Term) : Prop :=
  ∃ vals : List Term, vals.length = c.locals ∧ (∀ t ∈ vals, t.isData = true) ∧
    args = c.head.values vals ∧ ∀ g ∈ c.body, D g.name (g.values vals)

/-- The code of a clause says that the clause applies. -/
theorem says_clause (c : Clause) {args : List Term} (hargs : args.length = c.head.args.length)
    (rest : List Instr) : Says D args (c.code ++ rest) ↔ c.Applies D args := by
  have hcode : c.code ++ rest = .fresh c.locals ::
      ((c.head.args.mapIdx fun i p => (Expr.register (c.locals + i), p)).map
        (fun e => Instr.unify e.1 e.2) ++ (c.body.map Goal.call ++ (.success :: rest))) := by
    simp [Clause.code, Layout.clause, List.mapIdx_eq_zipIdx_map]
  rw [hcode, Says]
  refine exists_congr fun vals => and_congr_right fun hlength => and_congr_right fun _ => ?_
  rw [says_unifies, says_calls, forall_registers_iff c.head.inRange hlength hargs, Says, and_true]
  refine and_congr_right fun _ => forall₂_congr fun g _ => ?_
  rw [g.values_append hlength]

/-- Clauses to be tried in order say that one of them applies. -/
theorem says_clauses (cs : List Clause) {args : List Term}
    (hargs : ∀ c ∈ cs, args.length = c.head.args.length) :
    Says D args (Layout.clauses (cs.map Clause.code)) ↔ ∃ c ∈ cs, c.Applies D args := by
  induction cs with
  | nil => simp [Layout.clauses, Says]
  | cons c cs ih =>
    rw [List.forall_mem_cons] at hargs
    cases cs with
    | nil =>
      have hclause := says_clause (D := D) c hargs.1 []
      rw [List.append_nil] at hclause
      simpa [Layout.clauses] using hclause
    | cons d cs =>
      have hrest := ih hargs.2
      rw [List.map_cons, List.map_cons, Layout.clauses, List.cons_append, Says, Int.toNat_natCast,
        List.drop_left, says_clause c hargs.1, ← List.map_cons, hrest]
      simp only [List.mem_cons, exists_eq_or_imp]

namespace Program

/-- What follows from the clauses is what the blocks say. -/
theorem derives_iff_code (p : Program) (name : String) (args : List Term) :
    Derives p.clauses name args ↔
      Says (Derives p.clauses) args (p.code ⟨name, args.length⟩) := by
  rw [code, says_clauses]
  · constructor
    · intro h
      cases h with
      | @clause c vals hc hlength hdata hbody =>
        refine ⟨c, List.mem_filter.mpr ⟨hc, ?_⟩, vals, hlength, hdata, rfl, hbody⟩
        simp [Goal.sig, Goal.values]
    · rintro ⟨c, hc, vals, hlength, hdata, hargs, hbody⟩
      obtain ⟨hc, hsig⟩ := List.mem_filter.mp hc
      have hname : c.head.name = name := congrArg Signature.name (of_decide_eq_true hsig)
      rw [← hname, hargs]
      exact .clause hc hlength hdata hbody
  · intro c hc
    have hsig := of_decide_eq_true (List.mem_filter.mp hc).2
    exact (congrArg Signature.arity hsig).symm

/-- All code of a program can be read so. -/
theorem isDefinite_code (p : Program) (sig : Signature) :
    (p.code sig).all Instr.isDefinite = true := by
  have hclause : ∀ c : Clause, ∀ instr ∈ c.code, instr.isDefinite = true := by
    intro c instr hinstr
    simp only [Clause.code, Layout.clause, List.append_assoc, List.mem_append, List.mem_singleton,
      List.mem_mapIdx, List.mem_map] at hinstr
    rcases hinstr with rfl | ⟨i, hi, rfl⟩ | ⟨g, -, rfl⟩ | rfl
    · rfl
    · rw [Instr.isDefinite, Expr.isPlain, Bool.true_and]
      exact List.all_eq_true.mp c.head.plain _ (List.getElem_mem hi)
    · exact g.plain
    · rfl
  have hclauses : ∀ cs : List Clause,
      ∀ instr ∈ Layout.clauses (cs.map Clause.code), instr.isDefinite = true := by
    intro cs
    induction cs with
    | nil => simp [Layout.clauses]
    | cons c cs ih =>
      cases cs with
      | nil => exact hclause c
      | cons d cs =>
        rw [List.map_cons, List.map_cons, Layout.clauses, ← List.map_cons]
        intro instr hinstr
        rw [List.cons_append, List.mem_cons, List.mem_append] at hinstr
        rcases hinstr with rfl | hinstr | hinstr
        · simp [Instr.isDefinite]
        · exact hclause c instr hinstr
        · exact ih instr hinstr
  exact List.all_eq_true.mpr (hclauses _)

end Program

end LogicMachine
