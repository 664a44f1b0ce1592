import LogicMachine.Proofs.Clauses.Frame
import LogicMachine.Proofs.Renaming.Advance
import LogicMachine.Proofs.Search.Exploration

/-!
# Steps of frames that are statements

An instruction splits what a frame says among the frames that it leads to. Whatever meets one of
them meets the frame, and whatever meets the frame meets one of them, once the variables made on the
way have got their values.
-/

namespace LogicMachine

/-- Code and registers that can be read as a statement. -/
structure Activation.Definite (a : Activation) : Prop where
  env : ∀ t ∈ a.env, t.isPlain = true
  code : a.block.code.all Instr.isDefinite = true

/-- A frame that can be read as a statement. -/
structure Frame.Definite (f : Frame) : Prop where
  store_eq : f.store = .empty
  acyclic : f.subst.Acyclic
  weighed : f.subst.Weighed
  plain : f.subst.IsPlain
  running : f.cont.running.Definite
  callers : ∀ a ∈ f.cont.callers, a.Definite

/-- What is left to run of an activation is true, for the values that `θ` gives its registers. -/
def Activation.Holds (D : String → List Term → Prop) (θ : Valuation) (a : Activation) : Prop :=
  Says D (a.env.map (Term.apply θ)) (a.block.code.drop a.pc)

/-- The valuation meets all that the frame says: its bindings, and what is left to run. -/
structure Frame.Meets (D : String → List Term → Prop) (θ : Valuation) (f : Frame) : Prop where
  subst : f.subst.SatisfiedBy θ
  running : f.cont.running.Holds D θ
  callers : ∀ a ∈ f.cont.callers, a.Holds D θ

/-- `D` is what the blocks of the program say, and all of them can be read so. -/
structure Machine.Explains (m : Machine) (D : String → List Term → Prop) : Prop where
  definite : ∀ {sig block}, m.program.get? sig = some block →
    block.code.all Instr.isDefinite = true
  block_iff : ∀ {name ts block}, m.program.get? ⟨name, ts.length⟩ = some block →
    (D name ts ↔ Says D ts block.code)

/-- The valuation meets a frame that the outcome leads to, or the answer that it gives. -/
def Outcome.MetBy (D : String → List Term → Prop) (θ : Valuation) (o : Outcome) : Prop :=
  (∃ g ∈ o.children, g.Meets D θ) ∨ ∃ s, o.solution? = some s ∧ s.subst.SatisfiedBy θ

variable {m : Machine} {D : String → List Term → Prop} {f : Frame} {c : Counters} {instr : Instr}
  {o : Outcome} {θ θ' : Valuation}

namespace Outcome

/-- A branch that goes on says what it says. -/
theorem metBy_go : (go f).MetBy D θ ↔ f.Meets D θ := by
  simp [MetBy, children, solution?]

/-- A branch that splits says that one of its two branches holds. -/
theorem metBy_split {g : Frame} : (split f g).MetBy D θ ↔ f.Meets D θ ∨ g.Meets D θ := by
  simp [MetBy, children, solution?]

/-- A branch that has failed cannot be met. -/
theorem not_metBy_dead : ¬ dead.MetBy D θ := by
  simp [MetBy, children, solution?]

/-- An answer says what its substitution says. -/
theorem metBy_answer {s : Solution} : (answer s).MetBy D θ ↔ s.subst.SatisfiedBy θ := by
  simp [MetBy, children, solution?]

end Outcome

/-- A block holds of the arguments that it is called with exactly if the predicate does. -/
theorem Machine.Explains.holds_iff (hm : m.Explains D) {name : String} {ts : List Term}
    {block : Block} (hblock : m.program.get? ⟨name, ts.length⟩ = some block) :
    D name (ts.map (Term.apply θ)) ↔ Says D (ts.map (Term.apply θ)) block.code := by
  refine hm.block_iff ?_
  rw [List.length_map]
  exact hblock

namespace Frame

/-- What the operands of a call are evaluated to has the values that they stand for. -/
theorem Definite.values_of_evalAll (hf : f.Definite) {args : List Expr} {ts : List Term}
    (hargs : args.all Expr.isPlain = true)
    (h : Expr.evalAll f.cont.running.env f.subst args = .ok ts) (hθ : f.subst.SatisfiedBy θ) :
    ts.map (Term.apply θ) = args.map (Expr.value (f.cont.running.env.map (Term.apply θ))) :=
  (Expr.denotedBy_all (Expr.denotedBy_of_evalAll hf.plain hf.running.env hargs h)).2 θ hθ

/-- What two operands are evaluated to has equal values exactly if they stand for equal ones. -/
theorem Definite.values_of_eval (hf : f.Definite) {x y : Expr} {t t' : Term}
    (hxy : (Instr.unify x y).isDefinite = true) (hx : x.eval f.cont.running.env f.subst = .ok t)
    (hy : y.eval f.cont.running.env f.subst = .ok t') (hθ : f.subst.SatisfiedBy θ) :
    t.apply θ = t'.apply θ ↔ x.value (f.cont.running.env.map (Term.apply θ)) =
      y.value (f.cont.running.env.map (Term.apply θ)) := by
  obtain ⟨hplainx, hplainy⟩ := Bool.and_eq_true_iff.mp hxy
  rw [(Expr.denotedBy_of_eval hf.plain hf.running.env hplainx hx).2 θ hθ,
    (Expr.denotedBy_of_eval hf.plain hf.running.env hplainy hy).2 θ hθ]

/-- A step leads from definite frames to definite frames. -/
theorem Definite.of_reads (hm : m.Explains D) (hf : f.Definite)
    (hcur : f.cont.running.current? = some instr) (h : m.Reads f c instr o) :
    ∀ g ∈ o.children, g.Definite := by
  have hinstr := List.all_eq_true.mp hf.running.code _ (List.mem_of_getElem? hcur)
  have honward : f.onward.running.Definite := ⟨hf.running.env, hf.running.code⟩
  cases h with
  | invoke hargs hblock =>
    obtain ⟨hplain, -⟩ :=
      Expr.denotedBy_all (Expr.denotedBy_of_evalAll hf.plain hf.running.env hinstr hargs)
    refine List.forall_mem_singleton.mpr ⟨hf.store_eq, hf.acyclic, hf.weighed, hf.plain, ?_, ?_⟩
    · exact ⟨hplain, hm.definite hblock⟩
    · exact List.forall_mem_cons.mpr ⟨honward, hf.callers⟩
  | choice =>
    refine List.forall_mem_cons.mpr ⟨?_, List.forall_mem_singleton.mpr ?_⟩
    · exact ⟨hf.store_eq, hf.acyclic, hf.weighed, hf.plain, honward, hf.callers⟩
    · exact ⟨hf.store_eq, hf.acyclic, hf.weighed, hf.plain,
        ⟨hf.running.env, hf.running.code⟩, hf.callers⟩
  | fresh n =>
    refine List.forall_mem_singleton.mpr
      ⟨hf.store_eq, hf.acyclic, hf.weighed, hf.plain, ⟨?_, hf.running.code⟩, hf.callers⟩
    refine List.forall_mem_append.mpr ⟨List.forall_mem_map.mpr fun v _ => ?_, hf.running.env⟩
    exact Term.isPlain_var v
  | unify hx hy hu =>
    rw [Instr.isDefinite, Bool.and_eq_true] at hinstr
    have hgrown : f.subst.Grown (fun t => t.isPlain = true) _ := Subst.grown_of_unify?
      (fun g args ht => (Term.isPlain_compound_iff.mp ht).2) hf.acyclic hf.plain
      (Expr.denotedBy_of_eval hf.plain hf.running.env hinstr.1 hx).1
      (Expr.denotedBy_of_eval hf.plain hf.running.env hinstr.2 hy).1 hu
    exact List.forall_mem_singleton.mpr ⟨hf.store_eq, hgrown.acyclic hf.acyclic,
      hgrown.weighed hf.weighed, hgrown.valuesIn hf.plain, honward, hf.callers⟩
  | clash => exact fun g hg => absurd hg List.not_mem_nil
  | leave hk =>
    have hcallers : f.cont.callers = _ := Continuation.callers_of_return? hk
    have hall := hf.callers
    rw [hcallers, List.forall_mem_cons] at hall
    exact List.forall_mem_singleton.mpr
      ⟨hf.store_eq, hf.acyclic, hf.weighed, hf.plain, hall.1, hall.2⟩
  | answer => exact fun g hg => absurd hg List.not_mem_nil

/-- Unless there is a fault, a definite frame has an instruction that can be read. -/
theorem Definite.reads (hf : f.Definite) (hfault : ∀ e, (m.advance f c).1 ≠ .fault e) :
    ∃ instr, f.cont.running.current? = some instr ∧ m.Reads f c instr (m.advance f c).1 := by
  cases hcur : f.cont.running.current? with
  | none =>
    rw [Machine.advance_of_none hcur] at hfault
    exact absurd rfl (hfault _)
  | some instr =>
    have hinstr := List.all_eq_true.mp hf.running.code _ (List.mem_of_getElem? hcur)
    exact ⟨instr, rfl, Machine.reads_of_advance hf.store_eq hcur hinstr hfault⟩

/-- An answer has the bindings of the frame that gave it. -/
theorem subst_of_reads (h : m.Reads f c instr o) {s : Solution} (hs : o.solution? = some s) :
    s.subst = f.subst := by
  cases h with
  | answer hk =>
    obtain rfl := Option.some.inj hs
    rfl
  | invoke | choice | fresh | unify | clash | leave => cases hs

/-- What is left to run says what the next instruction says. -/
theorem holds_of_current? (hcur : f.cont.running.current? = some instr) :
    f.cont.running.Holds D θ ↔ Says D (f.cont.running.env.map (Term.apply θ))
      (instr :: f.onward.running.block.code.drop f.onward.running.pc) := by
  rw [Activation.Holds, Activation.drop_eq_cons_iff.mpr ⟨hcur, rfl⟩]
  rfl

/-- A choice can be read with the place that it jumps to. -/
theorem drop_of_choice {offset : Int} {pc : Nat} (hoffset : 0 ≤ offset)
    (hpc : (pc : Int) = f.cont.running.pc + 1 + offset) :
    (f.onward.running.block.code.drop f.onward.running.pc).drop offset.toNat =
      f.cont.running.block.code.drop pc := by
  have hplace : f.onward.running.pc + offset.toNat = pc := by
    have hnext : f.onward.running.pc = f.cont.running.pc + 1 := rfl
    omega
  rw [List.drop_drop, hplace]
  rfl

/-- New variables stand in front of the registers. -/
theorem map_apply_prepend (vs : List Var) :
    (f.onward.prepend (vs.map .var)).running.env.map (Term.apply θ) =
      vs.map θ ++ f.cont.running.env.map (Term.apply θ) := by
  rw [Continuation.prepend, List.map_append, List.map_map]
  exact congrArg (· ++ _) (List.map_congr_left fun v _ => Term.apply_var θ v)

/-- Whatever meets an outcome meets the frame that had it. -/
theorem meets_of_reads (hm : m.Explains D) (hf : f.Definite)
    (hcur : f.cont.running.current? = some instr) (h : m.Reads f c instr o)
    (hdata : ∀ v, (θ v).isData = true) (hmet : o.MetBy D θ) : f.Meets D θ := by
  have hinstr := List.all_eq_true.mp hf.running.code _ (List.mem_of_getElem? hcur)
  cases h with
  | @invoke name args ts block hargs hblock =>
    obtain ⟨hsubst, hrunning, hcallers⟩ := Outcome.metBy_go.mp hmet
    obtain ⟨hrest, hcallers⟩ := List.forall_mem_cons.mp hcallers
    refine ⟨hsubst, (holds_of_current? hcur).mpr ?_, hcallers⟩
    -- that the callee returns with these arguments is what the relation says of its block
    rw [Says, ← hf.values_of_evalAll hinstr hargs hsubst, hm.holds_iff hblock]
    exact ⟨hrunning, hrest⟩
  | choice hpc =>
    rcases Outcome.metBy_split.mp hmet with
      ⟨hsubst, hrunning, hcallers⟩ | ⟨hsubst, hrunning, hcallers⟩
    · refine ⟨hsubst, (holds_of_current? hcur).mpr ?_, hcallers⟩
      rw [Says]
      exact .inl hrunning
    · refine ⟨hsubst, (holds_of_current? hcur).mpr ?_, hcallers⟩
      rw [Says, drop_of_choice (of_decide_eq_true hinstr) hpc]
      exact .inr hrunning
  | fresh n =>
    obtain ⟨hsubst, hrunning, hcallers⟩ := Outcome.metBy_go.mp hmet
    refine ⟨hsubst, (holds_of_current? hcur).mpr ?_, hcallers⟩
    rw [Says]
    -- the values of the new variables are the ones the condition asks for
    refine ⟨(c.vars.drawMany n).1.map θ, by simp, List.forall_mem_map.mpr fun v _ => hdata v, ?_⟩
    rw [← map_apply_prepend]
    exact hrunning
  | unify hx hy hu =>
    obtain ⟨hsubst, hrunning, hcallers⟩ := Outcome.metBy_go.mp hmet
    -- the new bindings hold exactly if the old ones do and both sides are equal
    obtain ⟨hold, heq⟩ := (Subst.satisfiedBy_of_unify? hf.acyclic hf.weighed hu).mp hsubst
    refine ⟨hold, (holds_of_current? hcur).mpr ?_, hcallers⟩
    rw [Says]
    exact ⟨(hf.values_of_eval hinstr hx hy hold).mp heq, hrunning⟩
  | clash => exact absurd hmet Outcome.not_metBy_dead
  | leave hk =>
    have hcallers : f.cont.callers = _ := Continuation.callers_of_return? hk
    obtain ⟨hsubst, hrunning, hrest⟩ := Outcome.metBy_go.mp hmet
    refine ⟨hsubst, (holds_of_current? hcur).mpr ?_, ?_⟩
    · rw [Says]
      trivial
    · rw [hcallers]
      exact List.forall_mem_cons.mpr ⟨hrunning, hrest⟩
  | answer hk =>
    have hcallers : f.cont.callers = [] := Continuation.callers_eq_nil_of_return? hk
    refine ⟨Outcome.metBy_answer.mp hmet, (holds_of_current? hcur).mpr ?_, ?_⟩
    · rw [Says]
      trivial
    · rw [hcallers]
      exact fun a ha => absurd ha List.not_mem_nil

/-! ### New variables -/

/-- All variables of the frame have numbers below `k`. -/
structure Below (k : Nat) (f : Frame) : Prop where
  subst : ∀ v t, f.subst.get? v = some t → v < k ∧ ∀ w ∈ t.vars, w < k
  running : ∀ t ∈ f.cont.running.env, ∀ w ∈ t.vars, w < k
  callers : ∀ a ∈ f.cont.callers, ∀ t ∈ a.env, ∀ w ∈ t.vars, w < k

variable {k : Nat}

/-- Only the values of its own variables matter to a frame. -/
theorem Meets.congr (h : f.Meets D θ) (hbelow : f.Below k) (hθ : ∀ v < k, θ' v = θ v) :
    f.Meets D θ' := by
  have hterm : ∀ t : Term, (∀ w ∈ t.vars, w < k) → t.apply θ' = t.apply θ :=
    fun t ht => Term.apply_congr fun v hv => hθ v (ht v hv)
  have hholds : ∀ a : Activation, (∀ t ∈ a.env, ∀ w ∈ t.vars, w < k) → a.Holds D θ →
      a.Holds D θ' := by
    intro a ha hheld
    rw [Activation.Holds, List.map_congr_left fun t ht => hterm t (ha t ht)]
    exact hheld
  refine ⟨fun v t hv => ?_, hholds _ hbelow.running h.running,
    fun a ha => hholds a (hbelow.callers a ha) (h.callers a ha)⟩
  obtain ⟨hlt, hvars⟩ := hbelow.subst v t hv
  rw [hθ v hlt, hterm t hvars]
  exact h.subst v t hv

/-- Whatever meets a frame meets the outcome of its next instruction, once the variables that the
instruction makes have got their values. -/
theorem Meets.of_reads (hm : m.Explains D) (hf : f.Definite)
    (hcur : f.cont.running.current? = some instr) (h : m.Reads f c instr o)
    (hbelow : f.Below c.vars.next) (hroom : c.HasRoom f.demand)
    (hdata : ∀ v, (θ v).isData = true) (hmeets : f.Meets D θ) :
    ∃ θ' : Valuation, (∀ v, (θ' v).isData = true) ∧ (∀ v < c.vars.next, θ' v = θ v) ∧
      o.MetBy D θ' := by
  have hinstr := List.all_eq_true.mp hf.running.code _ (List.mem_of_getElem? hcur)
  have hrunning := (holds_of_current? hcur).mp hmeets.running
  cases h with
  | invoke hargs hblock =>
    rw [Says, ← hf.values_of_evalAll hinstr hargs hmeets.subst, hm.holds_iff hblock] at hrunning
    refine ⟨θ, hdata, fun _ _ => rfl, Outcome.metBy_go.mpr ⟨hmeets.subst, hrunning.1, ?_⟩⟩
    exact List.forall_mem_cons.mpr ⟨hrunning.2, hmeets.callers⟩
  | choice hpc =>
    rw [Says, drop_of_choice (of_decide_eq_true hinstr) hpc] at hrunning
    refine ⟨θ, hdata, fun _ _ => rfl, Outcome.metBy_split.mpr ?_⟩
    rcases hrunning with hfirst | hsecond
    · exact .inl ⟨hmeets.subst, hfirst, hmeets.callers⟩
    · exact .inr ⟨hmeets.subst, hsecond, hmeets.callers⟩
  | fresh n =>
    rw [Says] at hrunning
    obtain ⟨vals, hlength, hvals, hrest⟩ := hrunning
    have hdrawn : (c.vars.drawMany n).1 = List.range' c.vars.next n := by
      have hvars := hroom.vars
      rw [demand, hcur] at hvars
      rw [Counter.drawMany_of_le hvars]
    -- the new variables get the values that are known to exist
    have hsame : ∀ v < c.vars.next, θ.extend c.vars.next vals v = θ v :=
      fun v hv => Valuation.extend_of_lt hv
    refine ⟨_, Valuation.isData_extend hdata hvals, hsame, Outcome.metBy_go.mpr ?_⟩
    have hold := hmeets.congr hbelow hsame
    refine ⟨hold.subst, ?_, hold.callers⟩
    rw [Activation.Holds, map_apply_prepend, hdrawn, Valuation.map_extend hlength,
      List.map_congr_left fun t ht => Term.apply_congr fun v hv =>
        hsame v (hbelow.running t ht v hv)]
    exact hrest
  | unify hx hy hu =>
    rw [Says, ← hf.values_of_eval hinstr hx hy hmeets.subst] at hrunning
    have hsubst := (Subst.satisfiedBy_of_unify? hf.acyclic hf.weighed hu).mpr
      ⟨hmeets.subst, hrunning.1⟩
    exact ⟨θ, hdata, fun _ _ => rfl, Outcome.metBy_go.mpr ⟨hsubst, hrunning.2, hmeets.callers⟩⟩
  | clash hx hy hu =>
    rw [Says, ← hf.values_of_eval hinstr hx hy hmeets.subst] at hrunning
    obtain ⟨u, hunifies, -⟩ :=
      Subst.unify?_complete hf.acyclic hf.weighed hmeets.subst hrunning.1
    rw [hu] at hunifies
    cases hunifies
  | leave hk =>
    have hcallers : f.cont.callers = _ := Continuation.callers_of_return? hk
    have hall := hmeets.callers
    rw [hcallers, List.forall_mem_cons] at hall
    exact ⟨θ, hdata, fun _ _ => rfl, Outcome.metBy_go.mpr ⟨hmeets.subst, hall.1, hall.2⟩⟩
  | answer hk =>
    exact ⟨θ, hdata, fun _ _ => rfl, Outcome.metBy_answer.mpr hmeets.subst⟩

end Frame

/-- A frame that agrees with one has no variables beyond those drawn. -/
theorem Frame.Renamed.below {ρ : Renaming} {f' : Frame} {c' : Counters} (h : f.Renamed ρ f')
    (hbelow : ρ.Below c c') : f.Below c.vars.next := by
  have hlt : ∀ w, f.Mentions w → w < c.vars.next := by
    intro w hw
    obtain ⟨w', hpair⟩ := h.exists_of_mentions hw
    exact (hbelow.vars hpair).1
  constructor
  · exact fun v t hv => ⟨hlt v (.bound hv), fun w hw => hlt w (.value hv hw)⟩
  · exact fun t ht w hw => hlt w (.register List.mem_cons_self ht hw)
  · exact fun a ha t ht w hw => hlt w (.register (List.mem_cons_of_mem _ ha) ht hw)

end LogicMachine
