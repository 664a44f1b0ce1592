import LogicMachine.Proofs.Search.Performing
import LogicMachine.Proofs.Search.Reached
import LogicMachine.Samples

/-!
# Backlinks are exact

Between two instructions the store of a branch notes under every unbound variable the constraints
that were created on the branch and mention the variable once bindings are followed, and nothing
under a bound one. A constraint is noted when it is posted, and a unification hands the notes over;
the passes that follow leave them alone. Therefore a unification matches again just those constraints
that mention a variable it binds.
-/

namespace LogicMachine

open Relation

variable {m : Machine} {f g : Frame} {rs : RuleSet} {c : Counters} {instr : Instr} {o : Outcome}
  {next next' : Nat} {posted posted' : Constraint → Prop} {s : Subst} {u : Unifier} {v : Var}
  {d : Constraint} {cs rerun : List Constraint}

/-- Once the bindings of `s` are followed, the arguments of the constraint mention `v`. -/
def Constraint.LeadsTo (s : Subst) (c : Constraint) (v : Var) : Prop :=
  ∃ a ∈ c.args, ∃ x ∈ a.vars, ReflTransGen s.Mentions x v

/-- An unbound variable that a constraint leads to is among the unbound variables of one of its
arguments, as the store collects them. -/
theorem Subst.Acyclic.leadsTo_iff (h : s.Acyclic) (hv : s.get? v = none) :
    d.LeadsTo s v ↔ ∃ a ∈ d.args, v ∈ s.unboundVars a := by
  simp only [Constraint.LeadsTo, h.mem_unboundVars_iff, hv, true_and]

/-- Away from its end, the counter of serial numbers moves on by as many as are drawn. -/
theorem Counters.serials_drawn {d : Nat × Nat}
    (h : (c.drawn d).serials.next < Counter.largest) :
    (c.drawn d).serials.next = c.serials.next + d.2 := by
  have hlt : c.serials.next + d.2 < Counter.largest := Counter.drawMany_lt h
  simp only [drawn, Counter.drawMany_of_le hlt.le]

/-- The two sides of an equation; other instructions have none. -/
def Instr.sides? : Instr → Option (Expr × Expr)
  | .unify a b => some (a, b)
  | _ => none

/-- The instructions with two sides are the unifications. -/
theorem Instr.sides?_eq_some_iff {x y : Expr} : instr.sides? = some (x, y) ↔ instr = .unify x y := by
  cases instr <;> simp [sides?]

/-! ### Passes -/

/-- What every pass keeps true is true when all constraints have had their turns. -/
theorem Frame.Rematches.preserves {P : Frame → Prop} (h : Rematches rs f cs rerun g)
    (hst : f.store.Indexed) (hcs : ∀ d ∈ cs, f.store.Owns d)
    (hmatched : ∀ (f : Frame), ∀ d ∈ cs, f.store.Indexed → f.store.Owns d → P f →
      P (f.matched rs d)) (hf : P f) : P g := by
  induction h with
  | done f => exact hf
  | @live f g d cs rerun _ _ _ ih =>
    rw [List.forall_mem_cons] at hcs
    have hpassed := Store.passed_matchRules rs f.subst hst hcs.1
    exact ih hpassed.indexed (fun e he => (hcs.2 e he).passed hpassed)
      (fun f e he => hmatched f e (List.mem_cons_of_mem _ he))
      (hmatched f d List.mem_cons_self hst hcs.1 hf)
  | deleted _ _ ih =>
    exact ih hst (fun e he => hcs e (List.mem_cons_of_mem _ he))
      (fun f e he => hmatched f e (List.mem_cons_of_mem _ he)) hf

/-- Constraints that have their turns leave the notes alone. -/
theorem Frame.Rematches.passed (h : Rematches rs f cs rerun g) (hst : f.store.Indexed)
    (hcs : ∀ d ∈ cs, f.store.Owns d) : g.subst = f.subst ∧ Store.Passed f.store g.store := by
  refine h.preserves (P := fun g => g.subst = f.subst ∧ Store.Passed f.store g.store) hst hcs ?_
    ⟨rfl, .refl hst⟩
  rintro g d - hg howns ⟨hsubst, hpassed⟩
  exact ⟨hsubst, hpassed.trans (Store.passed_matchRules rs g.subst hg howns)⟩

/-! ### The notes of a branch -/

/-- The constraints with the property `posted` were created on the branch, with serial numbers below
`next`, and the notes of its store are exact. -/
structure Frame.Noted (next : Nat) (posted : Constraint → Prop) (f : Frame) : Prop where
  reachable : f.subst.Reachable
  linked : f.store.Linked posted f.subst
  drawn : ∀ d, posted d → d.serial < next

namespace Frame

/-- Only the instruction that posts a constraint creates one. -/
theorem creates?_eq_none (hcur : f.cont.running.current? = some instr)
    (h : ∀ name args, instr ≠ .constraint name args) : f.creates? c = none := by
  unfold creates?
  split
  · next name args hconstraint =>
    rw [hcur, Option.some_inj] at hconstraint
    exact absurd hconstraint (h name args)
  · rfl

/-- The new constraint has the next serial number, and it is the only one that is drawn. -/
theorem serial_of_creates? (h : f.creates? c = some d) :
    d.serial = c.serials.next ∧ f.demand = (0, 1) := by
  unfold creates? at h
  unfold demand
  split at h
  · next name args hcur =>
    rw [hcur]
    cases hargs : Expr.evalAll f.cont.running.env f.subst args with
    | error e =>
      rw [hargs] at h
      cases h
    | ok ts =>
      rw [hargs, Option.some_inj] at h
      simp only [hargs, and_true]
      exact h ▸ rfl
  · cases h

namespace Noted

/-- A query starts with nothing posted, nothing noted and nothing bound. -/
theorem start (next : Nat) (env : Env) (code : List Instr) :
    Noted next (fun _ => False) (.start env code) :=
  ⟨.empty, .empty _, fun _ hd => hd.elim⟩

/-- What is running makes no difference, and more numbers may have been drawn. -/
theorem carry (h : f.Noted next posted) (hsubst : g.subst = f.subst) (hstore : g.store = f.store)
    (hle : next ≤ next') : g.Noted next' posted where
  reachable := hsubst ▸ h.reachable
  linked := hsubst ▸ hstore ▸ h.linked
  drawn d hd := (h.drawn d hd).trans_le hle

/-- What was posted may be told in other words. -/
theorem congr (h : f.Noted next posted) (hposted : ∀ d, posted d ↔ posted' d) :
    f.Noted next posted' := by
  rwa [← funext fun d => propext (hposted d)]

/-- A new constraint is noted, and its pass leaves the notes alone. -/
theorem post (h : f.Noted c.serials.next posted) (hnew : f.creates? c = some d)
    (hunspent : (c.drawn f.demand).serials.next < Counter.largest) :
    ((f.entering d).matched rs d).Noted (c.drawn f.demand).serials.next
      (fun e => e = d ∨ posted e) := by
  obtain ⟨hserial, hdemand⟩ := serial_of_creates? hnew
  have hnext := Counters.serials_drawn hunspent
  rw [hdemand] at hnext ⊢
  have hentered : (f.store.enter f.subst d).Linked (fun e => e = d ∨ posted e) f.subst :=
    h.linked.enter fun e he => hserial ▸ (h.drawn e he).ne
  have hpassed := Store.passed_matchRules rs f.subst hentered.indexed (hentered.owns (.inl rfl))
  refine ⟨h.reachable, hentered.passed hpassed, ?_⟩
  rintro e (rfl | he)
  · omega
  · have hlt := h.drawn e he
    omega

/-- Under a bound variable nothing is noted: following a binding never ends at it. -/
theorem backlinks_of_bound (h : f.Noted next posted) (hv : f.subst.isBound v = true) :
    f.store.backlinks v = [] := by
  obtain ⟨t, ht⟩ := Option.isSome_iff_exists.mp hv
  refine List.eq_nil_iff_forall_not_mem.mpr fun d hd => ?_
  obtain ⟨-, a, -, hva⟩ := (h.linked.mem_backlinks_iff v d).mp hd
  have hnone := (h.reachable.acyclic.mem_unboundVars_iff.mp hva).1
  rw [ht] at hnone
  cases hnone

/-- Under an unbound variable those posted constraints are noted that lead to it, live or not. -/
theorem mem_backlinks_of_unbound (h : f.Noted next posted) (hv : f.subst.isBound v = false) :
    d ∈ f.store.backlinks v ↔ posted d ∧ d.LeadsTo f.subst v := by
  have hnone : f.subst.get? v = none :=
    Option.isNone_iff_eq_none.mp (Option.isSome_eq_false_iff.mp hv)
  rw [h.linked.mem_backlinks_iff, h.reachable.acyclic.leadsTo_iff hnone]

section Unify

variable {t t' : Term} (hu : f.subst.unify? t t' = some u)

include hu

/-- The notes are handed over to the variables of the new bindings. -/
theorem bound (h : f.Noted next posted) : (f.bound u).Noted next posted := by
  have hs := h.reachable.acyclic
  have hs' := h.reachable.of_unify? hu
  have hbound := Subst.boundBy_of_unify? hs h.reachable.weighed hu
  exact ⟨hs', h.linked.handOverAll hs hs'.acyclic hbound, h.drawn⟩

/-- The constraints that a unification affects are those that lead to a variable it binds. -/
theorem mem_affected (h : f.Noted next posted) :
    d ∈ (f.store.handOverAll u.subst u.bindings).2 ↔
      posted d ∧ ∃ b ∈ u.bindings, d.LeadsTo f.subst b.1 := by
  have hs := h.reachable.acyclic
  have hbound := Subst.boundBy_of_unify? hs h.reachable.weighed hu
  rw [h.linked.mem_affected_iff hs (h.reachable.of_unify? hu).acyclic hbound]
  refine and_congr_right fun _ => ⟨?_, ?_⟩
  · rintro ⟨a, ha, htouched⟩
    obtain ⟨v, hv, hvalue⟩ : ∃ v ∈ f.subst.unboundVars a, ¬ u.subst.get? v = none := by
      simpa only [Subst.Untouched, not_forall, exists_prop] using htouched
    obtain ⟨value, hvalue⟩ := Option.ne_none_iff_exists'.mp hvalue
    have hunbound := (hs.mem_unboundVars_iff.mp hv).1
    exact ⟨_, hbound.mem_bindings hs hv hvalue, (hs.leadsTo_iff hunbound).mpr ⟨a, ha, hv⟩⟩
  · rintro ⟨b, hb, hleads⟩
    obtain ⟨a, ha, hba⟩ := (hs.leadsTo_iff (hbound.unbound b.1 b.2 hb)).mp hleads
    refine ⟨a, ha, fun huntouched => ?_⟩
    have hnone := huntouched b.1 hba
    rw [hbound.bound b hb] at hnone
    cases hnone

/-- The affected constraints were posted, so no live one shares a number with any of them. -/
theorem owns_affected (h : f.Noted next posted) :
    ∀ d ∈ (f.store.handOverAll u.subst u.bindings).2, (f.bound u).store.Owns d :=
  fun _ hd => (h.bound hu).linked.owns ((h.mem_affected hu).mp hd).1

/-- The passes of the affected constraints leave the notes as exact as they were. -/
theorem rematched (h : f.Noted next posted)
    (hpasses : Rematches rs (f.bound u) (f.store.handOverAll u.subst u.bindings).2 rerun g) :
    g.Noted next posted := by
  have hbound := h.bound hu
  obtain ⟨hsubst, hpassed⟩ := hpasses.passed hbound.linked.indexed (h.owns_affected hu)
  exact ⟨hsubst ▸ hbound.reachable, hsubst ▸ hbound.linked.passed hpassed, hbound.drawn⟩

end Unify

/-- Every instruction keeps the notes exact. -/
theorem performs (h : f.Noted c.serials.next posted)
    (hcur : f.cont.running.current? = some instr) (hperforms : m.Performs f c instr o)
    (hunspent : (c.drawn f.demand).serials.next < Counter.largest) (hg : g ∈ o.children) :
    g.Noted (c.drawn f.demand).serials.next (fun d => f.creates? c = some d ∨ posted d) := by
  have hle : c.serials.next ≤ (c.drawn f.demand).serials.next :=
    (Counters.serials_drawn hunspent).ge.trans' (Nat.le_add_right _ _)
  -- all instructions but one create nothing
  have hold : (∀ name args, instr ≠ .constraint name args) → g.Noted c.serials.next posted →
      g.Noted (c.drawn f.demand).serials.next (fun d => f.creates? c = some d ∨ posted d) := by
    intro hinstr hnoted
    refine (hnoted.carry rfl rfl hle).congr fun d => ?_
    rw [creates?_eq_none hcur hinstr]
    simp
  cases hperforms with
  | invoke | goto | fresh | leave =>
    obtain rfl := List.mem_singleton.mp hg
    exact hold (by simp) (h.carry rfl rfl le_rfl)
  | choice =>
    simp only [Outcome.children, List.mem_cons, List.not_mem_nil, or_false] at hg
    rcases hg with rfl | rfl <;> exact hold (by simp) (h.carry rfl rfl le_rfl)
  | constraint hnew _ =>
    obtain rfl := List.mem_singleton.mp hg
    refine (h.post hnew hunspent).congr fun d => or_congr_left ?_
    rw [hnew, Option.some_inj, eq_comm]
  | unify _ _ hu hpasses =>
    obtain rfl := List.mem_singleton.mp hg
    exact hold (by simp) (h.rematched hu hpasses)
  | clash | answer | fail | fault => cases hg

end Noted

/-- Where a branch stands among the choice points makes no difference to its passes. -/
theorem Rematches.moved (h : Rematches rs f cs rerun g) (alt : Option Nat) :
    Rematches rs { f with alt } cs rerun { g with alt } := by
  induction h with
  | done f => exact .done _
  | live halive hfault _ ih => exact .live halive hfault ih
  | deleted hdead _ ih => exact .deleted hdead ih

end Frame

/-! ### What was created on a branch -/

/-- `m.Lineage q n f created`: after `n` steps of the run for `q`, `f` is one of the branches to
run, and `created` are the constraints that were created on it on the way from the query, the last
one first. -/
inductive Machine.Lineage (m : Machine) (q : Query) : Nat → Frame → List Constraint → Prop
  /-- The query has created nothing yet. -/
  | start : Lineage m q 0 (.start q.env q.code) []
  /-- The branch comes from the one that was running. -/
  | ran {n : Nat} {f g : Frame} {created : List Constraint} (h : Lineage m q n f.detached created)
      (hf : (m.after n (.start q)).frame = some f)
      (hg : g ∈ (m.advance f.detached (m.after n (.start q)).counters).1.children) :
      Lineage m q (n + 1) g ((f.creates? (m.after n (.start q)).counters).toList ++ created)
  /-- The branch was saved while another one was running. -/
  | waited {n : Nat} {f : Frame} {created : List Constraint}
      (h : Lineage m q n f.detached created) (hf : f ∈ (m.after n (.start q)).shared.choices.held) :
      Lineage m q (n + 1) f.detached created

/-- A unification is no reason to let other branches have their turn first, unless it fails. -/
theorem Branch.unify_ne_delay (m : Machine) (b : Branch) (x y : Expr) :
    (b.unify m x y).1 ≠ .delay := by
  have hpasses : ∀ r : Option ProgramError × Branch, (unlessFault r).1 ≠ .delay := by
    rintro ⟨_ | e, b⟩ <;> simp [unlessFault]
  unfold unify
  split
  · simp
  · split
    · simp
    · split
      · simp
      · exact hpasses _

namespace Machine

variable {q : Query} {n : Nat} {st : Search} {created : List Constraint}

/-- Serial numbers that are not at their end after a step were not before it. -/
theorem serials_step (m : Machine) (h : (m.step st).search.counters.serials.next < Counter.largest) :
    st.counters.serials.next < Counter.largest ∧
      st.counters.serials.next ≤ (m.step st).search.counters.serials.next := by
  obtain ⟨d, hd⟩ := m.exists_drawn_step st
  rw [hd] at h ⊢
  have hnext := Counters.serials_drawn h
  omega

/-- The notes of a branch are exact for what was created on it. -/
theorem Lineage.noted (h : m.Lineage q n f created)
    (hunspent : (m.after n (.start q)).counters.serials.next < Counter.largest) :
    f.Noted (m.after n (.start q)).counters.serials.next (· ∈ created) := by
  induction h with
  | start => exact (Frame.Noted.start _ q.env q.code).congr (by simp)
  | @ran n f g created _ hf hg ih =>
    obtain ⟨instr, hcur, hperforms⟩ := exists_performs_of_mem hg
    have hbefore := ih (m.serials_step hunspent).1
    have hcounters : (m.after (n + 1) (.start q)).counters = _ := (m.step_result hf).2
    rw [hcounters] at hunspent ⊢
    refine (hbefore.performs hcur hperforms hunspent hg).congr fun d => ?_
    rw [List.mem_append, Option.mem_toList]
    rfl
  | waited _ _ ih =>
    obtain ⟨hlt, hle⟩ := m.serials_step hunspent
    exact (ih hlt).carry rfl rfl hle

/-- Every branch of a run without a fault has come from the query. -/
theorem exists_lineage (herror : ∀ k < n, ∀ e, (m.step (m.after k (.start q))).result ≠ .error e)
    (hg : g ∈ (m.after n (.start q)).pool) : ∃ created, m.Lineage q n g created := by
  induction n generalizing g with
  | zero =>
    rw [after, Search.pool_start, List.mem_singleton] at hg
    exact ⟨[], hg ▸ .start⟩
  | succ n ih =>
    have hbefore : ∀ k < n, ∀ e, (m.step (m.after k (.start q))).result ≠ .error e :=
      fun k hk => herror k (hk.trans (Nat.lt_succ_self n))
    rcases mem_pool_after_succ herror hg with ⟨f, hf, hg⟩ | ⟨f, hf, rfl⟩
    · obtain ⟨created, h⟩ := ih hbefore (Search.detached_mem_pool_of_frame hf)
      exact ⟨_, h.ran hf hg⟩
    · obtain ⟨created, h⟩ := ih hbefore (Search.detached_mem_pool_of_held hf)
      exact ⟨_, h.waited hf⟩

/-- A branch that goes on after a unification goes on at once. -/
theorem frame_step_unify {x y : Expr} (hf : st.frame = some f)
    (hcur : f.cont.running.current? = some (.unify x y))
    (hgo : (m.advance f.detached st.counters).1 = .go g) :
    (m.step st).search.frame = some { g with alt := f.alt } := by
  rcases Branch.run_cases m ⟨f, st.shared, []⟩ with ⟨cont, pc, _, hfork, -, -⟩ |
    ⟨request, b, -, hrun, halt, -, hadvance⟩
  · simp only [Branch.fork?, hcur] at hfork
    cases hfork
  · have hrequest : request ≠ .delay := by
      have hunify := Branch.unify_ne_delay m (Branch.fetched ⟨f, st.shared, []⟩ (.unify x y)) x y
      simp only [Branch.run, hcur, Branch.execute] at hrun
      exact fun hdelay => hunify ((congrArg Prod.fst hrun).trans hdelay)
    rw [show st.counters = Shared.counters st.shared from rfl, hadvance] at hgo
    cases request with
    | proceed =>
      obtain rfl : b.frame.detached = g := by
        injection hgo
      simp only [step, hf, move, hrun]
      rw [← halt]
      rfl
    | delay => exact absurd rfl hrequest
    | fail | failAndDelay | answer | abort => cases hgo

/-- In the running frame and in every saved one, between any two steps of a run without a fault: a
bound variable has no backlinks, and an unbound one has, by age, exactly those constraints that were
created on the branch and whose arguments mention it once bindings are followed. So a unification
that succeeds runs matching again, oldest first, for the constraints that were created on the branch
and mentioned some variable that it binds, as far as they are live when their turn comes. The serial
numbers have not come to their end. -/
theorem backlinks_exact (herror : ∀ k < n, ∀ e, (m.step (m.after k (.start q))).result ≠ .error e)
    (hunspent : (m.after n (.start q)).shared.serials.next < Counter.largest) {f : Frame}
    (hf : (m.after n (.start q)).frame = some f ∨
      ∃ i, (m.after n (.start q)).shared.choices.savedIn i = some f) :
    (∃ created, m.Lineage q n f.detached created) ∧
    ∀ created, m.Lineage q n f.detached created →
      (∀ v, f.subst.isBound v = true → f.store.backlinks v = []) ∧
      (∀ v, f.subst.isBound v = false →
        (f.store.backlinks v).Pairwise (fun c d => c.serial < d.serial) ∧
        ∀ c, c ∈ f.store.backlinks v ↔ c ∈ created ∧ c.LeadsTo f.subst v) ∧
      ∀ x y t t' u, (m.after n (.start q)).frame = some f →
        f.cont.running.current? = some (.unify x y) →
        x.eval f.cont.running.env f.subst = .ok t → y.eval f.cont.running.env f.subst = .ok t' →
        f.subst.unify? t t' = some u → (∀ e, (m.step (m.after n (.start q))).result ≠ .error e) →
        ∃ affected rerun g,
          affected.Pairwise (fun c d => c.serial < d.serial) ∧
          (∀ c, c ∈ affected ↔ c ∈ created ∧ ∃ b ∈ u.bindings, c.LeadsTo f.subst b.1) ∧
          Frame.Rematches m.rules (f.bound u) affected rerun g ∧
          (m.step (m.after n (.start q))).search.frame = some g := by
  have hmem : f.detached ∈ (m.after n (.start q)).pool := by
    rcases hf with hf | ⟨i, hf⟩
    · exact Search.detached_mem_pool_of_frame hf
    · exact Search.detached_mem_pool_of_saved hf
  refine ⟨exists_lineage herror hmem, fun created hlineage => ?_⟩
  have hnoted := hlineage.noted hunspent
  refine ⟨fun v hv => hnoted.backlinks_of_bound hv,
    fun v hv => ⟨(hnoted.linked.indexed.mentions v).pairwise_values,
      fun c => hnoted.mem_backlinks_of_unbound hv⟩, ?_⟩
  intro x y t t' u hrunning hcur hx hy hu hstep
  -- the step at hand is a unification, which fails, faults or binds; here it binds
  rcases m.step_fault_cases hrunning with ⟨e, he⟩ | hnofault
  · exact absurd he (hstep e)
  have hperforms := m.performs_advance (f := f.detached) (c := (m.after n (.start q)).counters) hcur
  generalize hgo : (m.advance f.detached (m.after n (.start q)).counters).1 = o at hperforms hnofault
  cases hperforms with
  | fault => exact absurd rfl (hnofault _)
  | clash hx' hy' hu' =>
    obtain rfl := Except.ok.inj (hx.symm.trans hx')
    obtain rfl := Except.ok.inj (hy.symm.trans hy')
    cases hu.symm.trans hu'
  | @unify _ _ _ _ _ rerun g hx' hy' hu' hpasses =>
    obtain rfl := Except.ok.inj (hx.symm.trans hx')
    obtain rfl := Except.ok.inj (hy.symm.trans hy')
    obtain rfl := Option.some.inj (hu.symm.trans hu')
    exact ⟨_, rerun, _, hnoted.linked.pairwise_affected u.subst u.bindings,
      fun c => hnoted.mem_affected hu, hpasses.moved f.alt, frame_step_unify hrunning hcur hgo⟩

/-- `leq(A, B)` and `leq(C, D)` were posted, and `B` and `C` are about to become one variable: only
the first constraint mentions `B`, and it is matched again when `B` is bound. -/
theorem backlinks_exact_leq :
    let m : Machine := { rules := Samples.leq }
    let q : Query := .ofCode 4 [.constraint "leq" [.register 0, .register 1],
      .constraint "leq" [.register 2, .register 3], .unify (.register 1) (.register 2), .success]
    ∃ f created, (m.after 2 (.start q)).frame = some f ∧ m.Lineage q 2 f.detached created ∧
      (f.store.backlinks 2).map (·.serial) = [1] ∧
      (∀ c, c ∈ f.store.backlinks 2 ↔ c ∈ created ∧ c.LeadsTo f.subst 2) ∧
      ∃ u affected rerun g, f.subst.unify? (.var 2) (.var 3) = some u ∧
        (∀ c, c ∈ affected ↔ c ∈ created ∧ ∃ b ∈ u.bindings, c.LeadsTo f.subst b.1) ∧
        Frame.Rematches m.rules (f.bound u) affected rerun g ∧
        (m.step (m.after 2 (.start q))).search.frame = some g := by
  intro m q
  have hok : ∀ k < 3, (m.step (m.after k (.start q))).result.isOk = true := by decide +kernel
  have herror := no_error_of_isOk hok
  obtain ⟨f, hf⟩ := Option.isSome_iff_exists.mp
    (show (m.after 2 (.start q)).frame.isSome = true by decide +kernel)
  have hbacklinks : (m.after 2 (.start q)).frame.map
      (fun f => (f.store.backlinks 2).map (·.serial)) = some [1] := by decide +kernel
  have hunbound : (m.after 2 (.start q)).frame.map (·.subst.isBound 2) = some false := by
    decide +kernel
  have hequation : (m.after 2 (.start q)).frame.map (fun f =>
      (f.cont.running.current?.bind Instr.sides?).isSome) = some true := by decide +kernel
  have hsides : (m.after 2 (.start q)).frame.map (fun f =>
      (f.cont.running.current?.bind Instr.sides?).map fun sides =>
        ((sides.1.eval f.cont.running.env f.subst).toOption,
          (sides.2.eval f.cont.running.env f.subst).toOption)) =
      some (some (some (.var 2), some (.var 3))) := by decide +kernel
  have hunify : (m.after 2 (.start q)).frame.map
      (fun f => (f.subst.unify? (.var 2) (.var 3)).isSome) = some true := by decide +kernel
  simp only [hf, Option.map_some, Option.some_inj] at hbacklinks hunbound hequation hsides hunify
  obtain ⟨u, hu⟩ := Option.isSome_iff_exists.mp hunify
  obtain ⟨⟨x, y⟩, hxy⟩ := Option.isSome_iff_exists.mp hequation
  obtain ⟨instr, hcur, hinstr⟩ := Option.bind_eq_some_iff.mp hxy
  obtain rfl := Instr.sides?_eq_some_iff.mp hinstr
  simp only [hxy, Option.map_some, Option.some_inj, Prod.mk.injEq] at hsides
  have hok' : ∀ {r : Except ProgramError Term} {t : Term}, r.toOption = some t → r = .ok t := by
    rintro (e | t') t h <;> cases h
    rfl
  obtain ⟨⟨created, hlineage⟩, hexact⟩ := backlinks_exact
    (fun k hk => herror k (hk.trans (Nat.lt_succ_self 2))) (by decide +kernel) (.inl hf)
  obtain ⟨-, hunbound', hrematch⟩ := hexact created hlineage
  obtain ⟨affected, rerun, g, -, haffected, hpasses, hg⟩ := hrematch _ _ _ _ u hf hcur
    (hok' hsides.1) (hok' hsides.2) hu (herror 2 (Nat.lt_succ_self 2))
  exact ⟨f, created, hf, hlineage, hbacklinks, (hunbound' 2 hunbound).2, u, affected, rerun, g, hu,
    haffected, hpasses, hg⟩

end Machine

end LogicMachine
