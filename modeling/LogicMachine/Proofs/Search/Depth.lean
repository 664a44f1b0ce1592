import LogicMachine.Proofs.Search.Performing
import LogicMachine.Proofs.Search.Reached

/-!
# How deep calls nest

With a depth limit, a predicate call that would go beyond it ends the search. Nothing stops the body
of a rule that fires, however deep it is called: what the limit bounds is how many callers a
predicate has, and above the innermost predicate there may be any number of rule bodies.
-/

namespace LogicMachine

/-- Is it the body of a rule that runs? -/
def Origin.isRule : Origin → Bool
  | .rule _ => true
  | .query | .predicate _ => false

/-- The same program and rules with a limit for the depth of calls. -/
def Machine.limited (m : Machine) (limit : Nat) : Machine := { m with maxDepth := some limit }

/-- Of activations, innermost first, those that are not of rule bodies have at most `limit`
callers. -/
def Origin.Within (limit : Nat) : List Origin → Prop
  | [] => True
  | o :: callers => (o.isRule = false → callers.length ≤ limit) ∧ Within limit callers

/-- Apart from the rule bodies called last, no more is nested than the limit allows. -/
theorem Origin.Within.length_le {limit : Nat} {os : List Origin} (h : Origin.Within limit os) :
    os.length ≤ (os.takeWhile Origin.isRule).length + limit + 1 := by
  induction os with
  | nil => simp
  | cons o callers ih =>
    obtain ⟨ho, hcallers⟩ := h
    cases hrule : o.isRule with
    | true =>
      have hlength := ih hcallers
      rw [List.takeWhile_cons_of_pos hrule, List.length_cons, List.length_cons]
      omega
    | false =>
      have hlength := ho hrule
      rw [List.length_cons]
      omega

/-- The bound holds for the callers of every predicate body in the list. -/
theorem Origin.Within.callers_le {limit : Nat} {os callers : List Origin} {o : Origin}
    (h : Origin.Within limit os) (hsuffix : o :: callers <:+ os) (ho : o.isRule = false) :
    callers.length ≤ limit := by
  induction os with
  | nil => cases List.suffix_nil.mp hsuffix
  | cons o' os ih =>
    rcases List.suffix_cons_iff.mp hsuffix with heq | hsuffix
    · obtain ⟨rfl, rfl⟩ := List.cons.inj heq
      exact h.1 ho
    · exact ih h.2 hsuffix

namespace Continuation

variable {k k' : Continuation} {limit : Nat}

/-- What runs and what has called it, innermost first. -/
def origins (k : Continuation) : List Origin := (k.running :: k.callers).map (·.origin)

/-- To go on elsewhere in the code calls nothing. -/
@[simp] theorem origins_resumeAt (pc : Nat) : (k.resumeAt pc).origins = k.origins := rfl

/-- To have more registers calls nothing. -/
@[simp] theorem origins_prepend (ts : List Term) : (k.prepend ts).origins = k.origins := rfl

/-- What is called comes in front of what runs. -/
@[simp] theorem origins_call (origin : Origin) (env : Env) (block : Block) :
    (k.call origin env block).origins = origin :: k.origins := rfl

/-- A return takes what has run away from the front. -/
theorem origins_of_return? (h : k.return? = some k') :
    k.origins = k.running.origin :: k'.origins := by
  rw [origins, callers_of_return? h]
  rfl

/-- The depth of a continuation is the number of callers. -/
theorem length_origins (k : Continuation) : k.origins.length = k.depth + 1 := by
  rw [origins, List.length_map, List.length_cons, k.depth_eq]

/-- The bodies of rules are called at any depth. -/
theorem within_schedule (h : Origin.Within limit k.origins) (firings : List Firing) :
    Origin.Within limit (firings.foldl schedule k).origins := by
  induction firings generalizing k with
  | nil => exact h
  | cons firing firings ih => exact ih ⟨nofun, h⟩

end Continuation

namespace Frame

variable {rs : RuleSet} {f g : Frame} {cs rerun : List Constraint} {limit : Nat}

/-- To fetch an instruction calls nothing. -/
theorem origins_onward (f : Frame) : f.onward.origins = f.cont.origins := rfl

/-- To fetch an instruction leaves the depth as it is. -/
theorem depth_onward (f : Frame) : f.onward.depth = f.cont.depth := rfl

/-- The pass of a constraint calls bodies of rules only, which the limit is not about. -/
theorem within_matched (h : Origin.Within limit f.cont.origins) (c : Constraint) :
    Origin.Within limit (f.matched rs c).cont.origins :=
  Continuation.within_schedule h _

/-- So do the passes of several constraints. -/
theorem Rematches.within (hpasses : Rematches rs f cs rerun g)
    (h : Origin.Within limit f.cont.origins) : Origin.Within limit g.cont.origins := by
  induction hpasses with
  | done f => exact h
  | live _ _ _ ih => exact ih (within_matched h _)
  | deleted _ _ ih => exact ih h

end Frame

namespace Machine

variable {m : Machine} {f : Frame} {c : Counters} {instr : Instr} {o : Outcome} {limit : Nat}

/-- A depth beyond the limit is reported together with the limit. -/
theorem exceeded?_limited (m : Machine) (limit depth : Nat) :
    (m.limited limit).exceeded? depth = if limit < depth then some limit else none := by
  simp [exceeded?, limited, Option.filter_some]

/-- A call of a known predicate goes through, unless it is too deep. -/
theorem advance_invoke {name : String} {args : List Expr} {ts : List Term} {block : Block}
    (hcur : f.cont.running.current? = some (.invoke name args))
    (hargs : Expr.evalAll f.cont.running.env f.subst args = .ok ts)
    (hblock : m.program.get? ⟨name, ts.length⟩ = some block) :
    (m.advance f c).1 = match m.exceeded? (f.cont.depth + 1) with
      | some limit => .fault (.depthExceeded limit ⟨name, ts.length⟩)
      | none => .go { f with cont := f.onward.call (.predicate ⟨name, ts.length⟩) ts block } := by
  rw [advance_execute hcur (by simp)]
  let b := Branch.fetched ⟨f, ⟨.empty, c.vars, c.serials⟩, []⟩ (.invoke name args)
  have hframe : b.frame = { f with cont := f.onward } := rfl
  have henv : b.env = f.cont.running.env := rfl
  change (b.invoke m name args).1.outcome (b.invoke m name args).2.frame = _
  simp only [Branch.invoke, hframe, henv, hargs, Module.lookup_eq_ok_iff.mpr hblock,
    f.depth_onward]
  cases m.exceeded? (f.cont.depth + 1) with
  | some limit => rfl
  | none =>
    simp only
    split <;> rfl

/-- Whatever an instruction does, only a call of a predicate could break the limit, and that one is
checked. -/
theorem Performs.within (hperforms : m.Performs f c instr o)
    (hcall : ∀ name args, instr = .invoke name args → f.cont.depth < limit)
    (h : Origin.Within limit f.cont.origins) :
    ∀ g ∈ o.children, Origin.Within limit g.cont.origins := by
  cases hperforms with
  | invoke =>
    have hdepth := hcall _ _ rfl
    refine List.forall_mem_singleton.mpr ⟨fun _ => ?_, h⟩
    change f.onward.origins.length ≤ limit
    rw [Continuation.length_origins, f.depth_onward]
    exact hdepth
  | constraint => exact List.forall_mem_singleton.mpr (Frame.within_matched (f := f.entering _) h _)
  | goto | fresh => exact List.forall_mem_singleton.mpr h
  | choice => exact List.forall_mem_cons.mpr ⟨h, List.forall_mem_singleton.mpr h⟩
  | unify _ _ _ hpasses =>
    exact List.forall_mem_singleton.mpr (hpasses.within (f := f.bound _) h)
  | leave hk =>
    rw [← f.origins_onward, Continuation.origins_of_return? hk] at h
    exact List.forall_mem_singleton.mpr h.2
  | clash | answer | fail | fault => exact nofun

/-- A branch that keeps to the limit makes way for branches that keep to it. -/
theorem within_advance (h : Origin.Within limit f.cont.origins) :
    ∀ g ∈ ((m.limited limit).advance f c).1.children, Origin.Within limit g.cont.origins := by
  intro g hg
  obtain ⟨instr, hcur, hperforms⟩ := exists_performs_of_mem hg
  generalize hout : ((m.limited limit).advance f c).1 = o at hg hperforms
  refine hperforms.within ?_ h g hg
  rintro name args rfl
  cases hperforms with
  | invoke hargs hblock =>
    rw [advance_invoke hcur hargs hblock, exceeded?_limited] at hout
    by_contra hdepth
    rw [if_pos (by omega)] at hout
    cases hout
  | fault => cases hg

/-- Every branch of a run keeps to the limit, also after a fault. -/
theorem within_after (m : Machine) (limit : Nat) (q : Query) (n : Nat) :
    ∀ g ∈ ((m.limited limit).after n (.start q)).pool, Origin.Within limit g.cont.origins :=
  forall_pool ⟨fun _ => Nat.zero_le _, trivial⟩ (fun _ _ => within_advance) n

/-- With a depth limit, for every program, rule set, query and strategy, after any number of steps:
in the running frame and in every saved one, what runs or has called and is no rule body has no more
callers than the limit allows, so that the depth exceeds the limit by at most the number of rule
bodies called last; and a call of a known predicate ends the search exactly if it would nest deeper
than the limit. -/
theorem depth_after (m : Machine) (limit : Nat) (q : Query) (n : Nat) :
    (∀ f, (((m.limited limit).after n (.start q)).frame = some f ∨
        ∃ i, ((m.limited limit).after n (.start q)).shared.choices.savedIn i = some f) →
      (∀ o callers, o :: callers <:+ f.cont.origins → o.isRule = false →
        callers.length ≤ limit) ∧
      f.cont.depth ≤ limit + (f.cont.origins.takeWhile Origin.isRule).length) ∧
    ∀ f name args ts block, ((m.limited limit).after n (.start q)).frame = some f →
      f.cont.running.current? = some (.invoke name args) →
      Expr.evalAll f.cont.running.env f.subst args = .ok ts →
      m.program.get? ⟨name, ts.length⟩ = some block →
      (((m.limited limit).step ((m.limited limit).after n (.start q))).result =
          .error (.depthExceeded limit ⟨name, ts.length⟩) ↔ limit < f.cont.depth + 1) := by
  refine ⟨fun f hf => ?_, fun f name args ts block hf hcur hargs hblock => ?_⟩
  · have hmem : f.detached ∈ ((m.limited limit).after n (.start q)).pool := by
      rcases hf with hf | ⟨i, hf⟩
      · exact Search.detached_mem_pool_of_frame hf
      · exact Search.detached_mem_pool_of_saved hf
    have hwithin : Origin.Within limit f.cont.origins := m.within_after limit q n f.detached hmem
    refine ⟨fun o callers hsuffix => hwithin.callers_le hsuffix, ?_⟩
    have hlength := hwithin.length_le
    rw [Continuation.length_origins] at hlength
    omega
  · rw [(step_result _ hf).1, advance_invoke (m := m.limited limit) (f := f.detached) hcur hargs
      hblock, exceeded?_limited]
    by_cases hdeep : limit < f.detached.cont.depth + 1
    · rw [if_pos hdeep]
      exact iff_of_true rfl hdeep
    · rw [if_neg hdeep]
      exact iff_of_false nofun hdeep

/-- `a <=> a.` -/
def again : RuleSet where
  rules := [{
    head := [⟨"a", 0⟩]
    guards := []
    body := [.constraint "a" [], .success]
    deletes := [0] }]
  head_ne_nil := by simp
  deletes_lt := by simp

/-- The limit does not stop a rule whose body posts again what the rule has deleted. -/
theorem depth_exceeds_limit :
    let m : Machine := { rules := again, maxDepth := some 3 }
    let q : Query := .ofCode 0 [.constraint "a" [], .success]
    (∀ k < 10, (m.step (m.after k (.start q))).result.isOk = true) ∧
      ∃ f, (m.after 10 (.start q)).frame = some f ∧ 3 < f.cont.depth := by
  intro m q
  have hdepth : (m.after 10 (.start q)).frame.map (·.cont.depth) = some 10 := by decide +kernel
  obtain ⟨f, hf, hten⟩ := Option.map_eq_some_iff.mp hdepth
  exact ⟨by decide +kernel, f, hf, by omega⟩

end Machine

end LogicMachine
