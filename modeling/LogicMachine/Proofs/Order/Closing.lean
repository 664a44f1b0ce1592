import LogicMachine.Proofs.Order.Rules

/-!
# What is known about an order

A live constraint states that one variable is at most another, and so does a task that is still to be
done. Nothing that is stated is ever lost: what a rule gives up is stated by a task that it leaves,
or by another constraint, or the two variables have become one. And nothing is stated that does not
follow from what was given.
-/

namespace LogicMachine.Leq

open Relation

variable {E : Var → Var → Prop} {s s' : Subst} {st st' : Store} {tasks tasks' own : List Task}
  {x x' y y' : Var} {c : Constraint} {next : Nat} {p q : Pass} {f : Firing} {k : Continuation}

/-- What a task states. To make two variables one is to state that each is at most the other. -/
inductive Task.Says : Task → Var → Var → Prop
  | post (x y : Var) : Says (.post x y) x y
  | merge (x y : Var) : Says (.merge x y) x y
  | merged (x y : Var) : Says (.merge x y) y x

/-- A live constraint or a task states that `x` is at most `y`. -/
inductive Stated (st : Store) (tasks : List Task) (x y : Var) : Prop
  | live {c : Constraint} (hlive : c ∈ st.constraints) (hc : c.IsLeq x y)
  | task {t : Task} (ht : t ∈ tasks) (h : t.Says x y)

namespace Stated

/-- More constraints and more tasks state no less. -/
theorem mono (h : Stated st tasks x y) (hst : ∀ c ∈ st.constraints, c ∈ st'.constraints)
    (htasks : tasks ⊆ tasks') : Stated st' tasks' x y := by
  cases h with
  | live hlive hc => exact .live (hst _ hlive) hc
  | task ht hstates => exact .task (htasks ht) hstates

/-- What is stated is stated by one of the new tasks or was stated without them. -/
theorem of_append (h : Stated st (own ++ tasks) x y) :
    (∃ t ∈ own, t.Says x y) ∨ Stated st tasks x y := by
  cases h with
  | live hlive hc => exact .inr (.live hlive hc)
  | task ht hstates =>
    rcases List.mem_append.mp ht with ht | ht
    · exact .inl ⟨_, ht, hstates⟩
    · exact .inr (.task ht hstates)

/-- The same for one new task. -/
theorem of_cons {t : Task} (h : Stated st (t :: tasks) x y) :
    t.Says x y ∨ Stated st tasks x y := by
  have happend : Stated st ([t] ++ tasks) x y := h
  simpa using happend.of_append

end Stated

/-- That `x` is at most `y` is stated of variables that stand for the same, or the two do. -/
def Known (s : Subst) (st : Store) (tasks : List Task) (x y : Var) : Prop :=
  s.SameClass x y ∨ ∃ x' y', Stated st tasks x' y' ∧ s.SameClass x' x ∧ s.SameClass y' y

namespace Known

/-- What is stated is known. -/
theorem of_stated (h : Stated st tasks x y) : Known s st tasks x y := .inr ⟨x, y, h, rfl, rfl⟩

/-- What is known of variables is known of all that stand for the same. -/
theorem congr (h : Known s st tasks x y) (hx : s.SameClass x x') (hy : s.SameClass y y') :
    Known s st tasks x' y' := by
  rcases h with hxy | ⟨a, b, hstated, ha, hb⟩
  · exact .inl (hx.symm.trans (hxy.trans hy))
  · exact .inr ⟨a, b, hstated, ha.trans hx, hb.trans hy⟩

/-- It is enough that what has been stated goes on being known. -/
theorem mono (h : Known s st tasks x y) (hclass : ∀ {v w}, s.SameClass v w → s'.SameClass v w)
    (hst : ∀ {x y}, Stated st tasks x y → Known s' st' tasks' x y) : Known s' st' tasks' x y := by
  rcases h with hxy | ⟨a, b, hstated, ha, hb⟩
  · exact .inl (hclass hxy)
  · exact (hst hstated).congr (hclass ha) (hclass hb)

end Known

/-- `E` is what was given. All of it is known, nothing is stated that does not follow from it, and
where transitivity has fired, its consequence is known. -/
structure Closing (E : Var → Var → Prop) (s : Subst) (st : Store) (tasks : List Task) : Prop where
  only : st.Only Relates
  sound : ∀ {x y}, Stated st tasks x y → ReflTransGen E x y
  given : ∀ {x y}, E x y → Known s st tasks x y
  transitive : ∀ {c d : Constraint} {x y y' z : Var}, c ∈ st.constraints → d ∈ st.constraints →
    c.IsLeq x y → d.IsLeq y' z → st.hasFired 2 [c.serial, d.serial] = true → Known s st tasks x z

/-! ### Firing -/

section Fire

variable (hfires : Fires s f own)

include hfires

/-- What a rule leaves to its body follows from the constraints that it fired on. -/
theorem Fires.sound (hs : s.Acyclic) (hrenames : s.Renames (ReflTransGen E))
    (hparts : ∀ d ∈ f.participants, ∀ {x y}, d.IsLeq x y → ReflTransGen E x y) {t : Task}
    (ht : t ∈ own) (hstates : t.Says x y) : ReflTransGen E x y := by
  have hclass : ∀ {v w}, s.SameClass v w → ReflTransGen E v w := hrenames.rel_of_sameClass hs
  cases hfires with
  | reflexive | idempotent => cases ht
  | antisymmetric _ hps _ hc hd hy hx =>
    obtain rfl := List.mem_singleton.mp ht
    cases hstates with
    | merge => exact hparts _ (by simp [hps]) hc
    | merged => exact ((hclass hy).trans (hparts _ (by simp [hps]) hd)).trans (hclass hx.symm)
  | transitive _ hps _ hc hd hy =>
    obtain rfl := List.mem_singleton.mp ht
    cases hstates with
    | post => exact ((hparts _ (by simp [hps]) hc).trans (hclass hy)).trans (hparts _ (by simp [hps]) hd)

/-- What a constraint has stated that a rule gives up is known afterwards. -/
theorem Fires.known_of_removed (hp : p.store.Indexed)
    (hlive : ∀ d ∈ f.participants, d ∈ p.store.constraints)
    (hnodup : (f.participants.map (·.serial)).Nodup) (hremoved : c ∈ f.removed)
    (hleq : c.IsLeq x y) : Known s (p.fire f).store (own ++ tasks) x y := by
  cases hfires with
  | reflexive _ _ hrem hc hxy =>
    rw [hrem, List.mem_singleton] at hremoved
    obtain ⟨rfl, rfl⟩ := hleq.unique (hremoved ▸ hc)
    exact .inl hxy
  | @antisymmetric c₁ d _ _ _ _ _ _ hrem hc hd hy hx =>
    rw [hrem] at hremoved
    rcases List.mem_pair.mp hremoved with rfl | rfl
    · obtain ⟨rfl, rfl⟩ := hleq.unique hc
      exact .of_stated (.task List.mem_cons_self (.merge x y))
    · obtain ⟨rfl, rfl⟩ := hleq.unique hd
      exact .inr ⟨_, _, .task List.mem_cons_self (.merged _ _), hy, hx⟩
  | transitive _ _ hrem =>
    rw [hrem] at hremoved
    cases hremoved
  | @idempotent c₁ d _ _ _ _ _ hps hrem hc hd hx hy =>
    rw [hrem, List.mem_singleton] at hremoved
    obtain ⟨rfl, rfl⟩ := hleq.unique (hremoved ▸ hd)
    -- the other constraint stays, because it is a different one
    have hkept : c₁ ∈ (p.fire f).store.constraints := by
      refine (Pass.mem_constraints_fire_of_live hp hlive).mpr ⟨hlive _ (by simp [hps]), ?_⟩
      rw [hrem, List.mem_singleton]
      rintro rfl
      simp [hps] at hnodup
    exact .inr ⟨_, _, .live hkept hc, hx, hy⟩

end Fire

namespace Closing

/-- The variables that are related stay so when a rule fires. -/
theorem fire (h : Closing E s p.store tasks) (hs : s.Acyclic)
    (hrenames : s.Renames (ReflTransGen E)) (hlive : ∀ d ∈ f.participants, d ∈ p.store.constraints)
    (hnodup : (f.participants.map (·.serial)).Nodup) (hfires : Fires s f own) :
    Closing E s (p.fire f).store (own ++ tasks) := by
  have hp := h.only.indexed
  have hmem := fun {d} => Pass.mem_constraints_fire_of_live (c := d) hp hlive
  -- what a constraint stated that is removed follows from those that were kept and the new tasks
  have hknown : ∀ {x y}, Stated p.store tasks x y → Known s (p.fire f).store (own ++ tasks) x y := by
    intro x y hstated
    cases hstated with
    | @live c hc hleq =>
      by_cases hremoved : c ∈ f.removed
      · exact hfires.known_of_removed hp hlive hnodup hremoved hleq
      · exact .of_stated (.live (hmem.mpr ⟨hc, hremoved⟩) hleq)
    | task ht hstates => exact .of_stated (.task (List.mem_append_right own ht) hstates)
  refine ⟨h.only.fire f, ?_, fun hE => (h.given hE).mono id hknown, ?_⟩
  · intro x y hstated
    rcases hstated.of_append with ⟨t, ht, hstates⟩ | hold
    · exact hfires.sound hs hrenames (fun d hd _ _ hleq => h.sound (.live (hlive d hd) hleq)) ht hstates
    · exact h.sound (hold.mono (fun c hc => (hmem.mp hc).1) (List.Subset.refl _))
  · intro c d x y y' z hc hd hcleq hdleq hfired
    obtain ⟨hc, -⟩ := hmem.mp hc
    obtain ⟨hd, -⟩ := hmem.mp hd
    -- transitivity has fired for the two just now, which left its task, or it had fired before
    rcases Pass.hasFired_fire.mp hfired with ⟨hindex, hserials⟩ | hold
    · cases hfires with
      | reflexive hother | antisymmetric hother | idempotent hother => omega
      | @transitive c' d' _ _ _ _ _ hps _ hc' hd' _ =>
        rw [Firing.serials, hps] at hserials
        simp only [List.map_cons, List.map_nil, List.cons.injEq, and_true] at hserials
        obtain rfl := hp.eq_of_serial_eq (hlive c' (by simp [hps])) hc hserials.1
        obtain rfl := hp.eq_of_serial_eq (hlive d' (by simp [hps])) hd hserials.2
        obtain ⟨rfl, -⟩ := hcleq.unique hc'
        obtain ⟨-, rfl⟩ := hdleq.unique hd'
        exact .of_stated (.task List.mem_cons_self (.post _ _))
    · exact (h.transitive hc hd hcleq hdleq hold).mono id hknown

/-- What passes keep: `q` has come from `p`, and its firings are called. -/
theorem steps (hpq : Pass.Steps Samples.leq s c p q) (hs : s.Acyclic)
    (hrenames : s.Renames (ReflTransGen E))
    (h : ∃ tasks, Closing E s p.store tasks ∧ Left (p.firings.foldl Continuation.schedule k) tasks) :
    ∃ tasks, Closing E s q.store tasks ∧ Left (q.firings.foldl Continuation.schedule k) tasks := by
  induction hpq with
  | refl => exact h
  | tail _ hstep ih =>
    obtain ⟨tasks, hclosing, hleft⟩ := ih
    cases hstep with
    | fault => exact ⟨tasks, hclosing, hleft⟩
    | @fire o cs env hadmitted hguards =>
      have hoffered := offered_of_heads
        (RuleSet.mem_occurrences_iff.mp hadmitted.occurrence).1 hadmitted.heads
        fun d hd => hclosing.only.live d (hadmitted.live d hd)
      obtain ⟨own, hfires, hbody⟩ := hoffered.fires hguards
      refine ⟨own ++ tasks,
        hclosing.fire hs hrenames hadmitted.live hadmitted.nodup hfires, ?_⟩
      rw [Pass.firings_fire, List.foldl_append]
      exact hleft.schedule hbody

/-- The first task is done when a constraint is entered for it. -/
theorem enter (h : Closing E s st (.post x y :: tasks)) (hspent : st.Spent Samples.leq next)
    (hnew : next ≤ c.serial) (hc : c.IsLeq x' y') (hx : s.SameClass x' x) (hy : s.SameClass y' y)
    (hsound : ReflTransGen E x' y') : Closing E s (st.enter s c) tasks := by
  have hmem := fun {d} => h.only.indexed.mem_constraints_enter (s := s) (c := c) (d := d)
  have hold : ∀ d ∈ st.constraints, d ∈ (st.enter s c).constraints := fun d hd =>
    hmem.mpr (.inr ⟨hd, ((hspent.live d hd).trans_le hnew).ne⟩)
  have hknown : ∀ {v w}, Stated st (.post x y :: tasks) v w → Known s (st.enter s c) tasks v w := by
    intro v w hstated
    rcases hstated.of_cons with hstates | hrest
    · cases hstates with
      | post => exact .inr ⟨x', y', .live (hmem.mpr (.inl rfl)) hc, hx, hy⟩
    · exact .of_stated (hrest.mono hold (List.Subset.refl _))
  refine ⟨h.only.enter ⟨x', y', hc⟩ s, ?_, fun hE => (h.given hE).mono id hknown, ?_⟩
  · intro v w hstated
    cases hstated with
    | live hd hleq =>
      rcases hmem.mp hd with rfl | ⟨hd, -⟩
      · obtain ⟨rfl, rfl⟩ := hleq.unique hc
        exact hsound
      · exact h.sound (.live hd hleq)
    | task ht hstates => exact h.sound (.task (List.mem_cons_of_mem _ ht) hstates)
  · intro d e v w w' z hd he hdleq heleq hfired
    rw [Store.hasFired_enter] at hfired
    -- what has fired has been live before, so it is not the new constraint
    have hdrawn := hspent.drawn 2 _ hfired
    simp only [List.forall_mem_cons] at hdrawn
    rcases hmem.mp hd with rfl | ⟨hd, -⟩
    · omega
    rcases hmem.mp he with rfl | ⟨he, -⟩
    · omega
    exact (h.transitive hd he hdleq heleq hfired).mono id hknown

/-- The first task is done when its variables have been made one. -/
theorem bound (h : Closing E s st (.merge x y :: tasks)) (hst : Store.SameButNotes st st')
    (honly : st'.Only Relates) (hclass : ∀ {v w}, s.SameClass v w → s'.SameClass v w)
    (hxy : s'.SameClass x y) : Closing E s' st' tasks := by
  have hknown : ∀ {v w}, Stated st (.merge x y :: tasks) v w → Known s' st' tasks v w := by
    intro v w hstated
    rcases hstated.of_cons with hstates | hrest
    · cases hstates with
      | merge => exact .inl hxy
      | merged => exact .inl hxy.symm
    · exact .of_stated (hrest.mono (fun d hd => hst.constraints_eq ▸ hd) (List.Subset.refl _))
  refine ⟨honly, ?_, fun hE => (h.given hE).mono hclass hknown, ?_⟩
  · exact fun hstated => h.sound
      (hstated.mono (fun d hd => hst.constraints_eq ▸ hd) (List.subset_cons_self _ _))
  · intro d e v w w' z hd he hdleq heleq hfired
    rw [hst.constraints_eq] at hd he
    rw [hst.hasFired_eq] at hfired
    exact (h.transitive hd he hdleq heleq hfired).mono hclass hknown

end Closing

end LogicMachine.Leq
