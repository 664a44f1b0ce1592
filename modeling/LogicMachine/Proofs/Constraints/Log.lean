import LogicMachine.Proofs.Constraints.Pass
import LogicMachine.Samples

/-!
# The log of a store

Everything that can happen to a store, in whatever order, written down as a log. The log says which
constraints are live: those that were added, less those that were deleted, less those that a firing
gave up. The store agrees with its log, and a rule fires for live and different constraints of the
right signatures, at most once for each combination.
-/

namespace LogicMachine

/-- What can happen to the live constraints of a store. -/
inductive StoreEvent
  | added (c : Constraint)
  | deleted (c : Constraint)
  | fired (f : Firing)

namespace StoreEvent

/-- Does the event take `c` out of the store? -/
def Removes (c : Constraint) : StoreEvent → Prop
  | .added _ => False
  | .deleted d => c.SameAs d
  | .fired f => c ∈ f.removed

/-- The serial number that an operation was given. -/
def serial? : StoreEvent → Option Nat
  | .added c | .deleted c => some c.serial
  | .fired _ => none

/-- The firing, if the event is one. -/
def firing? : StoreEvent → Option Firing
  | .fired f => some f
  | .added _ | .deleted _ => none

/-- The constraints that are live according to a log: what has been added and never removed. -/
def Live (log : List StoreEvent) (c : Constraint) : Prop :=
  .added c ∈ log ∧ ∀ e ∈ log, ¬ e.Removes c

/-- The firings of a log, the last one first. -/
def firings (log : List StoreEvent) : List Firing := log.filterMap firing?

end StoreEvent

open StoreEvent

/-- What has to hold when a firing takes place: it is of a rule of the set, and its participants are
live, different from each other and of the signatures of the rule's heads. -/
structure Firing.Fits (rs : RuleSet) (live : Constraint → Prop) (f : Firing) : Prop where
  rule : rs.rules[f.occurrence.index]? = some f.occurrence.rule
  heads : f.participants.map (·.sig) = f.occurrence.rule.head
  live : ∀ c ∈ f.participants, live c
  nodup : f.serials.Nodup

/-- The stores that operations make out of the empty one, each with its log, the last event first. A
constraint is added under a serial number that no operation has been given before. A pass is of a
constraint that has been added, under any substitution; what it fires counts even if it ends in a
fault. -/
inductive Store.Log (rs : RuleSet) : List StoreEvent → Store → Prop
  | empty : Log rs [] Store.empty
  | add {log : List StoreEvent} {st : Store} (h : Log rs log st) (c : Constraint)
      (hc : ∀ e ∈ log, e.serial? ≠ some c.serial) : Log rs (.added c :: log) (st.add c)
  | connect {log : List StoreEvent} {st : Store} (h : Log rs log st) (v : Var) (c : Constraint) :
      Log rs log (st.connect v c)
  | takeBacklinks {log : List StoreEvent} {st : Store} (h : Log rs log st) (v : Var) :
      Log rs log (st.takeBacklinks v).2
  | delete {log : List StoreEvent} {st : Store} (h : Log rs log st) (c : Constraint) :
      Log rs (.deleted c :: log) (st.erase c)
  | matching {log : List StoreEvent} {st : Store} (h : Log rs log st) (s : Subst) (c : Constraint)
      (hc : .added c ∈ log) :
      Log rs ((st.matchRules rs s c).firings.reverse.map .fired ++ log)
        (st.matchRules rs s c).store

variable {rs : RuleSet} {log : List StoreEvent} {st : Store} {c d : Constraint} {f : Firing}

/-! ### Logs in which everything is in order -/

namespace StoreEvent

/-- May the event come next? Its serial number is new, or the firing fits and is of a combination
that has not fired the rule. -/
def Allowed (rs : RuleSet) (log : List StoreEvent) : StoreEvent → Prop
  | .added c => ∀ e ∈ log, e.serial? ≠ some c.serial
  | .deleted _ => True
  | .fired f => f.Fits rs (Live log) ∧
      ∀ g ∈ firings log, g.occurrence.index = f.occurrence.index → g.serials ≠ f.serials

/-- Every event of the log was allowed when it came. -/
def InOrder (rs : RuleSet) : List StoreEvent → Prop
  | [] => True
  | e :: log => e.Allowed rs log ∧ InOrder rs log

/-- The firings of a log are those of its events that are firings. -/
theorem mem_firings_iff : f ∈ firings log ↔ .fired f ∈ log := by
  rw [firings, List.mem_filterMap]
  constructor
  · rintro ⟨e, he, hf⟩
    cases e with
    | fired g => exact Option.some.inj hf ▸ he
    | added | deleted => cases hf
  · exact fun h => ⟨_, h, rfl⟩

/-- The firing that has come last is the first one in the list. -/
theorem firings_fired : firings (.fired f :: log) = f :: firings log := rfl

/-- A deletion takes the constraint of the handle out and nothing else. -/
theorem live_deleted_iff : Live (.deleted d :: log) c ↔ Live log c ∧ ¬ c.SameAs d := by
  rw [Live, List.forall_mem_cons, Live, and_assoc, and_comm (b := ¬ c.SameAs d)]
  simp [Removes]

/-- A firing takes out the participants that its rule gives up. -/
theorem live_fired_iff : Live (.fired f :: log) c ↔ Live log c ∧ c ∉ f.removed := by
  rw [Live, List.forall_mem_cons, Live, and_assoc, and_comm (b := c ∉ f.removed)]
  simp [Removes]

/-- A firing removes participants only. -/
theorem mem_participants_of_mem_removed (h : c ∈ f.removed) : c ∈ f.participants := by
  obtain ⟨i, -, hi⟩ := List.mem_filterMap.mp h
  exact List.mem_of_getElem? hi

namespace InOrder

/-- What was allowed is found again anywhere in the log. -/
theorem allowed_of_suffix (h : InOrder rs log) {e : StoreEvent} {earlier : List StoreEvent}
    (hsuffix : e :: earlier <:+ log) : e.Allowed rs earlier ∧ InOrder rs earlier := by
  induction log with
  | nil => cases List.suffix_nil.mp hsuffix
  | cons e' log ih =>
    rcases List.suffix_cons_iff.mp hsuffix with heq | hsuffix
    · cases heq
      exact h
    · exact ih h.2 hsuffix

/-- No two constraints have been added under one number, because every addition needs a new one. -/
theorem serial_inj (h : InOrder rs log) (hc : .added c ∈ log) (hd : .added d ∈ log)
    (hserial : c.serial = d.serial) : c = d := by
  induction log with
  | nil => cases hc
  | cons e log ih =>
    rw [List.mem_cons] at hc hd
    rcases hc with rfl | hc
    · rcases hd with hd | hd
      · injection hd with hcd
        exact hcd.symm
      · exact absurd (congrArg some hserial.symm) (h.1 _ hd)
    · rcases hd with rfl | hd
      · exact absurd (congrArg some hserial) (h.1 _ hc)
      · exact ih h.2 hc hd

/-- Nothing is removed before it has been added. -/
theorem not_removes (h : InOrder rs log) (hnew : ∀ e ∈ log, e.serial? ≠ some c.serial) :
    ∀ e ∈ log, ¬ e.Removes c := by
  induction log with
  | nil => simp
  | cons e log ih =>
    rw [List.forall_mem_cons] at hnew ⊢
    refine ⟨fun hremoves => ?_, ih h.2 hnew.2⟩
    cases e with
    | added d => exact hremoves
    | deleted d => exact hnew.1 (congrArg some hremoves.1.symm)
    | fired f => exact hnew.2 _ (h.1.1.live c (mem_participants_of_mem_removed hremoves)).1 rfl

/-- A constraint that is added under a new number is live, and it replaces no other. -/
theorem live_added_iff (h : InOrder rs log) (hnew : ∀ e ∈ log, e.serial? ≠ some c.serial) :
    Live (.added c :: log) d ↔ d = c ∨ Live log d ∧ d.serial ≠ c.serial := by
  rw [Live, List.forall_mem_cons, List.mem_cons, added.injEq,
    and_iff_right (show ¬ Removes d (.added c) from id)]
  constructor
  · rintro ⟨rfl | hd, hremoves⟩
    · exact .inl rfl
    · exact .inr ⟨⟨hd, hremoves⟩, fun hserial => hnew _ hd (congrArg some hserial)⟩
  · rintro (rfl | ⟨⟨hd, hremoves⟩, -⟩)
    · exact ⟨.inl rfl, h.not_removes hnew⟩
    · exact ⟨.inr hd, hremoves⟩

/-- No combination fires a rule twice. -/
theorem nodup_firings (h : InOrder rs log) :
    ((firings log).map fun f => (f.occurrence.index, f.serials)).Nodup := by
  induction log with
  | nil => exact .nil
  | cons e log ih =>
    cases e with
    | added | deleted => exact ih h.2
    | fired f =>
      rw [firings_fired, List.map_cons, List.nodup_cons]
      refine ⟨fun hmem => ?_, ih h.2⟩
      obtain ⟨g, hg, hgf⟩ := List.mem_map.mp hmem
      exact h.1.2 g hg (congrArg Prod.fst hgf) (congrArg Prod.snd hgf)

/-- No constraint is removed by two firings. -/
theorem pairwise_removed (h : InOrder rs log) :
    (firings log).Pairwise fun f g => f.removed.Disjoint g.removed := by
  induction log with
  | nil => exact .nil
  | cons e log ih =>
    cases e with
    | added | deleted => exact ih h.2
    | fired f =>
      rw [firings_fired]
      refine .cons (fun g hg c hcf hcg => ?_) (ih h.2)
      exact (h.1.1.live c (mem_participants_of_mem_removed hcf)).2 _ (mem_firings_iff.mp hg) hcg

end InOrder

end StoreEvent

/-! ### The store and its log -/

namespace Store

/-- The store agrees with the log: the same constraints are live, and the same combinations have
fired. -/
structure Agrees (rs : RuleSet) (log : List StoreEvent) (st : Store) : Prop where
  indexed : st.Indexed
  inOrder : InOrder rs log
  live : ∀ c, c ∈ st.constraints ↔ Live log c
  fired : ∀ rule xs, st.hasFired rule xs = true ↔
    ∃ f ∈ firings log, f.occurrence.index = rule ∧ f.serials = xs

namespace Agrees

/-- Before anything has happened, the store is empty and the log too. -/
theorem empty : Agrees rs [] Store.empty where
  indexed := .empty
  inOrder := trivial
  live c := by simp [Live]
  fired rule xs := by simp [hasFired_empty, firings]

/-- An addition under a new number makes the same constraint live in both. -/
theorem add (h : Agrees rs log st) (hc : ∀ e ∈ log, e.serial? ≠ some c.serial) :
    Agrees rs (.added c :: log) (st.add c) where
  indexed := h.indexed.add c
  inOrder := ⟨hc, h.inOrder⟩
  live d := by rw [h.indexed.mem_constraints_add, h.inOrder.live_added_iff hc, h.live]
  fired := h.fired

/-- Notes are no events: the log says nothing of them, and they change nothing that it says. -/
theorem connect (h : Agrees rs log st) (v : Var) (c : Constraint) :
    Agrees rs log (st.connect v c) :=
  ⟨h.indexed.connect v c, h.inOrder, h.live, h.fired⟩

/-- Nor does taking notes out count as an event. -/
theorem takeBacklinks (h : Agrees rs log st) (v : Var) :
    Agrees rs log (st.takeBacklinks v).2 where
  indexed := h.indexed.takeBacklinks v
  inOrder := h.inOrder
  live c := by rw [(SameButNotes.takeBacklinks st v).constraints_eq, h.live]
  fired rule xs := by rw [(SameButNotes.takeBacklinks st v).hasFired_eq, h.fired]

/-- A deletion by a handle ends in both the constraint that the handle stands for. -/
theorem delete (h : Agrees rs log st) (c : Constraint) :
    Agrees rs (.deleted c :: log) (st.erase c) where
  indexed := h.indexed.erase c
  inOrder := ⟨trivial, h.inOrder⟩
  live d := by
    rw [h.indexed.mem_constraints_erase, live_deleted_iff, h.live]
  fired rule xs := by
    rw [hasFired_erase, h.fired]
    rfl

/-- A firing that may come next: the participants that its rule gives up are those that go. -/
theorem fire {p : Pass} (h : Agrees rs log p.store) (hf : f.Fits rs (· ∈ p.store.constraints))
    (hnew : p.store.hasFired f.occurrence.index f.serials = false) :
    Agrees rs (.fired f :: log) (p.fire f).store where
  indexed := Pass.indexed_fire h.indexed f
  inOrder := by
    refine ⟨⟨⟨hf.rule, hf.heads, fun c hc => (h.live c).mp (hf.live c hc), hf.nodup⟩, ?_⟩,
      h.inOrder⟩
    intro g hg hindex hserials
    have hfired := (h.fired f.occurrence.index f.serials).mpr ⟨g, hg, hindex, hserials⟩
    rw [hnew] at hfired
    cases hfired
  live c := by
    rw [Pass.mem_constraints_fire h.indexed, live_fired_iff, ← h.live]
    refine and_congr_right fun hc => ?_
    constructor
    · exact fun hothers hremoved => hothers c hremoved ⟨rfl, rfl⟩
    · intro hremoves d hd hcd
      have hlive := hf.live d (mem_participants_of_mem_removed hd)
      exact hremoves (h.indexed.eq_of_serial_eq hc hlive hcd.1 ▸ hd)
  fired rule xs := by
    rw [Pass.hasFired_fire, h.fired, firings_fired]
    simp only [List.mem_cons, exists_eq_or_imp]

/-- The firings of a pass come next, in the order in which they took place. -/
theorem steps {s : Subst} {p : Pass} (h : Agrees rs log st)
    (hp : Pass.Steps rs s c { store := st } p) :
    Agrees rs (p.firings.reverse.map .fired ++ log) p.store := by
  induction hp with
  | refl => exact h
  | tail _ hstep ih =>
    cases hstep with
    | fault => exact ih
    | fire hadmitted _ =>
      rw [Pass.firings_fire, List.reverse_append, List.map_append]
      exact ih.fire ⟨(RuleSet.mem_occurrences_iff.mp hadmitted.occurrence).1, hadmitted.heads,
        hadmitted.live, hadmitted.nodup⟩ hadmitted.new

/-- A whole pass of an added constraint: the log goes on with its firings, in their order. -/
theorem matchRules (h : Agrees rs log st) (s : Subst) (hc : .added c ∈ log) :
    Agrees rs ((st.matchRules rs s c).firings.reverse.map .fired ++ log)
      (st.matchRules rs s c).store := by
  refine h.steps (matchRules_steps h.indexed fun d hd hserial => ?_)
  exact h.inOrder.serial_inj ((h.live d).mp hd).1 hc hserial

end Agrees

/-- However a store has come about, it agrees with its log, operation by operation. -/
theorem Log.agrees (h : Log rs log st) : Agrees rs log st := by
  induction h with
  | empty => exact .empty
  | add _ c hc ih => exact ih.add hc
  | connect _ v c ih => exact ih.connect v c
  | takeBacklinks _ v ih => exact ih.takeBacklinks v
  | delete _ c ih => exact ih.delete c
  | matching _ s c hc ih => exact ih.matchRules s hc

/-- However a store has come about: no combination has fired a rule twice; the participants of a
firing were live when it took place, different from each other and of the signatures of the heads;
no constraint was removed by two firings. What is live is what has been added and never removed, and
all views of the store report just this, oldest first. -/
theorem Log.accounts (h : Log rs log st) :
    ((firings log).map fun f => (f.occurrence.index, f.serials)).Nodup ∧
    (∀ f earlier, .fired f :: earlier <:+ log → f.Fits rs (Live earlier)) ∧
    ((firings log).Pairwise fun f g => f.removed.Disjoint g.removed) ∧
    ∃ live : List Constraint, (live.Pairwise fun c d => c.serial < d.serial) ∧
      (∀ c, c ∈ live ↔ Live log c) ∧ st.constraints = live ∧
      (∀ sig, st.lookup sig = live.filter (·.sig = sig)) ∧ st.size = live.length ∧
      ∀ c, .added c ∈ log → (st.isAlive c = true ↔ c ∈ live) := by
  have hagrees := h.agrees
  refine ⟨hagrees.inOrder.nodup_firings,
    fun f earlier hsuffix => (hagrees.inOrder.allowed_of_suffix hsuffix).1.1,
    hagrees.inOrder.pairwise_removed, st.constraints, hagrees.indexed.live.pairwise_values,
    hagrees.live, rfl, fun sig => rfl, (Constraint.Indexed.length_values st.live).symm,
    fun c hc => ?_⟩
  rw [hagrees.indexed.isAlive_iff]
  constructor
  · rintro ⟨d, hd, hserial, -⟩
    exact hagrees.inOrder.serial_inj ((hagrees.live d).mp hd).1 hc hserial ▸ hd
  · exact fun hlive => ⟨c, hlive, rfl, rfl⟩

/-- Transitivity fires for `leq(A, B)` and `leq(B, C)`; its body is left aside here. `leq(B, A)`
meets `leq(A, B)`, and both go. `leq(C, D)` is deleted explicitly, so that `leq(B, C)` remains. -/
theorem Log.accounts_leq :
    ∃ log st, Store.Log Samples.leq log st ∧
      (firings log).map (fun f => (f.occurrence.index, f.serials)) =
        [(1, [3, 1]), (2, [1, 2])] ∧
      ((firings log).map fun f => (f.occurrence.index, f.serials)).Nodup ∧
      st.constraints.map (·.serial) = [2] ∧
      ∃ live : List Constraint, (live.Pairwise fun c d => c.serial < d.serial) ∧
        (∀ c, c ∈ live ↔ Live log c) ∧ st.constraints = live := by
  let leq (serial a b : Nat) : Constraint := ⟨serial, ⟨"leq", 2⟩, [.var a, .var b]⟩
  have hfirst : Store.Log Samples.leq [.added (leq 2 1 2), .added (leq 1 0 1)] _ :=
    .add (.add .empty (leq 1 0 1) (by decide +kernel)) (leq 2 1 2) (by decide +kernel)
  have hchain := hfirst.matching .empty (leq 2 1 2) (by simp)
  have hthird := hchain.add (leq 3 1 0) (by decide +kernel)
  have hfourth := (hthird.matching .empty (leq 3 1 0) (by simp)).add (leq 4 2 3) (by decide +kernel)
  have hlog := hfourth.delete (leq 4 2 3)
  obtain ⟨honce, -, -, live, hascending, hlive, hsame, -⟩ := hlog.accounts
  exact ⟨_, _, hlog, by decide +kernel, honce, by decide +kernel, live, hascending, hlive, hsame⟩

end Store

end LogicMachine
