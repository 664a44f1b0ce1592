import LogicMachine.Proofs.Order.Running
import LogicMachine.Proofs.Search.Strategies

/-!
# The partial order that is left

A query that posts `leq` for pairs of its variables is answered with the partial order that the pairs
generate. Variables that can be reached from each other have become one, and between two of the
classes that are left there is one constraint wherever the second can be reached from the first. This
follows from what is known when nothing is left to do and nothing is left to fire, so it does not
depend on the order in which the rules have fired.
-/

namespace LogicMachine

/-- The constraints that are left, read under the bindings. -/
def Solution.constraints (s : Solution) : List (Signature × List Term) :=
  s.store.constraints.map fun c => (c.sig, c.args.map s.subst.resolve)

namespace Leq

open Relation

variable {E : Var → Var → Prop} {s : Subst} {st : Store} {a : Solution} {c d : Constraint}
  {x y x' y' z : Var}

/-! ### When the rules apply -/

/-- A constraint between variables that have become one can fire reflexivity. -/
theorem applicable_reflexive (hc : c ∈ st.constraints) (hleq : c.IsLeq x y) (hxy : s.SameClass x y) :
    Store.Applicable Samples.leq s st 0 [c] := by
  refine ⟨List.forall_mem_singleton.mpr hc, List.nodup_singleton _, _, [.var x, .var y], rfl, ?_, ?_⟩
  · rw [List.map_singleton, hleq.sig]
  · rw [args_single hleq]
    exact (checkAll_equal_eq_ok_iff (i := 0) (j := 1) rfl rfl).mpr ⟨hxy, rfl⟩

section Pair

variable (hst : st.Indexed) (hc : c ∈ st.constraints) (hd : d ∈ st.constraints) (hne : c ≠ d)
  (hcleq : c.IsLeq x y) (hdleq : d.IsLeq x' y')

include hst hc hd hne hcleq hdleq

/-- A rule of two heads applies to two different constraints on which its guards hold. -/
theorem applicable_pair {rule : Nat} {r : Rule} (hr : Samples.leq.rules[rule]? = some r)
    (hheads : r.head = [⟨"leq", 2⟩, ⟨"leq", 2⟩])
    (hguards : Guard.checkAll s [.var x, .var y, .var x', .var y'] r.guards =
      .ok (some [.var x, .var y, .var x', .var y'])) :
    Store.Applicable Samples.leq s st rule [c, d] := by
  have hserial : c.serial ≠ d.serial := fun h => hne (hst.eq_of_serial_eq hc hd h)
  refine ⟨by simp [hc, hd], by simp [hserial], r, [.var x, .var y, .var x', .var y'], hr,
    ?_, ?_⟩
  · rw [hheads, List.map_cons, List.map_singleton, hcleq.sig, hdleq.sig]
  · rwa [args_pair hcleq hdleq]

/-- Two constraints that go opposite ways between the same classes can fire antisymmetry. -/
theorem applicable_antisymmetric (hy : s.SameClass y x') (hx : s.SameClass x y') :
    Store.Applicable Samples.leq s st 1 [c, d] := by
  refine applicable_pair hst hc hd hne hcleq hdleq rfl rfl ?_
  refine (checkAll_equal_eq_ok_iff (i := 1) (j := 2) rfl rfl).mpr ⟨hy, ?_⟩
  exact (checkAll_equal_eq_ok_iff (i := 0) (j := 3) rfl rfl).mpr ⟨hx, rfl⟩

/-- Two constraints of which one begins in the class where the other one ends can fire transitivity.
-/
theorem applicable_transitive (hy : s.SameClass y x') :
    Store.Applicable Samples.leq s st 2 [c, d] := by
  refine applicable_pair hst hc hd hne hcleq hdleq rfl rfl ?_
  exact (checkAll_equal_eq_ok_iff (i := 1) (j := 2) rfl rfl).mpr ⟨hy, rfl⟩

/-- Two constraints between the same classes can fire idempotence. -/
theorem applicable_idempotent (hx : s.SameClass x x') (hy : s.SameClass y y') :
    Store.Applicable Samples.leq s st 3 [c, d] := by
  refine applicable_pair hst hc hd hne hcleq hdleq rfl rfl ?_
  refine (checkAll_equal_eq_ok_iff (i := 0) (j := 2) rfl rfl).mpr ⟨hx, ?_⟩
  exact (checkAll_equal_eq_ok_iff (i := 1) (j := 3) rfl rfl).mpr ⟨hy, rfl⟩

end Pair

/-! ### What is left when nothing is left to do -/

/-- What is known without any tasks is that two variables stand for the same, or there is a
constraint between them. -/
theorem Known.cases_nil (h : Known s st [] x y) :
    s.SameClass x y ∨ ∃ c ∈ st.constraints, ∃ x' y', c.IsLeq x' y' ∧ s.SameClass x' x ∧
      s.SameClass y' y := by
  rcases h with hxy | ⟨x', y', hstated, hx, hy⟩
  · exact .inl hxy
  · cases hstated with
    | live hc hleq => exact .inr ⟨_, hc, x', y', hleq, hx, hy⟩
    | task ht => cases ht

/-- What a constraint says under the bindings. -/
theorem sig_args_of_isLeq (hleq : c.IsLeq x y) : (c.sig, c.args.map a.subst.resolve) =
    ((⟨"leq", 2⟩ : Signature), [a.resolve x, a.resolve y]) := by
  rw [hleq.sig, hleq.args]
  simp only [List.map_cons, List.map_nil, Subst.resolve_var, Solution.resolve]

namespace Answered

/-- In the end no rule that deletes can fire. -/
theorem not_applicable (h : Answered E a) {rule : Nat} {r : Rule} {cs : List Constraint}
    (hr : Samples.leq.rules[rule]? = some r) (hdeletes : r.deletes ≠ []) :
    ¬ Store.Applicable Samples.leq a.subst a.store rule cs := by
  obtain ⟨next, hspent⟩ := h.spent
  exact hspent.not_applicable h.settled hr hdeletes

/-- No constraint is left between variables that stand for the same. -/
theorem not_sameClass (h : Answered E a) (hc : c ∈ a.store.constraints) (hleq : c.IsLeq x y) :
    ¬ a.subst.SameClass x y :=
  fun hxy => h.not_applicable rfl (List.cons_ne_nil _ _) (applicable_reflexive hc hleq hxy)

/-- No two constraints are left that say the same. -/
theorem eq_of_sameClass (h : Answered E a) (hc : c ∈ a.store.constraints)
    (hd : d ∈ a.store.constraints) (hcleq : c.IsLeq x y) (hdleq : d.IsLeq x' y')
    (hx : a.subst.SameClass x x') (hy : a.subst.SameClass y y') : c = d := by
  by_contra hne
  exact h.not_applicable rfl (List.cons_ne_nil _ _)
    (applicable_idempotent h.closing.only.indexed hc hd hne hcleq hdleq hx hy)

/-- What is known in the end is transitive: where two constraints meet, transitivity has fired. -/
theorem known_trans (h : Answered E a) (hxy : Known a.subst a.store [] x y)
    (hyz : Known a.subst a.store [] y z) : Known a.subst a.store [] x z := by
  rcases hxy.cases_nil with hsame | ⟨c, hc, x₁, y₁, hcleq, hx, hy⟩
  · exact hyz.congr hsame.symm rfl
  rcases hyz.cases_nil with hsame | ⟨d, hd, y₂, z₂, hdleq, hy', hz⟩
  · exact hxy.congr rfl hsame
  have hmeet : a.subst.SameClass y₁ y₂ := hy.trans hy'.symm
  by_cases hcd : c = d
  · subst hcd
    obtain ⟨rfl, rfl⟩ := hcleq.unique hdleq
    exact absurd hmeet.symm (h.not_sameClass hc hcleq)
  · have happ : Store.Applicable Samples.leq a.subst a.store 2 [c, d] :=
      applicable_transitive h.closing.only.indexed hc hd hcd hcleq hdleq hmeet
    exact (h.closing.transitive hc hd hcleq hdleq (h.settled 2 _ happ)).congr hx hz

/-- All that follows from what was given is known. -/
theorem known_of_reaches (h : Answered E a) (hxy : ReflTransGen E x y) :
    Known a.subst a.store [] x y := by
  induction hxy with
  | refl => exact .inl rfl
  | tail _ hyz ih => exact h.known_trans ih (h.closing.given hyz)

/-- Two variables stand for the same exactly if each can be reached from the other. -/
theorem sameClass_iff (h : Answered E a) :
    a.subst.SameClass x y ↔ ReflTransGen E x y ∧ ReflTransGen E y x := by
  have hclass : ∀ {v w}, a.subst.SameClass v w → ReflTransGen E v w :=
    h.renames.rel_of_sameClass h.acyclic
  refine ⟨fun hxy => ⟨hclass hxy, hclass hxy.symm⟩, fun ⟨hxy, hyx⟩ => ?_⟩
  rcases (h.known_of_reaches hxy).cases_nil with hsame | ⟨c, hc, x₁, y₁, hcleq, hx, hy⟩
  · exact hsame
  rcases (h.known_of_reaches hyx).cases_nil with hsame | ⟨d, hd, y₂, x₂, hdleq, hy', hx'⟩
  · exact hsame.symm
  by_cases hcd : c = d
  · subst hcd
    obtain ⟨rfl, rfl⟩ := hcleq.unique hdleq
    exact hx.symm.trans hy'
  · have happ : Store.Applicable Samples.leq a.subst a.store 1 [c, d] :=
      applicable_antisymmetric h.closing.only.indexed hc hd hcd hcleq hdleq (hy.trans hy'.symm)
        (hx.trans hx'.symm)
    exact absurd happ (h.not_applicable rfl (List.cons_ne_nil _ _))

/-- What is left says which different classes can be reached from which. -/
theorem mem_constraints_iff (h : Answered E a) {p : Signature × List Term} :
    p ∈ a.constraints ↔ ∃ x y, a.resolve x ≠ a.resolve y ∧ ReflTransGen E x y ∧
      p = (⟨"leq", 2⟩, [a.resolve x, a.resolve y]) := by
  rw [Solution.constraints, List.mem_map]
  constructor
  · rintro ⟨c, hc, rfl⟩
    obtain ⟨x, y, hleq⟩ := h.closing.only.live c hc
    exact ⟨x, y, h.not_sameClass hc hleq, h.closing.sound (.live hc hleq), sig_args_of_isLeq hleq⟩
  · rintro ⟨x, y, hne, hxy, rfl⟩
    rcases (h.known_of_reaches hxy).cases_nil with hsame | ⟨c, hc, x', y', hleq, hx, hy⟩
    · exact absurd hsame hne
    · refine ⟨c, hc, (sig_args_of_isLeq hleq).trans ?_⟩
      rw [show a.resolve x' = a.resolve x from hx, show a.resolve y' = a.resolve y from hy]

/-- No constraint is left twice, or idempotence could fire. -/
theorem nodup_constraints (h : Answered E a) : a.constraints.Nodup := by
  have hdistinct : a.store.constraints.Nodup :=
    h.closing.only.indexed.live.pairwise_values.imp fun hlt heq => by
      rw [heq] at hlt
      exact lt_irrefl _ hlt
  refine hdistinct.map_on fun c hc d hd hcd => ?_
  obtain ⟨x, y, hcleq⟩ := h.closing.only.live c hc
  obtain ⟨x', y', hdleq⟩ := h.closing.only.live d hd
  rw [sig_args_of_isLeq hcleq, sig_args_of_isLeq hdleq] at hcd
  simp only [Prod.mk.injEq, true_and, List.cons.injEq, and_true] at hcd
  exact h.eq_of_sameClass hc hd hcleq hdleq hcd.1 hcd.2

end Answered

/-! ### Queries -/

section Query

variable {n : Nat} {pairs : List (Fin n × Fin n)} {i j : Fin n}

/-- The query over `n` variables that posts `leq` for pairs of them, in order, and succeeds. -/
def query (n : Nat) (pairs : List (Fin n × Fin n)) : Query :=
  .ofCode n (pairs.map (fun p => .constraint "leq" [.register p.1, .register p.2]) ++ [.success])

/-- The variable in a register of a query. They are numbered from one. -/
def X (i : Fin n) : Var := i + 1

/-- There is a path of pairs from the one to the other. -/
def Reaches (pairs : List (Fin n × Fin n)) : Fin n → Fin n → Prop :=
  TransGen fun i j => (i, j) ∈ pairs

/-- One variable was posted to be at most the other. -/
def Posted (pairs : List (Fin n × Fin n)) (x y : Var) : Prop :=
  ∃ p ∈ pairs, x = X p.1 ∧ y = X p.2

/-- Different registers have different variables. -/
theorem X_injective : Function.Injective (X (n := n)) :=
  fun _ _ h => Fin.ext (Nat.succ_injective h)

/-- Register by register, the query starts with its variables. -/
theorem getElem?_env (hn : 1 + n ≤ Counter.largest) (pairs : List (Fin n × Fin n)) (i : Fin n) :
    (query n pairs).env[i.val]? = some (.var (X i)) := by
  rw [query, (Query.env_ofCode hn _).1, List.getElem?_map, List.getElem?_range' i.isLt,
    Option.map_some, X, Nat.one_mul, Nat.add_comm]

/-- What can be reached from the variable of a register is that variable, or that of a register that
can be reached. -/
theorem reflTransGen_posted_iff {y : Var} :
    ReflTransGen (Posted pairs) (X i) y ↔ ∃ j, y = X j ∧ (i = j ∨ Reaches pairs i j) := by
  constructor
  · intro h
    induction h with
    | refl => exact ⟨i, rfl, .inl rfl⟩
    | tail _ hstep ih =>
      obtain ⟨j, rfl, hij⟩ := ih
      obtain ⟨p, hp, hx, rfl⟩ := hstep
      obtain rfl := X_injective hx
      refine ⟨p.2, rfl, .inr ?_⟩
      rcases hij with rfl | hij
      · exact .single hp
      · exact hij.tail hp
  · rintro ⟨j, rfl, rfl | hij⟩
    · exact .refl
    · exact hij.to_reflTransGen.lift X fun a b hab => ⟨(a, b), hab, rfl, rfl⟩

/-- Only the variables of registers are related to others. -/
theorem exists_of_reaches (h : ReflTransGen (Posted pairs) x y) (hne : x ≠ y) :
    ∃ i j : Fin n, x = X i ∧ y = X j ∧ Reaches pairs i j := by
  rcases h.cases_head with rfl | ⟨z, ⟨p, hp, rfl, rfl⟩, hrest⟩
  · exact absurd rfl hne
  · obtain ⟨j, rfl, hj⟩ := reflTransGen_posted_iff.mp hrest
    refine ⟨p.1, j, rfl, rfl, ?_⟩
    rcases hj with rfl | hj
    · exact .single hp
    · exact .head hp hj

/-- The code of the query posts the pairs in order, and then returns. -/
theorem does_query {env : Env} (henv : ∀ i : Fin n, env[i.val]? = some (.var (X i)))
    (pairs : List (Fin n × Fin n)) :
    Does env (pairs.map (fun p => .constraint "leq" [.register p.1, .register p.2]) ++ [.success])
      (pairs.map fun p => .post (X p.1) (X p.2)) := by
  induction pairs with
  | nil => exact .done
  | cons p pairs ih => exact .post (henv p.1) (henv p.2) ih

/-- Before the query starts, all of it is still to be done. -/
theorem underway_start (hn : 1 + n ≤ Counter.largest) (next : Nat) :
    Underway (Posted pairs) next (.start (query n pairs).env (query n pairs).code) := by
  have hleft : Left (Frame.start (query n pairs).env (query n pairs).code).cont
      (pairs.map fun p => .post (X p.1) (X p.2)) := by
    have hdoes := does_query (getElem?_env hn pairs) pairs
    exact List.append_nil (pairs.map _) ▸ DoneBy.cons hdoes .nil
  refine ⟨Subst.acyclic_empty, .empty _, .empty _ _, _, ⟨.empty _, ?_, ?_, ?_⟩, hleft⟩
  · intro x y hstated
    cases hstated with
    | live hc => cases hc
    | task ht hstates =>
      obtain ⟨p, hp, rfl⟩ := List.mem_map.mp ht
      cases hstates with
      | post => exact .single ⟨p, hp, rfl, rfl⟩
  · rintro x y ⟨p, hp, rfl, rfl⟩
    exact .of_stated (.task (List.mem_map_of_mem hp) (.post _ _))
  · intro c d x y y' z hc
    cases hc

/-- The answer to a query tells which variables can be reached from which. -/
theorem Answered.resolve_eq_iff (h : Answered (Posted pairs) a) :
    (∃ v, a.resolve (X i) = .var v ∧ a.resolve (X j) = .var v) ↔
      i = j ∨ Reaches pairs i j ∧ Reaches pairs j i := by
  have hsame : (∃ v, a.resolve (X i) = .var v ∧ a.resolve (X j) = .var v) ↔
      a.subst.SameClass (X i) (X j) := by
    constructor
    · rintro ⟨v, hi, hj⟩
      exact hi.trans hj.symm
    · intro hij
      obtain ⟨v, hv, -⟩ := h.renames.exists_resolveVar h.acyclic (X j)
      exact ⟨v, Eq.trans hij hv, hv⟩
  have hreaches : ∀ {i j : Fin n}, ReflTransGen (Posted pairs) (X i) (X j) ↔
      i = j ∨ Reaches pairs i j := by
    intro i j
    rw [reflTransGen_posted_iff]
    constructor
    · rintro ⟨k, hk, hik⟩
      exact X_injective hk ▸ hik
    · exact fun hij => ⟨j, rfl, hij⟩
  rw [hsame, h.sameClass_iff, hreaches, hreaches, @eq_comm _ j i]
  exact or_and_left.symm

/-- The constraints that are left tell which classes can be reached from which. -/
theorem Answered.mem_constraints_query_iff (h : Answered (Posted pairs) a)
    {p : Signature × List Term} :
    p ∈ a.constraints ↔ ∃ i j : Fin n, a.resolve (X i) ≠ a.resolve (X j) ∧ Reaches pairs i j ∧
      p = (⟨"leq", 2⟩, [a.resolve (X i), a.resolve (X j)]) := by
  rw [h.mem_constraints_iff]
  constructor
  · rintro ⟨x, y, hne, hxy, rfl⟩
    obtain ⟨i, j, rfl, rfl, hij⟩ := exists_of_reaches hxy fun heq => hne (heq ▸ rfl)
    exact ⟨i, j, hne, hij, rfl⟩
  · rintro ⟨i, j, hne, hij, rfl⟩
    exact ⟨X i, X j, hne, reflTransGen_posted_iff.mpr ⟨j, rfl, .inr hij⟩, rfl⟩

end Query

end Leq

namespace Machine

open Leq

variable {m : Machine} {n count : Nat}

/-- A query that posts `leq` for pairs of its `n` variables, in any order and with repeats, and then
succeeds, comes to no fault under the rules of a partial order. When the search ends, there is one
solution. In it two variables stand for one variable exactly if they are the same or each can be
reached from the other, and the live constraints are `leq(A, B)`, once each, for the different
classes `A` and `B` such that `B` can be reached from `A`. The counters are 64 bits wide, and they may
not have come to their end. -/
theorem leq_query_answer (hm : m.rules = Samples.leq) (pairs : List (Fin n × Fin n))
    (hunspent : (m.observe count (query n pairs)).counters.Unspent) :
    (∀ e, (m.observe count (query n pairs)).ending ≠ .fault e) ∧
    ((m.observe count (query n pairs)).ending = .exhausted →
      ∃ s, (m.observe count (query n pairs)).solutions = [s] ∧
        (∀ i j : Fin n, (∃ v, s.resolve (X i) = .var v ∧ s.resolve (X j) = .var v) ↔
          i = j ∨ Reaches pairs i j ∧ Reaches pairs j i) ∧
        s.constraints.Nodup ∧
        ∀ p, p ∈ s.constraints ↔ ∃ i j : Fin n, s.resolve (X i) ≠ s.resolve (X j) ∧
          Reaches pairs i j ∧ p = (⟨"leq", 2⟩, [s.resolve (X i), s.resolve (X j)])) := by
  have hn : 1 + n ≤ Counter.largest := le_largest_of_observe hunspent
  obtain ⟨hfault, hanswer⟩ := observe_of_advances (advances hm)
    ⟨⟨_, .start _ _ _ _⟩, underway_start hn _⟩ hunspent
  refine ⟨hfault, fun hend => ?_⟩
  obtain ⟨s, hs, hanswered⟩ := hanswer hend
  exact ⟨s, hs, fun i j => hanswered.resolve_eq_iff, hanswered.nodup_constraints,
    fun p => hanswered.mem_constraints_query_iff⟩

/-- Three variables on a cycle become one, and one constraint is left between it and a fourth. -/
theorem leq_query_answer_cycle :
    let m : Machine := { rules := Samples.leq, strategy := .interleaved }
    let pairs : List (Fin 4 × Fin 4) := [(0, 1), (1, 2), (2, 3), (2, 0)]
    let e := m.observe 100 (query 4 pairs)
    m.rules = Samples.leq ∧ e.counters.Unspent ∧ e.ending = .exhausted ∧
      ∃ s, e.solutions = [s] ∧
        (∃ v, s.resolve (X (0 : Fin 4)) = .var v ∧ s.resolve (X (2 : Fin 4)) = .var v) ∧
        (⟨"leq", 2⟩, [s.resolve (X (0 : Fin 4)), s.resolve (X (3 : Fin 4))]) ∈ s.constraints := by
  intro m pairs e
  have hunspent : e.counters.Unspent := ⟨by decide +kernel, by decide +kernel⟩
  have hend : e.ending = .exhausted := by decide +kernel
  have hne : ∀ s ∈ e.solutions, s.resolve (X (0 : Fin 4)) ≠ s.resolve (X (3 : Fin 4)) := by
    decide +kernel
  have hstep : ∀ p ∈ pairs, Reaches pairs p.1 p.2 := fun p hp => .single hp
  have h02 : Reaches pairs 0 2 := (hstep (0, 1) (by decide)).trans (hstep (1, 2) (by decide))
  obtain ⟨-, hanswer⟩ := leq_query_answer (m := m) rfl pairs hunspent
  obtain ⟨s, hs, hclasses, -, hconstraints⟩ := hanswer hend
  refine ⟨rfl, hunspent, hend, s, hs, ?_, ?_⟩
  · exact (hclasses 0 2).mpr (.inr ⟨h02, hstep (2, 0) (by decide)⟩)
  · exact (hconstraints _).mpr
      ⟨0, 3, hne s (hs ▸ List.mem_singleton_self s), h02.trans (hstep (2, 3) (by decide)), rfl⟩

end Machine

end LogicMachine
