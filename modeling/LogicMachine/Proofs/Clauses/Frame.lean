import LogicMachine.Proofs.Clauses.Reading
import LogicMachine.Proofs.Search.Performing
import LogicMachine.Proofs.Subst.Unifiable

/-!
# Frames as statements

A frame whose code can be read as a statement is one itself: its bindings hold, and so does what is
left to run of it and of its callers. This module says what an instruction does to such a frame.
-/

namespace LogicMachine

/-! ### Operands -/

namespace Expr

variable {env : Env} {s : Subst} {θ : Valuation}

/-- Operands are evaluated one by one. -/
theorem denoted_of_evalAll {V : Expr → Term → Prop} {es : List Expr} {ts : List Term}
    (hone : ∀ e ∈ es, ∀ t, e.eval env s = .ok t → V e t) (h : evalAll env s es = .ok ts) :
    List.Forall₂ V es ts :=
  ((List.forall₂_and_left _ _).mpr ⟨hone, evalAll_eq_ok_iff.mp h⟩).imp fun _ t h => h.1 t h.2

/-- `t` is plain, and has the value that `e` stands for. -/
def DenotedBy (env : Env) (s : Subst) (e : Expr) (t : Term) : Prop :=
  t.isPlain = true ∧ ∀ θ, s.SatisfiedBy θ → t.apply θ = e.value (env.map (Term.apply θ))

/-- The same for several operands: their values are plain, and are what the operands stand for. -/
theorem denotedBy_all {es : List Expr} {ts : List Term}
    (h : List.Forall₂ (DenotedBy env s) es ts) :
    (∀ t ∈ ts, t.isPlain = true) ∧ ∀ θ, s.SatisfiedBy θ →
      ts.map (Term.apply θ) = es.map (value (env.map (Term.apply θ))) := by
  induction h with
  | nil => simp
  | cons hone _ ih =>
    refine ⟨List.forall_mem_cons.mpr ⟨hone.1, ih.1⟩, fun θ hθ => ?_⟩
    rw [List.map_cons, List.map_cons, hone.2 θ hθ, ih.2 θ hθ]

/-- What a plain operand is evaluated to has the value that the operand stands for. -/
theorem denotedBy_of_eval (hs : s.IsPlain) (henv : ∀ t ∈ env, t.isPlain = true) {e : Expr}
    {t : Term} (he : e.isPlain = true) (h : e.eval env s = .ok t) : DenotedBy env s e t := by
  induction e using induction generalizing t with
  | register i =>
    rw [eval] at h
    split at h
    · next u hu =>
      obtain rfl := Except.ok.inj h
      have hplain := henv u (List.mem_of_getElem? hu)
      refine ⟨hs.resolve hplain, fun θ hθ => ?_⟩
      rw [hθ.resolve hs hplain, value_register, List.getD_eq_getElem?_getD, List.getElem?_map, hu]
      rfl
    · cases h
  | build f args ih =>
    obtain ⟨⟨name, rfl⟩, hargs⟩ := isPlain_build_iff.mp he
    rw [eval] at h
    split at h
    · next ts hts =>
      obtain rfl := Except.ok.inj h
      obtain ⟨hplain, hvalue⟩ := denotedBy_all
        (denoted_of_evalAll (fun e hmem t => ih e hmem (hargs e hmem)) hts)
      rw [Term.reduce_named]
      refine ⟨?_, fun θ hθ => ?_⟩
      · rwa [Term.isPlain_named, List.all_eq_true]
      · rw [Term.apply_compound, value_build, hvalue θ hθ]
    · cases h
  | const t =>
    rw [eval] at h
    obtain rfl := Except.ok.inj h
    obtain ⟨hplain, hground⟩ := Term.isData_iff.mp (by simpa [isPlain] using he)
    refine ⟨hs.resolve hplain, fun θ hθ => ?_⟩
    rw [hθ.resolve hs hplain, value_const, Term.apply_of_isGround hground]

/-- The same for the operands of a call. -/
theorem denotedBy_of_evalAll (hs : s.IsPlain) (henv : ∀ t ∈ env, t.isPlain = true)
    {es : List Expr} {ts : List Term} (hes : es.all isPlain = true)
    (h : evalAll env s es = .ok ts) : List.Forall₂ (DenotedBy env s) es ts :=
  denoted_of_evalAll
    (fun e hmem _ => denotedBy_of_eval hs henv (List.all_eq_true.mp hes e hmem)) h

end Expr

/-! ### Instructions -/

/-- `m.Reads f c instr o`: the branch `f` carries out an instruction that can be read as a
statement, without a fault and with the outcome `o`. -/
inductive Machine.Reads (m : Machine) (f : Frame) (c : Counters) : Instr → Outcome → Prop
  | invoke {name : String} {args : List Expr} {ts : List Term} {block : Block}
      (hargs : Expr.evalAll f.cont.running.env f.subst args = .ok ts)
      (hblock : m.program.get? ⟨name, ts.length⟩ = some block) :
      Reads m f c (.invoke name args)
        (.go { f with cont := f.onward.call (.predicate ⟨name, ts.length⟩) ts block })
  | choice {offset : Int} {pc : Nat} (hpc : (pc : Int) = f.cont.running.pc + 1 + offset) :
      Reads m f c (.choice offset)
        (.split { f with cont := f.onward } { f with cont := f.onward.resumeAt pc })
  | fresh (n : Nat) :
      Reads m f c (.fresh n)
        (.go { f with cont := f.onward.prepend ((c.vars.drawMany n).1.map .var) })
  | unify {x y : Expr} {t t' : Term} {u : Unifier}
      (hx : x.eval f.cont.running.env f.subst = .ok t)
      (hy : y.eval f.cont.running.env f.subst = .ok t') (hu : f.subst.unify? t t' = some u) :
      Reads m f c (.unify x y) (.go { f with subst := u.subst, cont := f.onward })
  | clash {x y : Expr} {t t' : Term} (hx : x.eval f.cont.running.env f.subst = .ok t)
      (hy : y.eval f.cont.running.env f.subst = .ok t') (hu : f.subst.unify? t t' = none) :
      Reads m f c (.unify x y) .dead
  | leave {k : Continuation} (hk : f.onward.return? = some k) :
      Reads m f c .success (.go { f with cont := k })
  | answer (hk : f.onward.return? = none) : Reads m f c .success (.answer ⟨f.subst, f.store⟩)

/-- Nothing is handed over from a store without constraints. -/
theorem Store.handOverAll_empty (s : Subst) (bindings : List (Var × Term)) :
    empty.handOverAll s bindings = (empty, []) := by
  have hnone : ∀ b, handOver s (empty, ∅) b = (empty, ∅) := by
    intro b
    simp [handOver, takeBacklinks, empty]
  have hfold : bindings.foldl (handOver s) (empty, ∅) = (empty, ∅) := by
    induction bindings with
    | nil => rfl
    | cons b bindings ih => rw [List.foldl_cons, hnone, ih]
  rw [handOverAll, hfold]
  rfl

namespace Machine

variable {m : Machine} {f : Frame} {c : Counters} {instr : Instr}

/-- Without constraints, an instruction that can be read does nothing else, unless there is a
fault. -/
theorem reads_of_advance (hstore : f.store = .empty)
    (hcur : f.cont.running.current? = some instr) (hinstr : instr.isDefinite = true)
    (hfault : ∀ e, (m.advance f c).1 ≠ .fault e) : m.Reads f c instr (m.advance f c).1 := by
  have hperforms := m.performs_advance (c := c) hcur
  generalize (m.advance f c).1 = o at hperforms hfault
  cases hperforms with
  | constraint | goto | fail => cases hinstr
  | fault => exact absurd rfl (hfault _)
  | invoke hargs hblock => exact .invoke hargs hblock
  | choice hpc => exact .choice (Continuation.target_eq_ok_iff.mp hpc).1
  | fresh n => exact .fresh n
  | clash hx hy hu => exact .clash hx hy hu
  | leave hk => exact .leave hk
  | answer hk => exact .answer hk
  | @unify x y t t' u rerun g hx hy hu hpasses =>
    -- nothing has been posted, so that nothing is matched again
    rw [hstore, Store.handOverAll_empty] at hpasses
    cases hpasses
    have hbound : f.bound u = { f with subst := u.subst, cont := f.onward } := by
      rw [Frame.bound, hstore, Store.handOverAll_empty, ← hstore]
    rw [hbound]
    exact .unify hx hy hu

end Machine

end LogicMachine
