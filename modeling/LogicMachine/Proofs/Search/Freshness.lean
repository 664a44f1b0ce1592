import LogicMachine.Proofs.Renaming.Advance
import LogicMachine.Proofs.Search.Reached
import LogicMachine.Samples

/-!
# New variables are new

No instruction makes up a variable: what a branch holds comes from the query, or from the counter
that all branches share. A variable that the counter gives out is therefore nowhere yet, neither in
the branch that asked for it nor in any other one.
-/

namespace LogicMachine

variable {m : Machine} {q : Query} {st : Search} {f : Frame} {v : Var}

/-! ### Variables that were given out -/

namespace Counter

/-- To draw numbers in two goes is to draw them all at once. -/
theorem drawMany_add (c : Counter) (n k : Nat) :
    c.drawMany (n + k) = ((c.drawMany n).1 ++ ((c.drawMany n).2.drawMany k).1,
      ((c.drawMany n).2.drawMany k).2) := by
  induction n generalizing c with
  | zero => simp [drawMany]
  | succ n ih => simp only [Nat.succ_add, drawMany, ih, List.cons_append]

/-- The largest number can be given out once. -/
theorem fst_drawMany_of_le {c : Counter} {n : Nat} (h : c.next + n ≤ largest + 1) :
    (c.drawMany n).1 = List.range' c.next n := by
  induction n generalizing c with
  | zero => rfl
  | succ n ih =>
    cases n with
    | zero => rfl
    | succ n =>
      have hmin : min (c.next + 1) largest = c.next + 1 := Nat.min_eq_left (by omega)
      have hrest := @ih ⟨c.next + 1⟩ (by simp only; omega)
      rw [drawMany, draw, hmin]
      simp only [hrest, List.range'_succ]

end Counter

/-- The variables that the next step takes from the counter. -/
def Search.drawn (st : Search) : List Var :=
  match st.frame with
  | none => []
  | some f => (st.shared.vars.drawMany f.demand.1).1

/-- New variables are made only where they are asked for. -/
theorem Frame.current?_of_demand {n : Nat} (h : f.demand.1 = n + 1) :
    f.cont.running.current? = some (.fresh (n + 1)) := by
  unfold Frame.demand at h
  cases hcur : f.cont.running.current? with
  | none => simp [hcur] at h
  | some instr =>
    cases instr with
    | fresh j => simpa [hcur] using h
    | constraint name args =>
      rw [hcur] at h
      cases hargs : Expr.evalAll f.cont.running.env f.subst args <;> simp [hargs] at h
    | _ => simp [hcur] at h

/-- The frame is that of the running branch, or it is saved. -/
def Search.Holds (st : Search) (f : Frame) : Prop :=
  st.frame = some f ∨ ∃ i, st.shared.choices.savedIn i = some f

/-- A step moves the counter on by what the running branch demands. -/
theorem Search.shared_vars_of_frame (hf : st.frame = some f) :
    (m.step st).search.shared.vars = (st.shared.vars.drawMany f.demand.1).2 :=
  congrArg Counters.vars (m.step_result hf).2

namespace Machine

/-- The variables given out before step `n`, to the query and to all branches, in order. -/
def issued (m : Machine) (q : Query) : Nat → List Var
  | 0 => q.env.flatMap Term.vars
  | n + 1 => m.issued q n ++ (m.after n (.start q)).drawn

/-- What was given out stays given out. -/
theorem mem_issued_succ {n : Nat} (hv : v ∈ m.issued q n) : v ∈ m.issued q (n + 1) :=
  List.mem_append_left _ hv

/-- All variables come from one counter, one after another. -/
theorem drawMany_issued (m : Machine) (k : Nat) (code : List Instr) (n : Nat) :
    let q := Query.ofCode k code
    Counter.drawMany {} (m.issued q n).length =
      (m.issued q n, (m.after n (.start q)).shared.vars) := by
  intro q
  induction n with
  | zero =>
    have hquery : m.issued q 0 = (Counter.drawMany {} k).1 := by
      simp [issued, q, Query.ofCode, List.flatMap_map]
    rw [hquery, Counter.length_drawMany]
    rfl
  | succ n ih =>
    rw [issued, List.length_append, Counter.drawMany_add, ih, after]
    cases hf : (m.after n (.start q)).frame with
    | none =>
      rw [step_of_isDone (by simp [Search.isDone, hf]), Search.drawn, hf]
      rfl
    | some f =>
      rw [Search.shared_vars_of_frame hf, Search.drawn, hf, Counter.length_drawMany]

/-- As long as the numbers last, none is given out twice. -/
theorem nodup_issued_append {k j n : Nat} {code : List Instr}
    (h : (m.issued (.ofCode k code) n).length + j ≤ Counter.largest) :
    (m.issued (.ofCode k code) n ++
      ((m.after n (.start (.ofCode k code))).shared.vars.drawMany j).1).Nodup := by
  have hall := Counter.drawMany_add {} (m.issued (.ofCode k code) n).length j
  simp only [m.drawMany_issued k code n] at hall
  have hroom : 1 + ((m.issued (.ofCode k code) n).length + j) ≤ Counter.largest + 1 := by omega
  have hrange := Counter.fst_drawMany_of_le (c := {}) hroom
  simp only [hall] at hrange
  rw [hrange]
  exact List.nodup_range'

/-! ### What branches hold -/

/-- The renaming of everything that was given out before step `n` to itself. -/
def issuedTo (m : Machine) (q : Query) (n : Nat) : Renaming :=
  ⟨.on (· ∈ m.issued q n), .on fun _ => True⟩

/-- Later more has been given out, and nothing is renamed otherwise. -/
theorem issuedTo_extends (m : Machine) (q : Query) (n : Nat) :
    (m.issuedTo q n).Extends (m.issuedTo q (n + 1)) :=
  ⟨Pairing.extends_on fun _ => mem_issued_succ, .refl _⟩

/-- No branch of the run holds a variable that was not given out. -/
theorem renamed_of_mem_pool (hm : m.isClosed = true) (hq : q.code.all Instr.isClosed = true)
    (n : Nat) : ∀ g ∈ (m.after n (.start q)).pool, g.Renamed (m.issuedTo q n) g := by
  induction n with
  | zero =>
    intro g hg
    obtain rfl := List.mem_singleton.mp hg
    refine ⟨Subst.renamed_empty, Store.renamed_empty, ⟨rfl, rfl, ?_, hq⟩, .nil⟩
    refine List.forall₂_same.mpr fun t ht => Term.renamed_self fun v hv => ⟨rfl, ?_⟩
    exact List.mem_flatMap.mpr ⟨t, ht, hv⟩
  | succ n ih =>
    intro g hg
    rcases m.mem_pool_step (fun f hf => sound_after_of_frame _ hf) hg with
      ⟨f, hf, hg⟩ | ⟨f, hf, rfl⟩
    · have hbranch := (ih _ (Search.detached_mem_pool_of_frame hf)).mono (m.issuedTo_extends q n)
      refine (hbranch.advance_of_drawn hm m.strategy ?_ ?_).of_mem_children hg
      · refine Pairing.forall₂_on fun v hv => List.mem_append_right _ ?_
        rw [Search.drawn, hf]
        exact hv
      · exact Pairing.forall₂_on fun _ _ => trivial
    · exact (ih _ (Search.detached_mem_pool_of_held hf)).mono (m.issuedTo_extends q n)

/-- What is in a branch of the run, running or saved, was given out. -/
theorem mem_issued_of_mentions (hm : m.isClosed = true) (hq : q.code.all Instr.isClosed = true)
    {n : Nat} (hf : (m.after n (.start q)).Holds f) (hv : f.Mentions v) : v ∈ m.issued q n := by
  have hmem : f.detached ∈ (m.after n (.start q)).pool := by
    rcases hf with hf | ⟨i, hf⟩
    · exact Search.detached_mem_pool_of_frame hf
    · exact Search.detached_mem_pool_of_saved hf
  have hframe : f.Renamed (m.issuedTo q n) f := (renamed_of_mem_pool hm hq n _ hmem).of_detached
  obtain ⟨v', rfl, hv'⟩ := hframe.exists_of_mentions hv
  exact hv'

/-- A branch that asks for new variables gets them and goes on at once. -/
theorem step_fresh {j : Nat} (hf : st.frame = some f)
    (hcur : f.cont.running.current? = some (.fresh j)) :
    (m.step st).result = .ok none ∧
      (m.step st).search.frame = some { f with
        cont := f.onward.prepend ((st.shared.vars.drawMany j).1.map .var) } := by
  simp only [step, hf, move, Branch.run, hcur, Branch.execute]
  exact ⟨rfl, rfl⟩

/-- What is in a branch, whether it is running or saved, was given out to the query or by the
counter that all branches share. The variables that a branch gets by asking for new ones are
therefore different from one another and unbound, and they are nowhere else in any branch. The
numbers that variables are known by have 64 bits, and they have to last for the new ones as well. -/
theorem fresh_variables_new (hm : m.isClosed = true) {k : Nat} {code : List Instr}
    (hcode : code.all Instr.isClosed = true) (n : Nat) :
    let q := Query.ofCode k code
    let st := m.after n (.start q)
    (∀ f, st.Holds f → ∀ v, f.Mentions v → v ∈ m.issued q n) ∧
      ∀ f j, st.frame = some f → f.cont.running.current? = some (.fresh j) →
        (m.issued q n).length + j ≤ Counter.largest →
        ∃ vs : List Var, vs.length = j ∧ vs.Nodup ∧ (m.step st).result = .ok none ∧
          (m.step st).search.frame =
            some { f with cont := f.onward.prepend (vs.map .var) } ∧
          m.issued q (n + 1) = m.issued q n ++ vs ∧
          ∀ v ∈ vs, v ∉ m.issued q n ∧ f.subst.get? v = none ∧
            ∀ g, st.Holds g → ¬ g.Mentions v := by
  intro q st
  have hissued : ∀ f, st.Holds f → ∀ v, f.Mentions v → v ∈ m.issued q n :=
    fun f hf v => mem_issued_of_mentions hm hcode hf
  refine ⟨hissued, fun f j hf hcur hroom => ?_⟩
  -- the numbers given out so far and the new ones are pairwise different, as they have not run out
  obtain ⟨-, hnodup, hdisjoint⟩ := List.nodup_append.mp (nodup_issued_append hroom)
  obtain ⟨hresult, hframe⟩ := step_fresh (m := m) hf hcur
  have hsucc : m.issued q (n + 1) = m.issued q n ++ (st.shared.vars.drawMany j).1 := by
    have hdrawn : st.drawn = (st.shared.vars.drawMany j).1 := by
      simp only [Search.drawn, hf, Frame.demand, hcur]
    rw [issued, hdrawn]
  have hnew : ∀ v ∈ (st.shared.vars.drawMany j).1, v ∉ m.issued q n :=
    fun v hv hold => hdisjoint v hold v hv rfl
  refine ⟨(st.shared.vars.drawMany j).1, Counter.length_drawMany _ _, hnodup, hresult, hframe,
    hsucc, fun v hv => ⟨hnew v hv, ?_, fun g hg hmentions => hnew v hv (hissued g hg v hmentions)⟩⟩
  by_contra hbound
  obtain ⟨t, ht⟩ := Option.ne_none_iff_exists'.mp hbound
  exact hnew v hv (hissued f (.inl hf) v (.bound ht))

/-- After `leq(B, A)` was posted and `f(A)` assigned to `B` on one of two branches, the running one
is about to ask for two more variables. -/
theorem fresh_variables_new_branches :
    let m : Machine := { rules := Samples.leq }
    let code : List Instr := [.fresh 1, .constraint "leq" [.register 0, .register 1], .choice 1,
      .unify (.register 0) (.app "f" [.register 1]), .fresh 2, .success]
    let q := Query.ofCode 1 code
    let st := m.after 4 (.start q)
    m.issued q 4 = [1, 2] ∧ ∃ f g, st.frame = some f ∧ st.shared.choices.savedIn 0 = some g ∧
      ∃ vs : List Var, vs.length = 2 ∧ vs.Nodup ∧
        (m.step st).search.frame = some { f with cont := f.onward.prepend (vs.map .var) } ∧
        ∀ v ∈ vs, f.subst.get? v = none ∧ ¬ f.Mentions v ∧ ¬ g.Mentions v := by
  intro m code q st
  have hissued : m.issued q 4 = [1, 2] := by decide +kernel
  have hnext : st.frame.map (·.demand.1) = some 2 := by decide +kernel
  obtain ⟨g, hg⟩ := Option.isSome_iff_exists.mp
    (show (st.shared.choices.savedIn 0).isSome = true by decide +kernel)
  have hm : m.isClosed = true := by decide +kernel
  have hcode : code.all Instr.isClosed = true := by decide +kernel
  clear_value m code
  obtain ⟨f, hf, hdemand⟩ := Option.map_eq_some_iff.mp hnext
  have hcur := Frame.current?_of_demand hdemand
  have hroom : (m.issued q 4).length + 2 ≤ Counter.largest := by
    rw [hissued]
    decide
  obtain ⟨-, hfresh⟩ := fresh_variables_new hm (k := 1) hcode 4
  obtain ⟨vs, hlength, hnodup, -, hframe, -, hnew⟩ := hfresh f 2 hf hcur hroom
  refine ⟨hissued, f, g, hf, hg, vs, hlength, hnodup, hframe, fun v hv => ?_⟩
  obtain ⟨-, hunbound, hnowhere⟩ := hnew v hv
  exact ⟨hunbound, hnowhere f (.inl hf), hnowhere g (.inr ⟨0, hg⟩)⟩

end Machine

end LogicMachine
