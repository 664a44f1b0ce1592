import LogicMachine.Proofs.Renaming.Matching
import LogicMachine.Proofs.Search.Branch

/-!
# Branches up to a renaming

Frames that agree up to a renaming have the same future: whatever numbers are drawn on the two
sides, one instruction makes of them frames that agree up to a larger renaming. The strategies make
no difference, for they only say whose turn it is.
-/

namespace LogicMachine

/-- Has the program no constants with variables? -/
def Module.isClosed (p : Module) : Bool := p.definitions.all (·.2.code.all Instr.isClosed)

/-- Have program and rules no constants with variables? -/
def Machine.isClosed (m : Machine) : Bool := m.program.isClosed && m.rules.isClosed

/-- Whatever predicate is looked up in a closed program has closed code. -/
theorem Module.isClosed_of_lookup {p : Module} (hp : p.isClosed = true) {sig : Signature}
    {block : Block} (h : p.lookup sig = .ok block) : block.code.all Instr.isClosed = true := by
  obtain ⟨⟨sig', block'⟩, hfind, rfl⟩ := Option.map_eq_some_iff.mp (lookup_eq_ok_iff.mp h)
  exact List.all_eq_true.mp hp _ (List.mem_of_find?_eq_some hfind)

/-- Two activations run the same code, which is closed, at the same place. -/
structure Activation.Renamed (ρ : Renaming) (a a' : Activation) : Prop where
  block_eq : a.block = a'.block
  pc_eq : a.pc = a'.pc
  env : List.Forall₂ (Term.Renamed ρ.vars) a.env a'.env
  closed : a.block.code.all Instr.isClosed = true

/-- Two continuations agree activation by activation. -/
structure Continuation.Renamed (ρ : Renaming) (k k' : Continuation) : Prop where
  running : k.running.Renamed ρ k'.running
  callers : List.Forall₂ (Activation.Renamed ρ) k.callers k'.callers

/-- Two frames agree, their places among the choice points apart. -/
structure Frame.Renamed (ρ : Renaming) (f f' : Frame) : Prop where
  subst : f.subst.Renamed ρ.vars f'.subst
  store : f.store.Renamed ρ f'.store
  cont : f.cont.Renamed ρ f'.cont

/-- Two answers agree. -/
structure Solution.Renamed (ρ : Renaming) (s s' : Solution) : Prop where
  subst : s.subst.Renamed ρ.vars s'.subst
  store : s.store.Renamed ρ s'.store

/-- Two outcomes agree. -/
inductive Outcome.Renamed (ρ : Renaming) : Outcome → Outcome → Prop
  | go {f f' : Frame} (h : f.Renamed ρ f') : Renamed ρ (.go f) (.go f')
  | split {f f' g g' : Frame} (h : f.Renamed ρ f') (hg : g.Renamed ρ g') :
      Renamed ρ (.split f g) (.split f' g')
  | dead : Renamed ρ .dead .dead
  | answer {s s' : Solution} (h : s.Renamed ρ s') : Renamed ρ (.answer s) (.answer s')
  | fault (e : ProgramError) : Renamed ρ (.fault e) (.fault e)

variable {ρ ρ' : Renaming} {m : Machine}

/-- Activations that agree still do when more numbers are paired. -/
theorem Activation.Renamed.mono {a a' : Activation} (hρ : ρ.Extends ρ') (h : a.Renamed ρ a') :
    a.Renamed ρ' a' :=
  ⟨h.block_eq, h.pc_eq, h.env.imp fun _ _ => .mono hρ.vars.le, h.closed⟩

/-- So do frames. -/
theorem Frame.Renamed.mono {f f' : Frame} (hρ : ρ.Extends ρ') (h : f.Renamed ρ f') :
    f.Renamed ρ' f' :=
  ⟨h.subst.mono hρ.vars, h.store.mono hρ,
    ⟨h.cont.running.mono hρ, h.cont.callers.imp fun _ _ => .mono hρ⟩⟩

/-- Where the frames stand among the choice points plays no part in it. -/
theorem Frame.Renamed.of_detached {f f' : Frame} (h : f.detached.Renamed ρ f'.detached) :
    f.Renamed ρ f' :=
  ⟨h.subst, h.store, h.cont⟩

/-- Where an outcome agrees with itself, so do the branches that are left. -/
theorem Outcome.Renamed.of_mem_children {o : Outcome} {f : Frame} (h : o.Renamed ρ o)
    (hf : f ∈ o.children) : f.Renamed ρ f := by
  cases h with
  | go hg =>
    obtain rfl := List.mem_singleton.mp hf
    exact hg
  | split hg hg' =>
    rcases List.mem_cons.mp hf with rfl | hf
    · exact hg
    · obtain rfl := List.mem_singleton.mp hf
      exact hg'
  | dead | answer | fault => cases hf

/-! ### Where variables are -/

/-- The variable is somewhere in the frame. -/
inductive Frame.Mentions (f : Frame) (v : Var) : Prop
  /-- In a register of what is running, or of one of its callers. -/
  | register {a : Activation} (ha : a ∈ f.cont.running :: f.cont.callers) {t : Term}
      (ht : t ∈ a.env) (hv : v ∈ t.vars)
  /-- As a bound variable. -/
  | bound {t : Term} (h : f.subst.get? v = some t)
  /-- In what a variable is bound to. -/
  | value {w : Var} {t : Term} (h : f.subst.get? w = some t) (hv : v ∈ t.vars)
  /-- In an argument of a live constraint. -/
  | argument {serial : Nat} {c : Constraint} (h : f.store.live[serial]? = some c) {t : Term}
      (ht : t ∈ c.args) (hv : v ∈ t.vars)
  /-- As a variable for which constraints are noted. -/
  | noted {cs : Std.TreeMap Nat Constraint} (h : f.store.mentions[v]? = some cs)
  /-- In an argument of a constraint that is noted for some variable. -/
  | backlink {w : Var} {cs : Std.TreeMap Nat Constraint} (h : f.store.mentions[w]? = some cs)
      {serial : Nat} {c : Constraint} (hc : cs[serial]? = some c) {t : Term} (ht : t ∈ c.args)
      (hv : v ∈ t.vars)

/-- Every variable in terms that agree with others has a partner. -/
theorem Term.exists_of_mem_renamed {R : Pairing} {ts ts' : List Term}
    (h : List.Forall₂ (Term.Renamed R) ts ts') {t : Term} (ht : t ∈ ts) {v : Var}
    (hv : v ∈ t.vars) : ∃ v', R v v' := by
  obtain ⟨t', -, htt'⟩ := (forall₂_partner h).1 t ht
  obtain ⟨v', -, hvv'⟩ := (forall₂_partner htt'.vars).1 v hv
  exact ⟨v', hvv'⟩

/-- Wherever a variable is in one of two frames that agree, it belongs to one of the other. -/
theorem Frame.Renamed.exists_of_mentions {f f' : Frame} (h : f.Renamed ρ f') {v : Var}
    (hv : f.Mentions v) : ∃ v', ρ.vars v v' := by
  cases hv with
  | register ha ht hv =>
    obtain ⟨a', -, haa'⟩ :=
      (forall₂_partner (List.Forall₂.cons h.cont.running h.cont.callers)).1 _ ha
    exact Term.exists_of_mem_renamed haa'.env ht hv
  | bound hb => exact h.subst.bindings.left hb
  | value hb hv =>
    obtain ⟨-, -, t', -, htt'⟩ := h.subst.bindings.partner_left hb
    exact Term.exists_of_mem_renamed (.cons htt' .nil) List.mem_cons_self hv
  | argument hc ht hv =>
    obtain ⟨-, -, c', -, hcc'⟩ := h.store.live.partner_left hc
    exact Term.exists_of_mem_renamed hcc'.args ht hv
  | noted hn => exact h.store.mentions.left hn
  | backlink hn hc ht hv =>
    obtain ⟨-, -, cs', -, hcs⟩ := h.store.mentions.partner_left hn
    obtain ⟨-, -, c', -, hcc'⟩ := hcs.partner_left hc
    exact Term.exists_of_mem_renamed hcc'.args ht hv

/-! ### Continuations -/

namespace Continuation

variable {k k' : Continuation}

/-- Continuations that agree are equally deep, so the limit on depth stops both or neither. -/
theorem Renamed.depth_eq (h : Renamed ρ k k') : k.depth = k'.depth := by
  rw [k.depth_eq, k'.depth_eq, h.callers.length_eq]

/-- The same instruction is next on both sides. -/
theorem Renamed.current?_eq (h : Renamed ρ k k') : k.running.current? = k'.running.current? := by
  unfold Activation.current?
  rw [h.running.block_eq, h.running.pc_eq]

/-- The instruction that is next has no constants with variables. -/
theorem Renamed.closed_current {instr : Instr} (h : Renamed ρ k k')
    (hcur : k.running.current? = some instr) : instr.isClosed = true :=
  List.all_eq_true.mp h.running.closed _ (List.mem_of_getElem? hcur)

/-- Both may go on at the same place of their code. -/
theorem Renamed.resumeAt (h : Renamed ρ k k') (pc : Nat) :
    Renamed ρ (k.resumeAt pc) (k'.resumeAt pc) :=
  ⟨⟨h.running.block_eq, rfl, h.running.env, h.running.closed⟩, h.callers⟩

/-- A jump has the same target, or the same fault. -/
theorem Renamed.target_eq (h : Renamed ρ k k') (offset : Int) :
    k.target offset = k'.target offset := by
  unfold Continuation.target
  rw [h.running.block_eq, h.running.pc_eq]

/-- Both may call the same closed block, with environments that agree. -/
theorem Renamed.call (h : Renamed ρ k k') {env env' : Env}
    (henv : List.Forall₂ (Term.Renamed ρ.vars) env env') (origin : Origin) {block : Block}
    (hblock : block.code.all Instr.isClosed = true) :
    Renamed ρ (k.call origin env block) (k'.call origin env' block) :=
  ⟨⟨rfl, rfl, henv, hblock⟩, .cons h.running h.callers⟩

/-- Terms that agree may be put in front of the registers. -/
theorem Renamed.prepend (h : Renamed ρ k k') {ts ts' : List Term}
    (hts : List.Forall₂ (Term.Renamed ρ.vars) ts ts') :
    Renamed ρ (k.prepend ts) (k'.prepend ts') :=
  ⟨⟨h.running.block_eq, h.running.pc_eq, List.rel_append hts h.running.env, h.running.closed⟩,
    h.callers⟩

/-- Both return to callers that agree, or neither has a caller left. -/
theorem Renamed.return? (h : Renamed ρ k k') :
    Option.Rel (Renamed ρ) k.return? k'.return? := by
  obtain ⟨running, callers, depth, hdepth⟩ := k
  obtain ⟨running', callers', depth', hdepth'⟩ := k'
  have hcallers : List.Forall₂ (Activation.Renamed ρ) callers callers' := h.callers
  cases hcallers with
  | nil => exact .none
  | cons hcaller hrest => exact .some ⟨hcaller, hrest⟩

end Continuation

/-! ### Instructions -/

namespace Branch

/-- Attempts to fire rules have come equally far. -/
def AlikeFired (ρ : Renaming) (r r' : Option ProgramError × Branch) : Prop :=
  r.1 = r'.1 ∧ r.2.frame.Renamed ρ r'.2.frame

/-- Instructions have had the same outcome. -/
def AlikeRun (ρ : Renaming) (r r' : Request × Branch) : Prop :=
  (r.1.outcome r.2.frame).Renamed ρ (r'.1.outcome r'.2.frame)

variable {b b' : Branch} {c c' : Constraint} {cs cs' : List Constraint} {strategy : Strategy}

/-- When all rules have fired without a fault the instruction goes on, and otherwise it ends in the
same fault. -/
theorem AlikeFired.unlessFault {r r' : Option ProgramError × Branch} (h : AlikeFired ρ r r') :
    AlikeRun ρ (unlessFault r) (unlessFault r') := by
  obtain ⟨e, b⟩ := r
  obtain ⟨e', b'⟩ := r'
  obtain ⟨rfl, hframe⟩ := h
  cases e with
  | some e => exact .fault e
  | none => exact .go hframe

/-- Notes for the log do not touch the frame. -/
theorem frame_foldl_note {α : Type} (note : α → Note) (xs : List α) (b : Branch) :
    (xs.foldl (fun b x => b.note (note x)) b).frame = b.frame := by
  induction xs generalizing b with
  | nil => rfl
  | cons x xs ih => exact ih (b.note (note x))

/-- Continuations that agree may be put into frames that agree. -/
theorem setCont_renamed (h : b.frame.Renamed ρ b'.frame) {k k' : Continuation}
    (hk : k.Renamed ρ k') : (b.setCont k).frame.Renamed ρ (b'.setCont k').frame :=
  ⟨h.subst, h.store, hk⟩

/-- The body of the same rule is put on top of both continuations, with environments that agree. -/
theorem schedule_renamed (h : b.frame.Renamed ρ b'.frame) {f f' : Firing} (hf : f.Renamed ρ f') :
    (b.schedule f).frame.Renamed ρ (b'.schedule f').frame := by
  unfold schedule
  rw [← hf.occurrence_eq]
  exact setCont_renamed h (h.cont.call hf.env _ (Bool.and_eq_true_iff.mp hf.closed).2)

/-- The same rules fire, and their bodies are scheduled alike. -/
theorem fire_renamed (hm : m.isClosed = true) (strategy : Strategy)
    (h : b.frame.Renamed ρ b'.frame) (hc : c.Renamed ρ c') :
    AlikeFired ρ (fire m b c) (fire (m.under strategy) b' c') := by
  have hpass := h.store.matchRules m.rules (Bool.and_eq_true_iff.mp hm).2 h.subst hc
  unfold fire Machine.under
  simp only
  rw [← hpass.fault_eq]
  generalize b.frame.store.matchRules m.rules b.frame.subst c = p,
    b'.frame.store.matchRules m.rules b'.frame.subst c' = p' at hpass ⊢
  have hnoted : ∀ (note note' : Firing → Note),
      (p.firings.foldl (fun noted f => noted.note (note f)) (b.setStore p.store)).frame.Renamed ρ
        (p'.firings.foldl (fun noted f => noted.note (note' f)) (b'.setStore p'.store)).frame := by
    intro note note'
    rw [frame_foldl_note, frame_foldl_note]
    exact ⟨h.subst, hpass.store, h.cont⟩
  cases p.fault with
  | some e => exact ⟨rfl, hnoted _ _⟩
  | none =>
    refine ⟨rfl, ?_⟩
    exact List.rel_foldl (P := fun b b' : Branch => b.frame.Renamed ρ b'.frame)
      (R := Firing.Renamed ρ) (fun _ _ h _ _ hf => schedule_renamed h hf) (hnoted _ _) hpass.firings

/-- Several constraints have their turns on both sides, one after another. Those that are no longer
alive by then are passed over on both. -/
theorem fireAll_renamed (hm : m.isClosed = true) (strategy : Strategy)
    (h : b.frame.Renamed ρ b'.frame) (hcs : List.Forall₂ (Constraint.Renamed ρ) cs cs') :
    AlikeFired ρ (fireAll m b cs) (fireAll (m.under strategy) b' cs') := by
  induction hcs generalizing b b' with
  | nil => exact ⟨rfl, h⟩
  | @cons c c' cs cs' hc _ ih =>
    simp only [fireAll, h.store.isAlive_eq hc]
    split
    · have hfire := fire_renamed hm strategy h hc
      generalize b.fire m c = r, b'.fire (m.under strategy) c' = r' at hfire ⊢
      obtain ⟨e, b₁⟩ := r
      obtain ⟨e', b₁'⟩ := r'
      obtain ⟨rfl, hframe⟩ := hfire
      cases e with
      | some e => exact ⟨rfl, hframe⟩
      | none => exact ih hframe
    · exact ih h

/-- A call finds the same predicate and passes arguments that agree, or fails to for the same
reason. -/
theorem invoke_renamed (hm : m.isClosed = true) (strategy : Strategy)
    (h : b.frame.Renamed ρ b'.frame) (name : String) {args : List Expr}
    (hargs : Expr.isClosedAll args = true) :
    AlikeRun ρ (invoke m b name args) (invoke (m.under strategy) b' name args) := by
  unfold invoke Machine.under Machine.exceeded?
  rcases (Expr.evalAll_renamed h.subst h.cont.running.env args hargs).cases with
    ⟨ts, ts', hts, hts', hall⟩ | ⟨e, hts, hts'⟩ <;> simp only [env, hts, hts']
  · rw [← hall.length_eq, ← h.cont.depth_eq]
    cases hlookup : m.program.lookup ⟨name, ts.length⟩ with
    | error e => exact .fault e
    | ok block =>
      have hblock := Module.isClosed_of_lookup (Bool.and_eq_true_iff.mp hm).1 hlookup
      simp only
      cases m.maxDepth.filter (· < b.frame.cont.depth + 1) with
      | some limit => exact .fault _
      | none =>
        have hcalled := h.cont.call hall (.predicate ⟨name, ts.length⟩) hblock
        simp only
        split <;> split <;> exact .go ⟨h.subst, h.store, hcalled⟩
  · exact .fault e

/-- Constraints that are posted with serial numbers that belong together fire the same rules. -/
theorem post_renamed (hm : m.isClosed = true) (strategy : Strategy)
    (h : b.frame.Renamed ρ b'.frame) (name : String) {args : List Expr}
    (hargs : Expr.isClosedAll args = true)
    (hserial : ∀ ts, Expr.evalAll b.env b.frame.subst args = .ok ts →
      ρ.serials b.shared.serials.next b'.shared.serials.next) :
    AlikeRun ρ (post m b name args) (post (m.under strategy) b' name args) := by
  unfold post
  rcases (Expr.evalAll_renamed h.subst h.cont.running.env args hargs).cases with
    ⟨ts, ts', hts, hts', hall⟩ | ⟨e, hts, hts'⟩ <;> simp only [env, hts, hts']
  · have hc : Constraint.Renamed ρ ⟨b.shared.serials.next, ⟨name, ts.length⟩, ts⟩
        ⟨b'.shared.serials.next, ⟨name, ts'.length⟩, ts'⟩ :=
      ⟨hserial ts hts, by rw [hall.length_eq], hall⟩
    exact AlikeFired.unlessFault (fire_renamed hm strategy
      ⟨h.subst, (h.store.add hc).connectArgs h.subst hc, h.cont⟩ hc)
  · exact .fault e

/-- A unification succeeds on both sides or on neither; the constraints it affects belong together
and fire the same rules. -/
theorem unify_renamed (hm : m.isClosed = true) (strategy : Strategy)
    (h : b.frame.Renamed ρ b'.frame) {x y : Expr} (hx : x.isClosed = true)
    (hy : y.isClosed = true) :
    AlikeRun ρ (unify m b x y) (unify (m.under strategy) b' x y) := by
  unfold unify
  rcases (x.eval_renamed h.subst h.cont.running.env hx).cases with
    ⟨t, t', ht, ht', htt⟩ | ⟨e, ht, ht'⟩ <;> simp only [env, ht, ht']
  · rcases (y.eval_renamed h.subst h.cont.running.env hy).cases with
      ⟨w, w', hw, hw', hww⟩ | ⟨e, hw, hw'⟩ <;> simp only [hw, hw']
    · rcases optionRel_cases (h.subst.unify? htt hww) with
        ⟨u, u', hu, hu', huu⟩ | ⟨hu, hu'⟩ <;> simp only [hu, hu']
      · obtain ⟨hstore, haffected⟩ := h.store.handOverAll huu.subst huu.bindings
        exact AlikeFired.unlessFault
          (fireAll_renamed hm strategy ⟨huu.subst, hstore, h.cont⟩ haffected)
      · exact .dead
    · exact .fault e
  · exact .fault e

/-- A jump goes to the same place on both sides. -/
theorem goto_renamed (h : b.frame.Renamed ρ b'.frame) (offset : Int) :
    AlikeRun ρ (goto b offset) (goto b' offset) := by
  unfold goto
  rw [h.cont.target_eq]
  cases b'.frame.cont.target offset with
  | error e => exact .fault e
  | ok pc => exact .go ⟨h.subst, h.store, h.cont.resumeAt pc⟩

/-- At the end of a body both return to callers that agree, or both have found answers that agree.
-/
theorem success_renamed (h : b.frame.Renamed ρ b'.frame) :
    AlikeRun ρ (success b) (success b') := by
  unfold success
  rcases optionRel_cases h.cont.return? with ⟨k, k', hk, hk', hkk⟩ | ⟨hk, hk'⟩ <;>
    simp only [hk, hk']
  · exact .go ⟨h.subst, h.store, hkk⟩
  · exact .answer ⟨h.subst, h.store⟩

/-- New variables go in front of the registers, and those drawn on the two sides belong together. -/
theorem fresh_renamed (h : b.frame.Renamed ρ b'.frame) {n : Nat}
    (hids : List.Forall₂ ρ.vars (b.shared.vars.drawMany n).1 (b'.shared.vars.drawMany n).1) :
    AlikeRun ρ (fresh b n) (fresh b' n) := by
  have hvars : List.Forall₂ (Term.Renamed ρ.vars) ((b.shared.vars.drawMany n).1.map .var)
      ((b'.shared.vars.drawMany n).1.map .var) := List.rel_map (fun _ _ h => .var h) hids
  exact .go ⟨h.subst, h.store, h.cont.prepend hvars⟩

end Branch

end LogicMachine
