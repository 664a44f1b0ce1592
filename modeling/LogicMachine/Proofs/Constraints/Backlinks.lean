import LogicMachine.Proofs.Constraints.Pass
import LogicMachine.Proofs.Subst.Extension
import LogicMachine.Search.Reactivation

/-!
# Backlinks

A store notes for every unbound variable which constraints mention it once bindings are followed.
The notes are made when a constraint is posted. When a unification binds variables, the notes under
each of them are handed over to the variables of its value, so that they stay exact.
-/

namespace LogicMachine.Store

variable {P : Constraint → Prop} {st st' : Store} {s : Subst} {c d : Constraint}
  {cs : List Constraint} {v w : Var} {vs : List Var} {t : Term} {u : Unifier}

/-! ### Making notes -/

/-- Noting a constraint under several variables touches neither the live constraints nor the
history. -/
theorem SameButNotes.connectAll (st : Store) (vs : List Var) (c : Constraint) :
    SameButNotes st (st.connectAll vs c) :=
  foldl (f := fun st v => st.connect v c) (fun _ _ => ⟨rfl, rfl⟩) st vs

/-- Nor does noting it under all variables that its arguments lead to. -/
theorem SameButNotes.connectArgs (st : Store) (s : Subst) (c : Constraint) :
    SameButNotes st (st.connectArgs s c) :=
  foldl (fun st arg => connectAll st (s.unboundVars arg) c) st c.args

/-- The store has noted constraints with the property only, and they have different serial
numbers. -/
structure NotesOnly (P : Constraint → Prop) (st : Store) : Prop where
  indexed : st.Indexed
  distinct : ∀ c d, P c → P d → c.serial = d.serial → c = d
  noted : ∀ v, ∀ c ∈ st.backlinks v, P c

namespace NotesOnly

/-- Where serial numbers tell constraints apart, noting one replaces no other. -/
theorem mem_connect (h : NotesOnly P st) (hc : P c) :
    d ∈ (st.connect v c).backlinks w ↔ d ∈ st.backlinks w ∨ d = c ∧ w = v := by
  rw [h.indexed.mem_backlinks_connect]
  constructor
  · rintro (⟨rfl, rfl⟩ | ⟨hd, -⟩)
    · exact .inr ⟨rfl, rfl⟩
    · exact .inl hd
  · rintro (hd | ⟨rfl, rfl⟩)
    · by_cases hsame : v = w ∧ d.serial = c.serial
      · exact .inl ⟨hsame.1, h.distinct d c (h.noted w d hd) hc hsame.2⟩
      · exact .inr ⟨hd, hsame⟩
    · exact .inl ⟨rfl, rfl⟩

/-- A note of a constraint with the property keeps all notes of that kind. -/
theorem connect (h : NotesOnly P st) (hc : P c) (v : Var) : NotesOnly P (st.connect v c) where
  indexed := h.indexed.connect v c
  distinct := h.distinct
  noted w d hd := by
    rcases (h.mem_connect hc).mp hd with hd | ⟨rfl, -⟩
    · exact h.noted w d hd
    · exact hc

/-- The same for notes under several variables. -/
theorem connectAll (h : NotesOnly P st) (hc : P c) (vs : List Var) :
    NotesOnly P (st.connectAll vs c) :=
  vs.foldlRecOn _ h fun _ h v _ => h.connect hc v

/-- The constraint is then noted under each of these variables, and all older notes remain. -/
theorem mem_connectAll (h : NotesOnly P st) (hc : P c) :
    d ∈ (st.connectAll vs c).backlinks w ↔ d ∈ st.backlinks w ∨ d = c ∧ w ∈ vs := by
  induction vs generalizing st with
  | nil => simp [Store.connectAll]
  | cons v vs ih =>
    rw [Store.connectAll, List.foldl_cons, ← Store.connectAll, ih (h.connect hc v),
      h.mem_connect hc, List.mem_cons, and_or_left, or_assoc]

/-- Noting several constraints under the same variables. -/
theorem foldl_connectAll (h : NotesOnly P st) (hcs : ∀ c ∈ cs, P c) (vs : List Var) :
    NotesOnly P (cs.foldl (fun st c => st.connectAll vs c) st) :=
  cs.foldlRecOn _ h fun _ h c hc => h.connectAll (hcs c hc) vs

/-- Each of the constraints is then noted under each of the variables, and all older notes remain.
-/
theorem mem_foldl_connectAll (h : NotesOnly P st) (hcs : ∀ c ∈ cs, P c) :
    d ∈ (cs.foldl (fun st c => st.connectAll vs c) st).backlinks w ↔
      d ∈ st.backlinks w ∨ d ∈ cs ∧ w ∈ vs := by
  induction cs generalizing st with
  | nil => simp
  | cons c cs ih =>
    rw [List.forall_mem_cons] at hcs
    rw [List.foldl_cons, ih (h.connectAll hcs.1 vs) hcs.2, h.mem_connectAll hcs.1, List.mem_cons,
      or_and_right, or_assoc]

/-- Noting a constraint under all that its arguments lead to keeps the notes of that kind. -/
theorem connectArgs (h : NotesOnly P st) (hc : P c) (s : Subst) :
    NotesOnly P (st.connectArgs s c) :=
  c.args.foldlRecOn _ h fun _ h arg _ => h.connectAll hc (s.unboundVars arg)

/-- The constraint is then noted under the unbound variables that its arguments lead to. -/
theorem mem_connectArgs (h : NotesOnly P st) (hc : P c) :
    d ∈ (st.connectArgs s c).backlinks w ↔
      d ∈ st.backlinks w ∨ d = c ∧ ∃ a ∈ c.args, w ∈ s.unboundVars a := by
  rw [Store.connectArgs]
  generalize c.args = args
  induction args generalizing st with
  | nil => simp
  | cons a args ih =>
    rw [List.foldl_cons, ih (h.connectAll hc (s.unboundVars a)), h.mem_connectAll hc, or_assoc,
      ← and_or_left, List.exists_mem_cons_iff]

/-- Fewer notes are still notes of that kind only. -/
theorem takeBacklinks (h : NotesOnly P st) (v : Var) : NotesOnly P (st.takeBacklinks v).2 where
  indexed := h.indexed.takeBacklinks v
  distinct := h.distinct
  noted w c hc := h.noted w c (mem_backlinks_takeBacklinks.mp hc).1

end NotesOnly

/-! ### Handing notes over -/

/-- Handing over, whether or not anything has been noted under the variable. -/
theorem handOver_eq (s : Subst) (st : Store) (affected : Std.TreeMap Nat Constraint)
    (binding : Var × Term) :
    handOver s (st, affected) binding =
      ((st.backlinks binding.1).foldl (fun st c => st.connectAll (s.unboundVars binding.2) c)
        (st.takeBacklinks binding.1).2,
        (st.backlinks binding.1).foldl (fun affected c => affected.insert c.serial c) affected) := by
  rw [← takeBacklinks_getD]
  simp only [handOver, takeBacklinks]
  cases st.mentions[binding.1]? <;> rfl

/-- Handing the notes of one variable over changes only the notes. -/
theorem SameButNotes.handOver (s : Subst) (acc : Store × Std.TreeMap Nat Constraint)
    (binding : Var × Term) : SameButNotes acc.1 (Store.handOver s acc binding).1 := by
  rw [handOver_eq]
  exact (takeBacklinks acc.1 binding.1).trans
    (foldl (fun st c => connectAll st (s.unboundVars binding.2) c) _ _)

/-- So no unification makes a constraint live or ends one, and it fires nothing by itself. -/
theorem SameButNotes.handOverAll (st : Store) (s : Subst) (bindings : List (Var × Term)) :
    SameButNotes st (st.handOverAll s bindings).1 :=
  bindings.foldlRecOn (motive := fun acc => SameButNotes st acc.1) (Store.handOver s) (refl st)
    fun _ h binding _ => h.trans (handOver s _ binding)

/-- The store and the constraints affected so far, while notes are being handed over. -/
structure HandingOver (P : Constraint → Prop) (acc : Store × Std.TreeMap Nat Constraint) :
    Prop where
  notes : NotesOnly P acc.1
  indexed : Constraint.Indexed acc.2
  affected : ∀ c ∈ acc.2.values, P c

/-- Collecting affected constraints puts each under its own number. -/
theorem foldl_insert {m : Std.TreeMap Nat Constraint} (hm : Constraint.Indexed m)
    (cs : List Constraint) :
    Constraint.Indexed (cs.foldl (fun m c => m.insert c.serial c) m) :=
  cs.foldlRecOn _ hm fun _ h c _ => h.insert c

/-- What is collected are the constraints that were there and the new ones: none replaces another.
-/
theorem mem_foldl_insert {m : Std.TreeMap Nat Constraint} (hm : Constraint.Indexed m)
    (hdistinct : ∀ c d, P c → P d → c.serial = d.serial → c = d) (hP : ∀ c ∈ m.values, P c)
    (hcs : ∀ c ∈ cs, P c) :
    d ∈ (cs.foldl (fun m c => m.insert c.serial c) m).values ↔ d ∈ m.values ∨ d ∈ cs := by
  induction cs generalizing m with
  | nil => simp
  | cons c cs ih =>
    rw [List.forall_mem_cons] at hcs
    have hmem : ∀ d, d ∈ (m.insert c.serial c).values ↔ d = c ∨ d ∈ m.values := by
      intro d
      rw [hm.mem_values_insert]
      refine or_congr_right' fun hne => ⟨fun hd => hd.1, fun hd => ⟨hd, fun hserial => hne ?_⟩⟩
      exact hdistinct d c (hP d hd) hcs.1 hserial
    have hP' : ∀ d ∈ (m.insert c.serial c).values, P d := by
      intro d hd
      rcases (hmem d).mp hd with rfl | hd
      · exact hcs.1
      · exact hP d hd
    rw [List.foldl_cons, ih (hm.insert c) hP' hcs.2, hmem, List.mem_cons, or_comm (a := d = c),
      or_assoc]

namespace HandingOver

variable {acc : Store × Std.TreeMap Nat Constraint} {binding : Var × Term}
  {bindings : List (Var × Term)}

/-- Handing over one variable keeps the notes and the affected constraints in order. -/
theorem handOver (h : HandingOver P acc) (s : Subst) (binding : Var × Term) :
    HandingOver P (Store.handOver s acc binding) := by
  rw [handOver_eq]
  have hcs := h.notes.noted binding.1
  refine ⟨(h.notes.takeBacklinks binding.1).foldl_connectAll hcs _, foldl_insert h.indexed _, ?_⟩
  intro c hc
  rcases (mem_foldl_insert h.indexed h.notes.distinct h.affected hcs).mp hc with hc | hc
  · exact h.affected c hc
  · exact hcs c hc

/-- After one binding is handed over, a variable has the notes it had, unless it is the bound one,
and those of the bound one if the value leads to it. -/
theorem mem_handOver (h : HandingOver P acc) :
    c ∈ (Store.handOver s acc binding).1.backlinks v ↔
      c ∈ acc.1.backlinks v ∧ binding.1 ≠ v ∨
        c ∈ acc.1.backlinks binding.1 ∧ v ∈ s.unboundVars binding.2 := by
  rw [handOver_eq]
  rw [(h.notes.takeBacklinks binding.1).mem_foldl_connectAll (h.notes.noted binding.1),
    mem_backlinks_takeBacklinks]

/-- Handing a variable over affects the constraints that were noted under it. -/
theorem mem_affected_handOver (h : HandingOver P acc) :
    c ∈ (Store.handOver s acc binding).2.values ↔
      c ∈ acc.2.values ∨ c ∈ acc.1.backlinks binding.1 := by
  rw [handOver_eq]
  exact mem_foldl_insert h.indexed h.notes.distinct h.affected (h.notes.noted binding.1)

/-- Handing over any number of bindings keeps everything in order. -/
theorem foldl (h : HandingOver P acc) (s : Subst) (bindings : List (Var × Term)) :
    HandingOver P (bindings.foldl (Store.handOver s) acc) :=
  bindings.foldlRecOn _ h fun _ h binding _ => h.handOver s binding

/-! Bindings that hold in `s` are handed over, so nothing is ever noted under a bound variable. -/

variable (hs : s.Acyclic)

include hs

/-- No notes move to a bound variable, because none is reached by following a value. -/
theorem mem_handOver_bound (h : HandingOver P acc) (hv : s.get? v = some t) :
    c ∈ (Store.handOver s acc binding).1.backlinks v ↔
      c ∈ acc.1.backlinks v ∧ binding.1 ≠ v := by
  rw [h.mem_handOver, or_iff_left]
  rintro ⟨-, hmem⟩
  have hnone := (hs.mem_unboundVars_iff.mp hmem).1
  rw [hv] at hnone
  cases hnone

/-- Over a whole list of bindings, a bound variable keeps its notes until its own turn comes. -/
theorem mem_foldl_bound (h : HandingOver P acc) (hv : s.get? v = some t) :
    c ∈ (bindings.foldl (Store.handOver s) acc).1.backlinks v ↔
      c ∈ acc.1.backlinks v ∧ ∀ b ∈ bindings, b.1 ≠ v := by
  induction bindings generalizing acc with
  | nil => simp
  | cons b bs ih =>
    rw [List.foldl_cons, ih (h.handOver s b), h.mem_handOver_bound hs hv, List.forall_mem_cons,
      and_assoc]

/-- What has been noted under one of the variables is noted under the variables of its value. -/
theorem mem_foldl_unbound (h : HandingOver P acc) (hbound : ∀ b ∈ bindings, s.get? b.1 = some b.2)
    (hv : s.get? v = none) :
    c ∈ (bindings.foldl (Store.handOver s) acc).1.backlinks v ↔
      c ∈ acc.1.backlinks v ∨ ∃ b ∈ bindings, c ∈ acc.1.backlinks b.1 ∧ v ∈ s.unboundVars b.2 := by
  induction bindings generalizing acc with
  | nil => simp
  | cons b bs ih =>
    rw [List.forall_mem_cons] at hbound
    have hne : b.1 ≠ v := by
      rintro rfl
      rw [hbound.1] at hv
      cases hv
    rw [List.foldl_cons, ih (h.handOver s b) hbound.2, h.mem_handOver, and_iff_left hne, or_assoc,
      List.exists_mem_cons_iff]
    refine or_congr_right (or_congr_right' fun hnot => ?_)
    constructor
    · rintro ⟨b', hb', hc, hmem⟩
      exact ⟨b', hb', ((h.mem_handOver_bound hs (hbound.2 b' hb')).mp hc).1, hmem⟩
    · rintro ⟨b', hb', hc, hmem⟩
      refine ⟨b', hb', (h.mem_handOver_bound hs (hbound.2 b' hb')).mpr ⟨hc, fun hsame => ?_⟩, hmem⟩
      -- the same variable has the same value, so that the note has been handed over before
      have hvalue := hbound.2 b' hb'
      rw [← hsame, hbound.1, Option.some_inj] at hvalue
      exact hnot ⟨hsame ▸ hc, hvalue ▸ hmem⟩

/-- Affected is what has been noted under one of the variables. -/
theorem mem_affected_foldl (h : HandingOver P acc)
    (hbound : ∀ b ∈ bindings, s.get? b.1 = some b.2) :
    c ∈ (bindings.foldl (Store.handOver s) acc).2.values ↔
      c ∈ acc.2.values ∨ ∃ b ∈ bindings, c ∈ acc.1.backlinks b.1 := by
  induction bindings generalizing acc with
  | nil => simp
  | cons b bs ih =>
    rw [List.forall_mem_cons] at hbound
    rw [List.foldl_cons, ih (h.handOver s b) hbound.2, h.mem_affected_handOver, or_assoc,
      List.exists_mem_cons_iff]
    refine or_congr_right (or_congr_right' fun hnot => ?_)
    constructor
    · rintro ⟨b', hb', hc⟩
      exact ⟨b', hb', ((h.mem_handOver_bound hs (hbound.2 b' hb')).mp hc).1⟩
    · rintro ⟨b', hb', hc⟩
      exact ⟨b', hb', (h.mem_handOver_bound hs (hbound.2 b' hb')).mpr
        ⟨hc, fun hsame => hnot (hsame ▸ hc)⟩⟩

end HandingOver

/-! ### Exact notes -/

/-- Enter a new constraint: it is live and noted, and its pass is still to come. -/
def enter (st : Store) (s : Subst) (c : Constraint) : Store := (st.add c).connectArgs s c

/-- Entering a constraint fires no rule yet. -/
theorem hasFired_enter (st : Store) (s : Subst) (c : Constraint) (rule : Nat)
    (serials : List Nat) : (st.enter s c).hasFired rule serials = st.hasFired rule serials :=
  (SameButNotes.connectArgs _ s c).hasFired_eq rule serials

/-- The constraint that is entered is live, and so is what was live before under another number. -/
theorem Indexed.mem_constraints_enter (h : st.Indexed) :
    d ∈ (st.enter s c).constraints ↔ d = c ∨ d ∈ st.constraints ∧ d.serial ≠ c.serial := by
  rw [enter, (SameButNotes.connectArgs _ s c).constraints_eq, h.mem_constraints_add]

/-- The constraints posted so far have different serial numbers, the live ones are among them, and
the store notes under a variable just those that lead to it under `s`. -/
structure Linked (posted : Constraint → Prop) (s : Subst) (st : Store) : Prop where
  indexed : st.Indexed
  distinct : ∀ c d, posted c → posted d → c.serial = d.serial → c = d
  live : ∀ c ∈ st.constraints, posted c
  mem_backlinks_iff : ∀ v c,
    c ∈ st.backlinks v ↔ posted c ∧ ∃ a ∈ c.args, v ∈ s.unboundVars a

namespace Linked

variable {posted : Constraint → Prop}

/-- Of posted constraints, which have different serial numbers, notes replace no other. -/
theorem notes (h : Linked posted s st) : NotesOnly posted st :=
  ⟨h.indexed, h.distinct, fun v c hc => ((h.mem_backlinks_iff v c).mp hc).1⟩

/-- An exact store is a fit start for handing bindings over: nothing is affected yet. -/
theorem handingOver (h : Linked posted s st) : HandingOver posted (st, ∅) :=
  ⟨h.notes, .empty, fun c hc => by cases hc⟩

/-- Before anything has been posted, the empty store is exact under any bindings. -/
theorem empty (s : Subst) : Linked (fun _ => False) s Store.empty where
  indexed := .empty
  distinct _ _ hc := hc.elim
  live _ hc := by cases hc
  mem_backlinks_iff v c := by
    refine ⟨fun hc => ?_, fun hc => hc.1.elim⟩
    have hnone : Store.empty.backlinks v = [] := by
      rw [backlinks, mentionsOf_empty]
      rfl
    rw [hnone] at hc
    cases hc

/-- The constraints affected by bindings are listed by age. -/
theorem pairwise_affected (h : Linked posted s st) (s' : Subst) (bindings : List (Var × Term)) :
    (st.handOverAll s' bindings).2.Pairwise fun c d => c.serial < d.serial := by
  exact (h.handingOver.foldl s' bindings).indexed.pairwise_values

/-- A pass ends constraints and fires rules, but it leaves the notes alone. -/
theorem passed (h : Linked posted s st) (hst : Passed st st') : Linked posted s st' where
  indexed := hst.indexed
  distinct := h.distinct
  live c hc := h.live c (hst.live c hc)
  mem_backlinks_iff v c := by
    rw [backlinks, mentionsOf, hst.mentions]
    exact h.mem_backlinks_iff v c

/-- No live constraint other than itself has the number of a posted one. -/
theorem owns (h : Linked posted s st) (hc : posted c) : st.Owns c :=
  fun d hd => h.distinct d c (h.live d hd) hc

section Enter

variable (h : Linked posted s st) (hnew : ∀ d, posted d → d.serial ≠ c.serial)

include h hnew

/-- A constraint with a new number replaces no live one when it is entered. -/
theorem mem_constraints_enter :
    d ∈ (st.enter s c).constraints ↔ d = c ∨ d ∈ st.constraints := by
  rw [h.indexed.mem_constraints_enter]
  exact or_congr_right ⟨fun hd => hd.1, fun hd => ⟨hd, hnew d (h.live d hd)⟩⟩

/-- A new constraint is noted under the variables that it leads to. -/
theorem enter : Linked (fun d => d = c ∨ posted d) s (st.enter s c) := by
  have hdistinct : ∀ d e, d = c ∨ posted d → e = c ∨ posted e → d.serial = e.serial → d = e := by
    rintro d e (rfl | hd) (rfl | he) hserial
    · rfl
    · exact absurd hserial.symm (hnew e he)
    · exact absurd hserial (hnew d hd)
    · exact h.distinct d e hd he hserial
  have hadd : NotesOnly (fun d => d = c ∨ posted d) (st.add c) :=
    ⟨h.indexed.add c, hdistinct, fun v d hd => .inr (h.notes.noted v d hd)⟩
  refine ⟨(hadd.connectArgs (.inl rfl) s).indexed, hdistinct, fun d hd => ?_, fun v d => ?_⟩
  · exact ((h.mem_constraints_enter hnew).mp hd).imp_right (h.live d)
  · rw [Store.enter, hadd.mem_connectArgs (.inl rfl)]
    have hold : d ∈ (st.add c).backlinks v ↔ posted d ∧ ∃ a ∈ d.args, v ∈ s.unboundVars a :=
      h.mem_backlinks_iff v d
    rw [hold, or_and_right, or_comm]
    exact or_congr_left (and_congr_right fun hd => by rw [hd])

end Enter

section HandOver

variable (h : Linked posted s st) (hs : s.Acyclic) (hs' : u.subst.Acyclic) (hu : s.BoundBy u)

include h hs hs' hu

/-- The constraints that a unification affects are those that lead to a variable it binds. -/
theorem mem_affected_iff :
    c ∈ (st.handOverAll u.subst u.bindings).2 ↔
      posted c ∧ ∃ a ∈ c.args, ¬ s.Untouched u.subst a := by
  have hmem := h.handingOver.mem_affected_foldl hs' (hu.bound) (c := c)
  refine hmem.trans ⟨?_, ?_⟩
  · rintro (hc | ⟨b, hb, hc⟩)
    · cases hc
    · obtain ⟨hposted, a, ha, hba⟩ := (h.mem_backlinks_iff b.1 c).mp hc
      refine ⟨hposted, a, ha, fun huntouched => ?_⟩
      have hnone := huntouched b.1 hba
      rw [hu.bound b hb] at hnone
      cases hnone
  · rintro ⟨hposted, a, ha, htouched⟩
    obtain ⟨v, hv, hbound⟩ : ∃ v ∈ s.unboundVars a, ¬ u.subst.get? v = none := by
      simpa only [Subst.Untouched, not_forall, exists_prop] using htouched
    obtain ⟨value, hvalue⟩ := Option.ne_none_iff_exists'.mp hbound
    exact .inr ⟨_, hu.mem_bindings hs hv hvalue, (h.mem_backlinks_iff v c).mpr ⟨hposted, a, ha, hv⟩⟩

/-- After a unification, the notes are exact for what it has bound. -/
theorem handOverAll : Linked posted u.subst (st.handOverAll u.subst u.bindings).1 := by
  have hstart := h.handingOver
  refine ⟨(hstart.foldl u.subst u.bindings).notes.indexed, h.distinct, fun c hc => ?_,
    fun v c => ?_⟩
  · rw [(SameButNotes.handOverAll st u.subst u.bindings).constraints_eq] at hc
    exact h.live c hc
  cases hv : u.subst.get? v with
  | some value =>
    refine (hstart.mem_foldl_bound hs' hv).trans ⟨?_, ?_⟩
    · rintro ⟨hc, hothers⟩
      obtain ⟨-, a, -, hva⟩ := (h.mem_backlinks_iff v c).mp hc
      exact absurd rfl (hothers _ (hu.mem_bindings hs hva hv))
    · rintro ⟨-, a, -, hva⟩
      rw [(hs'.mem_unboundVars_iff.mp hva).1] at hv
      cases hv
  | none =>
    refine (hstart.mem_foldl_unbound hs' hu.bound hv).trans ⟨?_, ?_⟩
    · rintro (hc | ⟨b, hb, hc, hvb⟩)
      · obtain ⟨hposted, a, ha, hva⟩ := (h.mem_backlinks_iff v c).mp hc
        refine ⟨hposted, a, ha, (hu.extendedBy.mem_unboundVars_iff hs hs').mpr ⟨v, hva, ?_⟩⟩
        rw [Subst.unboundVars_of_unbound hv]
        exact List.mem_cons_self
      · obtain ⟨hposted, a, ha, hba⟩ := (h.mem_backlinks_iff b.1 c).mp hc
        refine ⟨hposted, a, ha, (hu.extendedBy.mem_unboundVars_iff hs hs').mpr ⟨b.1, hba, ?_⟩⟩
        rwa [hs'.unboundVars_of_bound (hu.bound b hb)]
    · rintro ⟨hposted, a, ha, hva⟩
      -- `x` is what the argument led to before, on the way to `v`
      obtain ⟨x, hx, hvx⟩ := (hu.extendedBy.mem_unboundVars_iff hs hs').mp hva
      have hc := (h.mem_backlinks_iff x c).mpr ⟨hposted, a, ha, hx⟩
      cases hxv : u.subst.get? x with
      | none =>
        rw [Subst.unboundVars_of_unbound hxv, List.mem_singleton] at hvx
        exact .inl (hvx ▸ hc)
      | some value =>
        rw [hs'.unboundVars_of_bound hxv] at hvx
        exact .inr ⟨_, hu.mem_bindings hs hx hxv, hc, hvx⟩

end HandOver

end Linked

end LogicMachine.Store
