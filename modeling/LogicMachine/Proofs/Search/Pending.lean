import LogicMachine.Proofs.ChoicePoints.Occupied
import LogicMachine.Proofs.Search.Memory

/-!
# How many alternatives are pending

The count of the untried alternatives follows the way down from the running branch. Failing again
and again does not stay on that way: it goes on from each branch that comes out, and after a
rotation such a branch may lead through slots that the running branch does not lead to. The count
leaves out the alternatives in these slots. Depth first there are none.
-/

namespace LogicMachine

namespace ChoicePoints

variable {cp : ChoicePoints} {top : Option Nat} {i : Nat} {f : Frame} {fs fs' : List Frame}

/-- The slots that hold an alternative off the way down from a link. -/
def hidden (cp : ChoicePoints) (top : Option Nat) : List Nat :=
  cp.occupied.filter (· ∉ cp.untried top)

/-- Hidden are the alternatives in slots that the link does not lead to. -/
theorem Used.mem_hidden (h : cp.Used top) :
    i ∈ cp.hidden top ↔ cp.isUntried i = true ∧ ¬cp.Leads top i := by
  rw [hidden, List.mem_filter, mem_occupied, decide_eq_true_iff, h.mem_untried, not_and]
  exact and_congr_right fun hi => ⟨fun hlead => hlead hi, fun hlead _ => hlead⟩

/-- What is held is on the way down or hidden. -/
theorem Used.length_held (h : cp.Used top) :
    cp.held.length = (cp.untried top).length + (cp.hidden top).length := by
  have hsplit := List.length_eq_length_filter_add (l := cp.occupied) (· ∈ cp.untried top)
  have hperm : (cp.occupied.filter (· ∈ cp.untried top)).Perm (cp.untried top) := by
    refine (List.perm_ext_iff_of_nodup (cp.nodup_occupied.filter _) h.nodup_untried).mpr fun i => ?_
    rw [List.mem_filter, decide_eq_true_iff, and_iff_right_iff_imp]
    exact fun hi => h.subperm_untried.subset hi
  rw [← length_occupied, hsplit, hperm.length_eq, hidden]
  simp only [decide_not]

/-- While every alternative is in the slot that it was saved in, a branch leads to all of them. -/
theorem Sound.leads_of_upright (h : cp.Sound top) (hup : cp.Upright)
    (hi : cp.isUntried i = true) : cp.Leads top i := by
  obtain ⟨f, hf⟩ := isUntried_eq_true_iff.mp hi
  have hreaches := h.reaches hf
  clear hi hf
  induction hreaches with
  | direct hlead => exact hlead
  | @through j k g _ hg hlead ih =>
    rw [hup j g hg] at hlead
    obtain ⟨pre, l, hl⟩ := ih.split
    obtain ⟨l', hl', hk⟩ := hlead
    obtain rfl := (hl.drop (l := j :: l)).unique hl'
    exact ⟨_, hl, List.mem_append_right _ hk⟩

/-- Depth first nothing is hidden. -/
theorem Sound.hidden_of_upright (h : cp.Sound top) (hup : cp.Upright) : cp.hidden top = [] := by
  refine List.eq_nil_iff_forall_not_mem.mpr fun i hi => ?_
  obtain ⟨huntried, hlead⟩ := h.used.mem_hidden.mp hi
  exact hlead (h.leads_of_upright hup huntried)

/-- There is only one way to fail again and again. -/
theorem HandsOut.unique (h : cp.HandsOut f fs) (h' : cp.HandsOut f fs') : fs = fs' := by
  induction h generalizing fs' with
  | nil hfail =>
    cases h' with
    | nil => rfl
    | cons hfail' =>
      rw [hfail'] at hfail
      cases hfail
  | cons hfail _ ih =>
    cases h' with
    | nil hfail' =>
      rw [hfail] at hfail'
      cases hfail'
    | cons hfail' hrest' =>
      rw [hfail] at hfail'
      obtain ⟨rfl, rfl⟩ : _ ∧ _ := by simpa only [Prod.mk.injEq, Option.some.injEq] using hfail'
      rw [ih hrest']

end ChoicePoints

namespace Machine

open ChoicePoints

variable {m : Machine} {q : Query} {n : Nat} {f : Frame}

/-- Whatever the strategy, after any number of steps: failing again and again hands out the pending
alternatives and the hidden ones, which are those that are untried off the way down from the running
branch. Nothing is hidden depth first, nor when nothing is pending. -/
theorem pending_after (hf : (m.after n (.start q)).frame = some f) :
    let cp := (m.after n (.start q)).shared.choices
    (∃ fs, cp.HandsOut f fs) ∧
      (∀ fs, cp.HandsOut f fs →
        fs.length = (m.after n (.start q)).pending + (cp.hidden f.alt).length ∧
          ((m.after n (.start q)).pending = 0 → fs = [])) ∧
      (∀ i, i ∈ cp.hidden f.alt ↔ cp.isUntried i = true ∧ ¬cp.Leads f.alt i) ∧
      (m.strategy = .depthFirst → cp.hidden f.alt = []) := by
  intro cp
  have hsound : cp.Sound f.alt := m.sound_after_of_frame hf
  have hpending : (m.after n (.start q)).pending = (cp.untried f.alt).length := by
    rw [Search.pending, hf]
    rfl
  obtain ⟨fs, hfs, hperm⟩ := hsound.handsOut
  refine ⟨⟨fs, hfs⟩, fun fs' hfs' => ?_, fun i => hsound.used.mem_hidden, fun hm => ?_⟩
  · obtain rfl := hfs.unique hfs'
    refine ⟨?_, fun hzero => ?_⟩
    · rw [hperm.length_eq, hpending]
      exact hsound.used.length_held
    · rw [hpending, List.length_eq_zero_iff] at hzero
      have hnone : cp.innermost? f.alt = none := by rw [← head?_untried, hzero]; rfl
      rw [hsound.held_eq_nil hnone] at hperm
      exact hperm.eq_nil
  · exact hsound.hidden_of_upright ((m.thrifty_after q n).1.upright hm)

/-- Depth first, two bits are looked for: two alternatives are pending, and two are handed out. -/
theorem pending_after_bits :
    let m : Machine := { program := Samples.predicates }
    let q : Query := .ofCode 2 [.invoke "bits" [.register 0, .register 1], .success]
    ∃ f fs, (m.after 9 (.start q)).frame = some f ∧
      (m.after 9 (.start q)).shared.choices.HandsOut f fs ∧
      fs.length = 2 ∧ (m.after 9 (.start q)).pending = 2 := by
  intro m q
  have hrunning : (m.after 9 (.start q)).frame.isSome = true := by decide +kernel
  have hpending : (m.after 9 (.start q)).pending = 2 := by decide +kernel
  obtain ⟨f, hf⟩ := Option.isSome_iff_exists.mp hrunning
  obtain ⟨⟨fs, hfs⟩, hall, -, hhidden⟩ := m.pending_after hf
  obtain ⟨hlength, -⟩ := hall fs hfs
  rw [hpending, hhidden rfl] at hlength
  exact ⟨f, fs, hf, hfs, hlength, hpending⟩

/-- Interleaved, three choices and an answer: what comes out of the rotation leads to one slot only,
and the alternative in it leads to another. One alternative is pending, but two are handed out. -/
theorem pending_misses :
    let m : Machine := { strategy := .interleaved }
    let q : Query := .ofCode 0 [.choice 2, .choice 1, .choice 0, .success]
    (m.after 4 (.start q)).pending = 1 ∧
      ∃ f, (m.after 4 (.start q)).frame = some f ∧
        (∃ fs, (m.after 4 (.start q)).shared.choices.HandsOut f fs) ∧
        ∀ fs, (m.after 4 (.start q)).shared.choices.HandsOut f fs → fs.length = 2 := by
  intro m q
  have hrunning : (m.after 4 (.start q)).frame.isSome = true := by decide +kernel
  have hheld : (m.after 4 (.start q)).shared.choices.held.length = 2 := by decide +kernel
  obtain ⟨f, hf⟩ := Option.isSome_iff_exists.mp hrunning
  obtain ⟨fs, hfs, hperm⟩ := (m.sound_after_of_frame hf).handsOut
  refine ⟨by decide +kernel, f, hf, ⟨fs, hfs⟩, fun fs' hfs' => ?_⟩
  rw [hfs'.unique hfs, hperm.length_eq, hheld]

end Machine

end LogicMachine
