import LogicMachine.Console.Session
import LogicMachine.Proofs.Search.Suspended

/-!
# The verdict on a query

When a run for some answers has come to its end, the line `false` says that there are none. It is
printed for a search that is exhausted without an answer and without a fault, and for no other
search, as long as any answers were asked for.
-/

namespace LogicMachine

namespace Machine

variable {m : Machine} {st st' : Search} {fuel limit : Nat} {reports : Array Report} {reply : Reply}
  {r r' : Run}

/-- The search is exhausted after some steps, and none of them found an answer or was at fault. -/
def Fruitless (m : Machine) (st : Search) : Prop :=
  ∃ n, (m.after n st).isDone = true ∧ ∀ k < n, (m.step (m.after k st)).result = .ok none

/-- A search that goes on is fruitless if its next step finds nothing and the rest is fruitless. -/
theorem fruitless_iff_step (h : st.isDone = false) :
    m.Fruitless st ↔ (m.step st).result = .ok none ∧ m.Fruitless (m.step st).search := by
  constructor
  · rintro ⟨_ | n, hdone, hquiet⟩
    · rw [after, h] at hdone
      cases hdone
    · refine ⟨hquiet 0 (Nat.succ_pos n), n, m.after_succ_left n st ▸ hdone, fun k hk => ?_⟩
      rw [← after_succ_left]
      exact hquiet (k + 1) (Nat.succ_lt_succ hk)
  · rintro ⟨hfirst, n, hdone, hquiet⟩
    refine ⟨n + 1, by rwa [after_succ_left], fun k hk => ?_⟩
    cases k with
    | zero => exact hfirst
    | succ k =>
      rw [after_succ_left]
      exact hquiet k (Nat.lt_of_succ_lt_succ hk)

/-- A run for the next answer comes back without one exactly if the search is fruitless. -/
theorem result_eq_none_iff (h : m.nextWithin fuel st reports = some (reply, st')) :
    reply.result = none ↔ m.Fruitless st := by
  induction fuel generalizing st reports with
  | zero =>
    rw [nextWithin] at h
    split at h
    · next hdone =>
      cases h
      exact iff_of_true rfl ⟨0, hdone, nofun⟩
    · cases h
  | succ fuel ih =>
    rw [nextWithin] at h
    split at h
    · next hdone =>
      cases h
      exact iff_of_true rfl ⟨0, hdone, nofun⟩
    · next hgoing =>
      rw [Bool.not_eq_true] at hgoing
      rw [fruitless_iff_step hgoing]
      simp only at h
      split at h
      · next hnothing => rw [ih h, hnothing, eq_self, true_and]
      · next s hanswer =>
        cases h
        simp [hanswer]
      · next e hfault =>
        cases h
        simp [hfault]

/-- A run keeps the replies that it has. -/
theorem exists_replies_append (h : m.runWithin fuel limit r = some r') :
    ∃ more, r'.replies = r.replies ++ more := by
  induction limit generalizing r with
  | zero =>
    cases h
    exact ⟨#[], by simp⟩
  | succ limit ih =>
    obtain ⟨replies, st⟩ := r
    rw [runWithin] at h
    split at h
    · cases h
    · next reply st' _ =>
      simp only at h
      split at h
      · obtain ⟨more, hmore⟩ := ih h
        exact ⟨#[reply] ++ more, by simp [hmore]⟩
      · cases h
        exact ⟨#[reply], by simp⟩

end Machine

/-- Only a run without a fault and without an answer is closed by saying that there is none. -/
theorem Closing.of?_eq_noAnswer_iff {count : Nat} {failed done : Bool} :
    Closing.of? count failed done = some .noAnswer ↔ failed = false ∧ count = 0 := by
  cases failed
  · by_cases hcount : count = 0
    · simp [of?, hcount]
    · cases done <;> simp [of?, hcount]
  · simp [of?]

namespace Run

/-- After a solution the closing line does not say that there is none. -/
theorem closing?_of_mem {r : Run} {s : Solution} (h : s ∈ r.solutions) :
    r.closing? ≠ some .noAnswer := by
  intro hclosing
  rw [closing?, Closing.of?_eq_noAnswer_iff] at hclosing
  exact absurd hclosing.2 (Array.size_pos_of_mem h).ne'

/-- A run whose only reply is not an answer. -/
theorem closing?_singleton {reply : Reply} {st : Search}
    (h : ∀ s, reply.result ≠ some (.ok s)) :
    Run.closing? ⟨#[reply], st⟩ = some .noAnswer ↔ reply.result = none := by
  obtain ⟨_ | ⟨e | s⟩, reports⟩ := reply
  · simp [closing?, Closing.of?_eq_noAnswer_iff, ending, solutions]
  · simp [closing?, Closing.of?_eq_noAnswer_iff, ending]
  · exact absurd rfl (h s)

end Run

namespace Machine

variable {m : Machine} {st : Search} {fuel limit : Nat} {r : Run}

/-- The closing of a run says that there is no answer if the search is fruitless, or if no answer
was asked for. -/
theorem closing?_eq_noAnswer_iff (h : m.run? fuel limit st = some r) :
    r.closing? = some .noAnswer ↔ limit = 0 ∨ m.Fruitless st := by
  cases limit with
  | zero =>
    cases h
    exact iff_of_true rfl (.inl rfl)
  | succ limit =>
    rw [run?, runWithin] at h
    split at h
    · cases h
    · next reply st' hreply =>
      rw [← result_eq_none_iff hreply]
      simp only [List.push_toArray, List.nil_append] at h
      split at h
      · next s hanswer =>
        obtain ⟨more, hmore⟩ := exists_replies_append h
        have hmem : s ∈ r.solutions := by
          rw [Run.solutions, hmore]
          exact Array.mem_filterMap.mpr ⟨reply, by simp, by rw [hanswer]; rfl⟩
        simp [Run.closing?_of_mem hmem, hanswer]
      · next hother =>
        cases h
        simp [Run.closing?_singleton hother]

end Machine

namespace Session

/-! ### The line among the others -/

/-- The line that says that there is no answer. No other line begins like it: what follows its two
blanks is set off in a colour of its own. -/
def noAnswerLine : String := "  " ++ Color.yellow.paint "false"

/-- It is not coloured from its first character on. -/
theorem noAnswerLine_ne_paint (c : Color) (text : String) : noAnswerLine ≠ c.paint text := by
  intro h
  simpa [noAnswerLine, Color.paint] using congrArg String.toList h

/-- No other colour is switched on by a sequence that begins like that of yellow. -/
theorem noAnswerLine_ne_indented (c : Color) (hc : c ≠ .yellow) (text rest : String) :
    noAnswerLine ≠ "  " ++ c.paint text ++ rest := by
  intro h
  cases c with
  | yellow => exact hc rfl
  | _ => simpa [noAnswerLine, Color.paint, Color.code] using congrArg String.toList h

/-- The lines about an event are not the verdict. -/
theorem noAnswerLine_not_mem_eventLines (e : Event) (frame : Frame) :
    noAnswerLine ∉ eventLines e frame := by
  intro h
  rw [eventLines, List.mem_cons] at h
  rcases h with h | h
  · simpa [noAnswerLine, Color.paint, ToString.toString] using congrArg String.toList h
  · split at h
    · rw [List.mem_singleton, String.append_assoc] at h
      exact noAnswerLine_ne_indented .darkGray (by decide) _ _ h
    · cases h

/-- Nor are the lines of a solution. -/
theorem noAnswerLine_not_mem_solutionLines (queryVars : List (Var × String)) (s : Solution) :
    noAnswerLine ∉ solutionLines queryVars s := by
  intro h
  rw [solutionLines, List.mem_cons, List.mem_map] at h
  rcases h with h | ⟨text, -, h⟩
  · exact noAnswerLine_ne_indented .green (by decide) _ "" (by rwa [String.append_empty])
  · simpa [noAnswerLine, Color.paint] using congrArg String.toList h

/-- Neither an answer nor a fault nor an event is shown like that. -/
theorem noAnswerLine_not_mem_replyLines (watch : List Event) (queryVars : List (Var × String))
    (reply : Reply) : noAnswerLine ∉ replyLines watch queryVars reply := by
  intro h
  rw [replyLines, List.mem_append, List.mem_flatMap] at h
  rcases h with ⟨⟨e, frame⟩, -, h⟩ | h
  · exact noAnswerLine_not_mem_eventLines e frame h
  · split at h
    · exact noAnswerLine_not_mem_solutionLines queryVars _ h
    · exact noAnswerLine_ne_paint _ _ (List.mem_singleton.mp h)
    · cases h

/-- Of the closing lines, only the one for no answer is the verdict. -/
theorem noAnswerLine_eq_line_iff {c : Closing} :
    noAnswerLine = "  " ++ c.line ↔ c = .noAnswer := by
  cases c with
  | noAnswer => exact iff_of_true rfl rfl
  | stopped count =>
    refine iff_of_false (fun h => ?_) nofun
    exact noAnswerLine_ne_indented .darkGray (by decide) _ "" (by rwa [String.append_empty])

/-- The line is printed only as the closing line. -/
theorem noAnswerLine_mem_demoLines_iff {o : Options} {d : Demo} {r : Run} :
    noAnswerLine ∈ demoLines o d r ↔ r.closing? = some .noAnswer := by
  have hheading := noAnswerLine_ne_paint .boldCyan s!"?- {d.goal}."
  have hreplies : noAnswerLine ∉
      r.replies.toList.flatMap (replyLines (o.watch.getD []) d.queryVars) := by
    rw [List.mem_flatMap]
    rintro ⟨reply, -, h⟩
    exact noAnswerLine_not_mem_replyLines _ _ reply h
  have hblank : noAnswerLine ≠ "" := by decide
  simp only [demoLines, List.mem_append, List.mem_singleton, hheading, hreplies, hblank, false_or,
    or_false, Option.mem_toList, Option.map_eq_some_iff]
  constructor
  · rintro ⟨c, hc, h⟩
    rw [hc, noAnswerLine_eq_line_iff.mp h.symm]
  · exact fun h => ⟨.noAnswer, h, rfl⟩

/-- For every program, query and settings for which the run comes to an end: the line `false` is
printed exactly if the search is exhausted without an answer and without a fault, or if no answer
was asked for. With a limit of no answers the search is not even begun, and the line is printed
whatever it would have found. -/
theorem noAnswer_printed_iff {program : Module} {d : Demo} {o : Options} {fuel : Nat} {r : Run}
    (h : d.run? program o fuel = some r) :
    "  " ++ Color.yellow.paint "false" ∈ demoLines o d r ↔
      o.limit = 0 ∨ (d.machine program o).Fruitless (.start d.query) :=
  noAnswerLine_mem_demoLines_iff.trans (Machine.closing?_eq_noAnswer_iff h)

/-- No list that ends in `0` is empty, as the search finds out, and that is what is printed. -/
theorem noAnswer_printed_iff_append :
    let d : Demo := {
      goal := "append(X, [0], [])"
      names := ["X"]
      code := [.invoke "append" [.register 0, .ofList [.int 0], .ofList []], .success] }
    ∃ r, d.run? Samples.predicates {} 20 = some r ∧
      "  " ++ Color.yellow.paint "false" ∈ demoLines {} d r ∧
      ("  " ++ Color.yellow.paint "false" ∈ demoLines {} d r ↔
        ({} : Options).limit = 0 ∨
          (d.machine Samples.predicates {}).Fruitless (.start d.query)) := by
  intro d
  have hrun : ((d.run? Samples.predicates {} 20).map fun r =>
      decide ("  " ++ Color.yellow.paint "false" ∈ demoLines {} d r)) = some true := by
    decide +kernel
  obtain ⟨r, hr, hprinted⟩ := Option.map_eq_some_iff.mp hrun
  exact ⟨r, hr, of_decide_eq_true hprinted, noAnswer_printed_iff hr⟩

/-- Asked for no answers, the command prints the line for its first sample query, `append(X, Y,
[0, 1])`, although the search for it finds an answer. -/
theorem noAnswer_printed_at_limit_zero :
    let d : Demo := Demo.all.head (List.cons_ne_nil _ _)
    let o : Options := { limit := 0 }
    ∃ r, d.run? Samples.predicates o 0 = some r ∧
      "  " ++ Color.yellow.paint "false" ∈ demoLines o d r ∧
      ¬(d.machine Samples.predicates o).Fruitless (.start d.query) := by
  intro d o
  have hanswer : ((d.machine Samples.predicates o).nextWithin 20 (.start d.query) #[]).map
      (·.1.result.isSome) = some true := by
    decide +kernel
  obtain ⟨⟨reply, st⟩, hreply, hsome⟩ := Option.map_eq_some_iff.mp hanswer
  refine ⟨_, rfl, by decide +kernel, fun hfruitless => ?_⟩
  rw [(Machine.result_eq_none_iff hreply).mpr hfruitless] at hsome
  cases hsome

end Session

end LogicMachine
