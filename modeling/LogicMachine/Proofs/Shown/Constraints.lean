import LogicMachine.Proofs.Shown.Naming

/-!
# Constraints shown like compounds

A constraint is written like the compound of its name and its arguments, with the same names for the
open variables. Only the parentheses can differ: a constraint goes without them when nothing would
be seen between them, which is also the case when its only argument has an empty text.
-/

namespace LogicMachine

variable {s : Subst} {n : Names} {v : Var} {t : Term}

/-! ### Empty texts -/

/-- Between two items there is a comma, so only an empty item by itself leaves nothing to see. -/
theorem commaSeparated_eq_empty_iff {items : List String} :
    commaSeparated items = "" ↔ items = [] ∨ items = [""] := by
  match items with
  | [] => simp [commaSeparated]
  | [item] => simp [commaSeparated]
  | a :: b :: items =>
    have hcomma : commaSeparated (a :: b :: items) ≠ "" := by
      intro h
      rw [commaSeparated, String.intercalate_cons_cons] at h
      simpa using congrArg String.toList h
    simp [hcomma]

/-- A compound without a text has no arguments, since there would be parentheses around them. -/
theorem applied_eq_empty_iff {head : String} {args : List String} :
    applied head args = "" ↔ head = "" ∧ args = [] := by
  cases args with
  | nil => simp [applied]
  | cons a args =>
    have hparens : applied head (a :: args) ≠ "" := by
      intro h
      simpa [applied] using congrArg String.toList h
    simp [hparens]

/-- Operators have symbols, so only the empty name leaves nothing to see. -/
theorem Functor.render_eq_empty_iff {f : Functor} : f.render = "" ↔ f = .named "" := by
  cases f with
  | named name => simp [render]
  | builtin b => cases b <;> simp [render, Builtin.symbol]

/-- Of a text at least the quotes are seen. -/
theorem Text.quote_ne_empty (text : String) : Text.quote text ≠ "" := by
  intro h
  simpa [Text.quote] using congrArg String.toList h

/-- Of an integer at least one digit is seen. -/
theorem int_repr_ne_empty (i : Int) : i.repr ≠ "" := by
  intro h
  cases i with
  | ofNat m =>
    have hdigits : String.ofList (Nat.toDigits 10 m) = "" := by
      rw [← Nat.toString_eq_ofList_toDigits]
      exact h
    simpa using congrArg String.toList hdigits
  | negSucc m =>
    have hsign : "-" ++ m.succ.repr = "" := h
    simpa using congrArg String.toList hsign

/-- Nothing is seen of a variable with an empty name and of the atom with an empty name, and of
nothing else. -/
theorem Term.renderWith_eq_empty_iff {name : Var → String} :
    t.renderWith name = "" ↔ (∃ v, t = .var v ∧ name v = "") ∨ t = atom "" := by
  cases t with
  | var v => simp [renderWith, atom, app]
  | int i => simp [renderWith, int_repr_ne_empty, atom, app]
  | text text => simp [renderWith, Text.quote_ne_empty, atom, app]
  | compound f args => simp [applied_eq_empty_iff, Functor.render_eq_empty_iff, atom, app]

namespace Names

/-- A name that is made up is not empty. -/
theorem nameOf_mention_eq_empty_iff : (n.mention v).nameOf v = "" ↔ n.given[v]? = some "" := by
  cases hv : n.given[v]? with
  | none =>
    have hnew : v ∉ n.given := fun hmem => by
      obtain ⟨name, hname⟩ := mem_iff_exists.mp hmem
      rw [hv] at hname
      cases hname
    have hmade : (n.mention v).given[v]? = some (generated n.given.size) := by
      rw [getElem?_mention, if_pos ⟨rfl, hnew⟩]
    rw [nameOf_of_getElem? hmade]
    simp [generated]
  | some name =>
    rw [nameOf_of_getElem? (keptIn_mention n v v name hv), Option.some_inj]

/-- Nothing is seen of a term exactly if it stands for a variable that was given the empty name, or
for the atom with an empty name. -/
theorem write_eq_empty_iff : (n.write s t).1 = "" ↔
    (∃ v, s.resolve t = .var v ∧ n.given[v]? = some "") ∨ s.resolve t = .atom "" := by
  rw [write, Term.renderWith_eq_empty_iff]
  refine or_congr_left (exists_congr fun v => and_congr_right fun hv => ?_)
  rw [hv, Term.vars_var]
  exact nameOf_mention_eq_empty_iff

/-- A compound with a named functor is never evaluated, so its arguments are written one after
another, each with the names that the ones before it left. -/
theorem write_app (s : Subst) (n : Names) (name : String) (args : List Term) :
    n.write s (.app name args) =
      (applied name (n.writeAll s args).1, (n.writeAll s args).2) := by
  have hresolve : s.resolve (.app name args) = .app name (args.map s.resolve) := by
    rw [Term.app, Subst.resolve_compound]
    rfl
  have hnames : (n.write s (.app name args)).2 = (n.writeAll s args).2 := by
    rw [writeAll, (steady_write s).names_writeEach, write, hresolve, Term.app, Term.vars_compound,
      List.flatMap_map]
  have htexts := (steady_write s).texts_writeEach n args
  refine Prod.ext ?_ hnames
  rw [(steady_write s).text, hnames, hresolve, Term.app, Term.renderWith_compound, List.map_map,
    Functor.render, writeAll, htexts]
  rfl

/-- One text comes of one item. -/
theorem writeEach_eq_singleton {α : Type} {f : Names → α → String × Names} {as : List α}
    {text : String} : (writeEach f n as).1 = [text] ↔ ∃ a, as = [a] ∧ (f n a).1 = text := by
  match as with
  | [] => simp [writeEach]
  | [a] => simp [writeEach]
  | a :: b :: as => simp [writeEach]

end Names

namespace Constraint

/-- The texts of the arguments decide on the parentheses. -/
theorem write_of_ne {c : Constraint} (h : (n.writeAll s c.args).1 ≠ [""]) :
    (c.write s n).1 = applied c.sig.name (n.writeAll s c.args).1 := by
  rw [write, applied]
  cases htexts : (n.writeAll s c.args).1 with
  | nil => simp [htexts, commaSeparated]
  | cons a texts =>
    have hinside : commaSeparated (a :: texts) ≠ "" := by
      rw [Ne, commaSeparated_eq_empty_iff, ← htexts, not_or]
      exact ⟨by simp [htexts], h⟩
    simp [htexts, hinside]

/-- With a single empty text there are no parentheses either. -/
theorem write_of_eq {c : Constraint} (h : (n.writeAll s c.args).1 = [""]) :
    (c.write s n).1 = c.sig.name := by
  simp [write, h, commaSeparated]

/-- A constraint is written like the compound of its name and its arguments, and leaves the same
names, unless its only argument is seen as nothing: a variable that was given the empty name, or the
atom with an empty name. Then the compound has its parentheses and the constraint has not. -/
theorem write_eq_iff (s : Subst) (n : Names) (c : Constraint) :
    let call := n.write s (.app c.sig.name c.args)
    let unseen := ∃ t, c.args = [t] ∧
      ((∃ v, s.resolve t = .var v ∧ n.given[v]? = some "") ∨ s.resolve t = .atom "")
    (c.write s n).2 = call.2 ∧
      ((c.write s n).1 = call.1 ↔ ¬unseen) ∧
      (unseen ↔ (c.write s n).1 = c.sig.name ∧ call.1 = c.sig.name ++ "()") := by
  intro call unseen
  have hcall : call = (applied c.sig.name (n.writeAll s c.args).1, (n.writeAll s c.args).2) :=
    n.write_app s c.sig.name c.args
  have hunseen : unseen ↔ (n.writeAll s c.args).1 = [""] := by
    rw [Names.writeAll, Names.writeEach_eq_singleton]
    exact exists_congr fun t => and_congr_right fun _ => Names.write_eq_empty_iff.symm
  have hparens : c.sig.name ≠ c.sig.name ++ "()" := by
    intro h
    simpa using congrArg String.length h
  refine ⟨by rw [hcall]; rfl, ?_⟩
  rw [hunseen, hcall]
  by_cases hblank : (n.writeAll s c.args).1 = [""]
  · have hconstraint := write_of_eq hblank
    have hcompound : applied c.sig.name [""] = c.sig.name ++ "()" := by
      simp [applied, commaSeparated, String.append_assoc]
    simp [hblank, hconstraint, hcompound, hparens]
  · have hsame := write_of_ne hblank
    have hapart : ¬((c.write s n).1 = c.sig.name ∧
        applied c.sig.name (n.writeAll s c.args).1 = c.sig.name ++ "()") := by
      rw [hsame]
      exact fun h => hparens (h.1.symm.trans h.2)
    exact ⟨iff_of_true hsame hblank, iff_of_false hblank hapart⟩

/-- The constraint `p` over the atom with an empty name is written `p`, and the compound `p()`. -/
theorem write_ne_of_empty_atom :
    let c : Constraint := ⟨1, ⟨"p", 1⟩, [.atom ""]⟩
    (c.write .empty .empty).1 = "p" ∧
      (Names.empty.write .empty (.app c.sig.name c.args)).1 = "p()" ∧
      (c.write .empty .empty).1 ≠ (Names.empty.write .empty (.app c.sig.name c.args)).1 := by
  decide +kernel

end Constraint

end LogicMachine
