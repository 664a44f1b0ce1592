import Mathlib.Data.Set.Finite.Basic
import Mathlib.Data.Set.Finite.Lattice
import LogicMachine.Constraint.Basic
import LogicMachine.Proofs.Subst.Evaluated

/-!
# Names that tell variables apart

Terms and constraints that are shown one after another share their names. No name that was made up
is made up again, and names given up front are different from one another; only a given name that
looks like one that is still to be made up can come to stand for two variables.
-/

namespace LogicMachine

/-- Only the names of the variables in a term matter for its text. -/
theorem Term.renderWith_congr {t : Term} {name name' : Var → String}
    (h : ∀ v ∈ t.vars, name v = name' v) : t.renderWith name = t.renderWith name' := by
  induction t with
  | var v => exact h v (by simp)
  | int i => rw [renderWith, renderWith]
  | text s => rw [renderWith, renderWith]
  | compound f args ih =>
    have hargs : ∀ a ∈ args, a.renderWith name = a.renderWith name' := fun a ha =>
      ih a ha fun v hv => h v (by simpa using ⟨a, ha, hv⟩)
    rw [renderWith_compound, renderWith_compound, List.map_congr_left hargs]

namespace Names

variable {n n' base : Names} {v w : Var} {s : Subst}

/-- The name made up for a variable when there are `k` names. -/
def generated (k : Nat) : String := "V" ++ toString k

/-- Names that are made up at different times are different, because their numbers are. -/
theorem generated_injective : Function.Injective generated := by
  intro i j h
  have hdigits := (String.append_right_inj "V").mp h
  rw [Nat.toString_eq_ofList_toDigits, Nat.toString_eq_ofList_toDigits, String.ofList_inj]
    at hdigits
  rw [← Nat.ofDigitChars_ten_toDigits (n := i), hdigits, Nat.ofDigitChars_ten_toDigits]

/-! ### Mentioning variables -/

/-- A variable is named when a name is on record for it. -/
theorem mem_iff_exists : v ∈ n.given ↔ ∃ name, n.given[v]? = some name := by
  rw [Std.TreeMap.mem_iff_isSome_getElem?, Option.isSome_iff_exists]

/-- The name on record is the one that is shown. -/
theorem nameOf_of_getElem? {name : String} (h : n.given[v]? = some name) : n.nameOf v = name := by
  rw [nameOf, Std.TreeMap.getD_eq_getD_getElem?, h, Option.getD_some]

/-- To mention a variable gives it a name, if it has none, and changes no other one. -/
theorem getElem?_mention (n : Names) (v w : Var) :
    (n.mention v).given[w]? =
      if v = w ∧ v ∉ n.given then some (generated n.given.size) else n.given[w]? := by
  simp only [mention, Std.TreeMap.getElem?_insertIfNew, Nat.compare_eq_eq, generated]

/-- A new variable adds one name. -/
theorem size_mention (n : Names) (v : Var) :
    (n.mention v).given.size = if v ∈ n.given then n.given.size else n.given.size + 1 := by
  rw [mention, Std.TreeMap.size_insertIfNew]

/-- After a variable is mentioned, it is named, and so is whatever was. -/
theorem mem_mention : w ∈ (n.mention v).given ↔ v = w ∨ w ∈ n.given := by
  rw [mention, Std.TreeMap.mem_insertIfNew, Nat.compare_eq_eq]

/-- Every name of `n` is kept in `n'`. -/
def KeptIn (n n' : Names) : Prop :=
  ∀ (v : Var) (name : String), n.given[v]? = some name → n'.given[v]? = some name

/-- A variable that was named goes on being shown by the same name. -/
theorem KeptIn.nameOf (h : n.KeptIn n') (hv : v ∈ n.given) : n'.nameOf v = n.nameOf v := by
  obtain ⟨name, hname⟩ := mem_iff_exists.mp hv
  rw [nameOf_of_getElem? hname, nameOf_of_getElem? (h v name hname)]

/-- To mention a variable takes no name away. -/
theorem keptIn_mention (n : Names) (v : Var) : n.KeptIn (n.mention v) := by
  intro w name hw
  rw [getElem?_mention, if_neg, hw]
  rintro ⟨rfl, hv⟩
  exact hv (mem_iff_exists.mpr ⟨name, hw⟩)

/-- To mention several variables takes no name away. -/
theorem keptIn_mentionAll (n : Names) (vs : List Var) : n.KeptIn (vs.foldl mention n) := by
  induction vs generalizing n with
  | nil => exact fun w name hw => hw
  | cons v vs ih => exact fun w name hw => ih (n.mention v) w name (keptIn_mention n v w name hw)

/-- Named are then the variables mentioned, and those that were named before. -/
theorem mem_mentionAll (n : Names) (vs : List Var) :
    v ∈ (vs.foldl mention n).given ↔ v ∈ vs ∨ v ∈ n.given := by
  induction vs generalizing n with
  | nil => simp
  | cons w vs ih =>
    rw [List.foldl_cons, ih, mem_mention, List.mem_cons, eq_comm, or_left_comm, or_assoc]

/-- Each of several new variables adds one name. -/
theorem size_mentionAll (n : Names) {vs : List Var} (hvs : vs.Nodup)
    (hnew : ∀ v ∈ vs, v ∉ n.given) :
    (vs.foldl mention n).given.size = n.given.size + vs.length := by
  induction vs generalizing n with
  | nil => rfl
  | cons v vs ih =>
    rw [List.nodup_cons] at hvs
    rw [List.forall_mem_cons] at hnew
    have hrest : ∀ w ∈ vs, w ∉ (n.mention v).given := by
      intro w hw
      rw [mem_mention]
      rintro (rfl | hmem)
      · exact hvs.1 hw
      · exact hnew.2 w hw hmem
    rw [List.foldl_cons, ih _ hvs.2 hrest, size_mention, if_neg hnew.1, List.length_cons]
    omega

/-- Variables that are new get names in the order in which they are mentioned. -/
theorem getElem?_mention_mentionAll (n : Names) {vs : List Var} (hvs : (v :: vs).Nodup)
    (hnew : ∀ w ∈ v :: vs, w ∉ n.given) :
    ((vs.foldl mention n).mention v).given[v]? =
      some (generated (n.given.size + vs.length)) := by
  rw [List.nodup_cons] at hvs
  rw [List.forall_mem_cons] at hnew
  have hv : v ∉ (vs.foldl mention n).given := by
    rw [mem_mentionAll, not_or]
    exact ⟨hvs.1, hnew.1⟩
  rw [getElem?_mention, if_pos ⟨rfl, hv⟩, size_mentionAll n hvs.2 hnew.2]

/-! ### Names that were made up -/

/-- The names `n` come from the names `base` by mentioning variables: what was given up front is
still there, and a name made up since then has the number of the names before it. -/
structure Grown (base n : Names) : Prop where
  kept : base.KeptIn n
  size_le : base.given.size ≤ n.given.size
  made {v : Var} {name : String} (h : n.given[v]? = some name) :
    base.given[v]? = some name ∨
      v ∉ base.given ∧ ∃ i, base.given.size ≤ i ∧ i < n.given.size ∧ name = generated i
  once {v w : Var} (hv : v ∉ base.given) (hw : w ∉ base.given) {name : String}
    (hvn : n.given[v]? = some name) (hwn : n.given[w]? = some name) : v = w

namespace Grown

/-- Where nothing has been mentioned yet, all names were given up front. -/
theorem refl (n : Names) : n.Grown n where
  kept _ _ := id
  size_le := le_rfl
  made := .inl
  once hv _ _ hvn _ := absurd (mem_iff_exists.mpr ⟨_, hvn⟩) hv

/-- The name that is made up next was not made up before. -/
theorem ne_generated (h : base.Grown n) (hv : v ∉ base.given) :
    n.given[v]? ≠ some (generated n.given.size) := by
  intro hname
  rcases h.made hname with hbase | ⟨-, i, -, hi, heq⟩
  · exact hv (mem_iff_exists.mpr ⟨_, hbase⟩)
  · exact absurd (generated_injective heq) (Nat.ne_of_gt hi)

/-- To mention a variable that is named changes nothing. -/
theorem mention_of_mem (h : base.Grown n) (hv : v ∈ n.given) : base.Grown (n.mention v) := by
  have hsize : (n.mention v).given.size = n.given.size := by rw [size_mention, if_pos hv]
  have hsame : ∀ w : Var, (n.mention v).given[w]? = n.given[w]? := fun w => by
    rw [getElem?_mention, if_neg fun h => h.2 hv]
  constructor
  · exact fun w name hw => keptIn_mention n v w name (h.kept w name hw)
  · rw [hsize]
    exact h.size_le
  · simp only [hsame, hsize]
    exact h.made
  · simp only [hsame]
    exact h.once

/-- A new variable is named by the number of names so far, which no made-up name has had. -/
theorem mention_of_not_mem (h : base.Grown n) (hv : v ∉ n.given) :
    base.Grown (n.mention v) := by
  have hsize : (n.mention v).given.size = n.given.size + 1 := by rw [size_mention, if_neg hv]
  have hself : (n.mention v).given[v]? = some (generated n.given.size) := by
    rw [getElem?_mention, if_pos ⟨rfl, hv⟩]
  have hother : ∀ w : Var, v ≠ w → (n.mention v).given[w]? = n.given[w]? := fun w hw => by
    rw [getElem?_mention, if_neg fun h => hw h.1]
  constructor
  · exact fun w name hw => keptIn_mention n v w name (h.kept w name hw)
  · rw [hsize]
    exact Nat.le_succ_of_le h.size_le
  · intro w name hw
    by_cases hvw : v = w
    · subst hvw
      rw [hself, Option.some.injEq] at hw
      have hbase : v ∉ base.given := fun hmem => by
        obtain ⟨name, hname⟩ := mem_iff_exists.mp hmem
        exact hv (mem_iff_exists.mpr ⟨name, h.kept v name hname⟩)
      exact .inr ⟨hbase, n.given.size, h.size_le, by omega, hw.symm⟩
    · rw [hother w hvw] at hw
      refine (h.made hw).imp_right ?_
      rintro ⟨hbase, i, hle, hlt, rfl⟩
      exact ⟨hbase, i, hle, by omega, rfl⟩
  · intro x y hx hy name hxn hyn
    -- The new name is nobody else's, and the others were different before.
    by_cases hvx : v = x <;> by_cases hvy : v = y
    · rw [← hvx, ← hvy]
    · rw [← hvx, hself] at hxn
      rw [hother y hvy, ← hxn] at hyn
      exact absurd hyn (h.ne_generated hy)
    · rw [← hvy, hself] at hyn
      rw [hother x hvx, ← hyn] at hxn
      exact absurd hxn (h.ne_generated hx)
    · rw [hother x hvx] at hxn
      rw [hother y hvy] at hyn
      exact h.once hx hy hxn hyn

/-- So it is for several variables, one after another. -/
theorem mentionAll (h : base.Grown n) (vs : List Var) : base.Grown (vs.foldl mention n) := by
  induction vs generalizing n with
  | nil => exact h
  | cons v vs ih =>
    by_cases hv : v ∈ n.given
    · exact ih (h.mention_of_mem hv)
    · exact ih (h.mention_of_not_mem hv)

/-- Different variables have different names if the names given up front are different and none of
the two variables has one that is still to be made up. -/
theorem eq_of_nameOf_eq (h : base.Grown n)
    (hbase : ∀ (v w : Var) (name : String),
      base.given[v]? = some name → base.given[w]? = some name → v = w)
    (hv : v ∈ n.given) (hw : w ∈ n.given)
    (hvapart : ∀ i, base.given.size ≤ i → base.given[v]? ≠ some (generated i))
    (hwapart : ∀ i, base.given.size ≤ i → base.given[w]? ≠ some (generated i))
    (heq : n.nameOf v = n.nameOf w) : v = w := by
  obtain ⟨name, hvn⟩ := mem_iff_exists.mp hv
  obtain ⟨name', hwn⟩ := mem_iff_exists.mp hw
  obtain rfl : name = name' := by rwa [nameOf_of_getElem? hvn, nameOf_of_getElem? hwn] at heq
  rcases h.made hvn with hvbase | ⟨hvbase, i, hi, -, rfl⟩ <;>
    rcases h.made hwn with hwbase | ⟨hwbase, j, hj, -, hname⟩
  · exact hbase v w name hvbase hwbase
  · exact absurd (hname ▸ hvbase) (hvapart j hj)
  · exact absurd hwbase (hwapart i hi)
  · exact h.once hvbase hwbase hvn hwn

end Grown

/-! ### Names given up front -/

section Given

variable {names : List (Var × String)}

/-- With different variables in the list, each gets the name that it is listed with. -/
theorem getElem?_insertAll (h : (names.map (·.1)).Nodup) (m : Std.TreeMap Var String) (v : Var)
    (name : String) :
    (names.foldl (fun m (v, name) => m.insert v name) m)[v]? = some name ↔
      (v, name) ∈ names ∨ v ∉ names.map (·.1) ∧ m[v]? = some name := by
  induction names generalizing m with
  | nil => simp
  | cons p names ih =>
    obtain ⟨w, name'⟩ := p
    rw [List.map_cons, List.nodup_cons] at h
    rw [List.foldl_cons, ih h.2]
    simp only [Std.TreeMap.getElem?_insert, Nat.compare_eq_eq, List.map_cons, List.mem_cons,
      Prod.mk.injEq]
    by_cases hw : w = v
    · subst hw
      have hnone : (w, name) ∉ names := fun hmem => h.1 (List.mem_map.mpr ⟨_, hmem, rfl⟩)
      simp [hnone, h.1, eq_comm]
    · simp [hw, Ne.symm hw]

/-- Listed variables that are new and different add one name each. -/
theorem size_insertAll (h : (names.map (·.1)).Nodup) (m : Std.TreeMap Var String)
    (hnew : ∀ v ∈ names.map (·.1), v ∉ m) :
    (names.foldl (fun m (v, name) => m.insert v name) m).size = m.size + names.length := by
  induction names generalizing m with
  | nil => rfl
  | cons p names ih =>
    rw [List.map_cons, List.nodup_cons] at h
    rw [List.map_cons, List.forall_mem_cons] at hnew
    have hsize : (m.insert p.1 p.2).size = m.size + 1 := by
      rw [Std.TreeMap.size_insert, if_neg (by simpa using hnew.1)]
    have hrest : ∀ v ∈ names.map (·.1), v ∉ m.insert p.1 p.2 := by
      intro v hv
      rw [Std.TreeMap.mem_insert, Nat.compare_eq_eq]
      rintro (rfl | hmem)
      · exact h.1 hv
      · exact hnew.2 v hv hmem
    rw [List.foldl_cons, ih h.2 _ hrest, hsize, List.length_cons]
    omega

/-- With one name for a variable, that is its name. -/
theorem getElem?_ofList (h : (names.map (·.1)).Nodup) {v : Var} {name : String} :
    (ofList names).given[v]? = some name ↔ (v, name) ∈ names := by
  rw [ofList, getElem?_insertAll h]
  simp

/-- There are as many names as variables listed. -/
theorem size_ofList (h : (names.map (·.1)).Nodup) :
    (ofList names).given.size = names.length := by
  rw [ofList, size_insertAll h _ fun v _ => Std.TreeMap.not_mem_emptyc]
  simp

end Given

/-! ### Showing one thing after another -/

/-- Writing with `f` mentions the variables `vars`, and puts their names into the text that `render`
makes of any names. -/
structure Steady {α : Type} (f : Names → α → String × Names) (vars : α → List Var)
    (render : (Var → String) → α → String) : Prop where
  names (n : Names) (a : α) : (f n a).2 = (vars a).foldl Names.mention n
  text (n : Names) (a : α) : (f n a).1 = render (f n a).2.nameOf a
  congr {a : α} {name name' : Var → String} (h : ∀ v ∈ vars a, name v = name' v) :
    render name a = render name' a

namespace Steady

variable {α : Type} {f : Names → α → String × Names} {vars : α → List Var}
  {render : (Var → String) → α → String}

/-- Written one after another, the items mention all their variables in order. -/
theorem names_writeEach (h : Steady f vars render) (n : Names) (as : List α) :
    (writeEach f n as).2 = (as.flatMap vars).foldl Names.mention n := by
  induction as generalizing n with
  | nil => rfl
  | cons a as ih =>
    calc (writeEach f n (a :: as)).2
      _ = (writeEach f (f n a).2 as).2 := rfl
      _ = ((a :: as).flatMap vars).foldl Names.mention n := by
        rw [ih, h.names, List.flatMap_cons, List.foldl_append]

/-- What comes later changes no name that was used before: every text could as well have been
written with the names that there are in the end. -/
theorem texts_writeEach (h : Steady f vars render) (n : Names) (as : List α) :
    (writeEach f n as).1 = as.map (render (writeEach f n as).2.nameOf) := by
  induction as generalizing n with
  | nil => rfl
  | cons a as ih =>
    have hkept : (f n a).2.KeptIn (writeEach f (f n a).2 as).2 := by
      rw [h.names_writeEach]
      exact keptIn_mentionAll _ _
    have hsame : ∀ v ∈ vars a,
        (f n a).2.nameOf v = (writeEach f (f n a).2 as).2.nameOf v := by
      intro v hv
      refine (hkept.nameOf ?_).symm
      rw [h.names, mem_mentionAll]
      exact .inl hv
    calc (writeEach f n (a :: as)).1
      _ = (f n a).1 :: (writeEach f (f n a).2 as).1 := rfl
      _ = (a :: as).map (render (writeEach f (f n a).2 as).2.nameOf) := by
        rw [h.text, h.congr hsame, ih, List.map_cons]

end Steady

/-- To write a term mentions the variables of what it stands for, and puts their names into its
text. -/
theorem steady_write (s : Subst) :
    Steady (write s) (fun t => (s.resolve t).vars)
      fun name t => (s.resolve t).renderWith name where
  names _ _ := rfl
  text _ _ := rfl
  congr := Term.renderWith_congr

/-- Something to be shown. -/
inductive Item
  | term (t : Term)
  | constraint (c : Constraint)

namespace Item

/-- The text of an item under `s`, and the names after it. -/
def write (s : Subst) (n : Names) : Item → String × Names
  | .term t => n.write s t
  | .constraint c => c.write s n

/-- The variables that are named in the text of an item, from left to right. -/
def printed (s : Subst) : Item → List Var
  | .term t => (s.resolve t).vars
  | .constraint c => c.args.flatMap fun t => (s.resolve t).vars

/-- The text of an item in which `name` names the variables. -/
def textWith (s : Subst) (name : Var → String) : Item → String
  | .term t => (s.resolve t).renderWith name
  | .constraint c =>
    let inside := commaSeparated (c.args.map fun t => (s.resolve t).renderWith name)
    if inside.isEmpty then c.sig.name else c.sig.name ++ "(" ++ inside ++ ")"

/-- An unbound variable stands for itself, and is named. -/
theorem printed_var (h : s.get? v = none) : (term (.var v)).printed s = [v] := by
  rw [printed, Subst.resolve_var, Subst.resolveVar_of_unbound h, Term.vars_var]

/-- Only unbound variables are named. -/
theorem unbound_of_mem_printed (h : s.Acyclic) {item : Item} (hv : v ∈ item.printed s) :
    s.get? v = none := by
  cases item with
  | term t => exact h.unbound_of_mem_vars_resolve hv
  | constraint c =>
    obtain ⟨t, -, hv⟩ := List.mem_flatMap.mp hv
    exact h.unbound_of_mem_vars_resolve hv

/-- Terms and constraints alike mention the variables of what they show, and put the names into the
text. -/
theorem steady (s : Subst) : Steady (write s) (printed s) (textWith s) where
  names n
    | .term t => (steady_write s).names n t
    | .constraint c => (steady_write s).names_writeEach n c.args
  text n
    | .term t => (steady_write s).text n t
    | .constraint c => by
      have htexts := (steady_write s).texts_writeEach n c.args
      simp only [write, Constraint.write, writeAll, textWith, ← htexts]
      rfl
  congr {item name name'} h := by
    cases item with
    | term t => exact (steady_write s).congr h
    | constraint c =>
      have hargs : ∀ t ∈ c.args,
          (s.resolve t).renderWith name = (s.resolve t).renderWith name' := fun t ht =>
        (steady_write s).congr fun v hv => h v (List.mem_flatMap.mpr ⟨t, ht, hv⟩)
      simp only [textWith, List.map_congr_left hargs]

end Item

/-- Shown names identify variables. Every item is written as if the names that there are in the end
had been there from the start; only unbound variables are named; and two of them, in the same item
or in different ones, have the same name exactly if they are the same variable. The names given up
front have to be different, and none of an unbound variable may be a `V` with a number from the
number of those names upwards. -/
theorem nameOf_eq_iff (h : s.Reachable) {names : List (Var × String)}
    (hvars : (names.map (·.1)).Nodup) (hnames : (names.map (·.2)).Nodup)
    (hapart : ∀ p ∈ names, s.get? p.1 = none → ∀ k, names.length ≤ k → p.2 ≠ "V" ++ toString k)
    (items : List Item) :
    let shown := writeEach (Item.write s) (.ofList names) items
    shown.1 = items.map (Item.textWith s shown.2.nameOf) ∧
      ∀ v ∈ items.flatMap (Item.printed s), s.get? v = none ∧
        ∀ w ∈ items.flatMap (Item.printed s), shown.2.nameOf v = shown.2.nameOf w ↔ v = w := by
  intro shown
  -- the names at the end are those at the start, with the variables mentioned since added
  have hmentioned : shown.2 =
      (items.flatMap (Item.printed s)).foldl Names.mention (.ofList names) :=
    (Item.steady s).names_writeEach _ _
  have hgrown : (ofList names).Grown shown.2 := by
    rw [hmentioned]
    exact (Grown.refl _).mentionAll _
  have hmem : ∀ v ∈ items.flatMap (Item.printed s), v ∈ shown.2.given := fun v hv => by
    rw [hmentioned, mem_mentionAll]
    exact .inl hv
  have hunbound : ∀ v ∈ items.flatMap (Item.printed s), s.get? v = none := fun v hv => by
    obtain ⟨item, -, hv⟩ := List.mem_flatMap.mp hv
    exact item.unbound_of_mem_printed h.acyclic hv
  have hgiven : ∀ v ∈ items.flatMap (Item.printed s), ∀ i, (ofList names).given.size ≤ i →
      (ofList names).given[v]? ≠ some (generated i) := by
    -- a given name that looks generated would have a number below those that are generated
    intro v hv i hi hname
    rw [size_ofList hvars] at hi
    exact hapart _ ((getElem?_ofList hvars).mp hname) (hunbound v hv) i hi rfl
  have hdifferent : ∀ (v w : Var) (name : String), (ofList names).given[v]? = some name →
      (ofList names).given[w]? = some name → v = w := by
    intro v w name hv hw
    rw [getElem?_ofList hvars] at hv hw
    exact congrArg Prod.fst (List.inj_on_of_nodup_map hnames hv hw rfl)
  refine ⟨(Item.steady s).texts_writeEach _ _, fun v hv => ⟨hunbound v hv, fun w hw => ?_⟩⟩
  refine ⟨fun heq => ?_, fun heq => congrArg _ heq⟩
  exact hgrown.eq_of_nameOf_eq hdifferent (hmem v hv) (hmem w hw) (hgiven v hv) (hgiven w hw) heq

/-- With `_1` given as `X`, `_2` as `V0` and `_3` as `V9`, and `_3` bound to `g(_4, _1)`, the other
variables become `V3` and `V4`: the number in `V0` is out of use, and `_3` is never named. -/
theorem nameOf_eq_iff_given :
    let names : List (Var × String) := [(1, "X"), (2, "V0"), (3, "V9")]
    let s := (Unifier.unify ⟨.empty, []⟩ (.var 3) (.app "g" [.var 4, .var 1])).2.subst
    let items : List Item :=
      [.term (.app "f" [.var 3, .var 2]), .constraint ⟨1, ⟨"c", 2⟩, [.var 5, .var 4]⟩]
    let shown := writeEach (Item.write s) (.ofList names) items
    s.Reachable ∧ shown.1 = ["f(g(V3, X), V0)", "c(V4, V3)"] ∧
      ∀ v ∈ items.flatMap (Item.printed s), ∀ w ∈ items.flatMap (Item.printed s),
        shown.2.nameOf v = shown.2.nameOf w ↔ v = w := by
  intro names s items shown
  have hs : s.Reachable := .unify (u := ⟨.empty, []⟩) .empty _ _
  have hapart : ∀ p ∈ names, s.get? p.1 = none →
      ∀ k, names.length ≤ k → p.2 ≠ "V" ++ toString k := by
    intro p hp hunbound k hk heq
    simp only [names, List.mem_cons, List.not_mem_nil, or_false] at hp
    rcases hp with rfl | rfl | rfl
    · simpa using congrArg String.toList heq
    · rw [← @generated_injective 0 k heq] at hk
      exact absurd hk (by decide)
    · exact absurd hunbound (by decide +kernel)
  refine ⟨hs, by decide +kernel, fun v hv => ?_⟩
  exact ((nameOf_eq_iff hs (by decide) (by decide) hapart items).2 v hv).2

/-- Given `V1` as the name of `_1`, the first name that is made up is `V1` as well. -/
theorem nameOf_clash :
    let names : List (Var × String) := [(1, "V1")]
    let items : List Item := [.term (.app "pair" [.var 1, .var 2])]
    let shown := writeEach (Item.write .empty) (.ofList names) items
    Subst.empty.Reachable ∧ (names.map (·.1)).Nodup ∧ (names.map (·.2)).Nodup ∧
      shown.1 = ["pair(V1, V1)"] ∧
      ¬ ∀ v ∈ items.flatMap (Item.printed .empty), ∀ w ∈ items.flatMap (Item.printed .empty),
        shown.2.nameOf v = shown.2.nameOf w ↔ v = w := by
  intro names items shown
  refine ⟨.empty, by decide, by decide, by decide +kernel, fun h => ?_⟩
  exact absurd ((h 1 (by decide +kernel) 2 (by decide +kernel)).mp (by decide +kernel)) (by decide)

/-- There are as many unbound variables without a given name as one likes. -/
theorem exists_unbound (s : Subst) (names : List (Var × String)) (m : Nat) :
    ∃ vs : List Var, vs.Nodup ∧ vs.length = m ∧
      ∀ v ∈ vs, s.get? v = none ∧ v ∉ names.map (·.1) := by
  let used := (s.bindings.keys ++ names.map (·.1)).toFinset
  obtain ⟨t, ht, hcard⟩ := used.finite_toSet.infinite_compl.exists_subset_card_eq m
  refine ⟨t.toList, t.nodup_toList, by rw [Finset.length_toList, hcard], fun v hv => ?_⟩
  have hfree : v ∉ s.bindings.keys ++ names.map (·.1) := by
    simpa [used] using ht (Finset.mem_toList.mp hv)
  rw [List.mem_append, not_or] at hfree
  refine ⟨?_, hfree.2⟩
  by_contra hbound
  obtain ⟨t, ht⟩ := Option.ne_none_iff_exists'.mp hbound
  exact hfree.1 (Subst.mem_keys_iff.mpr ⟨t, ht⟩)

/-- A given name that looks like one to be made up is made up one day: once as many new variables as
that takes have been shown, it stands for one of them too. -/
theorem exists_clash {names : List (Var × String)} (hvars : (names.map (·.1)).Nodup)
    (hv : s.get? v = none) {k : Nat} (hname : (v, "V" ++ toString k) ∈ names)
    (hk : names.length ≤ k) :
    ∃ items : List Item, ∃ w ∈ items.flatMap (Item.printed s),
      v ∈ items.flatMap (Item.printed s) ∧ w ≠ v ∧
        let shown := writeEach (Item.write s) (.ofList names) items
        shown.2.nameOf w = shown.2.nameOf v := by
  -- enough unbound variables that were not named up front: the last of them gets the number `k`
  obtain ⟨vs, hvs, hlength, hfree⟩ := exists_unbound s names (k - names.length + 1)
  cases vs with
  | nil => cases hlength
  | cons w vs =>
    have hnew : ∀ x ∈ w :: vs, x ∉ (ofList names).given := by
      intro x hx hmem
      obtain ⟨name, hname⟩ := mem_iff_exists.mp hmem
      exact (hfree x hx).2 (List.mem_map.mpr ⟨_, (getElem?_ofList hvars).mp hname, rfl⟩)
    have hnext : (ofList names).given.size + vs.length = k := by
      rw [size_ofList hvars]
      rw [List.length_cons] at hlength
      omega
    let items : List Item := (vs ++ [w, v]).map fun x => .term (.var x)
    have hunbound : ∀ x ∈ vs ++ [w, v], s.get? x = none := by
      intro x hx
      simp only [List.mem_append, List.mem_cons, List.not_mem_nil, or_false] at hx
      rcases hx with hx | rfl | rfl
      · exact (hfree x (List.mem_cons_of_mem w hx)).1
      · exact (hfree x List.mem_cons_self).1
      · exact hv
    have hprinted : items.flatMap (Item.printed s) = vs ++ [w, v] := by
      rw [List.flatMap_map, List.flatMap_congr fun x hx => Item.printed_var (hunbound x hx),
        List.flatMap_singleton']
    refine ⟨items, w, by simp [hprinted], by simp [hprinted], ?_, ?_⟩
    · rintro rfl
      exact (hfree w List.mem_cons_self).2 (List.mem_map.mpr ⟨_, hname, rfl⟩)
    -- `w` is named when its turn comes and `v` was from the start, and neither name changes later
    · intro shown
      have hshown : shown.2 = ((vs.foldl mention (ofList names)).mention w).mention v := by
        rw [(Item.steady s).names_writeEach, hprinted, List.foldl_append]
        rfl
      have hwk : shown.2.given[w]? = some (generated k) := by
        rw [hshown, ← hnext]
        exact keptIn_mention _ v w _ (getElem?_mention_mentionAll _ hvs hnew)
      have hvk : shown.2.given[v]? = some (generated k) := by
        rw [(Item.steady s).names_writeEach]
        exact keptIn_mentionAll _ _ v _ ((getElem?_ofList hvars).mpr hname)
      rw [nameOf_of_getElem? hwk, nameOf_of_getElem? hvk]

end Names

end LogicMachine
