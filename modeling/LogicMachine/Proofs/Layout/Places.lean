import Mathlib.Tactic.Common
import LogicMachine.Code.Layout

/-!
# Places of code

Jumps are relative, so that code which only jumps within itself can be put anywhere into other code.
Places of two codes match if the codes read the same from there on: the same instructions, and where
these lead, places that match again. On the way, jumps that only lead from one part to the next may
be followed on either side.
-/

namespace LogicMachine

/-- How far an instruction jumps, counted from the one behind it, if it jumps. -/
def Instr.jump? : Instr → Option Int
  | .goto offset | .choice offset => some offset
  | _ => none

/-- How far the instruction at a place of the code jumps, if there is one and it jumps. -/
def jumpAt? (code : List Instr) (p : Nat) : Option Int := code[p]?.bind Instr.jump?

/-- A jump from `p` leads to `q`, which is a place of the code or its end. -/
def Lands (code : List Instr) (p : Nat) (offset : Int) (q : Nat) : Prop :=
  (q : Int) = p + 1 + offset ∧ q ≤ code.length

/-- All jumps of the code stay inside it. They may lead to its end. -/
def Enclosed (code : List Instr) : Prop :=
  ∀ p offset, jumpAt? code p = some offset → ∃ q, Lands code p offset q

/-- No jump of the code leads back behind its start. -/
def EnclosedBelow (code : List Instr) : Prop :=
  ∀ p offset, jumpAt? code p = some offset → 0 ≤ (p : Int) + 1 + offset

variable {a b part code code' : List Instr} {instr : Instr} {offset : Int} {p q : Nat}

/-- Only at a place of the code is there an instruction that jumps. -/
theorem lt_of_jumpAt? (h : jumpAt? code p = some offset) : p < code.length := by
  obtain ⟨instr, hcur, -⟩ := Option.bind_eq_some_iff.mp h
  exact (List.getElem?_eq_some_iff.mp hcur).1

/-- A jump lands when it leads neither back behind the start nor beyond the end. -/
theorem exists_lands_iff :
    (∃ q, Lands code p offset q) ↔ 0 ≤ (p : Int) + 1 + offset ∧ p + 1 + offset ≤ code.length := by
  constructor
  · rintro ⟨q, hq, hle⟩
    omega
  · intro h
    exact ⟨(p + 1 + offset).toNat, by omega, by omega⟩

instance (code : List Instr) : Decidable (Enclosed code) :=
  decidable_of_iff (∀ p < code.length, ∀ offset ∈ jumpAt? code p,
      0 ≤ (p : Int) + 1 + offset ∧ p + 1 + offset ≤ code.length) <| by
    constructor
    · exact fun h p offset hjump => exists_lands_iff.mpr (h p (lt_of_jumpAt? hjump) offset hjump)
    · exact fun h p _ offset hjump => exists_lands_iff.mp (h p offset hjump)

/-! ### Parts of code -/

/-- The code has the part `part` from the place `s` on. -/
def CodeAt (code : List Instr) (s : Nat) (part : List Instr) : Prop :=
  ∃ pre post, code = pre ++ part ++ post ∧ s = pre.length

namespace CodeAt

/-- The front of some code is part of it. -/
theorem append_left (part post : List Instr) : CodeAt (part ++ post) 0 part := ⟨[], post, rfl, rfl⟩

/-- So is its back. -/
theorem append_right (pre part : List Instr) : CodeAt (pre ++ part) pre.length part :=
  ⟨pre, [], by rw [List.append_nil], rfl⟩

/-- So is whatever stands between two other parts. -/
theorem middle (pre part post : List Instr) : CodeAt (pre ++ part ++ post) pre.length part :=
  ⟨pre, post, rfl, rfl⟩

variable {s : Nat}

/-- A part ends where the code ends, at the latest. -/
theorem length_le (h : CodeAt code s part) : s + part.length ≤ code.length := by
  obtain ⟨pre, post, rfl, rfl⟩ := h
  rw [List.length_append, List.length_append]
  omega

/-- At a place of the part the code has the instruction of the part. -/
theorem getElem? (h : CodeAt code s part) (hp : p < part.length) : code[s + p]? = part[p]? := by
  obtain ⟨pre, post, rfl, rfl⟩ := h
  rw [List.append_assoc, List.getElem?_append_right (Nat.le_add_right _ _),
    Nat.add_sub_cancel_left, List.getElem?_append_left hp]

/-- At a place of the part the code jumps as the part does. -/
theorem jumpAt? (h : CodeAt code s part) (hp : p < part.length) :
    LogicMachine.jumpAt? code (s + p) = LogicMachine.jumpAt? part p := by
  rw [LogicMachine.jumpAt?, h.getElem? hp, LogicMachine.jumpAt?]

/-- A jump inside a part of the code leads to the same place of the part. -/
theorem lands (h : CodeAt code s part) (hq : Lands part p offset q) :
    Lands code (s + p) offset (s + q) := by
  have hle := h.length_le
  obtain ⟨hplace, hin⟩ := hq
  constructor
  · push_cast
    omega
  · omega

end CodeAt

namespace Enclosed

/-- In code that consists of two such parts, all jumps stay inside their part. -/
theorem append (ha : Enclosed a) (hb : Enclosed b) : Enclosed (a ++ b) := by
  intro p offset hjump
  have hleft := CodeAt.append_left a b
  have hright := CodeAt.append_right a b
  by_cases hp : p < a.length
  · have hpart := hleft.jumpAt? hp
    rw [Nat.zero_add, hjump] at hpart
    obtain ⟨q, hq⟩ := ha p offset hpart.symm
    have hlands := hleft.lands hq
    rw [Nat.zero_add] at hlands
    exact ⟨_, hlands⟩
  · have hlt := lt_of_jumpAt? hjump
    rw [List.length_append] at hlt
    obtain ⟨r, rfl⟩ := Nat.exists_eq_add_of_le (Nat.le_of_not_lt hp)
    have hr : r < b.length := by omega
    obtain ⟨q, hq⟩ := hb r offset (hright.jumpAt? hr ▸ hjump)
    exact ⟨_, hright.lands hq⟩

/-- Code without jumps. -/
theorem of_forall (h : ∀ instr ∈ code, instr.jump? = none) : Enclosed code := by
  intro p offset hjump
  obtain ⟨instr, hcur, hoffset⟩ := Option.bind_eq_some_iff.mp hjump
  rw [h instr (List.mem_of_getElem? hcur)] at hoffset
  cases hoffset

/-- One jump ahead, into the code behind it or to its end. -/
theorem cons (h : Enclosed code) (hinstr : ∀ offset, instr.jump? = some offset →
    0 ≤ offset ∧ offset ≤ code.length) : Enclosed (instr :: code) := by
  intro p offset hjump
  cases p with
  | zero =>
    have hle := hinstr offset hjump
    rw [exists_lands_iff, List.length_cons]
    omega
  | succ p =>
    obtain ⟨q, hq⟩ := h p offset hjump
    have hlands := (CodeAt.append_right [instr] code).lands hq
    rw [List.length_singleton, Nat.add_comm 1 p] at hlands
    exact ⟨_, hlands⟩

/-- A jump into the code behind it or to its end. -/
theorem goto (h : Enclosed code) {n : Nat} (hn : n ≤ code.length) :
    Enclosed (.goto n :: code) := by
  refine h.cons fun offset hjump => ?_
  obtain rfl := Option.some.inj hjump
  omega

/-- A choice of the code behind it or of its end. -/
theorem choice (h : Enclosed code) {n : Nat} (hn : n ≤ code.length) :
    Enclosed (.choice n :: code) := by
  refine h.cons fun offset hjump => ?_
  obtain rfl := Option.some.inj hjump
  omega

/-- The code of a clause jumps only where its body does. -/
theorem clause (locals : Nat) (patterns : List Expr) (h : Enclosed code) :
    Enclosed (Layout.clause locals patterns code) := by
  have hhead : Enclosed ([.fresh locals] ++
      patterns.mapIdx fun i p => .unify (.register (locals + i)) p) := by
    refine of_forall fun instr hinstr => ?_
    rcases List.mem_cons.mp hinstr with rfl | hinstr
    · rfl
    · obtain ⟨i, hi, rfl⟩ := List.mem_mapIdx.mp hinstr
      rfl
  exact (hhead.append h).append (of_forall (List.forall_mem_singleton.mpr rfl))

/-- The choices of clauses lead from each clause to the next one. -/
theorem clauses {cs : List (List Instr)} (h : ∀ c ∈ cs, Enclosed c) :
    Enclosed (Layout.clauses cs) := by
  induction cs with
  | nil => exact of_forall (List.forall_mem_nil _)
  | cons c cs ih =>
    rw [List.forall_mem_cons] at h
    cases cs with
    | nil => exact h.1
    | cons d rest =>
      have hcode := h.1.append (ih h.2)
      refine hcode.choice ?_
      rw [List.length_append]
      omega

/-- A disjunction leads to its second alternative or behind it. -/
theorem disjunction (ha : Enclosed a) (hb : Enclosed b) : Enclosed (Layout.disjunction a b) := by
  have hcode : Enclosed (a ++ .goto b.length :: b) := ha.append (hb.goto (Nat.le_refl _))
  have hwhole := hcode.choice (n := a.length + 1) (by simp)
  simpa [Layout.disjunction] using hwhole

end Enclosed

/-! ### Matching places -/

/-- Jumps alone lead from one place of the code to another. -/
inductive Leads (code : List Instr) : Nat → Nat → Prop
  | refl {p : Nat} : Leads code p p
  | goto {p q r : Nat} {offset : Int} (hcur : code[p]? = some (.goto offset))
      (hq : Lands code p offset q) (h : Leads code q r) : Leads code p r

/-- Jumps lead from the two places to places that are paired. -/
def Joined (code code' : List Instr) (S : Nat → Nat → Prop) (p q : Nat) : Prop :=
  ∃ p' q', Leads code p p' ∧ Leads code' q q' ∧ S p' q'

variable {S : Nat → Nat → Prop}

/-- Paired places need no jump to be joined. -/
theorem Joined.of_pair (h : S p q) : Joined code code' S p q := ⟨p, q, .refl, .refl, h⟩

/-- Two codes read the same from the places on that are paired, except that the first one may have
more to say where the second one is at its end. If `stray`, the first one may also jump out of its
code, wherever the second one jumps then. -/
structure Matches (stray : Prop) (code code' : List Instr) (S : Nat → Nat → Prop) : Prop where
  le_length : ∀ {p q}, S p q → q ≤ code'.length
  current : ∀ {p q}, S p q → q < code'.length → code[p]? = code'[q]?
  onward : ∀ {p q}, S p q → q < code'.length → Joined code code' S (p + 1) (q + 1)
  jump : ∀ {p q offset}, S p q → jumpAt? code' q = some offset →
    (∃ p' q', Lands code p offset p' ∧ Lands code' q offset q' ∧ Joined code code' S p' q') ∨
      stray ∧ ¬ ∃ p', Lands code p offset p'

/-- From these places on the two codes read the same. -/
def SamePlace (stray : Prop) (code : List Instr) (p : Nat) (code' : List Instr) (q : Nat) : Prop :=
  ∃ S, Matches stray code code' S ∧ Joined code code' S p q

/-! ### Code in two parts -/

/-- Two parts of the code, of `n` and `m` instructions, with their places from `s` and from `t` on
paired with those from `s'` and from `t'` on. The end of the second part is paired, too. -/
def Pieces (n s s' m t t' : Nat) (p q : Nat) : Prop :=
  (∃ i < n, p = s + i ∧ q = s' + i) ∨ ∃ i ≤ m, p = t + i ∧ q = t' + i

variable {stray : Prop} {s s' t t' : Nat}

/-- The jumps of the part `b`, which is at the place `t` of the code, stay inside it. If `stray`,
they may also lead out of the code. -/
def StaysInside (stray : Prop) (code : List Instr) (t : Nat) (b : List Instr) : Prop :=
  ∀ i offset, jumpAt? b i = some offset →
    (∃ j, Lands b i offset j) ∨ stray ∧ ¬ ∃ q, Lands code (t + i) offset q

/-- Jumps that stay inside a part do so wherever the part stands. -/
theorem Enclosed.staysInside (hb : Enclosed b) (code : List Instr) (t : Nat) :
    StaysInside stray code t b := fun i offset hjump => .inl (hb i offset hjump)

/-- Behind the end of the last part there is nothing more to jump to. -/
theorem EnclosedBelow.staysInside (hb : EnclosedBelow b) (hstray : stray) (pre : List Instr) :
    StaysInside stray (pre ++ b) pre.length b := by
  intro i offset hjump
  have hbelow := hb i offset hjump
  by_cases hle : (i : Int) + 1 + offset ≤ b.length
  · exact .inl (exists_lands_iff.mpr ⟨hbelow, hle⟩)
  · refine .inr ⟨hstray, fun hlands => hle ?_⟩
    have hplace := (exists_lands_iff.mp hlands).2
    rw [List.length_append] at hplace
    omega

/-- If straying is allowed, all jumps of the whole code are, as they land in it or nowhere. -/
theorem staysInside_whole (hstray : stray) (code : List Instr) : StaysInside stray code 0 code := by
  intro i offset hjump
  rw [Nat.zero_add]
  exact (Classical.em _).imp_right fun hnone => ⟨hstray, hnone⟩

/-- Two parts of the code read the same wherever they stand, if the end of the first part leads to
the same place of the second part in both codes. -/
theorem samePlace_of_pieces (ha : Enclosed a) (hb : StaysInside stray code t b)
    (hs : CodeAt code s a) (hs' : CodeAt code' s' a) (ht : CodeAt code t b)
    (ht' : CodeAt code' t' b) (hend : code'.length = t' + b.length)
    (hjoin : Joined code code' (Pieces a.length s s' b.length t t') (s + a.length)
      (s' + a.length)) :
    SamePlace stray code s code' s' := by
  have hle := hs'.length_le
  -- inside the first part the two places move together, and its end leads to the second part
  have hfirst : ∀ {i}, i ≤ a.length →
      Joined code code' (Pieces a.length s s' b.length t t') (s + i) (s' + i) := by
    intro i hi
    rcases Nat.lt_or_eq_of_le hi with hlt | rfl
    · exact .of_pair (.inl ⟨i, hlt, rfl, rfl⟩)
    · exact hjoin
  have hsecond : ∀ {i}, i ≤ b.length →
      Joined code code' (Pieces a.length s s' b.length t t') (t + i) (t' + i) := fun hi =>
    .of_pair (.inr ⟨_, hi, rfl, rfl⟩)
  refine ⟨_, ?_, hfirst (Nat.zero_le _)⟩
  -- pairs of places are inside the same part on both sides, and they stay so
  constructor
  · rintro p q (⟨i, hi, rfl, rfl⟩ | ⟨i, hi, rfl, rfl⟩) <;> omega
  · rintro p q (⟨i, hi, rfl, rfl⟩ | ⟨i, hi, rfl, rfl⟩) hlt
    · rw [hs.getElem? hi, hs'.getElem? hi]
    · have hi' : i < b.length := by omega
      rw [ht.getElem? hi', ht'.getElem? hi']
  · rintro p q (⟨i, hi, rfl, rfl⟩ | ⟨i, hi, rfl, rfl⟩) hlt
    · exact hfirst hi
    · exact hsecond (i := i + 1) (by omega)
  · rintro p q offset (⟨i, hi, rfl, rfl⟩ | ⟨i, hi, rfl, rfl⟩) hjump
    · obtain ⟨j, hj⟩ := ha i offset (hs'.jumpAt? hi ▸ hjump)
      exact .inl ⟨_, _, hs.lands hj, hs'.lands hj, hfirst hj.2⟩
    · have hlt := lt_of_jumpAt? hjump
      have hi' : i < b.length := by omega
      rcases hb i offset (ht'.jumpAt? hi' ▸ hjump) with ⟨j, hj⟩ | hout
      · exact .inl ⟨_, _, ht.lands hj, ht'.lands hj, hsecond hj.2⟩
      · exact .inr hout

/-- Where the end of `a` leads to `b`, the code reads like `a` with `b` right behind it. -/
theorem samePlace_append (ha : Enclosed a) (hb : StaysInside stray code t b) (hs : CodeAt code s a)
    (ht : CodeAt code t b) (hlead : Leads code (s + a.length) t) :
    SamePlace stray code s (a ++ b) 0 := by
  refine samePlace_of_pieces ha hb hs (.append_left a b) ht (.append_right a b) List.length_append
    ⟨t, a.length, hlead, ?_, .inr ⟨0, Nat.zero_le _, rfl, rfl⟩⟩
  rw [Nat.zero_add]
  exact .refl

/-- A part of the code reads like this part alone. -/
theorem samePlace_part (hpart : Enclosed part) (hs : CodeAt code s part) :
    SamePlace stray code s part 0 := by
  have hend : CodeAt code (s + part.length) [] := by
    obtain ⟨pre, post, rfl, rfl⟩ := hs
    exact ⟨pre ++ part, post, by rw [List.append_nil], by rw [List.length_append]⟩
  have hnothing : Enclosed [] := .of_forall (List.forall_mem_nil _)
  have hsame : SamePlace stray code s (part ++ []) 0 :=
    samePlace_append hpart (hnothing.staysInside code _) hs hend .refl
  rwa [List.append_nil] at hsame

/-- Where the end of `a` leads to the place `t`, the code reads like `a` with a jump behind it to this
place of the same code. -/
theorem samePlace_goto (ha : Enclosed a) (hcode : StaysInside stray code 0 code)
    (hs : CodeAt code s a) (hlead : Leads code (s + a.length) t) (ht : t ≤ code.length) :
    SamePlace stray code s (a ++ .goto t :: code) 0 := by
  have hwhole : CodeAt (a ++ .goto t :: code) (a.length + 1) code :=
    ⟨a ++ [.goto t], [], by simp, by simp⟩
  have hcur : (a ++ .goto t :: code)[a.length]? = some (.goto t) := by simp
  have hlands : Lands (a ++ .goto t :: code) a.length t (a.length + 1 + t) := by
    constructor
    · push_cast
      omega
    · rw [List.length_append, List.length_cons]
      omega
  have hend : (a ++ .goto t :: code).length = a.length + 1 + code.length := by
    rw [List.length_append, List.length_cons]
    omega
  refine samePlace_of_pieces ha hcode hs (.append_left a _) ⟨[], [], by simp, rfl⟩ hwhole hend
    ⟨t, _, hlead, ?_, .inr ⟨t, ht, (Nat.zero_add t).symm, rfl⟩⟩
  rw [Nat.zero_add]
  exact .goto hcur hlands .refl

end LogicMachine
