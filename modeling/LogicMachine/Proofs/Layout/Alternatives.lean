import LogicMachine.Proofs.Layout.Abreast
import LogicMachine.Proofs.Layout.Moved
import LogicMachine.Proofs.Search.InTurn

/-!
# Alternatives in turn

What clauses and disjunctions are laid out for: depth first, the alternatives are explored one after
another, all of them from where the first one starts. This holds wherever the code stands, and
whatever comes before it or after it.
-/

namespace LogicMachine

/-- The branch by itself, with other code to be run from the place `pc` of it on. -/
def Frame.withCode (f : Frame) (code : List Instr) (pc : Nat) : Frame :=
  let running := f.cont.running
  { f with
    alt := none
    cont := { f.cont with running := { running with block := { running.block with code }, pc } } }

namespace Machine

variable {m : Machine} {f g : Frame} {fs L R : List Frame} {c : Counters} {n : Nat}

/-! ### Branches at matching places -/

variable {E : Parting} {W : Frame → Frame → Prop}

/-- Jumps may be followed before two lists of branches are compared. -/
theorem Abreast.follow_left {p : Nat}
    (hlead : Leads f.cont.running.block.code f.cont.running.pc p)
    (h : m.Abreast W ({ f with cont := f.cont.resumeAt p } :: L) R) : m.Abreast W (f :: L) R := by
  generalize hcode : f.cont.running.block.code = code, hpc : f.cont.running.pc = pc at hlead
  induction hlead generalizing f with
  | refl =>
    rw [← hpc] at h
    exact h
  | @goto p q r offset hcur hq hlead ih =>
    rw [← hcode, ← hpc] at hcur hq
    have hgo : ∀ c, m.advance f c = (.go { f with cont := f.cont.resumeAt q }, c) := by
      intro c
      rw [advance_goto hcur, Continuation.target_of_lands hq]
    exact .left hgo (.go _) (ih h hcode rfl)

/-- The same for jumps of a branch in the second list. -/
theorem Abreast.follow_right {q : Nat}
    (hlead : Leads g.cont.running.block.code g.cont.running.pc q)
    (h : m.Abreast W L ({ g with cont := g.cont.resumeAt q } :: R)) : m.Abreast W L (g :: R) :=
  (h.symm.follow_left hlead).symm

/-- Branches that agree up to places are abreast once jumps have been followed. -/
theorem Abreast.moved (h : m.Abreast (Frame.Paired E) L R) (hfg : f.Moved E g) :
    m.Abreast (Frame.Paired E) (f :: L) (g :: R) := by
  cases hfg.running with
  | same hsame => exact .cons ⟨hfg, .same hsame⟩ h
  | places horigin henv hlabel hE hplaces =>
    obtain ⟨S, hS, p, q, hp, hq, hpq⟩ := hplaces
    refine .follow_left hp (.follow_right hq (.cons ?_ h))
    refine ⟨⟨hfg.subst_eq, hfg.store_eq, ?_, hfg.callers⟩, ?_⟩
    · exact .places horigin henv hlabel hE ⟨S, hS, .of_pair hpq⟩
    · exact .places horigin henv hlabel hE hS hpq

/-- A fault at the end of code at which branches may part. -/
def AtEnd (E : Parting) (e : ProgramError) : Prop :=
  ∃ code, E.atEnd code ∧ e = .endOfBlock code.length code.length

/-- Branches at matching places stay abreast. -/
theorem keepsAbreast_paired (m : Machine) (E : Parting) :
    m.KeepsAbreast (Frame.Paired E) (fun _ => E.stray) (AtEnd E) := by
  intro f g hfg c
  rcases hfg.advance m c with ⟨hstray, e, hfault⟩ | ⟨code, hE, hend⟩ | ⟨hmoved, hcounters⟩
  · exact .inl ⟨e, hstray, hfault⟩
  · exact .inr (.inl ⟨_, ⟨code, hE, rfl⟩, hend⟩)
  · refine .inr (.inr ⟨?_, hcounters⟩)
    generalize (m.advance f c).1 = o, (m.advance g c).1 = o' at hmoved
    cases hmoved with
    | go h => exact .news nofun nofun rfl fun hLR => hLR.moved h
    | split h h' => exact .news nofun nofun rfl fun hLR => (hLR.moved h').moved h
    | dead => exact .news nofun nofun rfl fun hLR => hLR
    | answer s => exact .news nofun nofun rfl fun hLR => hLR
    | fault e => exact .fault e rfl rfl

/-- Is it the code of one of the branches? -/
def IsRunBy (fs : List Frame) (code : List Instr) : Prop :=
  ∃ f ∈ fs, f.cont.running.block.code = code

variable {stray : Prop}

/-- A branch that is abreast of others shows what they show, unless they run off their code or the
branch strays. -/
theorem Abreast.sameInTurn (hm : m.strategy = .depthFirst)
    (h : m.Abreast (Frame.Paired ⟨IsRunBy fs, stray⟩) [f.detached] (fs.map Frame.detached))
    (hstray : stray → ¬ m.FaultsInTurn [f] c) (hoff : ¬ m.RunsOff fs c) :
    m.SameInTurn [f] fs c := by
  have hleft : ∀ n e, stray → (m.exploreAll n ([f].map Frame.detached) c).ending ≠ .fault e := by
    intro n e hs hend
    rw [← observeInTurn_eq hm] at hend
    exact hstray hs ⟨n, e, hend⟩
  have hright : ∀ n e, AtEnd ⟨IsRunBy fs, stray⟩ e →
      (m.exploreAll n (fs.map Frame.detached) c).ending ≠ .fault e := by
    rintro n e ⟨code, ⟨g, hg, rfl⟩, rfl⟩ hend
    rw [← observeInTurn_eq hm] at hend
    exact hoff ⟨n, g, hg, hend⟩
  have hkeeps := m.keepsAbreast_paired ⟨IsRunBy fs, stray⟩
  constructor
  · intro n
    simp only [observeInTurn_eq hm]
    obtain ⟨n', hsame | ⟨e, hs, hend⟩ | ⟨e, he, hend⟩⟩ := h.shows hkeeps n c
    · exact ⟨n', hsame⟩
    · exact absurd hend (hleft n e hs)
    · exact absurd hend (hright n' e he)
  · intro n
    simp only [observeInTurn_eq hm]
    obtain ⟨n', hsame | ⟨e, he, hend⟩ | ⟨e, hs, hend⟩⟩ := h.symm.shows hkeeps.symm n c
    · exact ⟨n', hsame⟩
    · exact absurd hend (hright n e he)
    · exact absurd hend (hleft n' e hs)

/-! ### Choices -/

/-- The same branch at places from which two codes read the same. -/
theorem withCode_moved (f : Frame) {code code' : List Instr} {p q : Nat} (hE : E.atEnd code')
    (h : SamePlace E.stray code p code' q) : (f.withCode code p).Moved E (f.withCode code' q) :=
  ⟨rfl, rfl, .places rfl rfl rfl hE h, List.forall₂_same.mpr fun _ _ => .same rfl⟩

/-- A branch that comes to a choice is abreast of branches that are alike from the two places on that
it leads to. -/
theorem Abreast.choice {code code' : List Instr} {p q : Nat} {offset : Int}
    (hcur : code[p]? = some (.choice offset)) (hq : Lands code p offset q) (hE : E.atEnd code')
    (hfirst : SamePlace E.stray code (p + 1) code' 0)
    (hrest : m.Abreast (Frame.Paired E) [f.withCode code q] R) :
    m.Abreast (Frame.Paired E) [f.withCode code p] (f.withCode code' 0 :: R) := by
  have hsplit : ∀ c, m.advance (f.withCode code p) c =
      (.split (f.withCode code (p + 1)) (f.withCode code q), c) := by
    intro c
    have hcurrent : (f.withCode code p).cont.running.current? = some (.choice offset) := hcur
    have htarget := Continuation.target_of_lands (k := (f.withCode code p).cont) hq
    rw [advance_choice hcurrent, htarget]
    rfl
  exact .left hsplit (.split _ _) (hrest.moved (withCode_moved f hE hfirst))

/-- Where code reads like other code, the branch shows what it shows with that code. -/
theorem sameInTurn_of_samePlace (hm : m.strategy = .depthFirst) (f : Frame)
    {code code' : List Instr} {p : Nat} (h : SamePlace False code p code' 0)
    (hoff : ¬ m.RunsOff [f.withCode code' 0] c) :
    m.SameInTurn [f.withCode code p] [f.withCode code' 0] c :=
  Abreast.sameInTurn hm
    (Abreast.nil.moved (withCode_moved f ⟨_, List.mem_singleton_self _, rfl⟩ h)) False.elim hoff

/-- A choice between two places where the code reads like two other codes. -/
theorem sameInTurn_of_choice (hm : m.strategy = .depthFirst) (f : Frame)
    {code code₁ code₂ : List Instr} {p q : Nat} {offset : Int}
    (hcur : code[p]? = some (.choice offset)) (hq : Lands code p offset q)
    (h₁ : SamePlace stray code (p + 1) code₁ 0) (h₂ : SamePlace stray code q code₂ 0)
    (hstray : stray → ¬ m.FaultsInTurn [f.withCode code p] c)
    (hoff : ¬ m.RunsOff [f.withCode code₁ 0, f.withCode code₂ 0] c) :
    m.SameInTurn [f.withCode code p] [f.withCode code₁ 0, f.withCode code₂ 0] c := by
  have hE₁ : IsRunBy [f.withCode code₁ 0, f.withCode code₂ 0] code₁ :=
    ⟨_, List.mem_cons_self, rfl⟩
  have hE₂ : IsRunBy [f.withCode code₁ 0, f.withCode code₂ 0] code₂ :=
    ⟨_, List.mem_cons_of_mem _ (List.mem_singleton_self _), rfl⟩
  exact Abreast.sameInTurn hm
    (.choice hcur hq hE₁ h₁ (Abreast.nil.moved (withCode_moved f hE₂ h₂))) hstray hoff

/-! ### Clauses -/

/-- The parts of clauses in code: a choice, the first clause, and the clauses that it leads to. -/
structure ClausesAt (code d rest : List Instr) (p : Nat) : Prop where
  current : code[p]? = some (.choice d.length)
  first : CodeAt code (p + 1) d
  second : CodeAt code (p + 1 + d.length) rest

/-- Laid out, several clauses begin with a choice, the first of them, and the others. -/
theorem clausesAt (pre d e post : List Instr) (rest : List (List Instr)) :
    ClausesAt (pre ++ Layout.clauses (d :: e :: rest) ++ post) d (Layout.clauses (e :: rest))
      pre.length := by
  have hchoice : CodeAt (pre ++ Layout.clauses (d :: e :: rest) ++ post) pre.length
      [.choice d.length] := ⟨pre, d ++ Layout.clauses (e :: rest) ++ post, by simp [Layout.clauses],
    rfl⟩
  constructor
  · exact hchoice.getElem? Nat.one_pos
  · exact ⟨pre ++ [.choice d.length], Layout.clauses (e :: rest) ++ post,
      by simp [Layout.clauses], by simp⟩
  · exact ⟨pre ++ .choice d.length :: d, post, by simp [Layout.clauses], by simp; omega⟩

/-- The choice in front leads to the other clauses. -/
theorem ClausesAt.lands {code d rest : List Instr} {p : Nat} (h : ClausesAt code d rest p) :
    Lands code p d.length (p + 1 + d.length) := by
  have hle := h.first.length_le
  constructor
  · push_cast
    rfl
  · exact hle

/-- Code with clauses is abreast of the clauses alone, each in a branch of its own. -/
theorem abreast_clauses (f : Frame) {cs : List (List Instr)} (hne : cs ≠ [])
    (hcs : ∀ d ∈ cs, Enclosed d) (hE : ∀ d ∈ cs, E.atEnd d) {code : List Instr} {p : Nat}
    (hcode : CodeAt code p (Layout.clauses cs)) :
    m.Abreast (Frame.Paired E) [f.withCode code p] (cs.map (f.withCode · 0)) := by
  induction cs generalizing p with
  | nil => exact absurd rfl hne
  | cons d cs ih =>
    rw [List.forall_mem_cons] at hcs hE
    cases cs with
    | nil => exact Abreast.nil.moved (withCode_moved f hE.1 (samePlace_part hcs.1 hcode))
    | cons e rest =>
      obtain ⟨pre, post, rfl, rfl⟩ := hcode
      have hat := clausesAt pre d e post rest
      exact .choice hat.current hat.lands hE.1 (samePlace_part hcs.1 hat.first)
        (ih (List.cons_ne_nil _ _) hcs.2 hE.2 hat.second)

/-- Clauses show what the first one shows, then the second one, and so on, unless one of them comes
to its end. -/
theorem clauses_in_turn (hm : m.strategy = .depthFirst) (f : Frame) {cs : List (List Instr)}
    (hne : cs ≠ []) (hcs : ∀ d ∈ cs, Enclosed d) (pre post : List Instr)
    (hoff : ¬ m.RunsOff (cs.map (f.withCode · 0)) c) :
    m.SameInTurn [f.withCode (pre ++ Layout.clauses cs ++ post) pre.length]
      (cs.map (f.withCode · 0)) c := by
  have hE : ∀ d ∈ cs, IsRunBy (cs.map (f.withCode · 0)) d := fun d hd =>
    ⟨_, List.mem_map_of_mem hd, rfl⟩
  have habreast : m.Abreast (Frame.Paired ⟨IsRunBy (cs.map (f.withCode · 0)), False⟩)
      [f.withCode (pre ++ Layout.clauses cs ++ post) pre.length] (cs.map (f.withCode · 0)) :=
    abreast_clauses f hne hcs hE (.middle pre _ post)
  refine Abreast.sameInTurn hm ?_ False.elim hoff
  rw [List.map_map]
  exact habreast

/-! ### Disjunctions -/

/-- The parts of a disjunction in code: a choice, what comes first, how it leads behind the other
alternative, and this alternative. -/
structure DisjunctionAt (code a b : List Instr) (p t : Nat) : Prop where
  current : code[p]? = some (.choice (a.length + 1))
  first : CodeAt code (p + 1) a
  past : Leads code (p + 1 + a.length) t
  second : CodeAt code (p + 1 + a.length + 1) b
  behind : p + 1 + a.length + 1 + b.length = t

/-- Laid out, a disjunction has its parts where they are said to be. -/
theorem disjunctionAt (pre a b post : List Instr) :
    DisjunctionAt (pre ++ Layout.disjunction a b ++ post) a b pre.length
      (pre ++ Layout.disjunction a b).length := by
  generalize hcode : pre ++ Layout.disjunction a b ++ post = code
  have hlength : pre.length + 1 + a.length + 1 + b.length =
      (pre ++ Layout.disjunction a b).length := by
    simp [Layout.disjunction]
    omega
  have hchoice : CodeAt code pre.length [.choice (a.length + 1)] :=
    ⟨pre, a ++ .goto b.length :: b ++ post, by simp [← hcode, Layout.disjunction], rfl⟩
  have hgoto : CodeAt code (pre.length + 1 + a.length) [.goto b.length] :=
    ⟨pre ++ .choice (a.length + 1) :: a, b ++ post, by simp [← hcode, Layout.disjunction],
      by simp; omega⟩
  have hb : CodeAt code (pre.length + 1 + a.length + 1) b :=
    ⟨pre ++ .choice (a.length + 1) :: a ++ [.goto b.length], post,
      by simp [← hcode, Layout.disjunction], by simp; omega⟩
  constructor
  · exact hchoice.getElem? Nat.one_pos
  · exact ⟨pre ++ [.choice (a.length + 1)], .goto b.length :: b ++ post,
      by simp [← hcode, Layout.disjunction], by simp⟩
  · have hle := hb.length_le
    have hlands : Lands code (pre.length + 1 + a.length) b.length
        (pre.length + 1 + a.length + 1 + b.length) := by
      constructor
      · push_cast
        rfl
      · exact hle
    rw [← hlength]
    exact .goto (hgoto.getElem? Nat.one_pos) hlands .refl
  · exact hb
  · exact hlength

/-- The choice in front leads to the second alternative. -/
theorem DisjunctionAt.lands {code a b : List Instr} {p t : Nat} (h : DisjunctionAt code a b p t) :
    Lands code p (a.length + 1) (p + 1 + a.length + 1) := by
  have hle := h.second.length_le
  constructor
  · push_cast
    omega
  · omega

/-- A disjunction shows what its first alternative shows with the code after the disjunction, then
the second one. Where jumps of that code may lead out of it, the branch is to have no fault. -/
theorem disjunction_in_turn (hm : m.strategy = .depthFirst) (f : Frame) {a b k : List Instr}
    (ha : Enclosed a) (hb : Enclosed b) (pre : List Instr)
    (hk : StaysInside stray (pre ++ Layout.disjunction a b ++ k)
      (pre ++ Layout.disjunction a b).length k)
    (hstray : stray →
      ¬ m.FaultsInTurn [f.withCode (pre ++ Layout.disjunction a b ++ k) pre.length] c)
    (hoff : ¬ m.RunsOff [f.withCode (a ++ k) 0, f.withCode (b ++ k) 0] c) :
    m.SameInTurn [f.withCode (pre ++ Layout.disjunction a b ++ k) pre.length]
      [f.withCode (a ++ k) 0, f.withCode (b ++ k) 0] c := by
  have hat := disjunctionAt pre a b k
  have hbehind := CodeAt.append_right (pre ++ Layout.disjunction a b) k
  refine sameInTurn_of_choice hm f hat.current hat.lands
    (samePlace_append ha hk hat.first hbehind hat.past)
    (samePlace_append hb hk hat.second hbehind ?_) hstray hoff
  rw [hat.behind]
  exact .refl

/-- The same for a disjunction anywhere in a block, with jumps from everywhere to everywhere: the
alternatives go on in the block, behind the disjunction. -/
theorem disjunction_within (hm : m.strategy = .depthFirst) (f : Frame)
    {pre a b post block onward : List Instr} (hblock : block = pre ++ Layout.disjunction a b ++ post)
    (honward : onward = .goto (pre ++ Layout.disjunction a b).length :: block) (ha : Enclosed a)
    (hb : Enclosed b) (hstays : StaysInside stray block 0 block)
    (hstray : stray → ¬ m.FaultsInTurn [f.withCode block pre.length] c)
    (hoff : ¬ m.RunsOff [f.withCode (a ++ onward) 0, f.withCode (b ++ onward) 0] c) :
    m.SameInTurn [f.withCode block pre.length]
      [f.withCode (a ++ onward) 0, f.withCode (b ++ onward) 0] c := by
  have hat := disjunctionAt pre a b post
  rw [← hblock] at hat
  have hle : (pre ++ Layout.disjunction a b).length ≤ block.length := by
    rw [hblock]
    exact (CodeAt.append_left _ post).length_le.trans' (Nat.zero_add _).ge
  subst honward
  refine sameInTurn_of_choice hm f hat.current hat.lands
    (samePlace_goto ha hstays hat.first hat.past hle)
    (samePlace_goto hb hstays hat.second ?_ hle) hstray hoff
  rw [hat.behind]
  exact .refl

end Machine

/-! ### Nested alternatives -/

namespace Layout

/-- `Tries code leaves`: the code is laid out by nesting clauses and disjunctions, and `leaves` are
the codes without alternatives of that kind that it tries in turn. -/
inductive Tries : List Instr → List (List Instr) → Prop
  | leaf {code : List Instr} (h : Enclosed code) : Tries code [code]
  | clauses {d e : List Instr} {rest ls ls' : List (List Instr)} (hfirst : Tries d ls)
      (hrest : Tries (clauses (e :: rest)) ls') : Tries (clauses (d :: e :: rest)) (ls ++ ls')
  | disjunction {a b k : List Instr} {ls ls' : List (List Instr)} (ha : Enclosed a)
      (hb : Enclosed b) (hk : Enclosed k) (hfirst : Tries (a ++ k) ls)
      (hsecond : Tries (b ++ k) ls') : Tries (disjunction a b ++ k) (ls ++ ls')
  | skip {code k : List Instr} {ls : List (List Instr)} (h : Tries code ls) (hk : Enclosed k) :
      Tries (code ++ k) ls

/-- All jumps of nested alternatives stay inside the code. -/
theorem Tries.enclosed {code : List Instr} {leaves : List (List Instr)} (h : Tries code leaves) :
    Enclosed code := by
  induction h with
  | leaf h => exact h
  | @clauses d e rest ls ls' _ _ ihfirst ihrest =>
    exact (ihfirst.append ihrest).choice (by simp)
  | disjunction ha hb hk _ _ _ _ => exact (ha.disjunction hb).append hk
  | skip _ hk ih => exact ih.append hk

end Layout

namespace Machine

variable {m : Machine} {c : Counters}

/-- Nested alternatives show what their leaves show one after another, if these have no fault. -/
theorem tries_in_turn (hm : m.strategy = .depthFirst) (f : Frame) {code : List Instr}
    {leaves : List (List Instr)} (h : Layout.Tries code leaves)
    (hfault : ¬ m.FaultsInTurn (leaves.map (f.withCode · 0)) c) :
    m.SameInTurn [f.withCode code 0] (leaves.map (f.withCode · 0)) c := by
  induction h generalizing c with
  | leaf h => exact .refl _ _ _
  | @clauses d e rest ls ls' hd hrest ihfirst ihrest =>
    have hat := clausesAt [] d e [] rest
    rw [List.append_nil] at hat
    rw [List.map_append] at hfault ⊢
    refine .trans_append hm (fun hoff => ?_) (fun _ => ihfirst) (fun _ => ihrest) hfault
    exact sameInTurn_of_choice hm f hat.current hat.lands (samePlace_part hd.enclosed hat.first)
      (samePlace_part hrest.enclosed hat.second) False.elim hoff
  | disjunction ha hb hk _ _ ihfirst ihsecond =>
    rw [List.map_append] at hfault ⊢
    refine .trans_append hm (fun hoff => ?_) (fun _ => ihfirst) (fun _ => ihsecond) hfault
    exact disjunction_in_turn hm f ha hb [] (hk.staysInside _ _) False.elim hoff
  | @skip code k ls h hk ih =>
    have hsame : SamePlace False (code ++ k) 0 code 0 :=
      samePlace_part h.enclosed (.append_left code k)
    have hleaves := ih hfault
    have hoff : ¬ m.RunsOff [f.withCode code 0] c := fun hoff =>
      hfault (hleaves.1.faultsInTurn hoff.faultsInTurn)
    exact (sameInTurn_of_samePlace hm f hsame hoff).trans hleaves

/-- For every branch, whatever it knows and whoever its callers are, and for any counters, a
depth-first search shows for code that is laid out with choices what it shows for the alternatives
one after another: for clauses anywhere in code, if all their jumps stay inside them and none of them
comes to its end; for a disjunction anywhere in code, with the code behind it, whatever that is; and
for clauses and disjunctions within each other, however deep. Code behind a disjunction that jumps
back out of it goes on in the same block, so that the alternatives, too, go on there. -/
theorem layout_in_turn (hm : m.strategy = .depthFirst) (f : Frame) (c : Counters) :
    (∀ (pre post : List Instr) (cs : List (List Instr)), cs ≠ [] → (∀ d ∈ cs, Enclosed d) →
      ¬ m.RunsOff (cs.map (f.withCode · 0)) c →
      m.SameInTurn [f.withCode (pre ++ Layout.clauses cs ++ post) pre.length]
        (cs.map (f.withCode · 0)) c) ∧
    (∀ pre a b k block : List Instr, block = pre ++ Layout.disjunction a b ++ k →
      Enclosed a → Enclosed b →
      (Enclosed k ∨ EnclosedBelow k ∧ ¬ m.FaultsInTurn [f.withCode block pre.length] c) →
      ¬ m.RunsOff [f.withCode (a ++ k) 0, f.withCode (b ++ k) 0] c →
      m.SameInTurn [f.withCode block pre.length]
        [f.withCode (a ++ k) 0, f.withCode (b ++ k) 0] c) ∧
    (∀ pre a b k block onward : List Instr, block = pre ++ Layout.disjunction a b ++ k →
      onward = .goto (pre ++ Layout.disjunction a b).length :: block →
      Enclosed a → Enclosed b →
      (Enclosed block ∨ ¬ m.FaultsInTurn [f.withCode block pre.length] c) →
      ¬ m.RunsOff [f.withCode (a ++ onward) 0, f.withCode (b ++ onward) 0] c →
      m.SameInTurn [f.withCode block pre.length]
        [f.withCode (a ++ onward) 0, f.withCode (b ++ onward) 0] c) ∧
    (∀ locals patterns body, Enclosed body → Enclosed (Layout.clause locals patterns body)) ∧
    (∀ cs : List (List Instr), (∀ d ∈ cs, Enclosed d) → Enclosed (Layout.clauses cs)) ∧
    (∀ a b : List Instr, Enclosed a → Enclosed b → Enclosed (Layout.disjunction a b)) ∧
    ∀ (code : List Instr) (leaves : List (List Instr)), Layout.Tries code leaves →
      Enclosed code ∧ (¬ m.FaultsInTurn (leaves.map (f.withCode · 0)) c →
        m.SameInTurn [f.withCode code 0] (leaves.map (f.withCode · 0)) c) := by
  refine ⟨?_, ?_, ?_, fun locals patterns body => Enclosed.clause locals patterns,
    fun cs => Enclosed.clauses, fun a b => Enclosed.disjunction, ?_⟩
  · intro pre post cs hne hcs hoff
    exact clauses_in_turn hm f hne hcs pre post hoff
  · rintro pre a b k block rfl ha hb (hk | ⟨hk, hfault⟩) hoff
    · exact disjunction_in_turn hm f ha hb pre (hk.staysInside _ _) False.elim hoff
    · exact disjunction_in_turn hm f ha hb pre (hk.staysInside trivial _) (fun _ => hfault) hoff
  · rintro pre a b k block onward hblock honward ha hb (hstays | hfault) hoff
    · exact disjunction_within hm f hblock honward ha hb (hstays.staysInside _ _) False.elim hoff
    · exact disjunction_within hm f hblock honward ha hb (staysInside_whole trivial _)
        (fun _ => hfault) hoff
  · intro code leaves h
    exact ⟨h.enclosed, tries_in_turn hm f h⟩

/-- A variable is 0 or else 1, as two clauses and as a disjunction; and it is 0, 1 or 0, as a
disjunction within a disjunction. -/
theorem layout_in_turn_bits :
    let m : Machine := {}
    let f := Frame.start [.var 1] []
    let zero : List Instr := [.unify (.register 0) (.int 0)]
    let one : List Instr := [.unify (.register 0) (.int 1)]
    let k : List Instr := [.success]
    let bits := [zero ++ k, one ++ k].map (f.withCode · 0)
    let block := [Instr.fresh 0] ++ Layout.disjunction zero one ++ k
    let onward := Instr.goto ([Instr.fresh 0] ++ Layout.disjunction zero one).length :: block
    (m.observeInTurn 6 bits {}).ending = .exhausted ∧
      (m.observeInTurn 6 bits {}).solutions.length = 2 ∧
      m.SameInTurn [f.withCode ([] ++ Layout.clauses [zero ++ k, one ++ k] ++ []) 0] bits {} ∧
      m.SameInTurn [f.withCode ([] ++ Layout.disjunction zero one ++ k) 0] bits {} ∧
      m.SameInTurn [f.withCode block 1]
        [f.withCode (zero ++ onward) 0, f.withCode (one ++ onward) 0] {} ∧
      m.SameInTurn [f.withCode (Layout.disjunction (Layout.disjunction zero one) zero ++ k) 0]
        ([zero ++ k, one ++ k, zero ++ k].map (f.withCode · 0)) {} := by
  intro m f zero one k bits block onward
  have hzero : Enclosed zero := by decide
  have hone : Enclosed one := by decide
  have hk : Enclosed k := by decide
  have hbits : (m.observeInTurn 6 bits {}).ending = .exhausted := by decide +kernel
  have honward : (m.observeInTurn 10 [f.withCode (zero ++ onward) 0, f.withCode (one ++ onward) 0]
      {}).ending = .exhausted := by decide +kernel
  have hthree : (m.observeInTurn 10 ([zero ++ k, one ++ k, zero ++ k].map (f.withCode · 0))
      {}).ending = .exhausted := by decide +kernel
  -- a search that comes to its end without a fault has not run off any code
  have hoff : ∀ {n fs}, (m.observeInTurn n fs {}).ending = .exhausted → ¬ m.RunsOff fs {} :=
    fun hend hoff => not_faultsInTurn rfl hend hoff.faultsInTurn
  have htries : Layout.Tries (Layout.disjunction (Layout.disjunction zero one) zero ++ k)
      ([zero ++ k, one ++ k] ++ [zero ++ k]) :=
    .disjunction (hzero.disjunction hone) hzero hk
      (.disjunction hzero hone hk (.leaf (hzero.append hk)) (.leaf (hone.append hk)))
      (.leaf (hzero.append hk))
  obtain ⟨hclauses, hdisjunction, hwithin, -, -, -, hnested⟩ := layout_in_turn (m := m) rfl f {}
  refine ⟨hbits, by decide +kernel, ?_, ?_, ?_, ?_⟩
  · exact hclauses [] [] [zero ++ k, one ++ k] (List.cons_ne_nil _ _) (by decide) (hoff hbits)
  · exact hdisjunction [] zero one k _ rfl hzero hone (.inl hk) (hoff hbits)
  · exact hwithin [.fresh 0] zero one k block onward rfl rfl hzero hone (.inl (by decide))
      (hoff honward)
  · exact (hnested _ _ htries).2 (not_faultsInTurn rfl hthree)

end Machine

end LogicMachine
