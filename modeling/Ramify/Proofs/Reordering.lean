import Mathlib.Data.List.Perm.Basic
import Ramify.Proofs.Answers

/-!
# Alternatives have no priority

Two expressions are reorderings of each other if they differ in the order of choices only, at
any depth (`Expr.Reordered`).  A grammar is described by the steps that give its rules to a
builder and by the expression at which it starts; reordering a description changes the order
in which nodes are placed, and so every place in the arena.

Places are compared by the expressions that stand at them: `Arena.Stands` reads an expression
back from the arena, and two places are alike if reorderings of each other stand at them.
Along this relation the drafts of two builders match, so that what a builder finds wrong with
one it finds wrong with the other, and parses run in step.
-/

namespace Ramify

variable {σ τ : Type}

/-! ## Reordered expressions -/

namespace Expr

/-- An expression is another with choices in a different order, at any depth. -/
inductive Reordered : Expr σ τ → Expr σ τ → Prop where
  /-- The empty text. -/
  | empty : Reordered .empty .empty
  /-- The same set of symbols. -/
  | oneOf (set : SymbolSet σ) : Reordered (.oneOf set) (.oneOf set)
  /-- The same run of symbols. -/
  | literal (run : List σ) : Reordered (.literal run) (.literal run)
  /-- The same guard. -/
  | guard (set : SymbolSet σ) : Reordered (.guard set) (.guard set)
  /-- The parts are reordered, and keep their places. -/
  | seq {parts parts' : List (Expr σ τ)} (h : List.Forall₂ Reordered parts parts') :
      Reordered (.seq parts) (.seq parts')
  /-- The choices are reordered, and change places. -/
  | alt {choices middle choices' : List (Expr σ τ)} (h : List.Forall₂ Reordered choices middle)
      (hperm : middle.Perm choices') : Reordered (.alt choices) (.alt choices')
  /-- The body is reordered. -/
  | star {body body' : Expr σ τ} (h : Reordered body body') :
      Reordered (.star body) (.star body')
  /-- The body is reordered. -/
  | times {body body' : Expr σ τ} (count : Nat) (h : Reordered body body') :
      Reordered (.times body count) (.times body' count)
  /-- The same rule. -/
  | rule (index : RuleId) : Reordered (.rule index) (.rule index)
  /-- The body is reordered. -/
  | emit {body body' : Expr σ τ} (yields : Yield σ τ) (h : Reordered body body') :
      Reordered (.emit body yields) (.emit body' yields)
  /-- The body is reordered. -/
  | fold {body body' : Expr σ τ} (merge : List τ → τ) (h : Reordered body body') :
      Reordered (.fold body merge) (.fold body' merge)
  /-- The same observer. -/
  | observe (observer : Observer) : Reordered (.observe observer) (.observe observer)

mutual

/-- An expression is a reordering of itself. -/
theorem Reordered.refl : ∀ (e : Expr σ τ), e.Reordered e
  | .empty => .empty
  | .oneOf set => .oneOf set
  | .literal run => .literal run
  | .guard set => .guard set
  | .seq parts => .seq (Reordered.reflAll parts)
  | .alt choices => .alt (Reordered.reflAll choices) (.refl choices)
  | .star body => .star (Reordered.refl body)
  | .times body count => .times count (Reordered.refl body)
  | .rule index => .rule index
  | .emit body yields => .emit yields (Reordered.refl body)
  | .fold body merge => .fold merge (Reordered.refl body)
  | .observe observer => .observe observer

theorem Reordered.reflAll : ∀ (es : List (Expr σ τ)), List.Forall₂ Reordered es es
  | [] => .nil
  | e :: es => .cons (Reordered.refl e) (Reordered.reflAll es)

end

variable {index : RuleId}

theorem mentionsAny_perm {es es' : List (Expr σ τ)} (h : es.Perm es') :
    MentionsAny index es ↔ MentionsAny index es' := by
  rw [mentionsAny_iff, mentionsAny_iff]
  exact exists_congr fun e => and_congr_left fun _ => h.mem_iff

mutual

/-- A reordering mentions the same rules. -/
theorem Reordered.mentions_iff :
    ∀ {e e' : Expr σ τ}, e.Reordered e' → (Mentions index e ↔ Mentions index e')
  | .empty, _, .empty | .oneOf _, _, .oneOf _ | .literal _, _, .literal _ | .guard _, _, .guard _
  | .rule _, _, .rule _ | .observe _, _, .observe _ => Iff.rfl
  | .seq _, _, .seq h => Reordered.mentionsAny_iff h
  | .alt _, _, .alt h hperm => (Reordered.mentionsAny_iff h).trans (mentionsAny_perm hperm)
  | .star _, _, .star h => h.mentions_iff
  | .times _ _, _, .times _ h => h.mentions_iff
  | .emit _ _, _, .emit _ h => h.mentions_iff
  | .fold _ _, _, .fold _ h => h.mentions_iff

theorem Reordered.mentionsAny_iff :
    ∀ {es es' : List (Expr σ τ)}, List.Forall₂ Reordered es es' →
      (MentionsAny index es ↔ MentionsAny index es')
  | [], _, .nil => Iff.rfl
  | _ :: _, _, .cons h hrest => or_congr h.mentions_iff (Reordered.mentionsAny_iff hrest)

end

end Expr

/-! ## Places that are alike -/

namespace Arena

/-- Reorderings of each other stand at two places. -/
def Alike (arena arena' : Arena σ τ) (id id' : NodeId) : Prop :=
  ∃ e e' : Expr σ τ, e.Reordered e' ∧ Stands arena id e ∧ Stands arena' id' e'

variable {arena arena' : Arena σ τ} {id id' : NodeId}

theorem Alike.kept {later later' : Arena σ τ} (h : Alike arena arena' id id')
    (hkeeps : Keeps arena later) (hkeeps' : Keeps arena' later') : Alike later later' id id' := by
  obtain ⟨e, e', hreordered, hstands, hstands'⟩ := h
  exact ⟨e, e', hreordered, hstands.kept hkeeps, hstands'.kept hkeeps'⟩

/-- Reordered parts stand at places that are alike. -/
theorem alike_all {es es' : List (Expr σ τ)} (h : List.Forall₂ Expr.Reordered es es')
    {ids ids' : List NodeId} (hids : List.Forall₂ (Stands arena) ids es)
    (hids' : List.Forall₂ (Stands arena') ids' es') :
    List.Forall₂ (Alike arena arena') ids ids' :=
  rel_through h hids hids'

/-- Choices that were reordered and changed places stand at places that are alike in some
order. -/
theorem alike_perm {es middle es' : List (Expr σ τ)} (h : List.Forall₂ Expr.Reordered es middle)
    (hperm : middle.Perm es') {ids ids' : List NodeId} (hids : List.Forall₂ (Stands arena) ids es)
    (hids' : List.Forall₂ (Stands arena') ids' es') :
    Multiset.Rel (Alike arena arena') (ids : Multiset NodeId) (ids' : Multiset NodeId) := by
  -- The places of the second list, in the order of the first.
  obtain ⟨places, hplaces, hback⟩ := List.perm_comp_forall₂ hperm hids'.flip
  rw [← Multiset.coe_eq_coe.mpr hback]
  exact rel_coe (alike_all h hids hplaces.flip)

/-- Nodes at places that are alike match. -/
theorem Alike.matches : Alike arena arena' id id' →
    ∃ node node', arena[id]? = some node ∧ arena'[id']? = some node' ∧
      node.Matches (Alike arena arena') node'
  | ⟨_, _, .empty, .empty hn, .empty hn'⟩ => ⟨_, _, hn, hn', .empty⟩
  | ⟨_, _, .oneOf set, .oneOf hn, .oneOf hn'⟩ => ⟨_, _, hn, hn', .oneOf set⟩
  | ⟨_, _, .literal run, .literal hn, .literal hn'⟩ => by
      refine ⟨_, _, hn, hn', ?_⟩
      split
      · exact .empty
      · exact .literal run
  | ⟨_, _, .guard set, .guard hn, .guard hn'⟩ => ⟨_, _, hn, hn', .guard set⟩
  | ⟨_, _, .seq h, .seq hn hids, .seq hn' hids'⟩ => ⟨_, _, hn, hn', .seq (alike_all h hids hids')⟩
  | ⟨_, _, .alt h hperm, .alt hn hids, .alt hn' hids'⟩ =>
      ⟨_, _, hn, hn', .alt (alike_perm h hperm hids hids')⟩
  | ⟨_, _, .star h, .star hn hid, .star hn' hid'⟩ => ⟨_, _, hn, hn', .star ⟨_, _, h, hid, hid'⟩⟩
  | ⟨_, _, .times count h, .times hn hid, .times hn' hid'⟩ =>
      ⟨_, _, hn, hn', .times count ⟨_, _, h, hid, hid'⟩⟩
  | ⟨_, _, .rule index, .rule hn, .rule hn'⟩ => ⟨_, _, hn, hn', .rule index⟩
  | ⟨_, _, .emit yields h, .emit hn hid, .emit hn' hid'⟩ =>
      ⟨_, _, hn, hn', .emit yields ⟨_, _, h, hid, hid'⟩⟩
  | ⟨_, _, .fold merge h, .fold hn hid, .fold hn' hid'⟩ =>
      ⟨_, _, hn, hn', .fold merge ⟨_, _, h, hid, hid'⟩⟩
  | ⟨_, _, .observe observer, .observe hn, .observe hn'⟩ => ⟨_, _, hn, hn', .observe observer⟩

end Arena

/-! ## Builders that are alike -/

/-- Two declarations give the same name, and bodies at places that are alike or none. -/
structure Declaration.Alike (arena arena' : Arena σ τ) (declaration declaration' : Declaration) :
    Prop where
  /-- The name is the same. -/
  name : declaration.name = declaration'.name
  /-- The bodies are alike. -/
  body : Option.Rel (Arena.Alike arena arena') declaration.body declaration'.body

namespace Builder

/-- Two builders hold the same declarations up to the order of choices. -/
structure Alike (builder builder' : Builder σ τ) : Prop where
  /-- The declarations are alike. -/
  rules : ∀ index : RuleId, Option.Rel (Declaration.Alike builder.nodes builder'.nodes)
    builder.rules[index]? builder'.rules[index]?
  /-- The same rules are mentioned. -/
  mentions : ∀ index, .rule index ∈ builder.nodes ↔ .rule index ∈ builder'.nodes

variable {builder builder' : Builder σ τ}

theorem Alike.getElem?_eq_none_iff (h : builder.Alike builder') (index : RuleId) :
    builder.rules[index]? = none ↔ builder'.rules[index]? = none := by
  rcases rel_cases (h.rules index) with ⟨hr, hr'⟩ | ⟨_, _, hr, hr', -⟩
  · rw [hr, hr']
  · rw [hr, hr']
    exact ⟨nofun, nofun⟩

theorem Alike.size_eq (h : builder.Alike builder') : builder.rules.size = builder'.rules.size := by
  refine Nat.le_antisymm ?_ ?_
  · rw [← Array.getElem?_eq_none_iff, h.getElem?_eq_none_iff, Array.getElem?_eq_none_iff]
  · rw [← Array.getElem?_eq_none_iff, ← h.getElem?_eq_none_iff, Array.getElem?_eq_none_iff]

theorem Alike.new : (Builder.new : Builder σ τ).Alike .new where
  rules _ := .none
  mentions _ := Iff.rfl

theorem Alike.declare (h : builder.Alike builder') (name : String) :
    (builder.declare name).1.Alike (builder'.declare name).1 where
  rules index := by
    simp only [Builder.declare, Array.getElem?_push, h.size_eq]
    split
    · exact .some ⟨rfl, .none⟩
    · exact h.rules index
  mentions := h.mentions

/-- The same rules are mentioned when reorderings of each other are added. -/
theorem Alike.mentions_place (h : builder.Alike builder') {e e' : Expr σ τ} (he : e.Reordered e')
    (index : RuleId) : .rule index ∈ (Arena.place builder.nodes e).1 ↔
      .rule index ∈ (Arena.place builder'.nodes e').1 := by
  rw [Arena.mem_place_iff, Arena.mem_place_iff, h.mentions index, he.mentions_iff]

/-- Declarations stay alike when more is added. -/
theorem Alike.rules_place (h : builder.Alike builder') (e e' : Expr σ τ) (index : RuleId) :
    Option.Rel (Declaration.Alike (Arena.place builder.nodes e).1 (Arena.place builder'.nodes e').1)
      builder.rules[index]? builder'.rules[index]? := by
  rcases rel_cases (h.rules index) with
    ⟨hr, hr'⟩ | ⟨⟨name, body⟩, ⟨name', body'⟩, hr, hr', hname, hbody⟩
  · rw [hr, hr']
    exact .none
  · rw [hr, hr']
    refine .some ⟨hname, ?_⟩
    cases hbody with
    | none => exact .none
    | some halike =>
        exact .some (halike.kept (Arena.keeps_place _ e) (Arena.keeps_place _ e'))

/-- A definition succeeds with reordered bodies, or fails for the same reason. -/
theorem Alike.define (h : builder.Alike builder') (rule : RuleId) {body body' : Expr σ τ}
    (hbody : body.Reordered body') :
    (∃ next next', builder.define rule body = .ok next ∧ builder'.define rule body' = .ok next' ∧
      next.Alike next') ∨
    ∃ fault, builder.define rule body = .error fault ∧
      builder'.define rule body' = .error fault := by
  unfold Builder.define
  rcases rel_cases (h.rules rule) with
    ⟨hr, hr'⟩ | ⟨⟨name, place⟩, ⟨name', place'⟩, hr, hr', hname, hplace⟩
  · rw [hr, hr']
    exact .inr ⟨_, rfl, rfl⟩
  · obtain rfl : name = name' := hname
    rw [hr, hr']
    cases hplace with
    | some => exact .inr ⟨_, rfl, rfl⟩
    | none =>
        refine .inl ⟨_, _, rfl, rfl, ?_, h.mentions_place hbody⟩
        intro index
        simp only [Array.getElem?_setIfInBounds, h.size_eq]
        split
        · split
          · exact .some ⟨rfl, .some ⟨body, body', hbody, Arena.stands_place body,
              Arena.stands_place body'⟩⟩
          · exact .none
        · exact h.rules_place body body' index

/-! ## Descriptions -/

/-- A step in the description of a grammar. -/
inductive Step (σ τ : Type) where
  /-- To declare a rule. -/
  | declare (name : String)
  /-- To give a rule its body. -/
  | define (rule : RuleId) (body : Expr σ τ)

/-- The builder after a step, and what was wrong with the step.  A step that fails leaves the
builder as it was. -/
def apply (builder : Builder σ τ) : Step σ τ → Builder σ τ × Option Fault
  | .declare name => ((builder.declare name).1, none)
  | .define rule body =>
    match builder.define rule body with
    | .ok next => (next, none)
    | .error fault => (builder, some fault)

/-- The builder after several steps, and what was wrong with each. -/
def run (builder : Builder σ τ) : List (Step σ τ) → Builder σ τ × List (Option Fault)
  | [] => (builder, [])
  | step :: steps =>
    let (next, fault) := builder.apply step
    let (last, faults) := next.run steps
    (last, fault :: faults)

/-- A step is another with choices in a different order. -/
inductive Step.Reordered : Step σ τ → Step σ τ → Prop where
  /-- The same declaration. -/
  | declare (name : String) : Reordered (.declare name) (.declare name)
  /-- The body is reordered. -/
  | define (rule : RuleId) {body body' : Expr σ τ} (h : body.Reordered body') :
      Reordered (.define rule body) (.define rule body')

theorem Reached.apply (h : builder.Reached) (step : Step σ τ) : (builder.apply step).1.Reached := by
  cases step with
  | declare name => exact h.declare name
  | define rule body =>
      simp only [Builder.apply]
      split
      next hd => exact h.define hd
      · exact h

theorem Reached.run (h : builder.Reached) (steps : List (Step σ τ)) :
    (builder.run steps).1.Reached := by
  induction steps generalizing builder with
  | nil => exact h
  | cons step steps ih => exact ih (h.apply step)

theorem Alike.apply (h : builder.Alike builder') {step step' : Step σ τ}
    (hstep : step.Reordered step') :
    (builder.apply step).1.Alike (builder'.apply step').1 ∧
      (builder.apply step).2 = (builder'.apply step').2 := by
  cases hstep with
  | declare name => exact ⟨h.declare name, rfl⟩
  | define rule hbody =>
      simp only [Builder.apply]
      rcases h.define rule hbody with ⟨next, next', hd, hd', hnext⟩ | ⟨fault, hd, hd'⟩
      · rw [hd, hd']
        exact ⟨hnext, rfl⟩
      · rw [hd, hd']
        exact ⟨h, rfl⟩

theorem Alike.run (h : builder.Alike builder') {steps steps' : List (Step σ τ)}
    (hsteps : List.Forall₂ Step.Reordered steps steps') :
    (builder.run steps).1.Alike (builder'.run steps').1 ∧
      (builder.run steps).2 = (builder'.run steps').2 := by
  induction hsteps generalizing builder builder' with
  | nil => exact ⟨h, rfl⟩
  | cons hstep _ ih =>
      obtain ⟨hnext, hfault⟩ := h.apply hstep
      obtain ⟨hlast, hfaults⟩ := ih hnext
      refine ⟨hlast, ?_⟩
      simp only [Builder.run, hfault, hfaults]

/-! ## Drafts that match -/

theorem defined_iff : builder.Defined ↔ ∀ (index : RuleId) (name : String),
    builder.rules[index]? ≠ some ⟨name, none⟩ := by
  constructor
  · intro h index name hr
    exact h _ (Array.mem_toList_iff.mpr (Array.mem_of_getElem? hr)) rfl
  · rintro h ⟨name, body⟩ hmem rfl
    obtain ⟨index, hr⟩ := Array.mem_iff_getElem?.mp (Array.mem_toList_iff.mp hmem)
    exact h index name hr

theorem Alike.defined_iff (h : builder.Alike builder') : builder.Defined ↔ builder'.Defined := by
  rw [Builder.defined_iff, Builder.defined_iff]
  refine forall_congr' fun index => forall_congr' fun name => not_congr ?_
  rcases rel_cases (h.rules index) with
    ⟨hr, hr'⟩ | ⟨⟨name', body⟩, ⟨name'', body'⟩, hr, hr', hname, hbody⟩
  · rw [hr, hr']
  · obtain rfl : name' = name'' := hname
    rw [hr, hr']
    cases hbody with
    | none => exact Iff.rfl
    | some => simp

variable {start start' : Expr σ τ}

/-- The body of a rule in the draft is the one it was given. -/
theorem body?_draft (h : builder.Defined) (index : RuleId) :
    (builder.draft start).body? index = builder.rules[index]?.bind Declaration.body := by
  cases hr : builder.rules[index]? with
  | none =>
      cases hd : (builder.draft start).rules[index]? with
      | none => rw [Grammar.body?, hd]; rfl
      | some rule => cases hr.symm.trans ((getElem?_draft_rules h start).mp hd)
  | some declaration =>
      obtain ⟨name, body⟩ := declaration
      cases body with
      | none => exact absurd hr (Builder.defined_iff.mp h index name)
      | some body =>
          rw [Grammar.body?, (getElem?_draft_rules h start).mpr hr]
          rfl

theorem Alike.closed_iff (h : builder.Alike builder') (hstart : start.Reordered start') :
    builder.Closed start ↔ builder'.Closed start' := by
  refine forall_congr' fun index => ?_
  rw [h.size_eq, Array.mem_toList_iff, Array.mem_toList_iff]
  exact imp_congr_left (h.mentions_place hstart index)

/-- The drafts of builders that are alike match. -/
theorem Alike.matching (h : builder.Alike builder') (hdefined : builder.Defined)
    (hstart : start.Reordered start') : (builder.draft start).Matching (builder'.draft start')
      (Arena.Alike (builder.draft start).nodes (builder'.draft start').nodes) where
  nodes := Arena.Alike.matches
  bodies index := by
    rw [body?_draft hdefined, body?_draft (h.defined_iff.mp hdefined)]
    rcases rel_cases (h.rules_place start start' index) with
      ⟨hr, hr'⟩ | ⟨⟨name, body⟩, ⟨name', body'⟩, hr, hr', -, hbody⟩
    · rw [hr, hr']
      exact .inl ⟨rfl, rfl⟩
    · rw [hr, hr']
      exact rel_cases hbody
  start := ⟨start, start', hstart, Arena.stands_place start, Arena.stands_place start'⟩
  marks := rfl
  marks' := rfl

/-- A draft has no cycle if the chains of left corners from the bodies of its rules come to an
end. -/
theorem Reached.acyclic_of_bodies (h : builder.Reached) (hdefined : builder.Defined)
    (hclosed : builder.Closed start)
    (hbodies : ∀ index body, (builder.draft start).body? index = some body →
      Acc (builder.draft start).LeftCorner body) : builder.Acyclic start := by
  -- A cycle passes through the body of a rule.
  by_contra hcycle
  obtain ⟨_, _, name, -, -, index, body, hrule, hreach⟩ :=
    h.build_of_cycle hdefined hclosed hcycle
  have hbody : (builder.draft start).body? index = some body := by
    rw [body?_draft hdefined, hrule]
    rfl
  exact Grammar.not_transGen_of_acc (hbodies index body hbody) hreach

/-- A builder whose draft matches a grammar without left recursion has none either. -/
theorem Reached.acyclic_of_matching (h : builder.Reached) (hdefined : builder.Defined)
    (hclosed : builder.Closed start) {g : Grammar σ τ} {M : NodeId → NodeId → Prop}
    (hmatch : (builder.draft start).Matching g M) (hwf : WellFounded g.LeftCorner) :
    builder.Acyclic start := by
  refine h.acyclic_of_bodies hdefined hclosed fun index body hbody => ?_
  rcases hmatch.bodies index with ⟨hnone, -⟩ | ⟨other, body', hother, -, hM⟩
  · cases hnone.symm.trans hbody
  · cases hother.symm.trans hbody
    exact hmatch.symm.acc (hwf.apply body') hM

/-- Nothing is wrong with both of two drafts, or something is with both. -/
theorem Alike.wellFormed_iff (h : builder.Alike builder') (hreached : builder.Reached)
    (hreached' : builder'.Reached) (hstart : start.Reordered start') :
    builder.WellFormed start ↔ builder'.WellFormed start' := by
  constructor
  · rintro ⟨hdefined, hclosed, hacyclic⟩
    have hdefined' := h.defined_iff.mp hdefined
    have hclosed' := (h.closed_iff hstart).mp hclosed
    have hwf := Grammar.wellFounded_leftCorner (acyclic_iff_accepted.mp hacyclic)
    exact ⟨hdefined', hclosed', hreached'.acyclic_of_matching hdefined' hclosed'
      (h.matching hdefined hstart).symm hwf⟩
  · rintro ⟨hdefined', hclosed', hacyclic'⟩
    have hdefined := h.defined_iff.mpr hdefined'
    have hclosed := (h.closed_iff hstart).mpr hclosed'
    have hwf' := Grammar.wellFounded_leftCorner (acyclic_iff_accepted.mp hacyclic')
    exact ⟨hdefined, hclosed, hreached.acyclic_of_matching hdefined hclosed
      (h.matching hdefined hstart) hwf'⟩

/-! ## Nothing tells them apart -/

/-- Alternatives have no priority.  Let two descriptions of a grammar differ in the order of
choices only.  Then each step succeeds or fails alike; both descriptions make a grammar or
neither does; and under any limits, the parses of the two grammars give the same reply to
each of any number of requests, and after it hold as many branches and have taken as many
symbols. -/
theorem reordered_indistinguishable [DecidableEq σ] {steps steps' : List (Step σ τ)}
    (hsteps : List.Forall₂ Step.Reordered steps steps') (hstart : start.Reordered start') :
    (Builder.new.run steps).2 = (Builder.new.run steps').2 ∧
    ((∃ g, (Builder.new.run steps).1.build start = .ok g) ↔
      ∃ g', (Builder.new.run steps').1.build start' = .ok g') ∧
    ∀ g g', (Builder.new.run steps).1.build start = .ok g →
      (Builder.new.run steps').1.build start' = .ok g' →
      ∀ (limits : Limits) (requests : List (Request σ)),
        (Forest.new g limits).sights requests = (Forest.new g' limits).sights requests := by
  obtain ⟨halike, hfaults⟩ := Alike.new.run hsteps
  have hreached : (Builder.new.run steps).1.Reached := Reached.new.run steps
  have hreached' : (Builder.new.run steps').1.Reached := Reached.new.run steps'
  refine ⟨hfaults, ?_, ?_⟩
  · simp only [build_eq_ok_iff, exists_and_left, exists_eq, and_true]
    exact halike.wellFormed_iff hreached hreached' hstart
  · intro g g' hbuild hbuild' limits requests
    have hg : g.IsBuilt := ⟨_, _, hreached, hbuild⟩
    have hg' : g'.IsBuilt := ⟨_, _, hreached', hbuild'⟩
    obtain ⟨hwell, rfl⟩ := build_eq_ok_iff.mp hbuild
    obtain ⟨-, rfl⟩ := build_eq_ok_iff.mp hbuild'
    have hmatch := halike.matching hwell.defined hstart
    exact (Forest.InStep.new hmatch hg hg' limits).sights_eq requests

/-- A rule with two choices and a start with two, each the other way round. -/
theorem reordered_indistinguishable_swap :
    let a : Expr Char Nat := .literal ['a']
    let b : Expr Char Nat := .emit (.literal ['b']) (.fixed 1)
    let steps (first second : Expr Char Nat) : List (Step Char Nat) :=
      [.declare "letter", .define 0 (.alt [first, second])]
    ∃ g g', (Builder.new.run (steps a b)).1.build (.alt [.rule 0, a]) = .ok g ∧
      (Builder.new.run (steps b a)).1.build (.alt [a, .rule 0]) = .ok g' ∧
      ∀ (limits : Limits) (requests : List (Request Char)),
        (Forest.new g limits).sights requests = (Forest.new g' limits).sights requests := by
  intro a b steps
  have hchoices : (Expr.alt [a, b]).Reordered (.alt [b, a]) :=
    .alt (Expr.Reordered.reflAll _) (.swap b a [])
  have hstart : (Expr.alt [.rule 0, a]).Reordered (.alt [a, .rule 0]) :=
    .alt (Expr.Reordered.reflAll _) (.swap a (.rule 0) [])
  have hsteps : List.Forall₂ Step.Reordered (steps a b) (steps b a) :=
    .cons (.declare "letter") (.cons (.define 0 hchoices) .nil)
  have hrun : ((Builder.new.run (steps a b)).1.build
      (.alt [.rule 0, a])).toOption.isSome = true := by decide +kernel
  obtain ⟨-, hbuilds, hsights⟩ := reordered_indistinguishable hsteps hstart
  cases hg : (Builder.new.run (steps a b)).1.build (.alt [.rule 0, a]) with
  | error fault =>
      rw [hg] at hrun
      cases hrun
  | ok g =>
      obtain ⟨g', hg'⟩ := hbuilds.mp ⟨g, hg⟩
      exact ⟨g, g', rfl, hg', hsights g g' hg hg'⟩

end Builder

end Ramify
