import Ramify.Proofs.Reordering
import Ramify.Proofs.Transport

/-!
# Grammars that are rewritten

A law says what may be written in place of an expression.  An expression is rewritten by a law
if the law is applied to any number of its parts (`Expr.Rewritten`).

The steps that describe a grammar tell bodies of its rules (`Builder.bodies`), and these stand
in the arena of the builder, wherever their nodes were placed (`Builder.Holds`).  So if the
bodies of one builder are those of another, rewritten by a law, the draft of the one matches
that of the other but for the law (`Builder.Holds.matchingBut`).
-/

namespace Ramify

variable {σ τ : Type}

/-! ## Rewritten expressions -/

namespace Expr

/-- An expression is another with a law applied to any number of its parts. -/
inductive Rewritten (law : Expr σ τ → Expr σ τ → Prop) : Expr σ τ → Expr σ τ → Prop where
  /-- The law is applied to the whole. -/
  | here {e e' : Expr σ τ} (h : law e e') : Rewritten law e e'
  /-- The empty text. -/
  | empty : Rewritten law .empty .empty
  /-- The same set of symbols. -/
  | oneOf (set : SymbolSet σ) : Rewritten law (.oneOf set) (.oneOf set)
  /-- The same run of symbols. -/
  | literal (run : List σ) : Rewritten law (.literal run) (.literal run)
  /-- The same guard. -/
  | guard (set : SymbolSet σ) : Rewritten law (.guard set) (.guard set)
  /-- The parts are rewritten. -/
  | seq {parts parts' : List (Expr σ τ)} (h : List.Forall₂ (Rewritten law) parts parts') :
      Rewritten law (.seq parts) (.seq parts')
  /-- The choices are rewritten. -/
  | alt {choices choices' : List (Expr σ τ)} (h : List.Forall₂ (Rewritten law) choices choices') :
      Rewritten law (.alt choices) (.alt choices')
  /-- The body is rewritten. -/
  | star {body body' : Expr σ τ} (h : Rewritten law body body') :
      Rewritten law (.star body) (.star body')
  /-- The body is rewritten. -/
  | times {body body' : Expr σ τ} (count : Nat) (h : Rewritten law body body') :
      Rewritten law (.times body count) (.times body' count)
  /-- The same rule. -/
  | rule (index : RuleId) : Rewritten law (.rule index) (.rule index)
  /-- The body is rewritten. -/
  | emit {body body' : Expr σ τ} (yields : Yield σ τ) (h : Rewritten law body body') :
      Rewritten law (.emit body yields) (.emit body' yields)
  /-- The body is rewritten. -/
  | fold {body body' : Expr σ τ} (merge : List τ → τ) (h : Rewritten law body body') :
      Rewritten law (.fold body merge) (.fold body' merge)
  /-- The same observer. -/
  | observe (observer : Observer) : Rewritten law (.observe observer) (.observe observer)

variable {law : Expr σ τ → Expr σ τ → Prop}

mutual

/-- A law need not be applied at all. -/
theorem Rewritten.refl : ∀ (e : Expr σ τ), Rewritten law e e
  | .empty => .empty
  | .oneOf set => .oneOf set
  | .literal run => .literal run
  | .guard set => .guard set
  | .seq parts => .seq (Rewritten.reflAll parts)
  | .alt choices => .alt (Rewritten.reflAll choices)
  | .star body => .star (Rewritten.refl body)
  | .times body count => .times count (Rewritten.refl body)
  | .rule index => .rule index
  | .emit body yields => .emit yields (Rewritten.refl body)
  | .fold body merge => .fold merge (Rewritten.refl body)
  | .observe observer => .observe observer

theorem Rewritten.reflAll : ∀ (es : List (Expr σ τ)), List.Forall₂ (Rewritten law) es es
  | [] => .nil
  | e :: es => .cons (Rewritten.refl e) (Rewritten.reflAll es)

end

mutual

/-- What the law has changed is changed back by its converse. -/
theorem Rewritten.back : ∀ {e e' : Expr σ τ}, Rewritten law e e' → Rewritten (flip law) e' e
  | _, _, .here h => .here h
  | _, _, .empty => .empty
  | _, _, .oneOf set => .oneOf set
  | _, _, .literal run => .literal run
  | _, _, .guard set => .guard set
  | _, _, .seq h => .seq (Rewritten.backAll h)
  | _, _, .alt h => .alt (Rewritten.backAll h)
  | _, _, .star h => .star h.back
  | _, _, .times count h => .times count h.back
  | _, _, .rule index => .rule index
  | _, _, .emit yields h => .emit yields h.back
  | _, _, .fold merge h => .fold merge h.back
  | _, _, .observe observer => .observe observer

theorem Rewritten.backAll : ∀ {es es' : List (Expr σ τ)}, List.Forall₂ (Rewritten law) es es' →
    List.Forall₂ (Rewritten (flip law)) es' es
  | _, _, .nil => .nil
  | _, _, .cons h hrest => .cons h.back (Rewritten.backAll hrest)

end

mutual

/-- Rules that the law may lose apart, an expression mentions no more rules than it does when it
is rewritten. -/
theorem Rewritten.mentions {index : RuleId} {lost : Prop}
    (hlaw : ∀ {e e' : Expr σ τ}, law e e' → e.Mentions index → e'.Mentions index ∨ lost) :
    ∀ {e e' : Expr σ τ}, Rewritten law e e' → e.Mentions index → e'.Mentions index ∨ lost
  | _, _, .here h => hlaw h
  | _, _, .empty | _, _, .oneOf _ | _, _, .literal _ | _, _, .guard _ | _, _, .rule _
  | _, _, .observe _ => .inl
  | _, _, .seq h | _, _, .alt h => Rewritten.mentionsAny hlaw h
  | _, _, .star h | _, _, .times _ h | _, _, .emit _ h | _, _, .fold _ h => h.mentions hlaw

theorem Rewritten.mentionsAny {index : RuleId} {lost : Prop}
    (hlaw : ∀ {e e' : Expr σ τ}, law e e' → e.Mentions index → e'.Mentions index ∨ lost) :
    ∀ {es es' : List (Expr σ τ)}, List.Forall₂ (Rewritten law) es es' →
      MentionsAny index es → MentionsAny index es' ∨ lost
  | _, _, .nil => .inl
  | _, _, .cons h hrest => fun hm =>
      hm.elim (fun hm => (h.mentions hlaw hm).imp_left .inl)
        fun hm => (Rewritten.mentionsAny hlaw hrest hm).imp_left .inr

end

end Expr

/-! ## Places of rewritten expressions -/

namespace Arena

/-- Related expressions stand at two places. -/
def Related (R : Expr σ τ → Expr σ τ → Prop) (arena arena' : Arena σ τ) (id id' : NodeId) :
    Prop :=
  ∃ e e' : Expr σ τ, R e e' ∧ Stands arena id e ∧ Stands arena' id' e'

variable {arena arena' : Arena σ τ} {id id' : NodeId} {R law : Expr σ τ → Expr σ τ → Prop}

/-- Related parts stand at related places. -/
theorem related_all {es es' : List (Expr σ τ)} (h : List.Forall₂ R es es')
    {ids ids' : List NodeId} (hids : List.Forall₂ (Stands arena) ids es)
    (hids' : List.Forall₂ (Stands arena') ids' es') :
    List.Forall₂ (Related R arena arena') ids ids' :=
  rel_through h hids hids'

/-- Where the same expressions stand, places are related, if those of one expression are. -/
theorem stands_same {M : NodeId → NodeId → Prop}
    (hM : ∀ {id id' : NodeId} {e : Expr σ τ}, Stands arena id e → Stands arena' id' e → M id id')
    {es : List (Expr σ τ)} {ids ids' : List NodeId} (h : List.Forall₂ (Stands arena) ids es)
    (h' : List.Forall₂ (Stands arena') ids' es) : List.Forall₂ M ids ids' := by
  have hsame : List.Forall₂ Eq es es := List.forall₂_refl es
  refine (related_all hsame h h').imp ?_
  rintro id id' ⟨e, _, rfl, hstands, hstands'⟩
  exact hM hstands hstands'

/-- Places of one expression are related, as a law need not be applied. -/
theorem related_self {e : Expr σ τ} (h : Stands arena id e) (h' : Stands arena' id' e) :
    Related (Expr.Rewritten law) arena arena' id id' :=
  ⟨e, e, .refl e, h, h'⟩

/-- Where rewritten expressions stand, nodes match, or the law was applied. -/
theorem Related.matches : Related (Expr.Rewritten law) arena arena' id id' →
    (∃ node node', arena[id]? = some node ∧ arena'[id']? = some node' ∧
      node.Matches (Related (Expr.Rewritten law) arena arena') node') ∨
      Related law arena arena' id id'
  | ⟨_, _, .here h, hid, hid'⟩ => .inr ⟨_, _, h, hid, hid'⟩
  | ⟨_, _, .empty, .empty hn, .empty hn'⟩ => .inl ⟨_, _, hn, hn', .empty⟩
  | ⟨_, _, .oneOf set, .oneOf hn, .oneOf hn'⟩ => .inl ⟨_, _, hn, hn', .oneOf set⟩
  | ⟨_, _, .literal run, .literal hn, .literal hn'⟩ => by
      refine .inl ⟨_, _, hn, hn', ?_⟩
      split
      · exact .empty
      · exact .literal run
  | ⟨_, _, .guard set, .guard hn, .guard hn'⟩ => .inl ⟨_, _, hn, hn', .guard set⟩
  | ⟨_, _, .seq h, .seq hn hids, .seq hn' hids'⟩ =>
      .inl ⟨_, _, hn, hn', .seq (related_all h hids hids')⟩
  | ⟨_, _, .alt h, .alt hn hids, .alt hn' hids'⟩ =>
      .inl ⟨_, _, hn, hn', .alt (rel_coe (related_all h hids hids'))⟩
  | ⟨_, _, .star h, .star hn hid, .star hn' hid'⟩ =>
      .inl ⟨_, _, hn, hn', .star ⟨_, _, h, hid, hid'⟩⟩
  | ⟨_, _, .times count h, .times hn hid, .times hn' hid'⟩ =>
      .inl ⟨_, _, hn, hn', .times count ⟨_, _, h, hid, hid'⟩⟩
  | ⟨_, _, .rule index, .rule hn, .rule hn'⟩ => .inl ⟨_, _, hn, hn', .rule index⟩
  | ⟨_, _, .emit yields h, .emit hn hid, .emit hn' hid'⟩ =>
      .inl ⟨_, _, hn, hn', .emit yields ⟨_, _, h, hid, hid'⟩⟩
  | ⟨_, _, .fold merge h, .fold hn hid, .fold hn' hid'⟩ =>
      .inl ⟨_, _, hn, hn', .fold merge ⟨_, _, h, hid, hid'⟩⟩
  | ⟨_, _, .observe observer, .observe hn, .observe hn'⟩ =>
      .inl ⟨_, _, hn, hn', .observe observer⟩

end Arena

/-! ## What a builder was told -/

namespace Builder

/-- The bodies of rules after a step: a rule that is declared has none, and a rule that has
none is given one. -/
def tell (told : List (Option (Expr σ τ))) : Step σ τ → List (Option (Expr σ τ))
  | .declare _ => told ++ [none]
  | .define rule body =>
    match told[rule]? with
    | some none => told.set rule (some body)
    | _ => told

/-- The bodies that the steps of a description give to its rules, by index. -/
def bodies (steps : List (Step σ τ)) : List (Option (Expr σ τ)) :=
  steps.foldl tell []

/-- A builder holds bodies of rules. -/
structure Holds (builder : Builder σ τ) (told : List (Option (Expr σ τ))) : Prop where
  /-- The body of a rule stands where the declaration says. -/
  rules : ∀ index : RuleId, Option.Rel
    (fun declaration body => Option.Rel (Arena.Stands builder.nodes) declaration.body body)
    builder.rules[index]? told[index]?
  /-- The rules that are mentioned are those that the bodies mention. -/
  mentions : ∀ index, .rule index ∈ builder.nodes ↔
    ∃ body, some body ∈ told ∧ body.Mentions index

variable {builder builder' : Builder σ τ} {told told' : List (Option (Expr σ τ))}

theorem Holds.new : (Builder.new : Builder σ τ).Holds [] where
  rules _ := .none
  mentions index := by simp [Builder.new]

theorem Holds.size_eq (h : builder.Holds told) : builder.rules.size = told.length := by
  have hnone : ∀ index : RuleId, builder.rules[index]? = none ↔ told[index]? = none := by
    intro index
    rcases rel_cases (h.rules index) with ⟨hr, ht⟩ | ⟨_, _, hr, ht, -⟩
    · simp [hr, ht]
    · simp [hr, ht]
  refine Nat.le_antisymm ?_ ?_
  · rw [← Array.getElem?_eq_none_iff, hnone, List.getElem?_eq_none_iff]
  · rw [← List.getElem?_eq_none_iff, ← hnone, Array.getElem?_eq_none_iff]

theorem Holds.declare (h : builder.Holds told) (name : String) :
    (builder.declare name).1.Holds (told ++ [none]) where
  rules index := by
    simp only [Builder.declare, Array.getElem?_push, h.size_eq]
    split
    next heq =>
      rw [heq, List.getElem?_concat_length]
      exact .some .none
    next hne =>
      have hrel := h.rules index
      rcases Nat.lt_or_gt_of_ne hne with hlt | hgt
      · rwa [List.getElem?_append_left hlt]
      · rw [List.getElem?_eq_none (Nat.le_of_lt hgt)] at hrel
        rwa [List.getElem?_eq_none (by simpa using hgt)]
  mentions index := by simp [Builder.declare, h.mentions index]

theorem mem_set_iff {rule : RuleId} (ht : told[rule]? = some none) {body other : Expr σ τ} :
    some other ∈ told.set rule (some body) ↔ some other ∈ told ∨ other = body := by
  constructor
  · intro hmem
    exact (List.mem_or_eq_of_mem_set hmem).imp_right Option.some.inj
  · rintro (hmem | rfl)
    · obtain ⟨index, hindex⟩ := List.mem_iff_getElem?.mp hmem
      have hne : rule ≠ index := by
        rintro rfl
        cases ht.symm.trans hindex
      exact List.mem_iff_getElem?.mpr ⟨index, (List.getElem?_set_ne hne).trans hindex⟩
    · exact List.mem_set (List.getElem?_eq_some_iff.mp ht).1 _

theorem Holds.define (h : builder.Holds told) {rule : RuleId} (ht : told[rule]? = some none)
    (name : String) (body : Expr σ τ) :
    Holds ⟨(Arena.place builder.nodes body).1,
        builder.rules.setIfInBounds rule ⟨name, some (Arena.place builder.nodes body).2⟩⟩
      (told.set rule (some body)) where
  rules index := by
    simp only [Array.getElem?_setIfInBounds, List.getElem?_set, h.size_eq]
    split
    · split
      · exact .some (.some (Arena.stands_place body))
      · exact .none
    · rcases rel_cases (h.rules index) with ⟨hr, ht⟩ | ⟨declaration, other, hr, ht, hbody⟩
      · rw [hr, ht]
        exact .none
      · rw [hr, ht]
        refine .some ?_
        rcases rel_cases hbody with ⟨hb, ho⟩ | ⟨place, other, hb, ho, hstands⟩
        · rw [hb, ho]
          exact .none
        · rw [hb, ho]
          exact .some (hstands.kept (Arena.keeps_place _ body))
  mentions index := by
    rw [Arena.mem_place_iff, h.mentions index]
    simp only [mem_set_iff ht, or_and_right, exists_or, exists_eq_left]

theorem Holds.apply (h : builder.Holds told) (step : Step σ τ) :
    (builder.apply step).1.Holds (tell told step) := by
  cases step with
  | declare name => exact h.declare name
  | define rule body =>
      simp only [Builder.apply, Builder.define, tell]
      rcases rel_cases (h.rules rule) with ⟨hr, ht⟩ | ⟨⟨name, place⟩, other, hr, ht, hbody⟩
      · rw [hr, ht]
        exact h
      · rw [hr, ht]
        cases hbody with
        | none => exact h.define ht name body
        | some => exact h

/-- A builder holds what it was told. -/
theorem Holds.run (h : builder.Holds told) (steps : List (Step σ τ)) :
    (builder.run steps).1.Holds (steps.foldl tell told) := by
  induction steps generalizing builder told with
  | nil => exact h
  | cons step steps ih => exact ih (h.apply step)

/-! ## Drafts -/

theorem Holds.defined_iff (h : builder.Holds told) : builder.Defined ↔ none ∉ told := by
  rw [Builder.defined_iff]
  constructor
  · intro hdefined hmem
    obtain ⟨index, hindex⟩ := List.mem_iff_getElem?.mp hmem
    rcases rel_cases (h.rules index) with ⟨-, ht⟩ | ⟨⟨name, place⟩, body, hr, ht, hbody⟩
    · cases ht.symm.trans hindex
    · cases ht.symm.trans hindex
      cases hbody
      exact hdefined index name hr
  · intro hnone index name hr
    rcases rel_cases (h.rules index) with ⟨hr', -⟩ | ⟨declaration, body, hr', ht, hbody⟩
    · cases hr'.symm.trans hr
    · cases hr'.symm.trans hr
      cases hbody
      exact hnone (List.mem_of_getElem? ht)

variable {start start' : Expr σ τ}

/-- The rules that are mentioned are declared just if the bodies and the start mention no
others. -/
theorem Holds.closed_iff (h : builder.Holds told) : builder.Closed start ↔
    ∀ index, ((∃ body, some body ∈ told ∧ body.Mentions index) ∨ start.Mentions index) →
      index < told.length := by
  refine forall_congr' fun index => ?_
  rw [h.size_eq, Array.mem_toList_iff, ← h.mentions]
  exact imp_congr_left (Arena.mem_place_iff start)

/-- The body of a rule in the draft is the one that was told. -/
theorem Holds.rel_body (h : builder.Holds told) (start : Expr σ τ) (hdefined : builder.Defined)
    (index : RuleId) :
    Option.Rel (fun place body => ∃ e, body = some e ∧
        Arena.Stands (builder.draft start).nodes place e)
      ((builder.draft start).body? index) told[index]? := by
  rw [body?_draft hdefined]
  rcases rel_cases (h.rules index) with ⟨hr, ht⟩ | ⟨⟨name, place⟩, body, hr, ht, hbody⟩
  · rw [hr, ht]
    exact .none
  · rw [hr, ht]
    cases hbody with
    | none => exact absurd hr (Builder.defined_iff.mp hdefined index name)
    | some hstands => exact .some ⟨_, rfl, hstands.kept (Arena.keeps_place _ start)⟩

/-- A start that mentions no rule makes a grammar without rules. -/
theorem wellFormed_new (h : ∀ index, ¬ start.Mentions index) :
    (Builder.new : Builder σ τ).WellFormed start := by
  have hholds : (Builder.new : Builder σ τ).Holds [] := .new
  have hdefined : (Builder.new : Builder σ τ).Defined := hholds.defined_iff.mpr List.not_mem_nil
  have hclosed : (Builder.new : Builder σ τ).Closed start := by
    refine hholds.closed_iff.mpr fun index hm => ?_
    rcases hm with ⟨body, hmem, -⟩ | hm
    · cases hmem
    · exact absurd hm (h index)
  refine ⟨hdefined, hclosed, Reached.new.acyclic_of_bodies hdefined hclosed ?_⟩
  intro index body hb
  rcases rel_cases (hholds.rel_body start hdefined index) with ⟨hnone, -⟩ | ⟨_, _, -, ht, -⟩
  · cases hnone.symm.trans hb
  · cases ht

/-! ## Drafts that match but for a law -/

/-- If the rules of one builder are rules of another, with bodies that are rewritten by a law,
the draft of the one matches that of the other but for the law. -/
theorem Holds.matchingBut {law : Expr σ τ → Expr σ τ → Prop} (h : builder.Holds told)
    (h' : builder'.Holds told') (start start' : Expr σ τ) (hdefined : builder.Defined)
    (hdefined' : builder'.Defined)
    (hbodies : ∀ {index : RuleId} {body : Expr σ τ}, told[index]? = some (some body) →
      ∃ body', told'[index]? = some (some body') ∧ body.Rewritten law body') :
    (builder.draft start).MatchingBut (builder'.draft start')
      (Arena.Related law (builder.draft start).nodes (builder'.draft start').nodes)
      (Arena.Related (Expr.Rewritten law) (builder.draft start).nodes
        (builder'.draft start').nodes) where
  nodes := Arena.Related.matches
  bodies {index place} hb := by
    rcases rel_cases (h.rel_body start hdefined index) with
      ⟨hnone, -⟩ | ⟨other, _, hother, ht, body, rfl, hstands⟩
    · cases hnone.symm.trans hb
    cases hother.symm.trans hb
    obtain ⟨body', ht', hrewritten⟩ := hbodies ht
    rcases rel_cases (h'.rel_body start' hdefined' index) with
      ⟨-, hnone⟩ | ⟨place', _, hb', hother', other', rfl, hstands'⟩
    · cases hnone.symm.trans ht'
    cases hother'.symm.trans ht'
    exact ⟨place', hb', body, body', hrewritten, hstands, hstands'⟩
  marks := rfl
  marks' := rfl

/-- Let the draft of a builder match a grammar but for a law, where what is related to a nullable
node is nullable, and what the law relates is free of left recursion as far as its parts are.
Then the builder is well formed if the grammar has no left recursion. -/
theorem Reached.wellFormed_of_matchingBut {law M : NodeId → NodeId → Prop} {g' : Grammar σ τ}
    (h : builder.Reached) (hdefined : builder.Defined) (hclosed : builder.Closed start)
    (hbut : (builder.draft start).MatchingBut g' law M)
    (hnull : ∀ {a a' : NodeId}, M a a' → (builder.draft start).isNullable a = true →
      g'.isNullable a' = true)
    (hacc : ∀ {a a' : NodeId}, law a a' →
      (∀ {b b' : NodeId}, M b b' → Relation.TransGen g'.LeftCorner b' a' →
        Acc (builder.draft start).LeftCorner b) → Acc (builder.draft start).LeftCorner a)
    (hwf : WellFounded g'.LeftCorner) : builder.WellFormed start where
  defined := hdefined
  closed := hclosed
  acyclic := by
    refine h.acyclic_of_bodies hdefined hclosed fun index body hb => ?_
    obtain ⟨body', -, hM⟩ := hbut.bodies hb
    exact hbut.acc hnull hacc (hwf.apply body') hM

theorem WellFormed.wellFounded (h : builder.WellFormed start) :
    WellFounded (builder.draft start).LeftCorner :=
  Grammar.wellFounded_leftCorner (acyclic_iff_accepted.mp h.acyclic)

/-- If the trees of what a law relates correspond when those inside them do, then parses of
grammars that are rewritten by the law come to the same. -/
theorem Holds.answer_eq [DecidableEq σ] {law : Expr σ τ → Expr σ τ → Prop}
    (h : builder.Holds told) (h' : builder'.Holds told') (hreached : builder.Reached)
    (hreached' : builder'.Reached) (hwell : builder.WellFormed start)
    (hwell' : builder'.WellFormed start')
    (hbodies : ∀ {index : RuleId} {body : Expr σ τ}, told[index]? = some (some body) →
      ∃ body', told'[index]? = some (some body') ∧ body.Rewritten law body')
    (hstart : start.Rewritten law start') (w : List σ)
    (hlaw : ∀ {a a' : NodeId} {i j : Nat},
      Arena.Related law (builder.draft start).nodes (builder'.draft start').nodes a a' →
      Grammar.InsideCorresponds (builder.draft start) (builder'.draft start') w
        (Arena.Related (Expr.Rewritten law) (builder.draft start).nodes
          (builder'.draft start').nodes) a i j →
      Corresponds ((builder.draft start).trees w a i j) ((builder'.draft start').trees w a' i j)) :
    (builder.draft start).answer w = (builder'.draft start').answer w := by
  have hg : (builder.draft start).IsBuilt :=
    ⟨builder, start, hreached, build_eq_ok_iff.mpr ⟨hwell, rfl⟩⟩
  have hg' : (builder'.draft start').IsBuilt :=
    ⟨builder', start', hreached', build_eq_ok_iff.mpr ⟨hwell', rfl⟩⟩
  have hbut := h.matchingBut h' start start' hwell.defined hwell'.defined hbodies
  exact Grammar.answer_eq hg hg' (hbut.trees hg hlaw
    ⟨start, start', hstart, Arena.stands_place start, Arena.stands_place start'⟩)

theorem exists_build (h : (builder.build start).toOption.isSome = true) :
    ∃ g, builder.build start = .ok g := by
  cases hbuild : builder.build start with
  | error fault =>
      rw [hbuild] at h
      cases h
  | ok g => exact ⟨g, rfl⟩

/-! ## Lists of bodies -/

/-- Each of several bodies is rewritten by a law, or not given in both lists. -/
abbrev RewrittenAll (law : Expr σ τ → Expr σ τ → Prop) :
    List (Option (Expr σ τ)) → List (Option (Expr σ τ)) → Prop :=
  List.Forall₂ (Option.Rel (Expr.Rewritten law))

namespace RewrittenAll

variable {law : Expr σ τ → Expr σ τ → Prop}

theorem back (h : RewrittenAll law told told') : RewrittenAll (flip law) told' told := by
  refine h.flip.imp fun body body' hrel => ?_
  rcases rel_cases hrel with ⟨rfl, rfl⟩ | ⟨e, e', rfl, rfl, hrewritten⟩
  · exact .none
  · exact .some hrewritten.back

theorem exists_body (h : RewrittenAll law told told') {index : RuleId} {body : Expr σ τ}
    (ht : told[index]? = some (some body)) :
    ∃ body', told'[index]? = some (some body') ∧ body.Rewritten law body' := by
  rcases rel_cases (rel_getElem? h index) with ⟨hnone, -⟩ | ⟨_, _, ht₁, ht', hrel⟩
  · cases hnone.symm.trans ht
  · cases ht₁.symm.trans ht
    cases hrel with
    | some hrewritten => exact ⟨_, ht', hrewritten⟩

theorem none_mem (h : RewrittenAll law told told') (hnone : none ∈ told) : none ∈ told' := by
  obtain ⟨index, hindex⟩ := List.mem_iff_getElem?.mp hnone
  rcases rel_cases (rel_getElem? h index) with ⟨ht, -⟩ | ⟨_, _, ht, ht', hrel⟩
  · cases ht.symm.trans hindex
  · cases ht.symm.trans hindex
    cases hrel
    exact List.mem_of_getElem? ht'

/-- Rules that the law may lose apart, bodies mention no more rules than they do when they are
rewritten. -/
theorem mentions (h : RewrittenAll law told told') {index : RuleId} {lost : Prop}
    (hlaw : ∀ {e e' : Expr σ τ}, law e e' → e.Mentions index → e'.Mentions index ∨ lost)
    {body : Expr σ τ} (hmem : some body ∈ told) (hm : body.Mentions index) :
    (∃ body', some body' ∈ told' ∧ body'.Mentions index) ∨ lost := by
  obtain ⟨place, hplace⟩ := List.mem_iff_getElem?.mp hmem
  obtain ⟨body', ht', hrewritten⟩ := h.exists_body hplace
  exact (hrewritten.mentions hlaw hm).imp_left fun hm' => ⟨body', List.mem_of_getElem? ht', hm'⟩

end RewrittenAll

theorem Holds.defined_of_rewritten {law : Expr σ τ → Expr σ τ → Prop} (h : builder.Holds told)
    (h' : builder'.Holds told') (hdefined' : builder'.Defined)
    (hrules : RewrittenAll law told told') : builder.Defined :=
  h.defined_iff.mpr fun hnone => h'.defined_iff.mp hdefined' (hrules.none_mem hnone)

/-- The rules that a builder mentions are declared if those are of one that it is rewritten to,
where the law keeps mentions. -/
theorem Holds.closed_of_rewritten {law : Expr σ τ → Expr σ τ → Prop} (h : builder.Holds told)
    (h' : builder'.Holds told') (hclosed' : builder'.Closed start')
    (hrules : RewrittenAll law told told') (hstart : start.Rewritten law start')
    (hmentions : ∀ {index : RuleId} {e e' : Expr σ τ}, law e e' → e.Mentions index →
      e'.Mentions index) : builder.Closed start := by
  have hlaw : ∀ {index : RuleId} {e e' : Expr σ τ}, law e e' → e.Mentions index →
      e'.Mentions index ∨ False := fun hlaw hm => .inl (hmentions hlaw hm)
  refine h.closed_iff.mpr fun index hm => ?_
  rw [hrules.length_eq]
  refine h'.closed_iff.mp hclosed' index ?_
  rcases hm with ⟨body, hmem, hm⟩ | hm
  · exact .inl ((hrules.mentions hlaw hmem hm).resolve_right id)
  · exact .inr ((hstart.mentions hlaw hm).resolve_right id)

/-- A builder is well formed if one is that it is rewritten to, where the law keeps mentions and
relates places that are nullable and free of left recursion as far as their parts are. -/
theorem Holds.wellFormed_of_rewritten {law : Expr σ τ → Expr σ τ → Prop}
    (h : builder.Holds told) (h' : builder'.Holds told') (hreached : builder.Reached)
    (hwell' : builder'.WellFormed start') (hrules : RewrittenAll law told told')
    (hstart : start.Rewritten law start')
    (hmentions : ∀ {index : RuleId} {e e' : Expr σ τ}, law e e' → e.Mentions index →
      e'.Mentions index)
    (hnull : ∀ {a a' : NodeId},
      Arena.Related law (builder.draft start).nodes (builder'.draft start').nodes a a' →
        (builder'.draft start').isNullable a' = true)
    (hacc : ∀ {a a' : NodeId},
      Arena.Related law (builder.draft start).nodes (builder'.draft start').nodes a a' →
      (∀ {b b' : NodeId},
        Arena.Related (Expr.Rewritten law) (builder.draft start).nodes
          (builder'.draft start').nodes b b' →
        Relation.TransGen (builder'.draft start').LeftCorner b' a' →
          Acc (builder.draft start).LeftCorner b) → Acc (builder.draft start).LeftCorner a) :
    builder.WellFormed start := by
  have hdefined : builder.Defined := h.defined_of_rewritten h' hwell'.defined hrules
  have hclosed : builder.Closed start :=
    h.closed_of_rewritten h' hwell'.closed hrules hstart hmentions
  have hbut := h.matchingBut h' start start' hdefined hwell'.defined hrules.exists_body
  exact hreached.wellFormed_of_matchingBut hdefined hclosed hbut (hbut.isNullable_of hnull) hacc
    hwell'.wellFounded

end Builder

end Ramify
