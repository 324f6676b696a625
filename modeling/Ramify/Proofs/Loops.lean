import Ramify.Proofs.Rewriting

/-!
# Loops are sugar

A fixed repetition says no more than a sequence of as many copies of its body
(`Expr.WrittenOut`).  A loop says no more than a mention of a rule whose body is the body of the
loop and then the rule again, or nothing (`Expr.Looped`).

A loop has no empty round, and such a rule has no empty round either if the grammar is built:
if its body could be empty, the rule would mention itself before any symbol.  So the trees of
the loop and of the rule correspond, one round of the loop to one mention of the rule
(`Grammar.LoopRule.loops`).
-/

namespace Ramify

variable {σ τ : Type}

namespace Expr

/-- A fixed repetition is written out. -/
inductive WrittenOut : Expr σ τ → Expr σ τ → Prop where
  /-- As a sequence of copies of its body. -/
  | copies (e : Expr σ τ) (count : Nat) : WrittenOut (.times e count) (.seq (.replicate count e))

/-- The body of a rule that stands for a loop: the body of the loop and the rule again, or
nothing. -/
def loopBody (e : Expr σ τ) (rule : RuleId) : Expr σ τ :=
  .alt [.seq [e, .rule rule], .empty]

/-- A loop over `e` becomes a mention of a rule. -/
inductive Looped (e : Expr σ τ) (rule : RuleId) : Expr σ τ → Expr σ τ → Prop where
  /-- The rule that stands for it. -/
  | mention : Looped e rule (.star e) (.rule rule)

end Expr

/-! ## Repetitions that are written out -/

section WrittenOut

variable {g g' : Grammar σ τ} {M : NodeId → NodeId → Prop} {a a' : NodeId}

theorem Arena.Related.writtenOut {arena arena' : Arena σ τ} {law : Expr σ τ → Expr σ τ → Prop}
    (h : Related Expr.WrittenOut arena arena' a a') :
    ∃ body count parts, arena[a]? = some (.times body count) ∧ arena'[a']? = some (.seq parts) ∧
      List.Forall₂ (Related (Expr.Rewritten law) arena arena') (.replicate count body) parts := by
  obtain ⟨_, _, ⟨e, count⟩, hstands, hstands'⟩ := h
  cases hstands with
  | times hn hbody =>
      cases hstands' with
      | seq hn' hparts =>
          exact ⟨_, count, _, hn, hn', related_all (Expr.Rewritten.reflAll _)
            (forall₂_replicate hbody count) hparts⟩

variable [DecidableEq σ] {w : List σ} {i j : Nat}

/-- The trees of a repetition are those of the sequence that it is written out as. -/
theorem Grammar.trees_writtenOut (hg : g.IsBuilt)
    (h : Arena.Related Expr.WrittenOut g.nodes g'.nodes a a')
    (hin : InsideCorresponds g g' w
      (Arena.Related (Expr.Rewritten Expr.WrittenOut) g.nodes g'.nodes) a i j) :
    Corresponds (g.trees w a i j) (g'.trees w a' i j) := by
  obtain ⟨body, count, parts, hn, hn', hparts⟩ := h.writtenOut
  have hchains := chains_of_inside hg hin hparts (Nat.le_refl i) fun _ _ hpart =>
    leftCorner_of_mem_replicate hn hpart
  exact (trees_forms hn).trans (forms_times.trans (hchains.trans
    (forms_seq.symm.trans (trees_forms hn').symm)))

end WrittenOut

/-! ## Rules that stand for loops -/

/-- A rule stands for a loop over `body`: it is `body` and the rule again, or nothing. -/
structure Grammar.LoopRule (g : Grammar σ τ) (rule : RuleId) (root pair body again stop : NodeId) :
    Prop where
  /-- The rule is what stands at `root`. -/
  isBody : g.body? rule = some root
  /-- That is a choice. -/
  isChoice : g.nodes[root]? = some (.alt [pair, stop])
  /-- Its first way is `body` and what stands at `again`. -/
  isPair : g.nodes[pair]? = some (.seq [body, again])
  /-- That is the rule again. -/
  isMention : g.nodes[again]? = some (.rule rule)
  /-- Its second way is the empty text. -/
  isEmpty : g.nodes[stop]? = some .empty

theorem Arena.Stands.loopRule {g : Grammar σ τ} {rule : RuleId} {root : NodeId} {e : Expr σ τ}
    (hroot : g.body? rule = some root) (h : Stands g.nodes root (e.loopBody rule)) :
    ∃ pair body again stop, g.LoopRule rule root pair body again stop ∧ Stands g.nodes body e :=
  match h with
  | .alt hchoice (.cons (.seq hpair (.cons hbody (.cons (.rule hagain) .nil)))
      (.cons (.empty hstop) .nil)) =>
      ⟨_, _, _, _, ⟨hroot, hchoice, hpair, hagain, hstop⟩, hbody⟩

namespace Grammar.LoopRule

variable {g : Grammar σ τ} {rule : RuleId} {root pair body again stop a : NodeId}

/-- A mention of the rule can match the empty text. -/
theorem isNullable (h : g.LoopRule rule root pair body again stop)
    (hmarks : g.nullable = Nullable.compute g.nodes g.rules)
    (hn : g.nodes[a]? = some (.rule rule)) : g.isNullable a = true := by
  simp only [Grammar.isNullable, hmarks]
  have hstop : (Nullable.compute g.nodes g.rules).getD stop false = true :=
    Nullable.holds_compute h.isEmpty rfl
  have hroot := Nullable.holds_compute h.isChoice
    (List.any_eq_true.mpr ⟨stop, List.mem_cons_of_mem _ List.mem_cons_self, hstop⟩)
  exact Nullable.holds_compute hn (Grammar.holds_rule_iff.mpr ⟨root, h.isBody, hroot⟩)

/-- The body is reached from a mention of the rule through left corners. -/
theorem transGen_body (h : g.LoopRule rule root pair body again stop)
    (hn : g.nodes[a]? = some (.rule rule)) : Relation.TransGen g.LeftCorner body a := by
  have hbody : g.LeftCorner body pair := by simp [LeftCorner, leftCorners, h.isPair, leadingParts]
  have hpair : g.LeftCorner pair root := by simp [LeftCorner, leftCorners, h.isChoice]
  have hroot : g.LeftCorner root a := by simp [LeftCorner, leftCorners, hn, h.isBody]
  exact .tail (.tail (.single hbody) hpair) hroot

/-- The body cannot be empty, as the rule would mention itself before any symbol. -/
theorem not_isNullable (h : g.LoopRule rule root pair body again stop)
    (hwf : WellFounded g.LeftCorner) : g.isNullable body ≠ true := by
  intro hnull
  have hagain : g.LeftCorner again pair := by
    simp [LeftCorner, leftCorners, h.isPair, leadingParts, hnull]
  have hpair : g.LeftCorner pair root := by simp [LeftCorner, leftCorners, h.isChoice]
  have hroot : g.LeftCorner root again := by simp [LeftCorner, leftCorners, h.isMention, h.isBody]
  exact not_transGen_of_acc (hwf.apply pair) (.tail (.tail (.single hpair) hroot) hagain)

variable [DecidableEq σ] {w : List σ} {i j : Nat}

/-- A tree of the rule is one of the body and one of the rule again, or nothing. -/
theorem trees (h : g.LoopRule rule root pair body again stop)
    (hn : g.nodes[a]? = some (.rule rule)) :
    Corresponds (g.trees w a i j)
      (Sum.elim (g.chains w [body, again] i j) (g.chains w [] i j)) := by
  have hpair : Corresponds (g.trees w pair i j) (g.chains w [body, again] i j) :=
    (trees_forms h.isPair).trans forms_seq
  have hstop : Corresponds (g.forms w (.alt [stop]) i j) (g.chains w [] i j) :=
    forms_alt_singleton.trans ((trees_forms h.isEmpty).trans forms_chains_nil)
  exact (trees_forms hn).trans ((forms_rule h.isBody).trans ((trees_forms h.isChoice).trans
    (forms_alt_cons.trans (.sum hpair hstop))))

/-- The rounds of a loop are the trees of the rule, if those of their bodies correspond. -/
theorem loops {g' : Grammar σ τ} {body' : NodeId}
    (h : g'.LoopRule rule root pair body' again stop) (hg' : g'.IsBuilt) {k : Nat} (hik : i ≤ k)
    (hround : ∀ {k l : Nat}, i ≤ k → k < l → l ≤ j →
      Corresponds (g.trees w body k l) (g'.trees w body' k l))
    (hn : g'.nodes[a]? = some (.rule rule)) :
    Corresponds (g.loops w body k j) (g'.trees w a k j) := by
  obtain ⟨span, hspan⟩ : ∃ span, j - k = span := ⟨_, rfl⟩
  induction span using Nat.strong_induction_on generalizing k a with
  | h span ih =>
      refine loops_rounds.trans (.trans ?_ (h.trees hn).symm)
      refine (Corresponds.sum (chains_nil g') ?_).trans .sum_comm
      refine .trans (.sigma ?_) chains_cons.symm
      rintro ⟨l, hkl, hlj⟩
      have hfirst : Corresponds
          (fun tree : {_tree : Derivation g w body k l // k < l} => g.trees w body k l tree)
          (g'.trees w body' k l) := by
        rcases Nat.lt_or_eq_of_le hkl with hlt | rfl
        · exact (Corresponds.restrict_of hlt).trans (hround hik hlt hlj)
        · -- Neither has an empty round: the loop by its nature, the rule as it is built.
          refine .of_isEmpty ⟨fun tree => absurd tree.2 (Nat.lt_irrefl k)⟩ ⟨fun tree => ?_⟩
          exact h.not_isNullable hg'.wellFounded_leftCorner (tree.isNullable hg' rfl)
      dsimp only
      refine hfirst.append fun tree => ?_
      have hlt : k < l := tree.2
      exact (ih (j - l) (by omega) (by omega) h.isMention rfl).trans chains_singleton.symm

end Grammar.LoopRule

section Looped

variable {g g' : Grammar σ τ} {M : NodeId → NodeId → Prop} {a a' : NodeId} {e : Expr σ τ}
  {rule : RuleId} {root pair body' again stop : NodeId}

theorem Arena.Related.looped {arena arena' : Arena σ τ} (hbody : Stands arena' body' e)
    (h : Related (Expr.Looped e rule) arena arena' a a') :
    ∃ body, arena[a]? = some (.star body) ∧ arena'[a']? = some (.rule rule) ∧
      Related (Expr.Rewritten (Expr.Looped e rule)) arena arena' body body' := by
  obtain ⟨_, _, ⟨⟩, hstands, hstands'⟩ := h
  cases hstands with
  | star hn hstands =>
      cases hstands' with
      | rule hn' => exact ⟨_, hn, hn', e, e, .refl e, hstands, hbody⟩

/-- Left corners from a loop come to an end if those from the mention of its rule do. -/
theorem Grammar.LoopRule.acc (h : g'.LoopRule rule root pair body' again stop)
    (hbody : Arena.Stands g'.nodes body' e)
    (hlaw : Arena.Related (Expr.Looped e rule) g.nodes g'.nodes a a')
    (hacc : ∀ {b b' : NodeId},
      Arena.Related (Expr.Rewritten (Expr.Looped e rule)) g.nodes g'.nodes b b' →
        Relation.TransGen g'.LeftCorner b' a' → Acc g.LeftCorner b) : Acc g.LeftCorner a := by
  obtain ⟨body, hn, hn', hM⟩ := hlaw.looped hbody
  refine Acc.intro a fun b hcorner => ?_
  simp only [LeftCorner, leftCorners, hn] at hcorner
  cases List.mem_singleton.mp hcorner
  exact hacc hM (h.transGen_body hn')

variable [DecidableEq σ] {w : List σ} {i j : Nat}

/-- The trees of a loop are those of a mention of its rule. -/
theorem Grammar.LoopRule.trees_looped (h : g'.LoopRule rule root pair body' again stop)
    (hg' : g'.IsBuilt) (hbody : Arena.Stands g'.nodes body' e)
    (hlaw : Arena.Related (Expr.Looped e rule) g.nodes g'.nodes a a')
    (hin : InsideCorresponds g g' w
      (Arena.Related (Expr.Rewritten (Expr.Looped e rule)) g.nodes g'.nodes) a i j) :
    Corresponds (g.trees w a i j) (g'.trees w a' i j) := by
  obtain ⟨body, hn, hn', hM⟩ := hlaw.looped hbody
  have hcorner : g.LeftCorner body a := by simp [LeftCorner, leftCorners, hn]
  refine (trees_forms hn).trans (forms_star.trans ?_)
  exact h.loops hg' (Nat.le_refl i) (fun hik _ hlj => hin.corner hM (.single hcorner) hik hlj) hn'

end Looped

/-! ## Nothing tells loops from what they stand for -/

namespace Builder

variable [DecidableEq σ] {builder builder' : Builder σ τ} {told told' : List (Option (Expr σ τ))}
  {start start' : Expr σ τ}

/-- Parses come to the same when repetitions are written out. -/
theorem Holds.answer_writtenOut (h : builder.Holds told) (h' : builder'.Holds told')
    (hreached : builder.Reached) (hreached' : builder'.Reached)
    (hwell : builder.WellFormed start) (hwell' : builder'.WellFormed start')
    (hrules : RewrittenAll Expr.WrittenOut told told')
    (hstart : start.Rewritten Expr.WrittenOut start') (w : List σ) :
    (builder.draft start).answer w = (builder'.draft start').answer w := by
  have hg : (builder.draft start).IsBuilt :=
    ⟨builder, start, hreached, build_eq_ok_iff.mpr ⟨hwell, rfl⟩⟩
  exact h.answer_eq h' hreached hreached' hwell hwell' hrules.exists_body hstart w
    fun hlaw hin => Grammar.trees_writtenOut hg hlaw hin

section Looped

variable {e : Expr σ τ} {rules : List (Option (Expr σ τ))}

omit [DecidableEq σ]

theorem exists_body_of_concat {law : Expr σ τ → Expr σ τ → Prop} {last : Option (Expr σ τ)}
    (hrules : RewrittenAll law told rules) {index : RuleId} {body : Expr σ τ}
    (ht : told[index]? = some (some body)) :
    ∃ body', (rules ++ [last])[index]? = some (some body') ∧ body.Rewritten law body' := by
  obtain ⟨body', ht', hrewritten⟩ := hrules.exists_body ht
  refine ⟨body', ?_, hrewritten⟩
  rw [List.getElem?_append_left (List.getElem?_eq_some_iff.mp ht').1]
  exact ht'

/-- The rule that was told last stands for the loop. -/
theorem Holds.exists_loopRule
    (h' : builder'.Holds (rules ++ [some (e.loopBody rules.length)])) (start' : Expr σ τ)
    (hdefined' : builder'.Defined) :
    ∃ root pair body again stop,
      (builder'.draft start').LoopRule rules.length root pair body again stop ∧
        Arena.Stands (builder'.draft start').nodes body e := by
  rcases rel_cases (h'.rel_body start' hdefined' rules.length) with
    ⟨-, hnone⟩ | ⟨root, _, hroot, hlast, other, rfl, hstands⟩
  · rw [List.getElem?_concat_length] at hnone
    cases hnone
  · rw [List.getElem?_concat_length] at hlast
    cases hlast
    exact ⟨root, hstands.loopRule hroot⟩

/-- All rules that are mentioned are known if they are so with a rule for a loop. -/
theorem Holds.closed_looped (h : builder.Holds told)
    (h' : builder'.Holds (rules ++ [some (e.loopBody rules.length)]))
    (hclosed' : builder'.Closed start')
    (hrules : RewrittenAll (Expr.Looped e rules.length) told rules)
    (hstart : start.Rewritten (Expr.Looped e rules.length) start')
    (hfresh : ∀ body, some body ∈ told → ¬ body.Mentions rules.length)
    (hfresh' : ¬ start.Mentions rules.length) : builder.Closed start := by
  -- A mention in the loop is lost where the loop stood, and is in the body of the rule.
  have hlost : ∀ {index : RuleId} {x x' : Expr σ τ}, Expr.Looped e rules.length x x' →
      x.Mentions index → x'.Mentions index ∨ e.Mentions index := by
    rintro index _ _ ⟨⟩ hm
    exact .inr hm
  refine h.closed_iff.mpr fun index hm => ?_
  have hbound := h'.closed_iff.mp hclosed' index
  rw [List.length_append, List.length_singleton] at hbound
  have hrule : e.Mentions index → index < rules.length + 1 := by
    intro hm
    refine hbound (.inl ⟨e.loopBody rules.length, by simp, ?_⟩)
    simp [Expr.loopBody, Expr.Mentions, Expr.MentionsAny, hm]
  have hlt : index < rules.length + 1 := by
    rcases hm with ⟨body, hmem, hm⟩ | hm
    · rcases hrules.mentions hlost hmem hm with ⟨body', hmem', hm'⟩ | hm'
      · exact hbound (.inl ⟨body', List.mem_append_left _ hmem', hm'⟩)
      · exact hrule hm'
    · rcases hstart.mentions hlost hm with hm' | hm'
      · exact hbound (.inr hm')
      · exact hrule hm'
  have hne : index ≠ rules.length := by
    rintro rfl
    rcases hm with ⟨body, hmem, hm⟩ | hm
    · exact hfresh body hmem hm
    · exact hfresh' hm
  rw [hrules.length_eq]
  exact Nat.lt_of_le_of_ne (Nat.le_of_lt_succ hlt) hne

/-- A builder is well formed if it is so with a rule for a loop. -/
theorem Holds.wellFormed_looped (h : builder.Holds told)
    (h' : builder'.Holds (rules ++ [some (e.loopBody rules.length)]))
    (hreached : builder.Reached) (hwell' : builder'.WellFormed start')
    (hrules : RewrittenAll (Expr.Looped e rules.length) told rules)
    (hstart : start.Rewritten (Expr.Looped e rules.length) start')
    (hfresh : ∀ body, some body ∈ told → ¬ body.Mentions rules.length)
    (hfresh' : ¬ start.Mentions rules.length) : builder.WellFormed start := by
  have hdefined : builder.Defined := by
    refine h.defined_iff.mpr fun hnone => ?_
    exact h'.defined_iff.mp hwell'.defined (List.mem_append_left _ (hrules.none_mem hnone))
  have hclosed := h.closed_looped h' hwell'.closed hrules hstart hfresh hfresh'
  obtain ⟨root, pair, body, again, stop, hrule, hbody⟩ :=
    h'.exists_loopRule start' hwell'.defined
  have hbut := h.matchingBut h' start start' hdefined hwell'.defined
    (exists_body_of_concat hrules)
  refine hreached.wellFormed_of_matchingBut hdefined hclosed hbut
    (hbut.isNullable_of fun hlaw => ?_) (fun hlaw hacc => hrule.acc hbody hlaw hacc)
    hwell'.wellFounded
  obtain ⟨-, -, hn', -⟩ := hlaw.looped hbody
  exact hrule.isNullable rfl hn'

end Looped

/-- Parses come to the same when a loop is a mention of its rule. -/
theorem Holds.answer_looped {e : Expr σ τ} {rules : List (Option (Expr σ τ))}
    (h : builder.Holds told) (h' : builder'.Holds (rules ++ [some (e.loopBody rules.length)]))
    (hreached : builder.Reached) (hreached' : builder'.Reached)
    (hwell : builder.WellFormed start) (hwell' : builder'.WellFormed start')
    (hrules : RewrittenAll (Expr.Looped e rules.length) told rules)
    (hstart : start.Rewritten (Expr.Looped e rules.length) start') (w : List σ) :
    (builder.draft start).answer w = (builder'.draft start').answer w := by
  obtain ⟨root, pair, body, again, stop, hrule, hbody⟩ :=
    h'.exists_loopRule start' hwell'.defined
  have hg' : (builder'.draft start').IsBuilt :=
    ⟨builder', start', hreached', build_eq_ok_iff.mpr ⟨hwell', rfl⟩⟩
  exact h.answer_eq h' hreached hreached' hwell hwell' (exists_body_of_concat hrules) hstart w
    fun hlaw hin => hrule.trees_looped hg' hbody hlaw hin

/-- Loops are sugar.  Let two descriptions of a grammar differ in that fixed repetitions are
written out as sequences of copies.  If both make a grammar, parses without limits come to the
same on every input.

Or let the second have one more rule, declared last, whose body is `e` and then the rule again,
or nothing, and mention that rule, which the first does not know, where the first has a loop
over `e`.  If the second makes a grammar, so does the first, and parses without limits come to
the same on every input. -/
theorem loops_are_sugar (steps steps' : List (Step σ τ)) (start start' : Expr σ τ) :
    (RewrittenAll Expr.WrittenOut (bodies steps) (bodies steps') →
      start.Rewritten Expr.WrittenOut start' →
      ∀ g g', (Builder.new.run steps).1.build start = .ok g →
        (Builder.new.run steps').1.build start' = .ok g' → ∀ w, g.answer w = g'.answer w) ∧
    ∀ (e : Expr σ τ) (rules : List (Option (Expr σ τ))),
      bodies steps' = rules ++ [some (e.loopBody rules.length)] →
      RewrittenAll (Expr.Looped e rules.length) (bodies steps) rules →
      start.Rewritten (Expr.Looped e rules.length) start' →
      (∀ body, some body ∈ bodies steps → ¬ body.Mentions rules.length) →
      ¬ start.Mentions rules.length →
      ∀ g', (Builder.new.run steps').1.build start' = .ok g' →
        ∃ g, (Builder.new.run steps).1.build start = .ok g ∧ ∀ w, g.answer w = g'.answer w := by
  have hholds : (Builder.new.run steps).1.Holds (bodies steps) := Holds.new.run steps
  have hholds' : (Builder.new.run steps').1.Holds (bodies steps') := Holds.new.run steps'
  have hreached : (Builder.new.run steps).1.Reached := Reached.new.run steps
  have hreached' : (Builder.new.run steps').1.Reached := Reached.new.run steps'
  refine ⟨?_, ?_⟩
  · intro hrules hstart g g' hbuild hbuild' w
    obtain ⟨hwell, rfl⟩ := build_eq_ok_iff.mp hbuild
    obtain ⟨hwell', rfl⟩ := build_eq_ok_iff.mp hbuild'
    exact hholds.answer_writtenOut hholds' hreached hreached' hwell hwell' hrules hstart w
  · intro e rules hlast hrules hstart hfresh hfresh' g' hbuild'
    obtain ⟨hwell', rfl⟩ := build_eq_ok_iff.mp hbuild'
    rw [hlast] at hholds'
    have hwell := hholds.wellFormed_looped hholds' hreached hwell' hrules hstart hfresh hfresh'
    exact ⟨_, build_eq_ok_iff.mpr ⟨hwell, rfl⟩, fun w =>
      hholds.answer_looped hholds' hreached hreached' hwell hwell' hrules hstart w⟩

/-- A repetition that is written out, and a loop in a rule and at the start. -/
theorem loops_are_sugar_letters :
    let e : Expr Char Nat := .emit (.oneOf (.of ['a'])) (.fixed 1)
    (∃ g g', Builder.new.build (.times e 2) = .ok g ∧ Builder.new.build (.seq [e, e]) = .ok g' ∧
      ∀ w, g.answer w = g'.answer w) ∧
    ∃ g g', (Builder.new.run [.declare "letters", .define 0 (.star e)]).1.build
        (.seq [.rule 0, .literal ['b'], .star e]) = .ok g ∧
      (Builder.new.run [.declare "letters", .declare "again", .define 1 (e.loopBody 1),
        .define 0 (.rule 1)]).1.build (.seq [.rule 0, .literal ['b'], .rule 1]) = .ok g' ∧
      ∀ w, g.answer w = g'.answer w := by
  intro e
  constructor
  · have hcopies : (Builder.new.build (.times e 2)).toOption.isSome = true := by decide +kernel
    have hseq : (Builder.new.build (.seq [e, e])).toOption.isSome = true := by decide +kernel
    obtain ⟨g, hg⟩ := exists_build hcopies
    obtain ⟨g', hg'⟩ := exists_build hseq
    exact ⟨g, g', hg, hg', (loops_are_sugar [] [] (.times e 2) (.seq [e, e])).1 .nil
      (.here (.copies e 2)) g g' hg hg'⟩
  · have hrule : ((Builder.new.run [.declare "letters", .declare "again", .define 1 (e.loopBody 1),
        .define 0 (.rule 1)]).1.build (.seq [.rule 0, .literal ['b'], .rule 1])).toOption.isSome =
          true := by
      decide +kernel
    obtain ⟨g', hg'⟩ := exists_build hrule
    have hrules : RewrittenAll (Expr.Looped e 1) [some (.star e)] [some (.rule 1)] :=
      .cons (.some (.here .mention)) .nil
    have hstart : (Expr.seq [.rule 0, .literal ['b'], .star e]).Rewritten (Expr.Looped e 1)
        (.seq [.rule 0, .literal ['b'], .rule 1]) :=
      .seq (.cons (.rule 0) (.cons (.literal _) (.cons (.here .mention) .nil)))
    have hfresh : ∀ body, some body ∈ [some (Expr.star e)] → ¬ body.Mentions 1 := by
      simp [Expr.Mentions, e]
    have hfresh' : ¬ (Expr.seq [.rule 0, .literal ['b'], .star e]).Mentions 1 := by
      simp [Expr.Mentions, Expr.MentionsAny, e]
    obtain ⟨g, hg, hanswer⟩ := (loops_are_sugar [.declare "letters", .define 0 (.star e)] _ _ _).2
      e [some (.rule 1)] rfl hrules hstart hfresh hfresh' g' hg'
    exact ⟨g, g', hg, hg', hanswer⟩

end Builder

end Ramify
