import Mathlib.Data.List.Forall2
import Mathlib.Data.Multiset.Bind
import Mathlib.Data.Multiset.MapFold
import Ramify.Proofs.Building

/-!
# Grammars that match node by node

Two grammars match along a relation of their places if related places hold nodes of one kind
with related parts, where the choices of a node may be related in any order.  Places need not
be related to places of the same number, nor every place to one.

What is decided about a node when a grammar is built is then decided alike for the nodes that
are related to it: whether it can match the empty text (`Matching.isNullable_of`), and whether
a chain of left corners from it comes to an end (`Matching.acc`).

Both hold in one direction already if the places of one grammar are related to those of
another, and even if a law relates some that do not match, as long as what is claimed passes
along the law (`Grammar.MatchingBut`).
-/

namespace Ramify

variable {σ τ : Type} {M : NodeId → NodeId → Prop}

/-- Two nodes are of one kind and have related parts, their choices in any order. -/
inductive Node.Matches (M : NodeId → NodeId → Prop) : Node σ τ → Node σ τ → Prop where
  /-- The empty text. -/
  | empty : Matches M .empty .empty
  /-- The same set of symbols. -/
  | oneOf (set : SymbolSet σ) : Matches M (.oneOf set) (.oneOf set)
  /-- The same run of symbols. -/
  | literal (run : List σ) : Matches M (.literal run) (.literal run)
  /-- The same guard. -/
  | guard (set : SymbolSet σ) : Matches M (.guard set) (.guard set)
  /-- Related parts, in order. -/
  | seq {parts parts' : List NodeId} (h : List.Forall₂ M parts parts') :
      Matches M (.seq parts) (.seq parts')
  /-- Related choices, in any order. -/
  | alt {choices choices' : List NodeId}
      (h : Multiset.Rel M (choices : Multiset NodeId) (choices' : Multiset NodeId)) :
      Matches M (.alt choices) (.alt choices')
  /-- Related bodies of loops. -/
  | star {body body' : NodeId} (h : M body body') : Matches M (.star body) (.star body')
  /-- Related bodies, as many times. -/
  | times {body body' : NodeId} (count : Nat) (h : M body body') :
      Matches M (.times body count) (.times body' count)
  /-- The same rule. -/
  | rule (index : RuleId) : Matches M (.rule index) (.rule index)
  /-- Related bodies of the same emission. -/
  | emit {body body' : NodeId} (yields : Yield σ τ) (h : M body body') :
      Matches M (.emit body yields) (.emit body' yields)
  /-- Related bodies of the same fold. -/
  | fold {body body' : NodeId} (merge : List τ → τ) (h : M body body') :
      Matches M (.fold body merge) (.fold body' merge)
  /-- The same observer. -/
  | observe (observer : Observer) : Matches M (.observe observer) (.observe observer)

theorem Node.Matches.flip {node node' : Node σ τ} (h : node.Matches M node') :
    node'.Matches (flip M) node := by
  cases h with
  | empty => exact .empty
  | oneOf => exact .oneOf _
  | literal => exact .literal _
  | guard => exact .guard _
  | seq h => exact .seq h.flip
  | alt h => exact .alt (Multiset.rel_flip.mpr h)
  | star h => exact .star h
  | times count h => exact .times count h
  | rule => exact .rule _
  | emit yields h => exact .emit yields h
  | fold merge h => exact .fold merge h
  | observe => exact .observe _

/-- The equation of a mention of a rule speaks of the body of the rule. -/
theorem Grammar.holds_rule_iff {g : Grammar σ τ} {marks : Nullable.Marks} {index : RuleId} :
    Nullable.holds g.rules marks (.rule index : Node σ τ) = true ↔
      ∃ body, g.body? index = some body ∧ marks.getD body false = true := by
  simp only [Nullable.holds, Grammar.body?, Option.map_eq_some_iff]
  cases g.rules[index]? with
  | none => simp
  | some rule => simp

/-- A node whose chains of left corners come to an end does not reach itself. -/
theorem Grammar.not_transGen_of_acc {g : Grammar σ τ} {id : NodeId} (h : Acc g.LeftCorner id) :
    ¬ Relation.TransGen g.LeftCorner id id := by
  have hacc := h.transGen
  clear h
  induction hacc with
  | intro id _ ih => exact fun hloop => ih id hloop hloop

/-! ## Grammars that match but for a law -/

/-- One grammar is found in another along a relation of their places: related places hold nodes
that match, unless they are related by a law. -/
structure Grammar.MatchingBut (g g' : Grammar σ τ) (law M : NodeId → NodeId → Prop) : Prop where
  /-- Related places hold nodes that match, or the law relates them. -/
  nodes : ∀ {a a' : NodeId}, M a a' → (∃ node node', g.nodes[a]? = some node ∧
    g'.nodes[a']? = some node' ∧ node.Matches M node') ∨ law a a'
  /-- The rules of the first grammar are rules of the second, with related bodies. -/
  bodies : ∀ {index : RuleId} {body : NodeId}, g.body? index = some body →
    ∃ body', g'.body? index = some body' ∧ M body body'
  /-- The marks of the first grammar are computed. -/
  marks : g.nullable = Nullable.compute g.nodes g.rules
  /-- The marks of the second grammar are computed. -/
  marks' : g'.nullable = Nullable.compute g'.nodes g'.rules

namespace Grammar.MatchingBut

variable {g g' : Grammar σ τ} {law : NodeId → NodeId → Prop}

/-- A node whose equation holds is matched by one whose equation holds. -/
theorem holds (h : MatchingBut g g' law M) {marks marks' : Nullable.Marks}
    (hmarks : ∀ {a a' : NodeId}, M a a' → marks.getD a false = true → marks'.getD a' false = true)
    {node node' : Node σ τ} (hmatch : node.Matches M node')
    (hholds : Nullable.holds g.rules marks node = true) :
    Nullable.holds g'.rules marks' node' = true := by
  cases hmatch with
  | empty | oneOf | literal | guard | star | observe => exact hholds
  | seq hparts =>
      simp only [Nullable.holds] at hholds ⊢
      induction hparts with
      | nil => rfl
      | cons hfirst _ ih =>
          simp only [List.all_cons, Bool.and_eq_true] at hholds ⊢
          exact ⟨hmarks hfirst hholds.1, ih hholds.2⟩
  | alt hchoices =>
      simp only [Nullable.holds, List.any_eq_true] at hholds ⊢
      obtain ⟨choice, hchoice, hmark⟩ := hholds
      obtain ⟨choice', hchoice', hM⟩ := Multiset.exists_mem_of_rel_of_mem hchoices hchoice
      exact ⟨choice', hchoice', hmarks hM hmark⟩
  | times count hbody =>
      simp only [Nullable.holds, Bool.or_eq_true] at hholds ⊢
      exact hholds.imp_right (hmarks hbody)
  | rule index =>
      rw [Grammar.holds_rule_iff] at hholds ⊢
      obtain ⟨body, hb, hmark⟩ := hholds
      obtain ⟨body', hb', hM⟩ := h.bodies hb
      exact ⟨body', hb', hmarks hM hmark⟩
  | emit yields hbody => exact hmarks hbody hholds
  | fold merge hbody => exact hmarks hbody hholds

/-- What is related to a node that can match the empty text can match it too, if that passes on
where the law relates them. -/
theorem isNullable_of_law (h : MatchingBut g g' law M)
    (hlaw : ∀ {a a' : NodeId} {marks : Nullable.Marks} {node : Node σ τ}, law a a' →
      Nullable.Within (fun b => ∀ b', M b b' → g'.isNullable b' = true) marks →
      Nullable.Within
        (Nullable.Earned g.nodes g.rules fun b => ∀ b', M b b' → g'.isNullable b' = true) marks →
      g.nodes[a]? = some node → Nullable.holds g.rules marks node = true →
        g'.isNullable a' = true)
    {a a' : NodeId} (hM : M a a') (hnull : g.isNullable a = true) :
    g'.isNullable a' = true := by
  rw [Grammar.isNullable, h.marks] at hnull
  -- The marks are the least that are closed, and those of the second grammar are closed.
  have hwithin : Nullable.Within (fun a => ∀ a', M a a' → g'.isNullable a' = true)
      (Nullable.compute g.nodes g.rules) := by
    refine Nullable.within_compute_of_earned ?_
    intro marks id node hmarks hearned hn hholds a' hM
    rcases h.nodes hM with ⟨other, node', hother, hn', hmatch⟩ | hlawful
    · cases hn.symm.trans hother
      rw [Grammar.isNullable, h.marks']
      refine Nullable.holds_compute hn' (h.holds ?_ hmatch hholds)
      intro x x' hx hmark
      rw [← h.marks']
      exact hmarks x hmark x' hx
    · exact hlaw hlawful hmarks hearned hn hholds
  exact hwithin a hnull a' hM

/-- What is related to a node that can match the empty text can match it too, if that is so
where the law relates them. -/
theorem isNullable_of (h : MatchingBut g g' law M)
    (hlaw : ∀ {a a' : NodeId}, law a a' → g'.isNullable a' = true) {a a' : NodeId} (hM : M a a')
    (hnull : g.isNullable a = true) : g'.isNullable a' = true :=
  h.isNullable_of_law (fun hlawful _ _ _ _ => hlaw hlawful) hM hnull

theorem exists_leadingPart
    (hnull : ∀ {a a' : NodeId}, M a a' → g.isNullable a = true → g'.isNullable a' = true)
    {parts parts' : List NodeId} (hparts : List.Forall₂ M parts parts') {part : NodeId}
    (hpart : part ∈ g.leadingParts parts) : ∃ part' ∈ g'.leadingParts parts', M part part' := by
  induction hparts with
  | nil => cases hpart
  | @cons first first' parts parts' hfirst hparts ih =>
      rcases List.mem_cons.mp hpart with rfl | hpart
      · exact ⟨first', List.mem_cons_self, hfirst⟩
      · split at hpart
        next hmark =>
          obtain ⟨part', hpart', hM⟩ := ih hpart
          refine ⟨part', List.mem_cons_of_mem _ ?_, hM⟩
          rw [if_pos (hnull hfirst hmark)]
          exact hpart'
        · cases hpart

/-- Every left corner of a node is related to one of the node that matches it. -/
theorem exists_leftCorner (h : MatchingBut g g' law M)
    (hnull : ∀ {a a' : NodeId}, M a a' → g.isNullable a = true → g'.isNullable a' = true)
    {a a' b : NodeId} {node node' : Node σ τ} (hn : g.nodes[a]? = some node)
    (hn' : g'.nodes[a']? = some node') (hmatch : node.Matches M node')
    (hcorner : g.LeftCorner b a) : ∃ b', g'.LeftCorner b' a' ∧ M b b' := by
  simp only [Grammar.LeftCorner, Grammar.leftCorners, hn, hn'] at hcorner ⊢
  cases hmatch with
  | empty | oneOf | literal | guard | observe => cases hcorner
  | seq hparts => exact exists_leadingPart hnull hparts hcorner
  | alt hchoices => exact Multiset.exists_mem_of_rel_of_mem hchoices hcorner
  | star hbody | emit _ hbody | fold _ hbody =>
      cases List.mem_singleton.mp hcorner
      exact ⟨_, List.mem_singleton.mpr rfl, hbody⟩
  | times count hbody =>
      simp only at hcorner ⊢
      split at hcorner
      · cases hcorner
      next hcount =>
        cases List.mem_singleton.mp hcorner
        rw [if_neg hcount]
        exact ⟨_, List.mem_singleton.mpr rfl, hbody⟩
  | rule index =>
      simp only [Option.mem_toList] at hcorner ⊢
      exact h.bodies hcorner

/-- The chains of left corners from a node come to an end if those from a node that it is
related to do, and if that passes on where the law relates them. -/
theorem acc (h : MatchingBut g g' law M)
    (hnull : ∀ {a a' : NodeId}, M a a' → g.isNullable a = true → g'.isNullable a' = true)
    (hlaw : ∀ {a a' : NodeId}, law a a' →
      (∀ {b b' : NodeId}, M b b' → Relation.TransGen g'.LeftCorner b' a' → Acc g.LeftCorner b) →
        Acc g.LeftCorner a) {a' : NodeId} (hacc : Acc g'.LeftCorner a') :
    ∀ {a : NodeId}, M a a' → Acc g.LeftCorner a := by
  have htrans := hacc.transGen
  clear hacc
  induction htrans with
  | intro a' _ ih =>
      intro a hM
      rcases h.nodes hM with ⟨node, node', hn, hn', hmatch⟩ | hlawful
      · refine Acc.intro a fun b hcorner => ?_
        obtain ⟨b', hcorner', hMb⟩ := h.exists_leftCorner hnull hn hn' hmatch hcorner
        exact ih b' (.single hcorner') hMb
      · exact hlaw hlawful fun hMb hchain => ih _ hchain hMb

end Grammar.MatchingBut

/-! ## Grammars that match -/

/-- Two grammars match along a relation of their places. -/
structure Grammar.Matching (g g' : Grammar σ τ) (M : NodeId → NodeId → Prop) : Prop where
  /-- Related places hold nodes that match. -/
  nodes : ∀ {a a' : NodeId}, M a a' → ∃ node node', g.nodes[a]? = some node ∧
    g'.nodes[a']? = some node' ∧ node.Matches M node'
  /-- A rule is in both grammars, with related bodies, or in neither. -/
  bodies : ∀ index, (g.body? index = none ∧ g'.body? index = none) ∨
    ∃ body body', g.body? index = some body ∧ g'.body? index = some body' ∧ M body body'
  /-- The starts are related. -/
  start : M g.start g'.start
  /-- The marks of the first grammar are computed. -/
  marks : g.nullable = Nullable.compute g.nodes g.rules
  /-- The marks of the second grammar are computed. -/
  marks' : g'.nullable = Nullable.compute g'.nodes g'.rules

namespace Grammar.Matching

variable {g g' : Grammar σ τ}

theorem symm (h : Matching g g' M) : Matching g' g (flip M) where
  nodes hM := by
    obtain ⟨node, node', hn, hn', hmatch⟩ := h.nodes hM
    exact ⟨node', node, hn', hn, hmatch.flip⟩
  bodies index := by
    rcases h.bodies index with ⟨hb, hb'⟩ | ⟨body, body', hb, hb', hM⟩
    · exact .inl ⟨hb', hb⟩
    · exact .inr ⟨body', body, hb', hb, hM⟩
  start := h.start
  marks := h.marks'
  marks' := h.marks

theorem but (h : Matching g g' M) : MatchingBut g g' (fun _ _ => False) M where
  nodes hM := .inl (h.nodes hM)
  bodies {index body} hb := by
    rcases h.bodies index with ⟨hnone, -⟩ | ⟨other, body', hother, hb', hM⟩
    · cases hnone.symm.trans hb
    · cases hother.symm.trans hb
      exact ⟨body', hb', hM⟩
  marks := h.marks
  marks' := h.marks'

theorem isNullable_of (h : Matching g g' M) {a a' : NodeId} (hM : M a a')
    (hnull : g.isNullable a = true) : g'.isNullable a' = true :=
  h.but.isNullable_of False.elim hM hnull

/-- A node that is related to one whose chains of left corners come to an end is another. -/
theorem acc (h : Matching g g' M) {a a' : NodeId} (hacc : Acc g.LeftCorner a) (hM : M a a') :
    Acc g'.LeftCorner a' :=
  h.symm.but.acc h.symm.isNullable_of (fun hlaw => hlaw.elim) hacc hM

end Grammar.Matching

end Ramify
