import Ramify.Proofs.Correspondence
import Ramify.Proofs.Matching

/-!
# Trees are carried along

Let one grammar be found in another along a relation of their places, but for a law
(`Grammar.MatchingBut`).  If the trees of places that the law relates correspond whenever those
of their parts do, then the trees of all related places correspond
(`Grammar.MatchingBut.trees`).

The induction is on the span of a tree and, for one span, on left corners: a part of a node
has a shorter span than the node, or it is reached from the node through left corners, as all
that stands before it is empty (`Grammar.Inside`).  For that a node that has an empty tree must
be marked, and every rule that is mentioned must have a body; so it is in a grammar that was
built.
-/

namespace Ramify

variable {σ τ : Type} [DecidableEq σ] {g g' : Grammar σ τ} {w : List σ}

/-! ## Empty trees -/

mutual

/-- A node with an empty tree can match the empty text. -/
theorem Derivation.isNullable (hg : g.IsBuilt) :
    {id : NodeId} → {i j : Nat} → Derivation g w id i j → i = j → g.isNullable id = true
  | _, _, _, .of hn form, hij => hg.isNullable hn (form.holds hg hij)

theorem Match.holds (hg : g.IsBuilt) : {node : Node σ τ} → {i j : Nat} → Match g w node i j →
    i = j → Nullable.holds g.rules g.nullable node = true
  | _, _, _, .empty, _ | _, _, _, .guard _, _ | _, _, _, .star _, _ => rfl
  | _, _, _, .oneOf _ _, hij => absurd hij (Nat.ne_of_lt (Nat.lt_succ_self _))
  | .literal run, _, _, .literal _, hij => by
      have hlength : run.length = 0 := by omega
      exact List.isEmpty_iff_length_eq_zero.mpr hlength
  | _, _, _, .seq trees, hij => List.all_eq_true.mpr (trees.isNullable hg hij)
  | _, _, _, .alt _ hc tree, hij =>
      List.any_eq_true.mpr ⟨_, List.mem_of_getElem? hc, tree.isNullable hg hij⟩
  | .times body count, _, _, .times trees, hij => by
      have hbody := trees.isNullable hg hij body
      simp only [Nullable.holds, Bool.or_eq_true, beq_iff_eq]
      exact (Nat.eq_zero_or_pos count).imp_right fun hpos =>
        hbody (List.mem_replicate.mpr ⟨Nat.ne_of_gt hpos, rfl⟩)
  | _, _, _, .rule hb tree, hij =>
      Grammar.holds_rule_iff.mpr ⟨_, hb, tree.isNullable hg hij⟩
  | _, _, _, .emit tree, hij | _, _, _, .fold tree, hij => tree.isNullable hg hij
  | _, _, _, .pass hp, _ => by simp [Nullable.holds, hp]
  | _, _, _, .observe _ _, hij => absurd hij (Nat.ne_of_lt (Nat.lt_succ_self _))

theorem Derivations.isNullable (hg : g.IsBuilt) :
    {ids : List NodeId} → {i j : Nat} → Derivations g w ids i j → i = j →
      ∀ id ∈ ids, g.isNullable id = true
  | _, _, _, .nil, _ => fun _ h => absurd h List.not_mem_nil
  | _, i, j, .cons tree trees, hij => by
      have hle := tree.le
      have hle' := trees.le
      have hfirst := tree.isNullable hg (by omega)
      have hrest := trees.isNullable hg (by omega)
      exact List.forall_mem_cons.mpr ⟨hfirst, hrest⟩

end

omit [DecidableEq σ] in
/-- A rule that is mentioned has a body. -/
theorem Grammar.IsBuilt.exists_body {g : Grammar σ τ} (hg : g.IsBuilt) {id : NodeId}
    {index : RuleId} (hn : g.nodes[id]? = some (.rule index)) :
    ∃ body, g.body? index = some body := by
  obtain ⟨builder, start, -, hbuild⟩ := hg
  obtain ⟨hwell, rfl⟩ := Builder.build_eq_ok_iff.mp hbuild
  have hlt := hwell.closed index (Array.mem_toList_iff.mpr (Array.mem_of_getElem? hn))
  rw [← Builder.size_draft_rules hwell.defined start] at hlt
  exact ⟨_, by rw [Grammar.body?, Array.getElem?_eq_getElem hlt]; rfl⟩

/-! ## Inside a tree -/

/-- A tree of `b` that may stand inside a tree of `a`: its span is shorter, or it is no longer
and `b` is reached from `a` through left corners. -/
def Grammar.Inside (g : Grammar σ τ) (b : NodeId) (k l : Nat) (a : NodeId) (i j : Nat) : Prop :=
  l - k < j - i ∨ l - k ≤ j - i ∧ Relation.TransGen g.LeftCorner b a

omit [DecidableEq σ] in
/-- What passes from all that may stand inside a tree to the tree itself holds of all trees. -/
theorem Grammar.inside_induction (hwf : WellFounded g.LeftCorner)
    {P : NodeId → Nat → Nat → Prop}
    (h : ∀ a i j, (∀ b k l, g.Inside b k l a i j → P b k l) → P a i j) (a : NodeId) (i j : Nat) :
    P a i j := by
  obtain ⟨span, hspan⟩ : ∃ span, j - i = span := ⟨_, rfl⟩
  induction span using Nat.strong_induction_on generalizing a i j with
  | h span ihspan =>
      induction a using hwf.transGen.induction generalizing i j with
      | h a ihcorner =>
          refine h a i j fun b k l hinside => ?_
          rcases hinside with hlt | ⟨hle, hchain⟩
          · exact ihspan _ (hspan ▸ hlt) b k l rfl
          · rcases Nat.lt_or_eq_of_le hle with hlt | heq
            · exact ihspan _ (hspan ▸ hlt) b k l rfl
            · exact ihcorner b hchain k l (heq.trans hspan)

/-! ## One kind of node at a time -/

/-- Members of multisets that are related are related in order, once those of one of them are
put in another order. -/
theorem exists_forall₂_of_rel {α β : Type} {R : α → β → Prop} {xs : List α} {ys : List β}
    (h : Multiset.Rel R (xs : Multiset α) (ys : Multiset β)) :
    ∃ zs, List.Forall₂ R xs zs ∧ zs.Perm ys := by
  induction xs generalizing ys with
  | nil =>
      have hys : (ys : Multiset β) = 0 := Multiset.rel_zero_left.mp h
      exact ⟨[], .nil, (Multiset.coe_eq_zero ys).mp hys ▸ .nil⟩
  | cons x xs ih =>
      rw [← Multiset.cons_coe] at h
      obtain ⟨y, rest, hxy, hrest, hys⟩ := Multiset.rel_cons_left.mp h
      obtain ⟨rest, rfl⟩ := Quot.exists_rep rest
      obtain ⟨zs, hzs, hperm⟩ := ih hrest
      exact ⟨y :: zs, .cons hxy hzs, (hperm.cons y).trans (Multiset.coe_eq_coe.mp hys.symm)⟩

theorem forall₂_replicate {α β : Type} {R : α → β → Prop} {x : α} {y : β} (h : R x y) :
    ∀ n : Nat, List.Forall₂ R (List.replicate n x) (List.replicate n y)
  | 0 => .nil
  | n + 1 => .cons h (forall₂_replicate h n)

namespace Grammar

variable {i j : Nat}

theorem forms_alt {choices choices' : List NodeId}
    (h : List.Forall₂ (fun id id' => Corresponds (g.trees w id i j) (g'.trees w id' i j))
      choices choices') :
    Corresponds (g.forms w (.alt choices) i j) (g'.forms w (.alt choices') i j) := by
  induction h with
  | nil => exact .of_isEmpty isEmpty_forms_alt_nil isEmpty_forms_alt_nil
  | cons hfirst _ ih => exact forms_alt_cons.trans (.trans (.sum hfirst ih) forms_alt_cons.symm)

/-- The rounds of two loops correspond if single rounds do. -/
theorem loops_of_round {body body' : NodeId} {k : Nat} (hik : i ≤ k)
    (hround : ∀ {k l : Nat}, i ≤ k → k < l → l ≤ j →
      Corresponds (g.trees w body k l) (g'.trees w body' k l)) :
    Corresponds (g.loops w body k j) (g'.loops w body' k j) := by
  obtain ⟨span, hspan⟩ : ∃ span, j - k = span := ⟨_, rfl⟩
  induction span using Nat.strong_induction_on generalizing k with
  | h span ih =>
      refine loops_rounds.trans (.trans (.sum (chains_nil g') ?_) loops_rounds.symm)
      refine .sigma ?_
      rintro ⟨l, hkl, hlj⟩
      dsimp only
      refine .append (.restrict fun hlt => hround hik hlt hlj) fun tree => ?_
      have hlt : k < l := tree.2
      exact ih (j - l) (by omega) (by omega) rfl

variable {M : NodeId → NodeId → Prop} {a : NodeId}

/-- The trees of a part that is related to another correspond, if it may stand inside a tree of
`a` from `i` to `j`. -/
def InsideCorresponds (g g' : Grammar σ τ) (w : List σ) (M : NodeId → NodeId → Prop) (a : NodeId)
    (i j : Nat) : Prop :=
  ∀ {b b' : NodeId} {k l : Nat}, M b b' → g.Inside b k l a i j →
    Corresponds (g.trees w b k l) (g'.trees w b' k l)

/-- The trees of a first part and of others correspond if those of the others do from where the
first ends.  Before the first symbol there are leading parts only. -/
theorem chains_cons_of_inside (hg : g.IsBuilt) (hin : InsideCorresponds g g' w M a i j)
    {part part' : NodeId} {parts parts' : List NodeId} (hpart : M part part') {k : Nat}
    (hik : i ≤ k) (hlead : k = i → ∀ other ∈ g.leadingParts (part :: parts), g.LeftCorner other a)
    (hrest : ∀ {l : Nat}, i ≤ l → (l = i → ∀ other ∈ g.leadingParts parts, g.LeftCorner other a) →
      Corresponds (g.chains w parts l j) (g'.chains w parts' l j)) :
    Corresponds (g.chains w (part :: parts) k j) (g'.chains w (part' :: parts') k j) := by
  refine chains_cons.trans (.trans (.sigma ?_) chains_cons.symm)
  rintro ⟨l, hkl, hlj⟩
  dsimp only
  refine .append (hin hpart ?_) fun tree => hrest (hik.trans hkl) fun hli other hother => ?_
  · rcases Nat.lt_or_eq_of_le hik with hlt | rfl
    · exact .inl (by omega)
    · exact .inr ⟨by omega, .single (hlead rfl part List.mem_cons_self)⟩
  · have hki : k = i := by omega
    have hnull : g.isNullable part = true := tree.isNullable hg (by omega)
    refine hlead hki other (List.mem_cons_of_mem _ ?_)
    rw [if_pos hnull]
    exact hother

/-- The trees of related parts correspond. -/
theorem chains_of_inside (hg : g.IsBuilt) (hin : InsideCorresponds g g' w M a i j)
    {parts parts' : List NodeId} (hparts : List.Forall₂ M parts parts') {k : Nat} (hik : i ≤ k)
    (hlead : k = i → ∀ part ∈ g.leadingParts parts, g.LeftCorner part a) :
    Corresponds (g.chains w parts k j) (g'.chains w parts' k j) := by
  induction hparts generalizing k with
  | nil => exact chains_nil g'
  | cons hpart _ ih => exact chains_cons_of_inside hg hin hpart hik hlead ih

omit [DecidableEq σ] in
theorem Inside.longer {b : NodeId} {k l m : Nat} (h : g.Inside b k l a i m) (hmj : m ≤ j) :
    g.Inside b k l a i j := by
  rcases h with hlt | ⟨hle, hchain⟩
  · exact .inl (by omega)
  · exact .inr ⟨by omega, hchain⟩

/-- What may stand inside a tree may stand inside one that ends later. -/
theorem InsideCorresponds.shorter (hin : InsideCorresponds g g' w M a i j) {m : Nat}
    (hmj : m ≤ j) : InsideCorresponds g g' w M a i m :=
  fun hM hinside => hin hM (hinside.longer hmj)

/-- The trees of a part that is reached through left corners correspond. -/
theorem InsideCorresponds.corner (hin : InsideCorresponds g g' w M a i j) {b b' : NodeId}
    (hM : M b b') (hchain : Relation.TransGen g.LeftCorner b a) {k l : Nat} (hik : i ≤ k)
    (hlj : l ≤ j) : Corresponds (g.trees w b k l) (g'.trees w b' k l) :=
  hin hM (.inr ⟨by omega, hchain⟩)

omit [DecidableEq σ] in
theorem leftCorner_of_mem_replicate {body part : NodeId} {count : Nat}
    (hn : g.nodes[a]? = some (.times body count))
    (h : part ∈ g.leadingParts (.replicate count body)) : g.LeftCorner part a := by
  obtain ⟨hcount, rfl⟩ := List.mem_replicate.mp (mem_of_mem_leadingParts h)
  rw [LeftCorner, leftCorners, hn]
  simp [hcount]

/-- The forms of nodes that match correspond. -/
theorem MatchingBut.forms {law : NodeId → NodeId → Prop} (h : MatchingBut g g' law M)
    (hg : g.IsBuilt) (hin : InsideCorresponds g g' w M a i j) {node node' : Node σ τ}
    (hn : g.nodes[a]? = some node) (hmatch : node.Matches M node') :
    Corresponds (g.forms w node i j) (g'.forms w node' i j) := by
  have hcorner : ∀ b ∈ g.leftCorners a, Relation.TransGen g.LeftCorner b a :=
    fun b hb => .single hb
  rw [leftCorners, hn] at hcorner
  have hsame : ∀ {b b' : NodeId}, M b b' → Relation.TransGen g.LeftCorner b a →
      Corresponds (g.trees w b i j) (g'.trees w b' i j) :=
    fun hM hchain => hin.corner hM hchain (Nat.le_refl i) (Nat.le_refl j)
  cases hmatch with
  | empty => exact forms_empty g'
  | oneOf => exact forms_oneOf g'
  | literal => exact forms_literal g'
  | guard => exact forms_guard g'
  | observe => exact forms_observe g'
  | seq hparts =>
      refine forms_seq.trans (.trans ?_ forms_seq.symm)
      refine chains_of_inside hg hin hparts (Nat.le_refl i) fun _ part hpart => ?_
      rw [LeftCorner, leftCorners, hn]
      exact hpart
  | alt hchoices =>
      obtain ⟨middle, hmiddle, hperm⟩ := exists_forall₂_of_rel hchoices
      have hways := (List.forall₂_and_left _ _).mpr ⟨hcorner, hmiddle⟩
      refine (forms_alt ?_).trans (forms_alt_perm hperm)
      exact hways.imp fun _ _ hway => hsame hway.2 hway.1
  | star hbody =>
      refine forms_star.trans (.trans (loops_of_round (Nat.le_refl i) ?_) forms_star.symm)
      exact fun hik _ hlj => hin.corner hbody (hcorner _ (List.mem_singleton.mpr rfl)) hik hlj
  | times count hbody =>
      refine forms_times.trans (.trans ?_ forms_times.symm)
      exact chains_of_inside hg hin (forall₂_replicate hbody count) (Nat.le_refl i)
        fun _ _ hpart => leftCorner_of_mem_replicate hn hpart
  | rule index =>
      obtain ⟨body, hb⟩ := hg.exists_body hn
      obtain ⟨body', hb', hM⟩ := h.bodies hb
      refine (forms_rule hb).trans (.trans (hsame hM (hcorner _ ?_)) (forms_rule hb').symm)
      exact Option.mem_toList.mpr hb
  | emit yields hbody =>
      have htrees := hsame hbody (hcorner _ (List.mem_singleton.mpr rfl))
      exact forms_emit.trans (.trans (htrees.comp _) forms_emit.symm)
  | fold merge hbody =>
      have htrees := hsame hbody (hcorner _ (List.mem_singleton.mpr rfl))
      exact forms_fold.trans (.trans (htrees.comp _) forms_fold.symm)

/-- If the trees of places that a law relates correspond when those inside them do, then the
trees of all related places correspond. -/
theorem MatchingBut.trees {law : NodeId → NodeId → Prop} (h : MatchingBut g g' law M)
    (hg : g.IsBuilt)
    (hlaw : ∀ {a a' : NodeId} {i j : Nat}, law a a' → InsideCorresponds g g' w M a i j →
      Corresponds (g.trees w a i j) (g'.trees w a' i j)) {a a' : NodeId} (hM : M a a') :
    Corresponds (g.trees w a i j) (g'.trees w a' i j) := by
  induction a, i, j using inside_induction hg.wellFounded_leftCorner generalizing a' with
  | h a i j ih =>
      have hin : InsideCorresponds g g' w M a i j := fun hM hinside => ih _ _ _ hinside hM
      rcases h.nodes hM with ⟨node, node', hn, hn', hmatch⟩ | hlawful
      · exact (trees_forms hn).trans ((h.forms hg hin hn hmatch).trans (trees_forms hn').symm)
      · exact hlaw hlawful hin

end Grammar

end Ramify
