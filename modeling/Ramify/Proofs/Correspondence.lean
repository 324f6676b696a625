import Ramify.Proofs.Answers
import Ramify.Proofs.Exactness
import Ramify.Proofs.Lifecycle

/-!
# Trees that correspond

The trees of two nodes correspond if there is a bijection between them that keeps the tokens
(`Corresponds`).  The nodes may be of two grammars, and the bijection may send a tree to one of
another form.

What the trees of a node are is read off its parts: those of a sequence are made of a tree of
the first part and trees of the others, those of a choice are those of any way, and those of a
loop have a first round or none.  So correspondences are put together as sums and products
are, one lemma for each kind of node.

If the trees of every input correspond, then so do the results of parses without limits
(`Grammar.answer_eq`).
-/

namespace Ramify

/-! ## Families that correspond -/

/-- Two families have the same members, each as often: there is a bijection of their indices
along which the members are equal. -/
def Corresponds {α β γ : Type} (f : α → γ) (f' : β → γ) : Prop :=
  ∃ e : α ≃ β, ∀ a, f' (e a) = f a

namespace Corresponds

section Families

variable {α β α' β' γ δ ι : Type} {f : α → γ} {f' : β → γ} {k : α' → γ} {k' : β' → γ}

theorem refl (f : α → γ) : Corresponds f f :=
  ⟨.refl α, fun _ => rfl⟩

theorem symm (h : Corresponds f f') : Corresponds f' f := by
  obtain ⟨e, he⟩ := h
  exact ⟨e.symm, fun b => by rw [← he, e.apply_symm_apply]⟩

theorem trans (h : Corresponds f f') (h' : Corresponds f' k) : Corresponds f k := by
  obtain ⟨e, he⟩ := h
  obtain ⟨e', he'⟩ := h'
  exact ⟨e.trans e', fun a => (he' (e a)).trans (he a)⟩

theorem of_bijective (e : α → β) (he : Function.Bijective e) (h : ∀ a, f' (e a) = f a) :
    Corresponds f f' :=
  ⟨.ofBijective e he, h⟩

theorem of_isEmpty (h : IsEmpty α) (h' : IsEmpty β) : Corresponds f f' :=
  ⟨.equivOfIsEmpty α β, h.elim⟩

theorem isEmpty (h : Corresponds f f') (hempty : IsEmpty α) : IsEmpty β := by
  obtain ⟨e, -⟩ := h
  exact e.symm.isEmpty

/-- What is done to all members keeps the correspondence. -/
theorem comp (h : Corresponds f f') (c : γ → δ) : Corresponds (c ∘ f) (c ∘ f') := by
  obtain ⟨e, he⟩ := h
  exact ⟨e, fun a => congrArg c (he a)⟩

theorem sum (h : Corresponds f f') (h' : Corresponds k k') :
    Corresponds (Sum.elim f k) (Sum.elim f' k') := by
  obtain ⟨e, he⟩ := h
  obtain ⟨e', he'⟩ := h'
  refine ⟨.sumCongr e e', ?_⟩
  rintro (a | b)
  · exact he a
  · exact he' b

theorem sum_of_isEmpty (h : IsEmpty α') : Corresponds (Sum.elim f k) f := by
  refine ⟨.sumEmpty α α', ?_⟩
  rintro (a | b)
  · rfl
  · exact h.elim b

theorem sum_comm : Corresponds (Sum.elim f k) (Sum.elim k f) := by
  refine ⟨.sumComm α α', ?_⟩
  rintro (a | b) <;> rfl

theorem sum_left_comm : Corresponds (Sum.elim f (Sum.elim f' k)) (Sum.elim f' (Sum.elim f k)) := by
  refine ⟨(Equiv.sumAssoc α β α').symm.trans
    ((Equiv.sumCongr (.sumComm α β) (.refl α')).trans (.sumAssoc β α α')), ?_⟩
  rintro (a | b | c) <;> rfl

theorem sum_assoc : Corresponds (Sum.elim f (Sum.elim f' k)) (Sum.elim (Sum.elim f f') k) := by
  refine ⟨(Equiv.sumAssoc α β α').symm, ?_⟩
  rintro (a | b | c) <;> rfl

theorem sigma {α β : ι → Type} {f : (Σ i, α i) → γ} {f' : (Σ i, β i) → γ}
    (h : ∀ i, Corresponds (fun a => f ⟨i, a⟩) (fun b => f' ⟨i, b⟩)) : Corresponds f f' := by
  choose e he using h
  exact ⟨.sigmaCongrRight e, fun p => he p.1 p.2⟩

/-- Families that are empty unless a condition holds need correspond only if it does. -/
theorem restrict {P : Prop} (h : P → Corresponds f f') :
    Corresponds (fun a : {_a : α // P} => f a) (fun b : {_b : β // P} => f' b) := by
  by_cases hP : P
  · obtain ⟨e, he⟩ := h hP
    exact ⟨e.subtypeEquiv fun _ => Iff.rfl, fun a => he a⟩
  · exact of_isEmpty ⟨fun a => hP a.2⟩ ⟨fun b => hP b.2⟩

theorem restrict_of {P : Prop} (hP : P) : Corresponds (fun a : {_a : α // P} => f a) f :=
  ⟨.subtypeUnivEquiv fun _ => hP, fun _ => rfl⟩

end Families

/-- Pairs correspond if the first components do, and the second ones where there are first ones
at all. -/
theorem append {α β α' β' τ : Type} {f : α → List τ} {f' : β → List τ} {k : α' → List τ}
    {k' : β' → List τ} (h : Corresponds f f') (h' : α → Corresponds k k') :
    Corresponds (fun p : α × α' => f p.1 ++ k p.2) (fun p : β × β' => f' p.1 ++ k' p.2) := by
  rcases isEmpty_or_nonempty α with hempty | ⟨⟨a⟩⟩
  · have hempty' := h.isEmpty hempty
    exact of_isEmpty inferInstance inferInstance
  · obtain ⟨e, he⟩ := h
    obtain ⟨e', he'⟩ := h' a
    exact ⟨.prodCongr e e', fun p => congrArg₂ (· ++ ·) (he p.1) (he' p.2)⟩

end Corresponds

/-! ## Trees and their parts -/

namespace Grammar

variable {σ τ : Type} [DecidableEq σ]

section Families

variable (g : Grammar σ τ) (w : List σ)

/-- The tokens of each tree of a node between two positions. -/
def trees (id : NodeId) (i j : Nat) : Derivation g w id i j → List τ := Derivation.yield

/-- The tokens of each form of a node between two positions. -/
def forms (node : Node σ τ) (i j : Nat) : Match g w node i j → List τ := Match.yield

/-- The tokens of all trees of nodes one after the other. -/
def chains (ids : List NodeId) (i j : Nat) : Derivations g w ids i j → List τ := Derivations.yield

/-- The tokens of all rounds of a loop. -/
def loops (body : NodeId) (i j : Nat) : Rounds g w body i j → List τ := Rounds.yield

end Families

variable {g : Grammar σ τ} {w : List σ} {id body : NodeId} {ids choices : List NodeId} {i j : Nat}

theorem trees_forms {node : Node σ τ} (hn : g.nodes[id]? = some node) :
    Corresponds (g.trees w id i j) (g.forms w node i j) := by
  refine .symm (.of_bijective (Derivation.of hn) ⟨?_, fun tree => ?_⟩ fun _ => rfl)
  · intro form form' h
    cases h
    rfl
  · obtain ⟨form, rfl⟩ := tree.exists_form hn
    exact ⟨form, rfl⟩

/-! ### Leaves -/

theorem forms_empty (g' : Grammar σ τ) :
    Corresponds (g.forms w .empty i j) (g'.forms w .empty i j) :=
  ⟨⟨fun | .empty => .empty, fun | .empty => .empty, by rintro ⟨⟩; rfl, by rintro ⟨⟩; rfl⟩,
    by rintro ⟨⟩; rfl⟩

theorem forms_oneOf (g' : Grammar σ τ) {set : SymbolSet σ} :
    Corresponds (g.forms w (.oneOf set) i j) (g'.forms w (.oneOf set) i j) :=
  ⟨⟨fun | .oneOf hw hs => .oneOf hw hs, fun | .oneOf hw hs => .oneOf hw hs,
    by rintro ⟨⟩; rfl, by rintro ⟨⟩; rfl⟩, by rintro ⟨⟩; rfl⟩

theorem forms_literal (g' : Grammar σ τ) {run : List σ} :
    Corresponds (g.forms w (.literal run) i j) (g'.forms w (.literal run) i j) :=
  ⟨⟨fun | .literal hw => .literal hw, fun | .literal hw => .literal hw,
    by rintro ⟨⟩; rfl, by rintro ⟨⟩; rfl⟩, by rintro ⟨⟩; rfl⟩

theorem forms_guard (g' : Grammar σ τ) {set : SymbolSet σ} :
    Corresponds (g.forms w (.guard set) i j) (g'.forms w (.guard set) i j) :=
  ⟨⟨fun | .guard ha => .guard ha, fun | .guard ha => .guard ha,
    by rintro ⟨⟩; rfl, by rintro ⟨⟩; rfl⟩, by rintro ⟨⟩; rfl⟩

theorem forms_observe (g' : Grammar σ τ) {observer : Observer} :
    Corresponds (g.forms w (.observe observer) i j) (g'.forms w (.observe observer) i j) :=
  ⟨⟨fun | .pass hp => .pass hp | .observe hc hw => .observe hc hw,
    fun | .pass hp => .pass hp | .observe hc hw => .observe hc hw,
    by rintro ⟨⟩ <;> rfl, by rintro ⟨⟩ <;> rfl⟩, by rintro ⟨⟩ <;> rfl⟩

/-! ### Nodes with parts -/

theorem forms_seq : Corresponds (g.forms w (.seq ids) i j) (g.chains w ids i j) := by
  refine .symm (.of_bijective Match.seq ⟨?_, fun form => ?_⟩ fun _ => rfl)
  · intro trees trees' h
    cases h
    rfl
  · cases form with
    | seq trees => exact ⟨trees, rfl⟩

theorem forms_times {count : Nat} :
    Corresponds (g.forms w (.times body count) i j)
      (g.chains w (List.replicate count body) i j) := by
  refine .symm (.of_bijective Match.times ⟨?_, fun form => ?_⟩ fun _ => rfl)
  · intro trees trees' h
    cases h
    rfl
  · cases form with
    | times trees => exact ⟨trees, rfl⟩

theorem forms_star : Corresponds (g.forms w (.star body) i j) (g.loops w body i j) := by
  refine .symm (.of_bijective Match.star ⟨?_, fun form => ?_⟩ fun _ => rfl)
  · intro rounds rounds' h
    cases h
    rfl
  · cases form with
    | star rounds => exact ⟨rounds, rfl⟩

theorem forms_rule {index : RuleId} (hb : g.body? index = some body) :
    Corresponds (g.forms w (.rule index) i j) (g.trees w body i j) := by
  refine .symm (.of_bijective (Match.rule hb) ⟨?_, fun form => ?_⟩ fun _ => rfl)
  · intro tree tree' h
    cases h
    rfl
  · cases form with
    | rule hb' tree =>
        cases Option.some.inj (hb.symm.trans hb')
        exact ⟨tree, rfl⟩

theorem forms_emit {yields : Yield σ τ} :
    Corresponds (g.forms w (.emit body yields) i j)
      ((· ++ [yields.token ((w.take j).drop i)]) ∘ g.trees w body i j) := by
  refine .symm (.of_bijective Match.emit ⟨?_, fun form => ?_⟩ fun _ => rfl)
  · intro tree tree' h
    cases h
    rfl
  · cases form with
    | emit tree => exact ⟨tree, rfl⟩

theorem forms_fold {merge : List τ → τ} :
    Corresponds (g.forms w (.fold body merge) i j)
      ((fun tokens => [merge tokens]) ∘ g.trees w body i j) := by
  refine .symm (.of_bijective Match.fold ⟨?_, fun form => ?_⟩ fun _ => rfl)
  · intro tree tree' h
    cases h
    rfl
  · cases form with
    | fold tree => exact ⟨tree, rfl⟩

/-! ### Choices -/

theorem isEmpty_forms_alt_nil : IsEmpty (Match g w (.alt []) i j) := by
  refine ⟨fun form => ?_⟩
  cases form with
  | alt index hc tree => cases hc

/-- A tree of a choice is one of its first way, or of another. -/
theorem forms_alt_cons :
    Corresponds (g.forms w (.alt (id :: choices)) i j)
      (Sum.elim (g.trees w id i j) (g.forms w (.alt choices) i j)) := by
  let build : Derivation g w id i j ⊕ Match g w (.alt choices) i j →
      Match g w (.alt (id :: choices)) i j
    | .inl tree => .alt 0 rfl tree
    | .inr (.alt index hc tree) => .alt (index + 1) hc tree
  refine .symm (.of_bijective build ⟨?_, fun form => ?_⟩ ?_)
  · rintro (tree | ⟨index, hc, tree⟩) (tree' | ⟨index', hc', tree'⟩) h
    · cases h
      rfl
    · cases h
    · cases h
    · cases h
      rfl
  · cases form with
    | alt index hc tree =>
        cases index with
        | zero =>
            cases hc
            exact ⟨.inl tree, rfl⟩
        | succ index => exact ⟨.inr (.alt index hc tree), rfl⟩
  · rintro (tree | ⟨index, hc, tree⟩) <;> rfl

/-- The order of choices does not matter. -/
theorem forms_alt_perm {choices' : List NodeId} (h : choices.Perm choices') :
    Corresponds (g.forms w (.alt choices) i j) (g.forms w (.alt choices') i j) := by
  induction h with
  | nil => exact .refl _
  | cons choice _ ih =>
      exact forms_alt_cons.trans (.trans (.sum (.refl _) ih) forms_alt_cons.symm)
  | swap first second rest =>
      have hlist : ∀ first second : NodeId,
          Corresponds (g.forms w (.alt (first :: second :: rest)) i j)
            (Sum.elim (g.trees w first i j)
              (Sum.elim (g.trees w second i j) (g.forms w (.alt rest) i j))) :=
        fun first second => forms_alt_cons.trans (.sum (.refl _) forms_alt_cons)
      exact (hlist second first).trans (.trans .sum_left_comm (hlist first second).symm)
  | trans _ _ ih ih' => exact ih.trans ih'

/-- A way that has no trees may be left out. -/
theorem forms_alt_concat (h : IsEmpty (Derivation g w id i j)) :
    Corresponds (g.forms w (.alt (choices ++ [id])) i j) (g.forms w (.alt choices) i j) := by
  refine (forms_alt_perm List.perm_append_comm).trans (forms_alt_cons.trans ?_)
  exact .trans .sum_comm (.sum_of_isEmpty h)

theorem forms_alt_singleton :
    Corresponds (g.forms w (.alt [id]) i j) (g.trees w id i j) :=
  forms_alt_cons.trans (.sum_of_isEmpty isEmpty_forms_alt_nil)

/-- A tree of a choice is one of the ways before some place, or of those from there on. -/
theorem forms_alt_append {more : List NodeId} :
    Corresponds (g.forms w (.alt (choices ++ more)) i j)
      (Sum.elim (g.forms w (.alt choices) i j) (g.forms w (.alt more) i j)) := by
  induction choices with
  | nil => exact .trans (.symm (.sum_of_isEmpty isEmpty_forms_alt_nil)) .sum_comm
  | cons choice choices ih =>
      refine forms_alt_cons.trans (.trans (.sum (.refl _) ih) ?_)
      exact .trans .sum_assoc (.sum forms_alt_cons.symm (.refl _))

/-! ### Chains and loops -/

/-- Trees of nodes one after the other are a tree of the first, and trees of the others from
where it ends. -/
theorem chains_cons :
    Corresponds (g.chains w (id :: ids) i j)
      (fun p : Σ k : {k // i ≤ k ∧ k ≤ j}, Derivation g w id i k × Derivations g w ids k j =>
        g.trees w id i p.1 p.2.1 ++ g.chains w ids p.1 j p.2.2) := by
  refine .symm (.of_bijective (fun p => .cons p.2.1 p.2.2) ⟨?_, fun trees => ?_⟩ fun _ => rfl)
  · rintro ⟨⟨k, hk⟩, tree, trees⟩ ⟨⟨k', hk'⟩, tree', trees'⟩ h
    cases h
    rfl
  · cases trees with
    | cons tree trees => exact ⟨⟨⟨_, tree.le, trees.le⟩, tree, trees⟩, rfl⟩

/-- Trees of nodes one after the other are trees of those before some place, and trees of those
from there on. -/
theorem chains_append {more : List NodeId} :
    Corresponds (g.chains w (ids ++ more) i j)
      (fun p : Σ k : {k // i ≤ k ∧ k ≤ j}, Derivations g w ids i k × Derivations g w more k j =>
        g.chains w ids i p.1 p.2.1 ++ g.chains w more p.1 j p.2.2) := by
  refine .symm (.of_bijective (fun p => p.2.1.append p.2.2) ⟨?_, fun trees => ?_⟩ ?_)
  · rintro ⟨⟨k, hk⟩, trees, others⟩ ⟨⟨k', hk'⟩, trees', others'⟩ h
    cases Derivations.append_inj trees trees' h
    rfl
  · obtain ⟨k, front, back, rfl⟩ := trees.exists_append
    exact ⟨⟨⟨k, front.le, back.le⟩, front, back⟩, rfl⟩
  · exact fun p => Derivations.yield_append p.2.1 p.2.2

theorem chains_nil (g' : Grammar σ τ) : Corresponds (g.chains w [] i j) (g'.chains w [] i j) :=
  ⟨⟨fun | .nil => .nil, fun | .nil => .nil, by rintro ⟨⟩; rfl, by rintro ⟨⟩; rfl⟩,
    by rintro ⟨⟩; rfl⟩

/-- The empty text is no tree at all. -/
theorem forms_chains_nil : Corresponds (g.forms w .empty i j) (g.chains w [] i j) :=
  ⟨⟨fun | .empty => .nil, fun | .nil => .empty, by rintro ⟨⟩; rfl, by rintro ⟨⟩; rfl⟩,
    by rintro ⟨⟩; rfl⟩

theorem chains_singleton : Corresponds (g.chains w [id] i j) (g.trees w id i j) := by
  refine .symm (.of_bijective (fun tree => .cons tree .nil) ⟨?_, fun trees => ?_⟩ ?_)
  · intro tree tree' h
    cases h
    rfl
  · cases trees with
    | cons tree trees =>
        cases trees
        exact ⟨tree, rfl⟩
  · exact fun tree => List.append_nil _

/-- The rounds of a loop are none, or a first one of a symbol at least and more from where it
ends. -/
theorem loops_rounds :
    Corresponds (g.loops w body i j)
      (Sum.elim (g.chains w [] i j)
        (fun p : Σ k : {k // i ≤ k ∧ k ≤ j},
            {_tree : Derivation g w body i k // i < k} × Rounds g w body k j =>
          g.trees w body i p.1 p.2.1 ++ g.loops w body p.1 j p.2.2)) := by
  let build : Derivations g w [] i j ⊕ (Σ k : {k // i ≤ k ∧ k ≤ j},
      {_tree : Derivation g w body i k // i < k} × Rounds g w body k j) → Rounds g w body i j
    | .inl .nil => .done
    | .inr ⟨_, tree, rounds⟩ => .round tree.1 tree.2 rounds
  refine .symm (.of_bijective build ⟨?_, fun rounds => ?_⟩ ?_)
  · rintro (⟨⟨⟩⟩ | ⟨⟨k, hk⟩, ⟨tree, hlt⟩, rounds⟩) (⟨⟨⟩⟩ | ⟨⟨k', hk'⟩, ⟨tree', hlt'⟩, rounds'⟩) h
    · rfl
    · cases h
    · cases h
    · cases h
      rfl
  · cases rounds with
    | done => exact ⟨.inl .nil, rfl⟩
    | round tree hlt rounds => exact ⟨.inr ⟨⟨_, tree.le, rounds.le⟩, ⟨tree, hlt⟩, rounds⟩, rfl⟩
  · rintro (⟨⟨⟩⟩ | ⟨⟨k, hk⟩, ⟨tree, hlt⟩, rounds⟩) <;> rfl

/-! ## Answers -/

/-- What a parse without limits comes to: whether all symbols are taken, and what closing it
gives. -/
def answer (g : Grammar σ τ) (w : List σ) : Except Fault Unit × Except Refusal (List τ) :=
  let fed := (Forest.new g .unlimited).takeAll w
  (fed.result, fed.forest.close.result)

theorem answer_of_gt (hg : g.IsBuilt) (hw : maxCount < w.length) :
    g.answer w = (.error (.tooManySymbols (maxCount + 1) maxCount),
      .error (.aborted (.tooManySymbols (maxCount + 1) maxCount))) := by
  have hresult := Forest.takeAll_new_of_gt hg hw
  obtain ⟨-, hfault⟩ := (Forest.Lives.new g .unlimited).takeAll_eq_error hresult
  exact Prod.ext hresult (Forest.close_of_fault hfault)

/-- If the trees of an input correspond, parses without limits come to the same. -/
theorem answer_eq {g' : Grammar σ τ} (hg : g.IsBuilt) (hg' : g'.IsBuilt)
    (h : Corresponds (g.trees w g.start 0 w.length) (g'.trees w g'.start 0 w.length)) :
    g.answer w = g'.answer w := by
  rcases Nat.lt_or_ge maxCount w.length with hlong | hw
  · rw [answer_of_gt hg hlong, answer_of_gt hg' hlong]
  obtain ⟨hok, trees, hnodup, hall, hclose⟩ := Forest.exists_trees hg hw
  obtain ⟨hok', trees', hnodup', hall', hclose'⟩ := Forest.exists_trees hg' hw
  obtain ⟨e, he⟩ := h
  have hperm : (trees.map e).Perm trees' := by
    refine (List.perm_ext_iff_of_nodup (hnodup.map e.injective) hnodup').mpr fun tree => ?_
    exact ⟨fun _ => hall' tree,
      fun _ => List.mem_map.mpr ⟨e.symm tree, hall _, e.apply_symm_apply tree⟩⟩
  have hyields : (trees.map Derivation.yield).Perm (trees'.map Derivation.yield) := by
    refine List.Perm.trans (.of_eq ?_) (hperm.map Derivation.yield)
    rw [List.map_map]
    exact List.map_congr_left fun tree _ => (he tree).symm
  refine Prod.ext (hok.trans hok'.symm) ?_
  exact hclose.trans ((Forest.verdict_perm hyields).trans hclose'.symm)

end Grammar

end Ramify
