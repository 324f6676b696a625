import Ramify.Proofs.Derivation

/-!
# Nodes with one derivation

`Grammar.Determined` says that the trees of a node which end at certain positions are
told by where they begin: two of them from the same position are the same tree, and end
at the same position.  A node whose trees are determined at the end of the input has one
derivation of it at most.

There is a rule for each kind of node.  What comes next decides where a loop ends and
which way a choice goes, so the rules for them ask that no tree begins where a loop ends,
and that no two choices have trees from one position.
-/

namespace Ramify

variable {σ τ : Type} [DecidableEq σ]

/-- Trees of a node that end where `Ends` holds are told by where they begin. -/
def Grammar.Determined (g : Grammar σ τ) (w : List σ) (id : NodeId) (Ends : Nat → Prop) : Prop :=
  ∀ ⦃i j j' : Nat⦄ (tree : Derivation g w id i j) (tree' : Derivation g w id i j'),
    Ends j → Ends j' → (⟨j, tree⟩ : Σ j, Derivation g w id i j) = ⟨j', tree'⟩

/-- Trees of nodes one after the other are told by where they begin. -/
def Grammar.DeterminedAll (g : Grammar σ τ) (w : List σ) (ids : List NodeId)
    (Ends : Nat → Prop) : Prop :=
  ∀ ⦃i j j' : Nat⦄ (trees : Derivations g w ids i j) (trees' : Derivations g w ids i j'),
    Ends j → Ends j' → (⟨j, trees⟩ : Σ j, Derivations g w ids i j) = ⟨j', trees'⟩

namespace Grammar.Determined

variable {g : Grammar σ τ} {w : List σ} {id body : NodeId} {Ends Ends' : Nat → Prop}

/-- A node is determined at the end of the input if it has one tree of it at most. -/
theorem subsingleton (h : g.Determined w id (· = w.length)) (i : Nat) :
    Subsingleton (Derivation g w id i w.length) := by
  refine ⟨fun tree tree' => ?_⟩
  cases h tree tree' rfl rfl
  rfl

theorem mono (h : g.Determined w id Ends) (hends : ∀ j, Ends' j → Ends j) :
    g.Determined w id Ends' :=
  fun _ _ _ tree tree' hj hj' => h tree tree' (hends _ hj) (hends _ hj')

/-- A node is determined if its forms are. -/
theorem of_forms {node : Node σ τ} (hn : g.nodes[id]? = some node)
    (h : ∀ ⦃i j j' : Nat⦄ (form : Match g w node i j) (form' : Match g w node i j'),
      Ends j → Ends j' → (⟨j, form⟩ : Σ j, Match g w node i j) = ⟨j', form'⟩) :
    g.Determined w id Ends := by
  intro i j j' tree tree' hj hj'
  obtain ⟨form, rfl⟩ := tree.exists_form hn
  obtain ⟨form', rfl⟩ := tree'.exists_form hn
  cases h form form' hj hj'
  rfl

theorem oneOf {set : SymbolSet σ} (hn : g.nodes[id]? = some (.oneOf set)) :
    g.Determined w id Ends := by
  refine .of_forms hn fun i j j' form form' _ _ => ?_
  cases form with
  | oneOf hw hs =>
      cases form' with
      | oneOf hw' hs' =>
          cases Option.some.inj (hw.symm.trans hw')
          rfl

theorem literal {run : List σ} (hn : g.nodes[id]? = some (.literal run)) :
    g.Determined w id Ends := by
  refine .of_forms hn fun i j j' form form' _ _ => ?_
  cases form with
  | literal hw =>
      cases form' with
      | literal hw' => rfl

theorem guard {set : SymbolSet σ} (hn : g.nodes[id]? = some (.guard set)) :
    g.Determined w id Ends := by
  refine .of_forms hn fun i j j' form form' _ _ => ?_
  cases form with
  | guard ha =>
      cases form' with
      | guard ha' => rfl

theorem seq {parts : List NodeId} (hn : g.nodes[id]? = some (.seq parts))
    (h : g.DeterminedAll w parts Ends) : g.Determined w id Ends := by
  refine .of_forms hn fun i j j' form form' hj hj' => ?_
  cases form with
  | seq trees =>
      cases form' with
      | seq trees' =>
          cases h trees trees' hj hj'
          rfl

/-- A choice is determined if each way is, and no two ways can be taken from one position. -/
theorem alt {choices : List NodeId} (hn : g.nodes[id]? = some (.alt choices))
    (h : ∀ choice ∈ choices, g.Determined w choice Ends)
    (hapart : ∀ ⦃index index' choice choice' i j j' : Nat⦄, choices[index]? = some choice →
      choices[index']? = some choice' → Derivation g w choice i j →
      Derivation g w choice' i j' → index = index') : g.Determined w id Ends := by
  refine .of_forms hn fun i j j' form form' hj hj' => ?_
  cases form with
  | alt index hc tree =>
      cases form' with
      | alt index' hc' tree' =>
          have hindex := hapart hc hc' tree tree'
          subst hindex
          have hchoice := Option.some.inj (hc.symm.trans hc')
          subst hchoice
          cases h _ (List.mem_of_getElem? hc) tree tree' hj hj'
          rfl

/-- A choice between two ways is determined if no position begins trees of both. -/
theorem alt_pair {first second : NodeId} (hn : g.nodes[id]? = some (.alt [first, second]))
    (h : g.Determined w first Ends) (h' : g.Determined w second Ends)
    (hapart : ∀ ⦃i j j' : Nat⦄, Derivation g w first i j → Derivation g w second i j' → False) :
    g.Determined w id Ends := by
  refine .alt hn ?_ ?_
  · intro choice hchoice
    simp only [List.mem_cons, List.not_mem_nil, or_false] at hchoice
    rcases hchoice with rfl | rfl
    · exact h
    · exact h'
  · intro index index' choice choice' i j j' hc hc' tree tree'
    rcases index with _ | _ | index <;> rcases index' with _ | _ | index' <;> cases hc <;> cases hc'
    · rfl
    · exact (hapart tree tree').elim
    · exact (hapart tree' tree).elim
    · rfl

theorem rule {index : RuleId} (hn : g.nodes[id]? = some (.rule index))
    (hb : g.body? index = some body) (h : g.Determined w body Ends) : g.Determined w id Ends := by
  refine .of_forms hn fun i j j' form form' hj hj' => ?_
  cases form with
  | rule hb₁ tree =>
      cases form' with
      | rule hb₂ tree' =>
          cases Option.some.inj (hb.symm.trans hb₁)
          cases Option.some.inj (hb.symm.trans hb₂)
          cases h tree tree' hj hj'
          rfl

theorem emit {yields : Yield σ τ} (hn : g.nodes[id]? = some (.emit body yields))
    (h : g.Determined w body Ends) : g.Determined w id Ends := by
  refine .of_forms hn fun i j j' form form' hj hj' => ?_
  cases form with
  | emit tree =>
      cases form' with
      | emit tree' =>
          cases h tree tree' hj hj'
          rfl

theorem fold {merge : List τ → τ} (hn : g.nodes[id]? = some (.fold body merge))
    (h : g.Determined w body Ends) : g.Determined w id Ends := by
  refine .of_forms hn fun i j j' form form' hj hj' => ?_
  cases form with
  | fold tree =>
      cases form' with
      | fold tree' =>
          cases h tree tree' hj hj'
          rfl

/-- A position at which a loop may end or go on. -/
def Turns (g : Grammar σ τ) (w : List σ) (body : NodeId) (Ends : Nat → Prop) (k : Nat) : Prop :=
  Ends k ∨ ∃ k', Nonempty (Derivation g w body k k')

/-- Rounds are determined if each is, and none begins where the loop ends. -/
theorem rounds (h : g.Determined w body (Turns g w body Ends))
    (hstop : ∀ ⦃k k' : Nat⦄, Ends k → k < k' → Derivation g w body k k' → False) :
    ∀ {i j j' : Nat} (rounds : Rounds g w body i j) (rounds' : Rounds g w body i j'),
      Ends j → Ends j' → (⟨j, rounds⟩ : Σ j, Rounds g w body i j) = ⟨j', rounds'⟩
  | _, _, _, .done, .done, _, _ => rfl
  | _, _, _, .done, .round tree' hlt' _, hj, _ => (hstop hj hlt' tree').elim
  | _, _, _, .round tree hlt _, .done, _, hj' => (hstop hj' hlt tree).elim
  | _, _, _, .round tree _ rounds, .round tree' _ rounds', hj, hj' => by
      have hturn : ∀ {k j : Nat}, Rounds g w body k j → Ends j → Turns g w body Ends k := by
        intro k j rounds hj
        cases rounds with
        | done => exact .inl hj
        | round tree => exact .inr ⟨_, ⟨tree⟩⟩
      cases h tree tree' (hturn rounds hj) (hturn rounds' hj')
      cases Determined.rounds h hstop rounds rounds' hj hj'
      rfl

theorem star (hn : g.nodes[id]? = some (.star body))
    (h : g.Determined w body (Turns g w body Ends))
    (hstop : ∀ ⦃k k' : Nat⦄, Ends k → k < k' → Derivation g w body k k' → False) :
    g.Determined w id Ends := by
  refine .of_forms hn fun i j j' form form' hj hj' => ?_
  cases form with
  | star rounds =>
      cases form' with
      | star rounds' =>
          cases Determined.rounds h hstop rounds rounds' hj hj'
          rfl

end Grammar.Determined

namespace Grammar.DeterminedAll

variable {g : Grammar σ τ} {w : List σ} {id : NodeId} {ids : List NodeId} {Ends Ends' : Nat → Prop}

theorem nil : g.DeterminedAll w [] Ends := by
  intro i j j' trees trees' _ _
  cases trees
  cases trees'
  rfl

/-- The first node need be determined only where trees of the others begin. -/
theorem cons (h : g.Determined w id Ends') (h' : g.DeterminedAll w ids Ends)
    (hends : ∀ ⦃k j : Nat⦄, Derivations g w ids k j → Ends j → Ends' k) :
    g.DeterminedAll w (id :: ids) Ends := by
  intro i j j' trees trees' hj hj'
  cases trees with
  | cons tree trees =>
      cases trees' with
      | cons tree' trees' =>
          cases h tree tree' (hends trees hj) (hends trees' hj')
          cases h' trees trees' hj hj'
          rfl

theorem single (h : g.Determined w id Ends) : g.DeterminedAll w [id] Ends := by
  refine .cons h .nil fun k j trees hj => ?_
  cases trees
  exact hj

end Grammar.DeterminedAll

end Ramify
