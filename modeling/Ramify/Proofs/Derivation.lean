import Ramify.Proofs.Moves

/-!
# Derivation trees

A derivation tree says how a node of a grammar matches the symbols of an input `w` from
one position up to another.  The four families follow the grammar: `Derivation` looks up
the node at a place, `Match` has the forms that each kind of node can take,
`Derivations` matches nodes one after the other, and `Rounds` the rounds of a loop, none
of which is empty.

A tree yields tokens, and makes a choice wherever its node has several forms.  The
choices tell trees apart: two trees of the same node from the same position are equal if
one's choices begin those of the other (`Derivation.eq_of_choices`).
-/

namespace Ramify

variable {σ τ : Type} [DecidableEq σ]

@[simp] theorem SymbolSet.contains_of {symbols : List σ} {symbol : σ} :
    (SymbolSet.of symbols).contains symbol = true ↔ symbol ∈ symbols := by
  simp only [SymbolSet.contains, SymbolSet.of, Bool.bne_false]
  exact decide_eq_true_iff

@[simp] theorem SymbolSet.contains_except {symbols : List σ} {symbol : σ} :
    (SymbolSet.except symbols).contains symbol = true ↔ symbol ∉ symbols := by
  simp only [SymbolSet.contains, SymbolSet.except, Bool.bne_true, Bool.not_eq_true']
  exact decide_eq_false_iff_not

/-! ## Trees -/

mutual

/-- The trees of the node at a place, for the symbols of `w` between two positions. -/
inductive Derivation (g : Grammar σ τ) (w : List σ) : NodeId → Nat → Nat → Type where
  /-- A tree of the node there. -/
  | of {id : NodeId} {node : Node σ τ} {i j : Nat} (hn : g.nodes[id]? = some node)
      (form : Match g w node i j) : Derivation g w id i j

/-- The forms of a tree, by kind of node. -/
inductive Match (g : Grammar σ τ) (w : List σ) : Node σ τ → Nat → Nat → Type where
  /-- The empty text. -/
  | empty {i : Nat} : Match g w .empty i i
  /-- A symbol of the set. -/
  | oneOf {set : SymbolSet σ} {i : Nat} {symbol : σ} (hw : w[i]? = some symbol)
      (hs : set.contains symbol = true) : Match g w (.oneOf set) i (i + 1)
  /-- The symbols of the run. -/
  | literal {run : List σ} {i : Nat} (hw : run <+: w.drop i) :
      Match g w (.literal run) i (i + run.length)
  /-- The empty text, where the next symbol or the end of the input is admitted. -/
  | guard {set : SymbolSet σ} {i : Nat} (ha : set.admits w[i]? = true) :
      Match g w (.guard set) i i
  /-- The parts in order. -/
  | seq {parts : List NodeId} {i j : Nat} (trees : Derivations g w parts i j) :
      Match g w (.seq parts) i j
  /-- One of the choices. -/
  | alt {choices : List NodeId} {choice : NodeId} {i j : Nat} (index : Nat)
      (hc : choices[index]? = some choice) (tree : Derivation g w choice i j) :
      Match g w (.alt choices) i j
  /-- Rounds of the loop. -/
  | star {body : NodeId} {i j : Nat} (rounds : Rounds g w body i j) : Match g w (.star body) i j
  /-- The body as many times as asked for. -/
  | times {body : NodeId} {count i j : Nat}
      (trees : Derivations g w (List.replicate count body) i j) : Match g w (.times body count) i j
  /-- The body of the rule. -/
  | rule {index : RuleId} {body : NodeId} {i j : Nat} (hb : g.body? index = some body)
      (tree : Derivation g w body i j) : Match g w (.rule index) i j
  /-- The body of the emission. -/
  | emit {body : NodeId} {yields : Yield σ τ} {i j : Nat} (tree : Derivation g w body i j) :
      Match g w (.emit body yields) i j
  /-- The body of the fold. -/
  | fold {body : NodeId} {merge : List τ → τ} {i j : Nat} (tree : Derivation g w body i j) :
      Match g w (.fold body merge) i j
  /-- An observer without a symbol. -/
  | pass {observer : Observer} {i : Nat} (hp : observer.passes = true) :
      Match g w (.observe observer) i i
  /-- An observer with any symbol. -/
  | observe {observer : Observer} {i : Nat} (hc : observer.consumes = true) (hw : i < w.length) :
      Match g w (.observe observer) i (i + 1)

/-- Trees of nodes one after the other. -/
inductive Derivations (g : Grammar σ τ) (w : List σ) : List NodeId → Nat → Nat → Type where
  /-- No tree. -/
  | nil {i : Nat} : Derivations g w [] i i
  /-- A tree of the first node, and trees of the others. -/
  | cons {id : NodeId} {ids : List NodeId} {i k j : Nat} (tree : Derivation g w id i k)
      (trees : Derivations g w ids k j) : Derivations g w (id :: ids) i j

/-- Rounds of a loop, each of one symbol at least. -/
inductive Rounds (g : Grammar σ τ) (w : List σ) : NodeId → Nat → Nat → Type where
  /-- No more rounds. -/
  | done {body : NodeId} {i : Nat} : Rounds g w body i i
  /-- One more round. -/
  | round {body : NodeId} {i k j : Nat} (tree : Derivation g w body i k) (hlt : i < k)
      (rounds : Rounds g w body k j) : Rounds g w body i j

end

/-! ## Tokens and choices -/

/-- The token of an emission whose body matched the given symbols. -/
def Yield.token : Yield σ τ → List σ → τ
  | .fixed token, _ => token
  | .ofSymbols make, symbols => make symbols

section Reading

variable {g : Grammar σ τ} {w : List σ}

mutual

/-- The tokens of a tree. -/
def Derivation.yield : {id : NodeId} → {i j : Nat} → Derivation g w id i j → List τ
  | _, _, _, .of _ form => form.yield

/-- The tokens of a form. -/
def Match.yield : {node : Node σ τ} → {i j : Nat} → Match g w node i j → List τ
  | _, _, _, .seq trees | _, _, _, .times trees => trees.yield
  | _, _, _, .alt _ _ tree | _, _, _, .rule _ tree => tree.yield
  | _, _, _, .star rounds => rounds.yield
  | .emit _ yields, i, j, .emit tree => tree.yield ++ [yields.token ((w.take j).drop i)]
  | .fold _ merge, _, _, .fold tree => [merge tree.yield]
  | _, _, _, _ => []

/-- The tokens of trees one after the other. -/
def Derivations.yield : {ids : List NodeId} → {i j : Nat} → Derivations g w ids i j → List τ
  | _, _, _, .nil => []
  | _, _, _, .cons tree trees => tree.yield ++ trees.yield

/-- The tokens of the rounds of a loop. -/
def Rounds.yield : {body : NodeId} → {i j : Nat} → Rounds g w body i j → List τ
  | _, _, _, .done => []
  | _, _, _, .round tree _ rounds => tree.yield ++ rounds.yield

end

mutual

/-- The choices of a tree, oldest first. -/
def Derivation.choices : {id : NodeId} → {i j : Nat} → Derivation g w id i j → List Choice
  | id, _, _, .of _ form => form.choices id

/-- The choices of a form of the node at `id`. -/
def Match.choices (id : NodeId) : {node : Node σ τ} → {i j : Nat} → Match g w node i j → List Choice
  | _, _, _, .seq trees | _, _, _, .times trees => trees.choices
  | _, i, _, .alt index _ tree => ⟨id, index, i⟩ :: tree.choices
  | _, _, _, .star rounds => rounds.choices id
  | _, _, _, .rule _ tree | _, _, _, .emit tree | _, _, _, .fold tree => tree.choices
  | .observe observer, i, _, .pass _ => if observer.consumes then [⟨id, 0, i⟩] else []
  | .observe observer, i, _, .observe .. => if observer.passes then [⟨id, 1, i⟩] else []
  | _, _, _, _ => []

/-- The choices of trees one after the other. -/
def Derivations.choices : {ids : List NodeId} → {i j : Nat} → Derivations g w ids i j → List Choice
  | _, _, _, .nil => []
  | _, _, _, .cons tree trees => tree.choices ++ trees.choices

/-- The choices of the rounds of the loop at `id`. -/
def Rounds.choices (id : NodeId) : {body : NodeId} → {i j : Nat} → Rounds g w body i j → List Choice
  | _, i, _, .done => [⟨id, 0, i⟩]
  | _, i, _, .round tree _ rounds => ⟨id, 1, i⟩ :: (tree.choices ++ rounds.choices id)

end

/-- A tree of a known node has one of the forms of the node. -/
theorem Derivation.exists_form {id : NodeId} {node : Node σ τ} {i j : Nat}
    (hn : g.nodes[id]? = some node) (tree : Derivation g w id i j) :
    ∃ form : Match g w node i j, tree = .of hn form := by
  obtain ⟨hn', form⟩ := tree
  cases Option.some.inj (hn.symm.trans hn')
  exact ⟨form, rfl⟩

theorem Derivation.of_oneOf {id : NodeId} {set : SymbolSet σ} {i j : Nat}
    (hn : g.nodes[id]? = some (.oneOf set)) (tree : Derivation g w id i j) :
    ∃ symbol, w[i]? = some symbol ∧ set.contains symbol = true ∧ j = i + 1 ∧ tree.yield = [] := by
  obtain ⟨form, rfl⟩ := tree.exists_form hn
  cases form with
  | oneOf hw hs => exact ⟨_, hw, hs, rfl, rfl⟩

theorem Derivation.of_literal {id : NodeId} {run : List σ} {i j : Nat}
    (hn : g.nodes[id]? = some (.literal run)) (tree : Derivation g w id i j) :
    run <+: w.drop i ∧ j = i + run.length ∧ tree.yield = [] := by
  obtain ⟨form, rfl⟩ := tree.exists_form hn
  cases form with
  | literal hw => exact ⟨hw, rfl, rfl⟩

omit [DecidableEq σ] in
theorem getElem?_of_prefix_drop {run : List σ} {i n : Nat} {symbol : σ} (h : run <+: w.drop i)
    (hn : run[n]? = some symbol) : w[i + n]? = some symbol := by
  obtain ⟨more, hmore⟩ := h
  have hlt := (List.getElem?_eq_some_iff.mp hn).1
  rw [← List.getElem?_drop, ← hmore, List.getElem?_append_left hlt]
  exact hn

omit [DecidableEq σ] in
theorem prefix_drop_of_append {v v' : List σ} {i : Nat} (h : v ++ v' <+: w.drop i) :
    v <+: w.drop i ∧ v' <+: w.drop (i + v.length) := by
  obtain ⟨more, hmore⟩ := h
  rw [List.append_assoc] at hmore
  refine ⟨⟨_, hmore⟩, ⟨more, ?_⟩⟩
  rw [← List.drop_drop, ← hmore, List.drop_left]

theorem Derivation.of_guard {id : NodeId} {set : SymbolSet σ} {i j : Nat}
    (hn : g.nodes[id]? = some (.guard set)) (tree : Derivation g w id i j) :
    set.admits w[i]? = true ∧ j = i ∧ tree.yield = [] := by
  obtain ⟨form, rfl⟩ := tree.exists_form hn
  cases form with
  | guard ha => exact ⟨ha, rfl, rfl⟩

/-! ## Positions -/

mutual

/-- A tree ends where it begins or later. -/
theorem Derivation.le : {id : NodeId} → {i j : Nat} → Derivation g w id i j → i ≤ j
  | _, _, _, .of _ form => form.le

theorem Match.le : {node : Node σ τ} → {i j : Nat} → Match g w node i j → i ≤ j
  | _, _, _, .empty | _, _, _, .guard _ | _, _, _, .pass _ => Nat.le_refl _
  | _, _, _, .oneOf _ _ | _, _, _, .observe _ _ => Nat.le_succ _
  | _, _, _, .literal _ => Nat.le_add_right _ _
  | _, _, _, .seq trees | _, _, _, .times trees => trees.le
  | _, _, _, .alt _ _ tree | _, _, _, .rule _ tree | _, _, _, .emit tree | _, _, _, .fold tree =>
      tree.le
  | _, _, _, .star rounds => rounds.le

theorem Derivations.le : {ids : List NodeId} → {i j : Nat} → Derivations g w ids i j → i ≤ j
  | _, _, _, .nil => Nat.le_refl _
  | _, _, _, .cons tree trees => Nat.le_trans tree.le trees.le

theorem Rounds.le : {body : NodeId} → {i j : Nat} → Rounds g w body i j → i ≤ j
  | _, _, _, .done => Nat.le_refl _
  | _, _, _, .round tree _ rounds => Nat.le_trans tree.le rounds.le

end

mutual

/-- A tree that begins within the input ends within it. -/
theorem Derivation.le_length : {id : NodeId} → {i j : Nat} → Derivation g w id i j →
    i ≤ w.length → j ≤ w.length
  | _, _, _, .of _ form, h => form.le_length h

theorem Match.le_length : {node : Node σ τ} → {i j : Nat} → Match g w node i j →
    i ≤ w.length → j ≤ w.length
  | _, _, _, .empty, h | _, _, _, .guard _, h | _, _, _, .pass _, h => h
  | _, _, _, .oneOf hw _, _ => (List.getElem?_eq_some_iff.mp hw).1
  | _, _, _, .observe _ hw, _ => hw
  | _, _, _, .literal hw, h => by
      have hle := hw.length_le
      rw [List.length_drop] at hle
      omega
  | _, _, _, .seq trees, h | _, _, _, .times trees, h => trees.le_length h
  | _, _, _, .alt _ _ tree, h | _, _, _, .rule _ tree, h | _, _, _, .emit tree, h
  | _, _, _, .fold tree, h => tree.le_length h
  | _, _, _, .star rounds, h => rounds.le_length h

theorem Derivations.le_length : {ids : List NodeId} → {i j : Nat} → Derivations g w ids i j →
    i ≤ w.length → j ≤ w.length
  | _, _, _, .nil, h => h
  | _, _, _, .cons tree trees, h => trees.le_length (tree.le_length h)

theorem Rounds.le_length : {body : NodeId} → {i j : Nat} → Rounds g w body i j →
    i ≤ w.length → j ≤ w.length
  | _, _, _, .done, h => h
  | _, _, _, .round tree _ rounds, h => rounds.le_length (tree.le_length h)

end

/-! ## Trees in two groups -/

namespace Derivations

/-- Trees of nodes, followed by trees of more nodes from where they end. -/
def append : {ids more : List NodeId} → {i k j : Nat} → Derivations g w ids i k →
    Derivations g w more k j → Derivations g w (ids ++ more) i j
  | _, _, _, _, _, .nil, others => others
  | _, _, _, _, _, .cons tree trees, others => .cons tree (trees.append others)

theorem yield_append : ∀ {ids more : List NodeId} {i k j : Nat} (trees : Derivations g w ids i k)
    (others : Derivations g w more k j), (trees.append others).yield = trees.yield ++ others.yield
  | _, _, _, _, _, .nil, _ => rfl
  | _, _, _, _, _, .cons tree trees, others => by
      simp only [append, yield, yield_append trees others, List.append_assoc]

theorem append_inj : ∀ {ids more : List NodeId} {i k k' j : Nat} (trees : Derivations g w ids i k)
    (trees' : Derivations g w ids i k') {others : Derivations g w more k j}
    {others' : Derivations g w more k' j}, trees.append others = trees'.append others' →
    (⟨k, trees, others⟩ : Σ k, Derivations g w ids i k × Derivations g w more k j) =
      ⟨k', trees', others'⟩
  | _, _, _, _, _, _, .nil, .nil, _, _, h => by
      cases h
      rfl
  | _, _, _, _, _, _, .cons tree trees, .cons tree' trees', _, _, h => by
      obtain ⟨rfl, htree, htrees⟩ := cons.inj h
      cases htree
      cases append_inj trees trees' (eq_of_heq htrees)
      rfl

/-- Trees of two groups of nodes are trees of the first and trees of the second. -/
theorem exists_append : ∀ {ids more : List NodeId} {i j : Nat}
    (trees : Derivations g w (ids ++ more) i j), ∃ k, ∃ front : Derivations g w ids i k,
      ∃ back : Derivations g w more k j, trees = front.append back
  | [], _, i, _, trees => ⟨i, .nil, trees, rfl⟩
  | _ :: _, _, _, _, .cons tree trees => by
      obtain ⟨k, front, back, rfl⟩ := exists_append trees
      exact ⟨k, .cons tree front, back, rfl⟩

end Derivations

/-! ## Choices tell trees apart -/

mutual

/-- Trees of one node from one position are equal if the choices of one begin those of
the other. -/
theorem Derivation.eq_of_choices : {id : NodeId} → {i j j' : Nat} →
    (tree : Derivation g w id i j) → (tree' : Derivation g w id i j') →
    {rest rest' : List Choice} → tree.choices ++ rest = tree'.choices ++ rest' →
    (⟨j, tree⟩ : Σ j, Derivation g w id i j) = ⟨j', tree'⟩ ∧ rest = rest'
  | _, _, _, _, .of hn form, .of hn' form', _, _, h => by
      have hnode := Option.some.inj (hn.symm.trans hn')
      subst hnode
      obtain ⟨heq, hrest⟩ := Match.eq_of_choices form form' h
      cases heq
      exact ⟨rfl, hrest⟩
termination_by structural _ _ _ _ x => x

theorem Match.eq_of_choices {id : NodeId} : {node : Node σ τ} → {i j j' : Nat} →
    (form : Match g w node i j) → (form' : Match g w node i j') →
    {rest rest' : List Choice} → form.choices id ++ rest = form'.choices id ++ rest' →
    (⟨j, form⟩ : Σ j, Match g w node i j) = ⟨j', form'⟩ ∧ rest = rest'
  | _, _, _, _, .empty, .empty, _, _, h => ⟨rfl, h⟩
  | _, _, _, _, .oneOf hw hs, .oneOf hw' hs', _, _, h => by
      cases Option.some.inj (hw.symm.trans hw')
      exact ⟨rfl, h⟩
  | _, _, _, _, .literal _, .literal _, _, _, h => ⟨rfl, h⟩
  | _, _, _, _, .guard _, .guard _, _, _, h => ⟨rfl, h⟩
  | _, _, _, _, .seq trees, .seq trees', _, _, h => by
      obtain ⟨heq, hrest⟩ := Derivations.eq_of_choices trees trees' h
      cases heq
      exact ⟨rfl, hrest⟩
  | _, _, _, _, .alt index hc tree, .alt index' hc' tree', _, _, h => by
      obtain ⟨hfork, hinner⟩ := List.cons.inj h
      have hindex : index = index' := congrArg Choice.way hfork
      subst hindex
      have hchoice := Option.some.inj (hc.symm.trans hc')
      subst hchoice
      obtain ⟨heq, hrest⟩ := Derivation.eq_of_choices tree tree' hinner
      cases heq
      exact ⟨rfl, hrest⟩
  | _, _, _, _, .star rounds, .star rounds', _, _, h => by
      obtain ⟨heq, hrest⟩ := Rounds.eq_of_choices rounds rounds' h
      cases heq
      exact ⟨rfl, hrest⟩
  | _, _, _, _, .times trees, .times trees', _, _, h => by
      obtain ⟨heq, hrest⟩ := Derivations.eq_of_choices trees trees' h
      cases heq
      exact ⟨rfl, hrest⟩
  | _, _, _, _, .rule hb tree, .rule hb' tree', _, _, h => by
      have hbody := Option.some.inj (hb.symm.trans hb')
      subst hbody
      obtain ⟨heq, hrest⟩ := Derivation.eq_of_choices tree tree' h
      cases heq
      exact ⟨rfl, hrest⟩
  | _, _, _, _, .emit tree, .emit tree', _, _, h => by
      obtain ⟨heq, hrest⟩ := Derivation.eq_of_choices tree tree' h
      cases heq
      exact ⟨rfl, hrest⟩
  | _, _, _, _, .fold tree, .fold tree', _, _, h => by
      obtain ⟨heq, hrest⟩ := Derivation.eq_of_choices tree tree' h
      cases heq
      exact ⟨rfl, hrest⟩
  | _, _, _, _, .pass _, .pass _, _, _, h => ⟨rfl, List.append_cancel_left h⟩
  | _, _, _, _, .pass hp, .observe hc _, _, _, h => by simp [Match.choices, hp, hc] at h
  | _, _, _, _, .observe hc _, .pass hp, _, _, h => by simp [Match.choices, hp, hc] at h
  | _, _, _, _, .observe _ _, .observe _ _, _, _, h => ⟨rfl, List.append_cancel_left h⟩
termination_by structural _ _ _ _ x => x

theorem Derivations.eq_of_choices : {ids : List NodeId} → {i j j' : Nat} →
    (trees : Derivations g w ids i j) → (trees' : Derivations g w ids i j') →
    {rest rest' : List Choice} → trees.choices ++ rest = trees'.choices ++ rest' →
    (⟨j, trees⟩ : Σ j, Derivations g w ids i j) = ⟨j', trees'⟩ ∧ rest = rest'
  | _, _, _, _, .nil, .nil, _, _, h => ⟨rfl, h⟩
  | _, _, _, _, .cons tree trees, .cons tree' trees', _, _, h => by
      simp only [Derivations.choices, List.append_assoc] at h
      obtain ⟨heq, hlater⟩ := Derivation.eq_of_choices tree tree' h
      cases heq
      obtain ⟨heq, hrest⟩ := Derivations.eq_of_choices trees trees' hlater
      cases heq
      exact ⟨rfl, hrest⟩
termination_by structural _ _ _ _ x => x

theorem Rounds.eq_of_choices {id : NodeId} : {body : NodeId} → {i j j' : Nat} →
    (rounds : Rounds g w body i j) → (rounds' : Rounds g w body i j') →
    {rest rest' : List Choice} → rounds.choices id ++ rest = rounds'.choices id ++ rest' →
    (⟨j, rounds⟩ : Σ j, Rounds g w body i j) = ⟨j', rounds'⟩ ∧ rest = rest'
  | _, _, _, _, .done, .done, _, _, h => ⟨rfl, List.append_cancel_left h⟩
  | _, _, _, _, .done, .round _ _ _, _, _, h => by simp [Rounds.choices] at h
  | _, _, _, _, .round _ _ _, .done, _, _, h => by simp [Rounds.choices] at h
  | _, _, _, _, .round tree _ rounds, .round tree' _ rounds', _, _, h => by
      simp only [Rounds.choices, List.cons_append, List.append_assoc] at h
      obtain ⟨heq, hlater⟩ := Derivation.eq_of_choices tree tree' (List.cons.inj h).2
      cases heq
      obtain ⟨heq, hrest⟩ := Rounds.eq_of_choices rounds rounds' hlater
      cases heq
      exact ⟨rfl, hrest⟩
termination_by structural _ _ _ _ x => x

end

/-- Trees of one span with the same choices are equal. -/
theorem Derivation.choices_injective {id : NodeId} {i j : Nat} :
    Function.Injective (Derivation.choices : Derivation g w id i j → List Choice) := by
  intro tree tree' h
  obtain ⟨heq, -⟩ := Derivation.eq_of_choices tree tree' (congrArg (· ++ []) h)
  cases heq
  rfl

end Reading

end Ramify
