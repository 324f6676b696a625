import Mathlib.Data.List.Forall2
import Ramify.Proofs.Derivation

/-!
# What nodes match

`Spans` says that a text stands in the input between two positions.  A `Reading` relates
texts to the tokens that they are read as.  `Grammar.Reads` says that a node has a
reading: every tree of the node spans a text and yields the tokens that the text is read
as, and every text of the reading has such a tree, where what follows it allows one.

There is a rule for each kind of node.  A guard tests what follows it, so in a sequence
each part has to allow what the parts after it can begin with.
-/

namespace Ramify

variable {σ τ : Type}

/-! ## Texts in the input -/

/-- A text stands in the input between two positions. -/
structure Spans (w : List σ) (i j : Nat) (text : List σ) : Prop where
  /-- The text comes next at the first position, and the rest of the input after it. -/
  drop_eq : w.drop i = text ++ w.drop j
  /-- The second position is where the text ends. -/
  end_eq : j = i + text.length

namespace Spans

variable {w text more : List σ} {i j k : Nat} {symbol : σ}

theorem nil : Spans w i i [] :=
  ⟨rfl, rfl⟩

theorem trans (h : Spans w i k text) (hmore : Spans w k j more) : Spans w i j (text ++ more) := by
  refine ⟨?_, ?_⟩
  · rw [h.drop_eq, hmore.drop_eq, List.append_assoc]
  · rw [hmore.end_eq, h.end_eq, List.length_append, Nat.add_assoc]

/-- The parts of a text meet somewhere between its ends. -/
theorem exists_between (h : Spans w i j (text ++ more)) :
    ∃ k, Spans w i k text ∧ Spans w k j more := by
  have hdrop : w.drop (i + text.length) = more ++ w.drop j := by
    rw [← List.drop_drop, h.drop_eq, List.append_assoc, List.drop_left]
  refine ⟨i + text.length, ⟨?_, rfl⟩, ⟨hdrop, ?_⟩⟩
  · rw [hdrop, h.drop_eq, List.append_assoc]
  · rw [h.end_eq, List.length_append, Nat.add_assoc]

theorem of_isPrefix (h : text <+: w.drop i) : Spans w i (i + text.length) text := by
  obtain ⟨rest, hrest⟩ := h
  refine ⟨?_, rfl⟩
  rw [← List.drop_drop, ← hrest, List.drop_left]

theorem isPrefix (h : Spans w i j text) : text <+: w.drop i :=
  ⟨w.drop j, h.drop_eq.symm⟩

theorem getElem? (h : Spans w i j (symbol :: text)) : w[i]? = some symbol :=
  getElem?_of_prefix_drop (n := 0) h.isPrefix rfl

theorem singleton (hw : w[i]? = some symbol) : Spans w i (i + 1) [symbol] := by
  obtain ⟨hlt, rfl⟩ := List.getElem?_eq_some_iff.mp hw
  exact ⟨List.drop_eq_getElem_cons hlt, rfl⟩

theorem take_drop_eq (h : Spans w i j text) : (w.take j).drop i = text := by
  rw [List.drop_take, h.drop_eq, h.end_eq, Nat.add_sub_cancel_left, List.take_left]

/-- Only the whole input stands between its ends. -/
theorem whole_iff : Spans w 0 w.length text ↔ text = w := by
  constructor
  · intro h
    rw [← h.take_drop_eq, List.take_length, List.drop_zero]
  · rintro rfl
    exact ⟨by simp, (Nat.zero_add _).symm⟩

end Spans

/-! ## Readings -/

/-- A relation between texts and the tokens that they are read as. -/
abbrev Reading (σ τ : Type) := List σ → List τ → Prop

namespace Reading

/-- A text without tokens. -/
def silent (accepts : List σ → Prop) : Reading σ τ :=
  fun text tokens => accepts text ∧ tokens = []

/-- The text of a value, read as the tokens of the value. -/
def of {α : Type} (renders : α → List σ → Prop) (tokens : α → List τ) : Reading σ τ :=
  fun text read => ∃ value, renders value text ∧ read = tokens value

/-- A text of one reading before a text of another. -/
def andThen (first second : Reading σ τ) : Reading σ τ := fun text tokens =>
  ∃ text₁ text₂ tokens₁ tokens₂, first text₁ tokens₁ ∧ second text₂ tokens₂ ∧
    text = text₁ ++ text₂ ∧ tokens = tokens₁ ++ tokens₂

/-- Any number of texts of a reading, one after the other. -/
inductive Many (reading : Reading σ τ) : Reading σ τ where
  /-- No text. -/
  | nil : Many reading [] []
  /-- One text before the others. -/
  | cons {text more : List σ} {tokens others : List τ} (hfirst : reading text tokens)
      (hrest : Many reading more others) : Many reading (text ++ more) (tokens ++ others)

theorem silent_andThen {accepts accepts' : List σ → Prop} :
    (silent accepts : Reading σ τ).andThen (silent accepts') = silent fun text =>
      ∃ text₁ text₂, accepts text₁ ∧ accepts' text₂ ∧ text = text₁ ++ text₂ := by
  funext text tokens
  refine propext ⟨?_, ?_⟩
  · rintro ⟨text₁, text₂, _, _, ⟨h₁, rfl⟩, ⟨h₂, rfl⟩, htext, rfl⟩
    exact ⟨⟨text₁, text₂, h₁, h₂, htext⟩, rfl⟩
  · rintro ⟨⟨text₁, text₂, h₁, h₂, htext⟩, rfl⟩
    exact ⟨text₁, text₂, [], [], ⟨h₁, rfl⟩, ⟨h₂, rfl⟩, htext, rfl⟩

/-- Texts of values one after the other are read as the tokens of all values. -/
theorem many_of_iff {α : Type} {renders : α → List σ → Prop} {token : α → τ}
    {text : List σ} {tokens : List τ} :
    (of renders fun value => [token value]).Many text tokens ↔
      of (fun values text => ∃ texts, List.Forall₂ renders values texts ∧ text = texts.flatten)
        (List.map token) text tokens := by
  constructor
  · intro h
    induction h with
    | nil => exact ⟨[], ⟨[], .nil, rfl⟩, rfl⟩
    | cons hfirst _ ih =>
        obtain ⟨value, hvalue, rfl⟩ := hfirst
        obtain ⟨values, ⟨texts, hvalues, rfl⟩, rfl⟩ := ih
        exact ⟨value :: values, ⟨_ :: texts, .cons hvalue hvalues, rfl⟩, rfl⟩
  · rintro ⟨values, ⟨texts, hvalues, rfl⟩, rfl⟩
    induction hvalues with
    | nil => exact .nil
    | cons hvalue _ ih => exact .cons ⟨_, hvalue, rfl⟩ ih

end Reading

/-! ## Nodes -/

variable [DecidableEq σ]

/-- A node matches the texts of a reading, with the tokens of it, and all of those that
stand before a position where `Ends` holds. -/
structure Grammar.Reads (g : Grammar σ τ) (w : List σ) (id : NodeId) (Ends : Nat → Prop)
    (reading : Reading σ τ) : Prop where
  /-- Trees are read. -/
  exists_text : ∀ {i j : Nat} (tree : Derivation g w id i j),
    ∃ text, Spans w i j text ∧ reading text tree.yield
  /-- What is read has a tree. -/
  exists_tree : ∀ {i j : Nat} {text : List σ} {tokens : List τ}, Spans w i j text →
    reading text tokens → Ends j → ∃ tree : Derivation g w id i j, tree.yield = tokens

/-- Nodes one after the other match the texts of a reading. -/
structure Grammar.ReadsAll (g : Grammar σ τ) (w : List σ) (ids : List NodeId)
    (Ends : Nat → Prop) (reading : Reading σ τ) : Prop where
  /-- Trees are read. -/
  exists_text : ∀ {i j : Nat} (trees : Derivations g w ids i j),
    ∃ text, Spans w i j text ∧ reading text trees.yield
  /-- What is read has trees. -/
  exists_trees : ∀ {i j : Nat} {text : List σ} {tokens : List τ}, Spans w i j text →
    reading text tokens → Ends j → ∃ trees : Derivations g w ids i j, trees.yield = tokens

namespace Grammar

variable {g : Grammar σ τ} {w : List σ} {id body : NodeId} {ids : List NodeId}
  {Ends Ends' : Nat → Prop} {reading reading' : Reading σ τ}

/-! ### Sequences -/

namespace ReadsAll

theorem cons (h : g.Reads w id Ends' reading) (hids : g.ReadsAll w ids Ends reading')
    (hbefore : ∀ ⦃k j text tokens⦄, Spans w k j text → reading' text tokens → Ends j → Ends' k) :
    g.ReadsAll w (id :: ids) Ends (reading.andThen reading') where
  exists_text trees := by
    cases trees with
    | cons tree trees =>
        obtain ⟨text, hspan, hread⟩ := h.exists_text tree
        obtain ⟨more, hspan', hread'⟩ := hids.exists_text trees
        exact ⟨text ++ more, hspan.trans hspan', text, more, _, _, hread, hread', rfl, rfl⟩
  exists_trees := by
    rintro i j _ _ hspan ⟨text, more, tokens, others, hread, hread', rfl, rfl⟩ hj
    obtain ⟨k, hspan, hspan'⟩ := hspan.exists_between
    obtain ⟨tree, rfl⟩ := h.exists_tree hspan hread (hbefore hspan' hread' hj)
    obtain ⟨trees, rfl⟩ := hids.exists_trees hspan' hread' hj
    exact ⟨.cons tree trees, rfl⟩

theorem single (h : g.Reads w id Ends reading) : g.ReadsAll w [id] Ends reading where
  exists_text trees := by
    cases trees with
    | cons tree trees =>
        cases trees
        obtain ⟨text, hspan, hread⟩ := h.exists_text tree
        exact ⟨text, hspan, by simpa [Derivations.yield] using hread⟩
  exists_trees := by
    intro i j text tokens hspan hread hj
    obtain ⟨tree, rfl⟩ := h.exists_tree hspan hread hj
    exact ⟨.cons tree .nil, List.append_nil _⟩

end ReadsAll

namespace Reads

theorem congr (h : g.Reads w id Ends reading)
    (hiff : ∀ text tokens, reading text tokens ↔ reading' text tokens) :
    g.Reads w id Ends reading' where
  exists_text tree := by
    obtain ⟨text, hspan, hread⟩ := h.exists_text tree
    exact ⟨text, hspan, (hiff _ _).mp hread⟩
  exists_tree hspan hread hj := h.exists_tree hspan ((hiff _ _).mpr hread) hj

theorem mono (h : g.Reads w id Ends reading) (hends : ∀ j, Ends' j → Ends j) :
    g.Reads w id Ends' reading where
  exists_text := h.exists_text
  exists_tree hspan hread hj := h.exists_tree hspan hread (hends _ hj)

theorem seq {parts : List NodeId} (hn : g.nodes[id]? = some (.seq parts))
    (h : g.ReadsAll w parts Ends reading) : g.Reads w id Ends reading where
  exists_text tree := by
    obtain ⟨form, rfl⟩ := tree.exists_form hn
    cases form with
    | seq trees => exact h.exists_text trees
  exists_tree hspan hread hj := by
    obtain ⟨trees, htrees⟩ := h.exists_trees hspan hread hj
    exact ⟨.of hn (.seq trees), htrees⟩

/-! ### Symbols -/

theorem oneOf {set : SymbolSet σ} (hn : g.nodes[id]? = some (.oneOf set)) :
    g.Reads w id Ends (.silent fun text => ∃ symbol, set.contains symbol = true ∧
      text = [symbol]) where
  exists_text tree := by
    obtain ⟨symbol, hw, hs, rfl, hyield⟩ := tree.of_oneOf hn
    exact ⟨[symbol], .singleton hw, ⟨symbol, hs, rfl⟩, hyield⟩
  exists_tree := by
    rintro i j _ _ hspan ⟨⟨symbol, hs, rfl⟩, rfl⟩ _
    cases hspan.end_eq
    exact ⟨.of hn (.oneOf hspan.getElem? hs), rfl⟩

theorem symbol {symbol : σ} (hn : g.nodes[id]? = some (.oneOf (.of [symbol]))) :
    g.Reads w id Ends (.silent (· = [symbol])) :=
  (oneOf hn).congr fun text tokens => by simp [Reading.silent]

theorem literal {run : List σ} (hn : g.nodes[id]? = some (.literal run)) :
    g.Reads w id Ends (.silent (· = run)) where
  exists_text tree := by
    obtain ⟨hw, rfl, hyield⟩ := tree.of_literal hn
    exact ⟨run, .of_isPrefix hw, rfl, hyield⟩
  exists_tree := by
    rintro i j _ _ hspan ⟨rfl, rfl⟩ _
    cases hspan.end_eq
    exact ⟨.of hn (.literal hspan.isPrefix), rfl⟩

theorem guard {set : SymbolSet σ} (hn : g.nodes[id]? = some (.guard set)) :
    g.Reads w id (fun j => set.admits w[j]? = true) (.silent (· = [])) where
  exists_text tree := by
    obtain ⟨-, rfl, hyield⟩ := tree.of_guard hn
    exact ⟨[], .nil, rfl, hyield⟩
  exists_tree := by
    rintro i j _ _ hspan ⟨rfl, rfl⟩ hj
    cases hspan.end_eq
    exact ⟨.of hn (.guard hj), rfl⟩

/-! ### Choices and loops -/

theorem alt_pair {first second : NodeId} (hn : g.nodes[id]? = some (.alt [first, second]))
    (h : g.Reads w first Ends reading) (h' : g.Reads w second Ends reading') :
    g.Reads w id Ends fun text tokens => reading text tokens ∨ reading' text tokens where
  exists_text tree := by
    obtain ⟨form, rfl⟩ := tree.exists_form hn
    cases form with
    | alt index hc tree =>
        rcases index with _ | _ | index
        · cases hc
          obtain ⟨text, hspan, hread⟩ := h.exists_text tree
          exact ⟨text, hspan, .inl hread⟩
        · cases hc
          obtain ⟨text, hspan, hread⟩ := h'.exists_text tree
          exact ⟨text, hspan, .inr hread⟩
        · cases hc
  exists_tree := by
    rintro i j text tokens hspan (hread | hread) hj
    · obtain ⟨tree, rfl⟩ := h.exists_tree hspan hread hj
      exact ⟨.of hn (.alt 0 rfl tree), rfl⟩
    · obtain ⟨tree, rfl⟩ := h'.exists_tree hspan hread hj
      exact ⟨.of hn (.alt 1 rfl tree), rfl⟩

theorem exists_text_of_rounds (h : g.Reads w body Ends reading) : ∀ {i j : Nat}
    (rounds : Rounds g w body i j), ∃ text, Spans w i j text ∧ reading.Many text rounds.yield
  | _, _, .done => ⟨[], .nil, .nil⟩
  | _, _, .round tree _ rounds => by
      obtain ⟨text, hspan, hread⟩ := h.exists_text tree
      obtain ⟨more, hspan', hread'⟩ := h.exists_text_of_rounds rounds
      exact ⟨text ++ more, hspan.trans hspan', .cons hread hread'⟩

/-- A loop reads what its body reads over and over, if a round allows what the next one can
begin with. -/
theorem star (hn : g.nodes[id]? = some (.star body)) (h : g.Reads w body Ends' reading)
    (hne : ∀ ⦃text tokens⦄, reading text tokens → text ≠ [])
    (hlast : ∀ ⦃k⦄, Ends k → Ends' k)
    (hnext : ∀ ⦃k j text tokens⦄, Spans w k j text → reading text tokens → Ends' k) :
    g.Reads w id Ends reading.Many where
  exists_text tree := by
    obtain ⟨form, rfl⟩ := tree.exists_form hn
    cases form with
    | star rounds => exact h.exists_text_of_rounds rounds
  exists_tree {i j text tokens} hspan hread hj := by
    suffices hrounds : ∃ rounds : Rounds g w body i j, rounds.yield = tokens by
      obtain ⟨rounds, hyield⟩ := hrounds
      exact ⟨.of hn (.star rounds), hyield⟩
    induction hread generalizing i with
    | nil =>
        cases hspan.end_eq
        exact ⟨.done, rfl⟩
    | @cons text more tokens others hfirst hrest ih =>
        obtain ⟨k, hspan, hspan'⟩ := hspan.exists_between
        -- A further round begins where this one ends, unless it is the last.
        have hk : Ends' k := by
          cases hrest with
          | nil =>
              cases hspan'.end_eq
              exact hlast hj
          | cons hsecond _ => exact hnext hspan'.exists_between.choose_spec.1 hsecond
        have hlt : i < k := by
          have hpos := List.length_pos_of_ne_nil (hne hfirst)
          have hend := hspan.end_eq
          omega
        obtain ⟨tree, rfl⟩ := h.exists_tree hspan hfirst hk
        obtain ⟨rounds, rfl⟩ := ih hspan'
        exact ⟨.round tree hlt rounds, rfl⟩

/-! ### Rules and tokens -/

theorem rule {index : RuleId} (hn : g.nodes[id]? = some (.rule index))
    (hb : g.body? index = some body) (h : g.Reads w body Ends reading) :
    g.Reads w id Ends reading where
  exists_text tree := by
    obtain ⟨form, rfl⟩ := tree.exists_form hn
    cases form with
    | rule hb' tree =>
        cases Option.some.inj (hb.symm.trans hb')
        exact h.exists_text tree
  exists_tree hspan hread hj := by
    obtain ⟨tree, htree⟩ := h.exists_tree hspan hread hj
    exact ⟨.of hn (.rule hb tree), htree⟩

theorem emit {yields : Yield σ τ} (hn : g.nodes[id]? = some (.emit body yields))
    (h : g.Reads w body Ends reading) :
    g.Reads w id Ends fun text tokens =>
      ∃ inner, reading text inner ∧ tokens = inner ++ [yields.token text] where
  exists_text tree := by
    obtain ⟨form, rfl⟩ := tree.exists_form hn
    cases form with
    | emit tree =>
        obtain ⟨text, hspan, hread⟩ := h.exists_text tree
        refine ⟨text, hspan, _, hread, ?_⟩
        rw [← hspan.take_drop_eq]
        rfl
  exists_tree := by
    rintro i j text _ hspan ⟨inner, hread, rfl⟩ hj
    obtain ⟨tree, rfl⟩ := h.exists_tree hspan hread hj
    refine ⟨.of hn (.emit tree), ?_⟩
    rw [← hspan.take_drop_eq]
    rfl

theorem fold {merge : List τ → τ} (hn : g.nodes[id]? = some (.fold body merge))
    (h : g.Reads w body Ends reading) :
    g.Reads w id Ends fun text tokens => ∃ inner, reading text inner ∧ tokens = [merge inner] where
  exists_text tree := by
    obtain ⟨form, rfl⟩ := tree.exists_form hn
    cases form with
    | fold tree =>
        obtain ⟨text, hspan, hread⟩ := h.exists_text tree
        exact ⟨text, hspan, _, hread, rfl⟩
  exists_tree := by
    rintro i j text _ hspan ⟨inner, hread, rfl⟩ hj
    obtain ⟨tree, rfl⟩ := h.exists_tree hspan hread hj
    exact ⟨.of hn (.fold tree), rfl⟩

end Reads

end Grammar

end Ramify
