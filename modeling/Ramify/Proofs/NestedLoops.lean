import Ramify.Proofs.Rewriting

/-!
# Loops of loops

A loop over a loop over a set of symbols matches a text of `n` symbols in as many ways as the
text can be cut into parts that are not empty: `2 ^ (n - 1)`.

After a symbol a branch goes on with the inner loop, or leaves it and begins a round of the
outer loop and one of the inner loop, or leaves both (`Inside.splits`).  All other ways end in
a round that consumed nothing.  So with every symbol after the first there are twice as many
branches, and at the end of the input each of them is complete in one way.
-/

namespace Ramify

variable {σ τ : Type}

/-! ## Branches in two loops -/

/-- A grammar is a loop over a loop over a set of symbols. -/
structure Grammar.NestedLoops (g : Grammar σ τ) (set : SymbolSet σ) (letter inner outer : NodeId) :
    Prop where
  /-- A builder hands it out. -/
  built : g.IsBuilt
  /-- A parse starts with the outer loop. -/
  start_eq : g.start = outer
  /-- The body of the inner loop. -/
  letter_eq : g.nodes[letter]? = some (.oneOf set)
  /-- The inner loop. -/
  inner_eq : g.nodes[inner]? = some (.star letter)
  /-- The outer loop. -/
  outer_eq : g.nodes[outer]? = some (.star inner)

/-- A loop over a loop over a set of symbols is such a grammar. -/
theorem Grammar.exists_nestedLoops {g : Grammar σ τ} {set : SymbolSet σ} (hg : g.IsBuilt)
    (h : Arena.Stands g.nodes g.start (.star (.star (.oneOf set)))) :
    ∃ letter inner, g.NestedLoops set letter inner g.start := by
  cases h with
  | star houter h =>
    cases h with
    | star hinner h =>
      cases h with
      | oneOf hletter => exact ⟨_, _, hg, rfl, hletter, hinner, houter⟩

/-- Where a branch stands that has matched a symbol: in a round of the inner loop that lies in
a round of the outer loop, both begun before the symbol. -/
structure Branch.Inside (inner outer : NodeId) (position : Nat) (b : Branch σ τ) : Prop where
  /-- It enters no node. -/
  target_eq : b.target = none
  /-- The rounds of both loops. -/
  frames_eq : ∃ own around : Frame, b.frames = [own, around] ∧ own.node = inner ∧
    around.node = outer ∧ own.progress < position ∧ around.progress < position
  /-- It has no tokens. -/
  tokens_eq : b.tokens = []

/-- Between two symbols a branch comes to rest as `n` branches that wait in the inner loop and
one that has left both loops. -/
def Branch.Splits [DecidableEq σ] (g : Grammar σ τ) (letter inner outer : NodeId) (position n : Nat)
    (b : Branch σ τ) : Prop :=
  ∀ next, ∃ (out : Branch σ τ) (waiting : List (Branch σ τ)), out.isDone = true ∧
    out.tokens = [] ∧ waiting.length = n ∧
    (∀ x ∈ waiting, x.Inside inner outer (position + 1)) ∧
    (Cursor.rests ⟨g, position, next⟩ b).Perm
      (waiting.map (fun x => x.push letter 0 position) ++ [out])

theorem Branch.Inside.hear {inner outer : NodeId} {position : Nat} {b : Branch σ τ}
    (h : b.Inside inner outer position) (symbol : σ) :
    (b.hear symbol).Inside inner outer position where
  target_eq := (Branch.hear_target b symbol).trans h.target_eq
  frames_eq := by
    rw [Branch.hear_frames]
    exact h.frames_eq
  tokens_eq := by
    rw [Branch.hear]
    split
    · exact h.tokens_eq
    · exact h.tokens_eq

section Moves

variable [DecidableEq σ] {g : Grammar σ τ} {set : SymbolSet σ} {letter inner outer : NodeId}
  {position : Nat} {b : Branch σ τ}

namespace Branch

/-- A branch that has left both loops is at rest. -/
theorem rests_out (here : Cursor σ τ) (b : Branch σ τ) (ht : b.target = none)
    (hf : b.frames = []) : here.rests b = [b] ∧ b.isDone = true := by
  exact ⟨Cursor.rests_of_rest (by simp [Cursor.move, ht, hf]), Branch.isDone_iff.mpr ⟨hf, ht⟩⟩

/-- A branch that begins a round of the inner loop waits for the symbol of the round. -/
theorem rests_letter (hg : g.NestedLoops set letter inner outer) (next : Option σ)
    (hfit : b.Fits g position) (ht : b.target = some letter) :
    Cursor.rests ⟨g, position, next⟩ b = [b.arrived.push letter 0 position] :=
  Cursor.rests_oneOf hg.built hfit ht hg.letter_eq

/-- A branch that begins a round of the outer loop waits for a symbol in a round of the inner
one; without a round of the inner loop its own round would be empty. -/
theorem rests_inner (hg : g.NestedLoops set letter inner outer) (next : Option σ)
    (hfit : b.Fits g position) (ht : b.target = some inner) {around : Frame}
    (hf : b.frames = [around]) (hnode : around.node = outer)
    (hprogress : around.progress = position) (htokens : b.tokens = []) :
    ∃ x : Branch σ τ, x.Inside inner outer (position + 1) ∧
      Cursor.rests ⟨g, position, next⟩ b = [x.push letter 0 position] := by
  obtain ⟨hown, hout, hrests⟩ :=
    Cursor.rests_star ⟨g, position, next⟩ hg.built hfit ht hg.inner_eq
  have hempty : Cursor.rests ⟨g, position, next⟩ (b.arrived.via inner 0 position) = [] :=
    Cursor.rests_empty_round _ hg.built hout rfl hf (hnode ▸ hg.outer_eq) hprogress
  have hround := rests_letter hg next hown rfl
  dsimp only at hrests hround
  rw [hround, hempty, List.append_nil] at hrests
  refine ⟨(((b.arrived.via inner 1 position).push inner position position).aim letter).arrived,
    ⟨rfl, ?_, htokens⟩, List.perm_singleton.mp hrests⟩
  refine ⟨⟨inner, position, position, b.tokens.length⟩, around, congrArg _ hf, rfl, hnode, ?_, ?_⟩
  · exact Nat.lt_succ_self _
  · exact hprogress ▸ Nat.lt_succ_self _

/-- The branch of a parse that has not begun waits in the inner loop, or matches nothing. -/
theorem splits_start (hg : g.NestedLoops set letter inner outer) :
    (Branch.start outer : Branch σ τ).Splits g letter inner outer 0 1 := by
  intro next
  obtain ⟨hown, hout, hrests⟩ := Cursor.rests_star ⟨g, 0, next⟩ hg.built
    (Branch.start_fits g outer) rfl hg.outer_eq
  obtain ⟨x, hx, hround⟩ := rests_inner hg next hown rfl rfl rfl rfl rfl
  obtain ⟨hleave, hdone⟩ := rests_out (⟨g, 0, next⟩ : Cursor σ τ)
    ((Branch.start outer).arrived.via outer 0 0) rfl rfl
  dsimp only at hrests hround
  rw [hround, hleave] at hrests
  exact ⟨_, [x], hdone, rfl, rfl, by simpa using hx, hrests⟩

/-- A branch that has left the inner loop begins another round of the outer loop, or leaves it
too. -/
theorem rests_outer (hg : g.NestedLoops set letter inner outer) (next : Option σ)
    (hfit : b.Fits g position) (ht : b.target = none) {around : Frame}
    (hf : b.frames = [around]) (hnode : around.node = outer)
    (hprogress : around.progress < position) (htokens : b.tokens = []) :
    ∃ x out : Branch σ τ, x.Inside inner outer (position + 1) ∧ out.isDone = true ∧
      out.tokens = [] ∧
      (Cursor.rests ⟨g, position, next⟩ b).Perm [x.push letter 0 position, out] := by
  obtain ⟨hfitagain, -, hrests⟩ := Cursor.rests_round ⟨g, position, next⟩ hg.built hfit ht hf
    (hnode ▸ hg.outer_eq) (Nat.ne_of_lt hprogress)
  have hagain : (((b.reach position).via around.node 1 position).aim inner).frames =
      [{ around with progress := position }] :=
    Branch.reach_frames hf position
  obtain ⟨x, hx, hround⟩ := rests_inner hg next hfitagain rfl hagain hnode rfl htokens
  obtain ⟨hout, hdone⟩ := rests_out ⟨g, position, next⟩ (b.pop.via around.node 0 position) ht
    (congrArg List.tail hf)
  dsimp only at hrests hround
  rw [hround, hout] at hrests
  exact ⟨x, _, hx, hdone, htokens, hrests⟩

/-- A branch that has matched a symbol goes on with the inner loop, or begins another round of
the outer loop, or leaves both. -/
theorem Inside.splits (hg : g.NestedLoops set letter inner outer) (hfit : b.Fits g position)
    (h : b.Inside inner outer position) : b.Splits g letter inner outer position 2 := by
  intro next
  obtain ⟨own, around, hf, hinner, houter, hown, haround⟩ := h.frames_eq
  -- the inner loop goes on or is left
  obtain ⟨hfitgo, hfitleave, hrests⟩ := Cursor.rests_round ⟨g, position, next⟩ hg.built hfit
    h.target_eq hf (hinner ▸ hg.inner_eq) (Nat.ne_of_lt hown)
  have hgo := rests_letter hg next hfitgo rfl
  have hx : (((b.reach position).via own.node 1 position).aim letter).arrived.Inside inner outer
      (position + 1) := by
    refine ⟨rfl, ⟨{ own with progress := position }, around, ?_, hinner, houter, ?_, ?_⟩,
      h.tokens_eq⟩
    · exact Branch.reach_frames hf position
    · exact Nat.lt_succ_self _
    · exact Nat.lt_succ_of_lt haround
  obtain ⟨y, out, hy, hdone, htokens, hleave⟩ := rests_outer hg next hfitleave h.target_eq
    (congrArg List.tail hf) houter haround h.tokens_eq
  dsimp only at hrests hgo
  rw [hgo] at hrests
  refine ⟨out, [_, y], hdone, htokens, rfl, ?_, hrests.trans (hleave.append_left _)⟩
  simpa using ⟨hx, hy⟩

/-- The branches that wait take a symbol of the set, and the one that has left does not. -/
theorem Splits.taken (hg : g.NestedLoops set letter inner outer) {n : Nat}
    (h : b.Splits g letter inner outer position n) {symbol : σ} (hset : set.contains symbol = true)
    (next : Option σ) :
    ((Cursor.rests ⟨g, position, next⟩ b).filterMap (g.consume symbol)).length = n ∧
      ∀ x ∈ (Cursor.rests ⟨g, position, next⟩ b).filterMap (g.consume symbol),
        x.Inside inner outer (position + 1) := by
  obtain ⟨out, waiting, hdone, -, hlength, hinside, hrests⟩ := h next
  have hout : g.consume symbol out = none := by
    obtain ⟨hframes, -⟩ := Branch.isDone_iff.mp hdone
    simp [Grammar.consume, hframes]
  have htaken := hrests.filterMap (g.consume symbol)
  have hheard : (waiting.map fun x => x.push letter 0 position).filterMap (g.consume symbol) =
      waiting.map fun x => x.hear symbol := by
    rw [List.filterMap_map, ← List.filterMap_eq_map]
    refine List.filterMap_congr fun x _ => ?_
    exact (Grammar.consume_oneOf hg.letter_eq position symbol).trans (if_pos hset)
  rw [List.filterMap_append, hheard, List.filterMap_cons, hout, List.filterMap_nil,
    List.append_nil] at htaken
  refine ⟨htaken.length_eq.trans ((List.length_map _).trans hlength), fun x hx => ?_⟩
  obtain ⟨y, hy, rfl⟩ := List.mem_map.mp (htaken.mem_iff.mp hx)
  exact (hinside y hy).hear symbol

/-- The branch that has left has matched everything, and those that wait have not. -/
theorem Splits.finished {n : Nat} (h : b.Splits g letter inner outer position n)
    (next : Option σ) :
    ((Cursor.rests ⟨g, position, next⟩ b).filter Branch.isDone).map Branch.tokens = [[]] := by
  obtain ⟨out, waiting, hdone, htokens, -, -, hrests⟩ := h next
  have hwaiting : (waiting.map fun x => x.push letter 0 position).filter Branch.isDone = [] := by
    simp [List.filter_eq_nil_iff, Branch.isDone, Branch.push]
  have hfinished := (hrests.filter Branch.isDone).map Branch.tokens
  rw [List.filter_append, hwaiting, List.nil_append, List.filter_singleton, hdone] at hfinished
  simpa [htokens] using hfinished

end Branch

end Moves

/-! ## Parses -/

namespace Forest

variable [DecidableEq σ] {g : Grammar σ τ} {set : SymbolSet σ} {letter inner outer : NodeId}
  {f : Forest σ τ}

/-- A parse without limits in which every branch waits for the next symbol in `n` ways. -/
structure Splitting (g : Grammar σ τ) (letter inner outer : NodeId) (n : Nat) (f : Forest σ τ) :
    Prop extends f.Free where
  /-- The grammar is that of the loops. -/
  grammar_eq : f.grammar = g
  /-- Every branch splits. -/
  splits : ∀ b ∈ f.branches, b.Splits g letter inner outer f.consumed n

namespace Splitting

theorem new (hg : g.NestedLoops set letter inner outer) :
    (Forest.new g .unlimited).Splitting g letter inner outer 1 where
  toFree := .new hg.built
  grammar_eq := rfl
  splits b hb := by
    rw [List.mem_singleton.mp hb, hg.start_eq]
    exact Branch.splits_start hg

variable {n : Nat}

theorem rested_eq (h : f.Splitting g letter inner outer n) (next : Option σ) :
    (f.unfold next).rested = f.branches.flatMap (Cursor.rests ⟨g, f.consumed, next⟩) := by
  rw [h.toFree.rested_eq, Forest.cursor, h.grammar_eq]

/-- A symbol of the set multiplies the branches, and splits them in two from then on. -/
theorem advanced (hg : g.NestedLoops set letter inner outer)
    (h : f.Splitting g letter inner outer n) {symbol : σ} (hset : set.contains symbol = true) :
    (f.advanced symbol).Splitting g letter inner outer 2 ∧
      (f.advanced symbol).size = f.size * n := by
  have hfree := h.toFree.advanced symbol
  have hbranches : (f.advanced symbol).branches = f.branches.flatMap fun b =>
      (Cursor.rests ⟨g, f.consumed, some symbol⟩ b).filterMap (g.consume symbol) := by
    rw [h.toFree.advanced_branches, h.rested_eq, h.grammar_eq, List.filterMap_flatMap]
  have hgrammar : (f.advanced symbol).grammar = g := h.grammar_eq
  refine ⟨⟨hfree, hgrammar, fun x hx => ?_⟩, ?_⟩
  · have hfit := hfree.fits x hx
    rw [hgrammar] at hfit
    rw [hbranches] at hx
    obtain ⟨b, hb, hxb⟩ := List.mem_flatMap.mp hx
    exact (((h.splits b hb).taken hg hset _).2 x hxb).splits hg hfit
  · rw [Forest.size, hbranches, List.length_flatMap,
      List.map_congr_left fun b hb => ((h.splits b hb).taken hg hset _).1]
    simp [Forest.size]

/-- Closing the parse gives no tokens if there is one branch, and counts the branches if there
are several. -/
theorem close (h : f.Splitting g letter inner outer n) :
    f.close.result = verdict f.consumed (List.replicate f.size []) := by
  have hfinals : f.finals.map Branch.tokens = List.replicate f.size [] := by
    rw [h.toFree.finals_eq, h.rested_eq, List.filter_flatMap, List.map_flatMap,
      List.flatMap_congr fun b hb => (h.splits b hb).finished none]
    simp [Forest.size, ← List.map_eq_flatMap]
  rw [close_of_room h.running (h.toFree.overrun_eq_none none), hfinals]

/-- Once every branch splits in two, every symbol of the set doubles the branches. -/
theorem takeAll (hg : g.NestedLoops set letter inner outer) {w : List σ}
    (hw : ∀ symbol ∈ w, set.contains symbol = true) (h : f.Splitting g letter inner outer 2)
    (hroom : f.consumed + w.length ≤ maxCount) :
    (f.takeAll w).result = .ok () ∧ (f.takeAll w).forest.consumed = f.consumed + w.length ∧
      (f.takeAll w).forest.size = f.size * 2 ^ w.length ∧
      (f.takeAll w).forest.Splitting g letter inner outer 2 := by
  induction w generalizing f with
  | nil => exact ⟨rfl, rfl, (Nat.mul_one _).symm, h⟩
  | cons symbol w ih =>
    have hlater : ∀ other ∈ w, set.contains other = true := fun other hother =>
      hw other (.tail _ hother)
    rw [List.length_cons] at hroom ⊢
    obtain ⟨hok, hforest⟩ := h.toFree.take (by omega) symbol
    obtain ⟨hsplitting, hsize⟩ := h.advanced hg (hw symbol (.head _))
    have hconsumed : (f.advanced symbol).consumed = f.consumed + 1 := rfl
    obtain ⟨hresult, hcount, hfinal, hend⟩ := ih hlater hsplitting (by omega)
    rw [(takeAll_cons hok).1, (takeAll_cons hok).2, hforest]
    refine ⟨hresult, by omega, ?_, hend⟩
    rw [hfinal, hsize, Nat.pow_succ', Nat.mul_assoc]

/-- A parse of symbols of the set holds as many branches as there are ways to cut them into
parts that are not empty. -/
theorem takeAll_new (hg : g.NestedLoops set letter inner outer) {w : List σ}
    (hw : ∀ symbol ∈ w, set.contains symbol = true) (hroom : w.length ≤ maxCount) :
    ((Forest.new g .unlimited).takeAll w).result = .ok () ∧
      ((Forest.new g .unlimited).takeAll w).forest.consumed = w.length ∧
      ((Forest.new g .unlimited).takeAll w).forest.size = 2 ^ (w.length - 1) ∧
      ∃ n, ((Forest.new g .unlimited).takeAll w).forest.Splitting g letter inner outer n := by
  cases w with
  | nil => exact ⟨rfl, rfl, rfl, 1, .new hg⟩
  | cons symbol w =>
    have hlater : ∀ other ∈ w, set.contains other = true := fun other hother =>
      hw other (.tail _ hother)
    rw [List.length_cons] at hroom ⊢
    have hnew := Splitting.new hg
    have hbegin : (Forest.new g .unlimited).consumed = 0 := rfl
    obtain ⟨hok, hforest⟩ := hnew.toFree.take (by omega) symbol
    obtain ⟨hsplitting, hsize⟩ := hnew.advanced hg (hw symbol (.head _))
    have hconsumed : ((Forest.new g .unlimited).advanced symbol).consumed = 1 := rfl
    obtain ⟨hresult, hcount, hfinal, hend⟩ := hsplitting.takeAll hg hlater (by omega)
    rw [(takeAll_cons hok).1, (takeAll_cons hok).2, hforest]
    refine ⟨hresult, by omega, ?_, 2, hend⟩
    rw [hfinal, hsize]
    exact Nat.one_mul _

end Splitting

/-- A loop over a loop over a set counts every way to cut the input into parts that are not
empty.  Without limits, symbols of the set are all taken, and after `k` of them there are
`2 ^ (k - 1)` branches.  Closing the parse of none or one accepts the input without tokens, and
that of `n` symbols from two on tells of `2 ^ (n - 1)` derivations. -/
theorem nested_loops_count_splits (set : SymbolSet σ) :
    ∃ g : Grammar σ τ, Builder.new.build (.star (.star (.oneOf set))) = .ok g ∧
      ∀ w : List σ, (∀ symbol ∈ w, set.contains symbol = true) → 2 ^ (w.length - 1) ≤ maxCount →
        let fed := (Forest.new g .unlimited).takeAll w
        fed.result = .ok () ∧
        (w.length < 2 → fed.forest.close.result = .ok []) ∧
        (2 ≤ w.length → fed.forest.close.result =
          .error (.ambiguous (2 ^ (w.length - 1)) w.length)) ∧
        ∀ k, 1 ≤ k → k ≤ w.length →
          ((Forest.new g .unlimited).takeAll (w.take k)).forest.size = 2 ^ (k - 1) := by
  have hwell : (Builder.new : Builder σ τ).WellFormed (.star (.star (.oneOf set))) :=
    Builder.wellFormed_new fun index hmentions => hmentions
  have hbuild := Builder.build_eq_ok_iff.mpr ⟨hwell, rfl⟩
  refine ⟨_, hbuild, fun w hw hcount => ?_⟩
  obtain ⟨letter, inner, hg⟩ := Grammar.exists_nestedLoops ⟨_, _, .new, hbuild⟩
    (Arena.stands_place (.star (.star (.oneOf set))))
  have hlength : w.length ≤ maxCount := by
    have := Nat.lt_two_pow_self (n := w.length - 1)
    omega
  obtain ⟨hok, hconsumed, hsize, n, hsplitting⟩ := Splitting.takeAll_new hg hw hlength
  refine ⟨hok, fun hfew => ?_, fun hmany => ?_, fun k hk hkw => ?_⟩
  · have hone : 2 ^ (w.length - 1) = 1 := by
      rw [Nat.sub_eq_zero_of_le (by omega), Nat.pow_zero]
    rw [hsplitting.close, hsize, hone]
    rfl
  · have hseveral : 2 ^ 1 ≤ 2 ^ (w.length - 1) := Nat.pow_le_pow_right (by omega) (by omega)
    rw [hsplitting.close, hsize]
    exact verdict_eq_ambiguous_iff.mpr ⟨hseveral, List.length_replicate, hconsumed.symm⟩
  · have htaken : (w.take k).length = k := List.length_take_of_le hkw
    have hpart : ∀ symbol ∈ w.take k, set.contains symbol = true := fun symbol hsymbol =>
      hw symbol (List.mem_of_mem_take hsymbol)
    obtain ⟨-, -, hsize, -⟩ := Splitting.takeAll_new hg hpart (by omega)
    rw [hsize, htaken]

/-- Four symbols have eight ways to be cut, and one has one. -/
theorem nested_loops_count_splits_letters :
    ∃ g : Grammar Char Nat, Builder.new.build (.star (.star (.oneOf (.of ['a'])))) = .ok g ∧
      ((Forest.new g .unlimited).takeAll ['a', 'a', 'a', 'a']).forest.close.result =
        .error (.ambiguous 8 4) ∧
      ((Forest.new g .unlimited).takeAll ['a']).forest.close.result = .ok [] := by
  obtain ⟨g, hbuild, hcounts⟩ := nested_loops_count_splits (.of ['a'])
  obtain ⟨-, -, hmany, -⟩ := hcounts ['a', 'a', 'a', 'a'] (by simp)
    (by simp [maxCount])
  obtain ⟨-, hfew, -, -⟩ := hcounts ['a'] (by simp) (by simp [maxCount])
  exact ⟨g, hbuild, hmany (by decide), hfew (by decide)⟩

end Forest

end Ramify
