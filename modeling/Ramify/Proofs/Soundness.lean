import Ramify.Proofs.Run

/-!
# Every run follows a derivation

A run that ends with nothing left to match has followed a derivation tree of every node
that it entered: it came back out of the node with the tokens and the choices of the
tree (`Grammar.follows`).

The induction is on the length of the run.  What a node does on its own is read off its
first step; its parts are entered later, with shorter runs ahead of them
(`Grammar.Follows`).  There is a lemma for each kind of node that has parts.
-/

namespace Ramify

variable {σ τ : Type}

variable [DecidableEq σ] {g : Grammar σ τ} {w : List σ} {n i j : Nat} {b e : Branch σ τ}

/-! ## First steps -/

/-- Only a node that consumes is given a symbol. -/
theorem Grammar.Takes.consumes {symbol : σ} {b' : Branch σ τ} {frame : Frame} {base : List Frame}
    {node : Node σ τ} (h : g.Takes symbol b b') (hf : b.frames = frame :: base)
    (hn : g.nodes[frame.node]? = some node) : node.consumes = true := by
  cases h with
  | member hf' hn' =>
      cases hf.symm.trans hf'
      cases hn.symm.trans hn'
      rfl
  | run hf' hn' =>
      cases hf.symm.trans hf'
      cases hn.symm.trans hn'
      rfl
  | any hf' hn' hc =>
      cases hf.symm.trans hf'
      cases hn.symm.trans hn'
      exact hc

namespace Grammar.Runs

theorem exists_move_of_target {id : NodeId} (h : g.Runs w n i b j e) (hdone : e.isDone = true)
    (ht : b.target = some id) :
    ∃ m b', n = m + 1 ∧ (g.cursorAt w i).Moves b b' ∧ g.Runs w m i b' j e := by
  cases h with
  | refl =>
      rw [(Branch.isDone_iff.mp hdone).2] at ht
      cases ht
  | move hmove hrest => exact ⟨_, _, rfl, hmove, hrest⟩
  | take hnone =>
      rw [hnone] at ht
      cases ht

/-- A branch that is back in a construct returns into it. -/
theorem exists_move_of_frame {frame : Frame} {base : List Frame} {node : Node σ τ}
    (h : g.Runs w n i b j e) (hdone : e.isDone = true) (ht : b.target = none)
    (hf : b.frames = frame :: base) (hn : g.nodes[frame.node]? = some node)
    (hc : node.consumes = false) :
    ∃ m b', n = m + 1 ∧ b' ∈ ((g.cursorAt w i).resume b frame).branches ∧ g.Runs w m i b' j e := by
  cases h with
  | refl =>
      rw [(Branch.isDone_iff.mp hdone).1] at hf
      cases hf
  | move hmove hrest =>
      obtain ⟨turn, hturn, hmem⟩ := hmove.exists_turn
      have hresume : (g.cursorAt w i).move b = some ((g.cursorAt w i).resume b frame) :=
        Cursor.move_of_frame ht hf hn hc
      cases hturn.symm.trans hresume
      exact ⟨_, _, rfl, hmem, hrest⟩
  | take _ hw htake hrest =>
      rw [htake.consumes hf hn] at hc
      cases hc

/-- A branch that waits for a symbol takes it. -/
theorem exists_take_of_frame {frame : Frame} {base : List Frame} {node : Node σ τ}
    (h : g.Runs w n i b j e) (hdone : e.isDone = true) (ht : b.target = none)
    (hf : b.frames = frame :: base) (hn : g.nodes[frame.node]? = some node)
    (hc : node.consumes = true) :
    ∃ m symbol b', n = m + 1 ∧ w[i]? = some symbol ∧ g.Takes symbol b b' ∧
      g.Runs w m (i + 1) b' j e := by
  cases h with
  | refl =>
      rw [(Branch.isDone_iff.mp hdone).1] at hf
      cases hf
  | move hmove hrest =>
      obtain ⟨turn, hturn, -⟩ := hmove.exists_turn
      have hrests : (g.cursorAt w i).move b = none := by
        simp [Cursor.move, ht, hf, Cursor.waitsAt, Grammar.cursorAt, hn, hc]
      rw [hrests] at hturn
      cases hturn
  | take _ hw htake hrest => exact ⟨_, _, _, rfl, hw, htake, hrest⟩

end Grammar.Runs

/-! ## Nodes without parts -/

/-- A node that passes has a tree of no symbols, tokens or choices. -/
theorem Cursor.exists_match_of_passes {node : Node σ τ} (id : NodeId)
    (h : (g.cursorAt w i).passes node = true) :
    ∃ form : Match g w node i i, form.yield = [] ∧ form.choices id = [] := by
  cases node with
  | empty => exact ⟨.empty, rfl, rfl⟩
  | guard set => exact ⟨.guard h, rfl, rfl⟩
  | observe observer =>
      obtain ⟨hc, hp⟩ := Bool.and_eq_true_iff.mp h
      exact ⟨.pass hp, rfl, by simp [Match.choices, Bool.not_eq_true' _ ▸ hc]⟩
  | oneOf | literal | seq | alt | star | times | rule | emit | fold => cases h

/-- A run of `n` steps goes on from position `k`, where a branch stands that left what
`b` was about to match. -/
def Grammar.Resumes (g : Grammar σ τ) (w : List σ) (n k : Nat) (b : Branch σ τ)
    (frames : List Frame) (tokens : List τ) (choices : List Choice) (j : Nat) (e : Branch σ τ) :
    Prop :=
  ∃ b', g.Runs w n k b' j e ∧ b'.Hears w k ∧ b.Leaves frames tokens choices b'

namespace Grammar.Resumes

variable {k : Nat} {b₁ : Branch σ τ} {frames : List Frame} {tokens tokens' : List τ}
  {choices choices' : List Choice}

/-- What a branch gained before is added to what it gains until a run goes on. -/
theorem after (h : g.Resumes w n k b₁ frames tokens' choices' j e)
    (h' : b.Gains tokens choices b₁) :
    g.Resumes w n k b frames (tokens ++ tokens') (choices ++ choices') j e := by
  obtain ⟨b', hruns, hhears, hleaves⟩ := h
  exact ⟨b', hruns, hhears, hleaves.after h'⟩

theorem after_still (h : g.Resumes w n k b₁ frames tokens choices j e) (h' : b.Gains [] [] b₁) :
    g.Resumes w n k b frames tokens choices j e :=
  h.after h'

end Grammar.Resumes

/-! ## Waiting for symbols -/

/-- A set or an observer that waits for a symbol takes one. -/
theorem Grammar.Runs.resumes_of_single {frame : Frame} {base : List Frame} {symbol : σ}
    (h : g.Runs w n (i + 1) (b.pop.hear symbol) j e) (hw : w[i]? = some symbol)
    (htake : g.Takes symbol b (b.pop.hear symbol)) (hb : b.Hears w i) (ht : b.target = none)
    (hf : b.frames = frame :: base) : g.Resumes w n (i + 1) b base [] [] j e :=
  ⟨_, h, htake.hears hw hb, .hear ht hf symbol⟩

/-- An observer that waits for a symbol takes the next one. -/
theorem Grammar.Runs.resumes_of_observe {frame : Frame} {base : List Frame} {observer : Observer}
    (h : g.Runs w n i b j e) (hn : g.nodes[frame.node]? = some (.observe observer))
    (hc : observer.consumes = true) (hdone : e.isDone = true) (ht : b.target = none)
    (hf : b.frames = frame :: base) (hb : b.Hears w i) :
    ∃ m, m ≤ n ∧ i < w.length ∧ g.Resumes w m (i + 1) b base [] [] j e := by
  obtain ⟨m, symbol, b', rfl, hw, htake, hrest⟩ := h.exists_take_of_frame hdone ht hf hn hc
  have hconsume := Grammar.consume_eq_some_iff.mpr htake
  simp only [Grammar.consume, hf, hn, hc, if_true] at hconsume
  cases hconsume
  exact ⟨m, Nat.le_succ m, (List.getElem?_eq_some_iff.mp hw).1,
    hrest.resumes_of_single hw htake hb ht hf⟩

/-- A branch that waits for the rest of a run of symbols takes them. -/
theorem Grammar.Runs.resumes_of_literal {run : List σ} {base : List Frame}
    (hdone : e.isDone = true) :
    ∀ {rest : List σ} {n i : Nat} {b : Branch σ τ} {frame : Frame},
      g.nodes[frame.node]? = some (.literal run) → run.drop frame.progress = rest →
      b.target = none → b.frames = openSeries frame base rest → g.Runs w n i b j e →
      b.Hears w i →
      rest <+: w.drop i ∧ ∃ m, m ≤ n ∧ g.Resumes w m (i + rest.length) b base [] [] j e
  | [], n, _, b, _, _, _, ht, hf, hruns, hb =>
      ⟨List.nil_prefix, n, Nat.le_refl n, b, hruns, hb, .still rfl rfl rfl rfl, hf, ht⟩
  | symbol :: rest, n, i, b, frame, hn, hrun, ht, hf, hruns, hb => by
      obtain ⟨m, symbol', b', rfl, hw, htake, hrest⟩ :=
        hruns.exists_take_of_frame hdone ht hf hn rfl
      have hget : run[frame.progress]? = some symbol := by
        rw [← List.head?_drop, hrun]
        rfl
      have hdrop : run.drop (frame.progress + 1) = rest := by
        rw [← List.tail_drop, hrun]
        rfl
      have hn' : g.nodes[Frame.node { frame with progress := frame.progress + 1 }]? =
          some (.literal run) := hn
      have hconsume := Grammar.consume_eq_some_iff.mpr htake
      simp only [Grammar.consume, hf, openSeries, hn, hget, Option.some.injEq] at hconsume
      split at hconsume
      next hsymbol =>
        subst hsymbol
        cases hconsume
        obtain ⟨hbegins, m', hle, hres⟩ := resumes_of_literal hdone hn' hdrop (run_target ht)
          (run_openSeries hf hrun) hrest (htake.hears hw hb)
        have hend : i + (symbol :: rest).length = i + 1 + rest.length := by
          rw [List.length_cons]
          omega
        rw [hend]
        refine ⟨?_, m', Nat.le_succ_of_le hle, hres.after_still htake.still⟩
        obtain ⟨hlt, hat⟩ := List.getElem?_eq_some_iff.mp hw
        rw [List.drop_eq_getElem_cons hlt, hat]
        exact List.cons_prefix_cons.mpr ⟨rfl, hbegins⟩
      · cases hconsume

/-- A node that only waits for symbols has a form of no tokens or choices. -/
theorem Grammar.Runs.exists_match_of_waits {id : NodeId} {node : Node σ τ} {base : List Frame}
    {before count : Nat} (hg : g.IsBuilt) (hn : g.nodes[id]? = some node)
    (hw : node.waits = true) (hdone : e.isDone = true) (ht : b.target = none)
    (hf : b.frames = ⟨id, 0, before, count⟩ :: base) (hruns : g.Runs w n i b j e)
    (hb : b.Hears w i) :
    ∃ k, ∃ form : Match g w node i k, form.yield = [] ∧ form.choices id = [] ∧
      ∃ m, m ≤ n ∧ g.Resumes w m k b base [] [] j e := by
  have hc := Node.consumes_of_waits hw
  cases node with
  | oneOf set =>
      obtain ⟨m, symbol, b', rfl, hnext, htake, hrest⟩ :=
        hruns.exists_take_of_frame hdone ht hf hn hc
      have hconsume := Grammar.consume_eq_some_iff.mpr htake
      simp only [Grammar.consume, hf, hn] at hconsume
      split at hconsume
      next hs =>
        cases hconsume
        exact ⟨_, .oneOf hnext hs, rfl, rfl, m, Nat.le_succ m,
          hrest.resumes_of_single hnext htake hb ht hf⟩
      · cases hconsume
  | literal run =>
      have hopen : b.frames = openSeries ⟨id, 0, before, count⟩ base run := by
        cases run with
        | nil => exact absurd rfl (hg.literal_ne_nil hn)
        | cons => exact hf
      obtain ⟨hbegins, m, hle, hres⟩ :=
        resumes_of_literal hdone hn List.drop_zero ht hopen hruns hb
      exact ⟨_, .literal hbegins, rfl, rfl, m, hle, hres⟩
  | observe observer =>
      obtain ⟨hc', hp⟩ := Bool.and_eq_true_iff.mp hw
      obtain ⟨m, hle, hnext, hres⟩ := hruns.resumes_of_observe hn hc' hdone ht hf hb
      refine ⟨_, .observe hc' hnext, rfl, ?_, m, hle, hres⟩
      simp [Match.choices, Bool.not_eq_true' _ ▸ hp]
  | empty | guard | seq | alt | star | times | rule | emit | fold => cases hw

/-! ## Nodes with parts -/

/-- Every run of `n` steps that ends in `e` follows a tree of the node it enters first. -/
def Grammar.Follows (g : Grammar σ τ) (w : List σ) (j : Nat) (e : Branch σ τ) (n : Nat) : Prop :=
  ∀ ⦃i : Nat⦄ ⦃id : NodeId⦄ ⦃b : Branch σ τ⦄, g.Runs w n i b j e → b.target = some id →
    b.Hears w i → ∃ k, ∃ tree : Derivation g w id i k, ∃ m, m < n ∧
      g.Resumes w m k b b.frames tree.yield tree.choices j e

/-- A branch that is back in a series goes through the parts that are left. -/
theorem Grammar.Runs.resumes_of_series {bound : Nat} {base : List Frame} {node : Node σ τ}
    (ih : ∀ m < bound, g.Follows w j e m) (hdone : e.isDone = true) :
    ∀ {parts done : List NodeId} {n i : Nat} {b : Branch σ τ} {frame : Frame}, n < bound →
      g.nodes[frame.node]? = some node → node.series? = some (done ++ parts) →
      frame.progress + 1 = done.length → b.target = none →
      b.frames = openSeries frame base parts → g.Runs w n i b j e → b.Hears w i →
      ∃ k, ∃ trees : Derivations g w parts i k, ∃ m, m ≤ n ∧
        g.Resumes w m k b base trees.yield trees.choices j e
  | [], _, n, i, b, _, _, _, _, _, ht, hf, hruns, hb =>
      ⟨i, .nil, n, Nat.le_refl n, b, hruns, hb, .still rfl rfl rfl rfl, hf, ht⟩
  | part :: parts, done, n, i, b, frame, hlt, hn, hs, hp, ht, hf, hruns, hb => by
      have hpart : (done ++ part :: parts)[frame.progress + 1]? = some part := by
        rw [hp, List.getElem?_append_right (Nat.le_refl _), Nat.sub_self]
        rfl
      obtain ⟨m, b', rfl, hmem, hrest⟩ :=
        hruns.exists_move_of_frame hdone ht hf hn (Node.consumes_of_series hs)
      have hresume : ((g.cursorAt w i).resume b frame).branches = _ :=
        congrArg Turn.branches (Cursor.resume_series hn hs hpart)
      rw [hresume] at hmem
      cases List.mem_singleton.mp hmem
      have hmove : (g.cursorAt w i).Moves b _ := .next ht hf hn hs hpart
      obtain ⟨k, tree, m', hlt', b₁, hruns₁, hb₁, htree⟩ :=
        ih m (by omega) hrest rfl (hmove.hears hb)
      have hopen := htree.frames_eq.trans (next_openSeries hf hp)
      have hn' : g.nodes[Frame.node { frame with progress := frame.progress + 1 }]? = some node :=
        hn
      have hparts : node.series? = some ((done ++ [part]) ++ parts) := by
        rw [List.append_assoc]
        exact hs
      obtain ⟨k', trees, m'', hle, hres⟩ := resumes_of_series ih hdone (by omega) hn' hparts
        (by simp [← hp]) htree.target_eq hopen hruns₁ hb₁
      exact ⟨k', .cons tree trees, m'', by omega,
        hres.after (htree.toGains.after_still next_still)⟩

/-- A branch that is back in a loop had a round of some symbols, and goes through the
rounds that are left. -/
theorem Grammar.Runs.resumes_of_rounds {bound : Nat} {base : List Frame} {body : NodeId}
    (ih : ∀ m < bound, g.Follows w j e m) (hdone : e.isDone = true) {n i : Nat}
    {b : Branch σ τ} {frame : Frame} (hlt : n < bound)
    (hn : g.nodes[frame.node]? = some (.star body)) (ht : b.target = none)
    (hf : b.frames = frame :: base) (hruns : g.Runs w n i b j e) (hb : b.Hears w i) :
    frame.progress ≠ i ∧ ∃ k, ∃ rounds : Rounds g w body i k, ∃ m, m ≤ n ∧
      g.Resumes w m k b base rounds.yield (rounds.choices frame.node) j e := by
  obtain ⟨m, b', rfl, hmem, hrest⟩ := hruns.exists_move_of_frame hdone ht hf hn rfl
  rw [Cursor.resume_star hn] at hmem
  split at hmem
  · cases hmem
  next hne =>
    refine ⟨hne, ?_⟩
    rcases Turn.mem_fork.mp hmem with rfl | rfl
    · have hmove : (g.cursorAt w i).Moves b _ := .again ht hf hn hne
      obtain ⟨k, tree, m', hlt', b₁, hruns₁, hb₁, htree⟩ :=
        ih m (by omega) hrest rfl (hmove.hears hb)
      have hopen : b₁.frames = { frame with progress := i } :: base :=
        htree.frames_eq.trans (Branch.reach_frames hf i)
      have hagain : g.nodes[Frame.node { frame with progress := i }]? = some (.star body) := hn
      obtain ⟨hround, k', rounds, m'', hle, hres⟩ :=
        resumes_of_rounds ih hdone (by omega) hagain htree.target_eq hopen hruns₁ hb₁
      have hfork : b.Gains [] [⟨frame.node, 1, i⟩]
          (((b.reach i).via frame.node 1 i).aim body) := .choice rfl rfl rfl rfl
      exact ⟨k', .round tree (Nat.lt_of_le_of_ne tree.le hround) rounds, m'', by omega,
        (hres.after htree.toGains).after hfork⟩
    · refine ⟨i, .done, m, Nat.le_succ m, _, hrest, hb, .choice rfl rfl rfl rfl, ?_, ht⟩
      exact congrArg List.tail hf
termination_by n

/-- A branch that opens a construct follows a tree of its body and returns into it. -/
theorem Grammar.Follows.body {id body : NodeId} {node : Node σ τ} (h : g.Follows w j e n)
    (hn : g.nodes[id]? = some node) (hc : node.consumes = false) (hdone : e.isDone = true)
    (hruns : g.Runs w n i ((b.push id 0 i).aim body) j e) (hb : b.Hears w i) :
    ∃ k, ∃ tree : Derivation g w body i k, ∃ m b₁ b', m < n ∧
      b.Leaves (⟨id, 0, i, b.tokens.length⟩ :: b.frames) tree.yield tree.choices b₁ ∧
      b₁.Hears w k ∧
      b' ∈ ((g.cursorAt w k).resume b₁ ⟨id, 0, i, b.tokens.length⟩).branches ∧
      g.Runs w m k b' j e := by
  obtain ⟨k, tree, m, hlt, b₁, hruns₁, hb₁, htree⟩ := h hruns rfl hb
  obtain ⟨m', b', rfl, hmem, hrest⟩ :=
    hruns₁.exists_move_of_frame hdone htree.target_eq htree.frames_eq hn hc
  exact ⟨k, tree, m', b₁, b', by omega, htree.after_still (.still rfl rfl rfl rfl), hb₁, hmem,
    hrest⟩

/-- Trees of the parts of a series are a tree of the series. -/
theorem Derivations.exists_match {node : Node σ τ} {parts : List NodeId} {k : Nat} (id : NodeId)
    (hs : node.series? = some parts) (trees : Derivations g w parts i k) :
    ∃ form : Match g w node i k, form.yield = trees.yield ∧ form.choices id = trees.choices := by
  cases node with
  | seq =>
      cases hs
      exact ⟨.seq trees, rfl, rfl⟩
  | times =>
      cases hs
      exact ⟨.times trees, rfl, rfl⟩
  | empty | oneOf | literal | guard | alt | star | rule | emit | fold | observe => cases hs

/-! ## Whole runs -/

/-- A run from a branch that enters a node follows a tree of it, and goes on with fewer
than `n` steps. -/
def Grammar.FollowsTree (g : Grammar σ τ) (w : List σ) (j : Nat) (e : Branch σ τ) (n : Nat)
    (id : NodeId) (i : Nat) (b : Branch σ τ) : Prop :=
  ∃ k, ∃ tree : Derivation g w id i k, ∃ m, m < n ∧
    g.Resumes w m k b b.frames tree.yield tree.choices j e

/-- A run that left a form of the node followed a tree of it. -/
theorem Grammar.Resumes.followsTree {id : NodeId} {node : Node σ τ} {k m : Nat} {tokens : List τ}
    {choices : List Choice} (h : g.Resumes w m k b b.frames tokens choices j e) (hlt : m < n)
    (hn : g.nodes[id]? = some node) (form : Match g w node i k) (hyield : form.yield = tokens)
    (hchoices : form.choices id = choices) : g.FollowsTree w j e n id i b := by
  subst hyield hchoices
  exact ⟨k, .of hn form, m, hlt, h⟩

namespace Grammar.Follows

variable {id body : NodeId} {node : Node σ τ} {m : Nat}

/-- A series whose first part is entered is followed through all of its parts. -/
theorem series {part : NodeId} {parts : List NodeId} {b₁ : Branch σ τ}
    (ih : ∀ m < n, g.Follows w j e m) (hdone : e.isDone = true) (hlt : m < n)
    (hn : g.nodes[id]? = some node) (hs : node.series? = some (part :: parts))
    (hruns : g.Runs w m i b₁ j e) (ht : b₁.target = some part) (hb : b₁.Hears w i)
    (hopen : b₁.frames = openSeries ⟨id, 0, i, b.tokens.length⟩ b.frames parts)
    (hstill : b.Gains [] [] b₁) : g.FollowsTree w j e n id i b := by
  obtain ⟨k, tree, m', hlt', b₂, hruns₂, hb₂, htree⟩ := ih m hlt hruns ht hb
  have hparts : node.series? = some ([part] ++ parts) := hs
  obtain ⟨k', trees, m'', hle, hres⟩ := Grammar.Runs.resumes_of_series ih hdone
    (Nat.lt_trans hlt' hlt) hn hparts rfl htree.target_eq (htree.frames_eq.trans hopen) hruns₂ hb₂
  obtain ⟨form, hyield, hchoices⟩ := Derivations.exists_match id hs (.cons tree trees)
  exact (hres.after (htree.toGains.after_still hstill)).followsTree (by omega) hn form hyield
    hchoices

/-- A loop that is entered is followed through all of its rounds. -/
theorem loop (ih : ∀ m < n, g.Follows w j e m) (hdone : e.isDone = true) (hlt : m < n)
    (hn : g.nodes[id]? = some (.star body))
    (hruns : g.Runs w m i (((b.arrived.via id 1 i).push id i i).aim body) j e)
    (hb : b.Hears w i) : g.FollowsTree w j e n id i b := by
  obtain ⟨k, tree, m', hlt', b₁, hruns₁, hb₁, htree⟩ := ih m hlt hruns rfl hb
  obtain ⟨hround, k', rounds, m'', hle, hres⟩ := Grammar.Runs.resumes_of_rounds ih hdone
    (Nat.lt_trans hlt' hlt) hn htree.target_eq htree.frames_eq hruns₁ hb₁
  have hfork : b.Gains [] [⟨id, 1, i⟩] (((b.arrived.via id 1 i).push id i i).aim body) :=
    .choice rfl rfl rfl rfl
  have hlast := (hres.after htree.toGains).after hfork
  exact hlast.followsTree (by omega) hn
    (.star (.round tree (Nat.lt_of_le_of_ne tree.le hround) rounds)) rfl rfl

/-- The emission of a fixed token is followed through its body. -/
theorem emitFixed {token : τ} (h : g.Follows w j e m) (hdone : e.isDone = true) (hlt : m < n)
    (hn : g.nodes[id]? = some (.emit body (.fixed token)))
    (hruns : g.Runs w m i ((b.arrived.push id 0 i).aim body) j e) (hb : b.Hears w i) :
    g.FollowsTree w j e n id i b := by
  obtain ⟨k, tree, m', b₁, b', hlt', hbody, hb₁, hmem, hrest⟩ := h.body hn rfl hdone hruns hb
  simp only [Cursor.resume, Grammar.cursorAt, hn] at hmem
  cases List.mem_singleton.mp hmem
  have hres : g.Resumes w m' k b b.frames (tree.yield ++ [token]) tree.choices j e :=
    ⟨_, hrest, hb₁, (hbody.after_still (b := b) (.still rfl rfl rfl rfl)).emit token⟩
  exact hres.followsTree (by omega) hn (.emit tree) rfl rfl

/-- The emission of a token made of symbols is followed through its body, which hears
them. -/
theorem emitMade {make : List σ → τ} (h : g.Follows w j e m) (hdone : e.isDone = true)
    (hlt : m < n) (hn : g.nodes[id]? = some (.emit body (.ofSymbols make)))
    (hruns : g.Runs w m i (((b.arrived.listen i).push id 0 i).aim body) j e) (hb : b.Hears w i) :
    g.FollowsTree w j e n id i b := by
  have harrived : b.arrived.Hears w i := hb
  obtain ⟨k, tree, m', b₁, b', hlt', hbody, hb₁, hmem, hrest⟩ :=
    h.body hn rfl hdone hruns harrived.listen
  simp only [Cursor.resume, Grammar.cursorAt, hn] at hmem
  cases List.mem_singleton.mp hmem
  have hpop : b₁.pop.Hears w k := hb₁
  have hmade := (hbody.make harrived hb₁ make).after_still (b := b) (.still rfl rfl rfl rfl)
  have hres : g.Resumes w m' k b b.frames (tree.yield ++ [make ((w.take k).drop i)])
      tree.choices j e := ⟨_, hrest, hpop.unlisten, hmade⟩
  exact hres.followsTree (by omega) hn (.emit tree) rfl rfl

/-- A fold is followed through its body. -/
theorem fold {merge : List τ → τ} (h : g.Follows w j e m) (hdone : e.isDone = true) (hlt : m < n)
    (hn : g.nodes[id]? = some (.fold body merge))
    (hruns : g.Runs w m i ((b.arrived.push id 0 i).aim body) j e) (hb : b.Hears w i) :
    g.FollowsTree w j e n id i b := by
  obtain ⟨k, tree, m', b₁, b', hlt', hbody, hb₁, hmem, hrest⟩ := h.body hn rfl hdone hruns hb
  simp only [Cursor.resume, Grammar.cursorAt, hn] at hmem
  cases List.mem_singleton.mp hmem
  have hres : g.Resumes w m' k b b.frames [merge tree.yield] tree.choices j e :=
    ⟨_, hrest, hb₁, (hbody.after_still (b := b) (.still rfl rfl rfl rfl)).gather merge⟩
  exact hres.followsTree (by omega) hn (.fold tree) rfl rfl

end Grammar.Follows

/-- A run that ends with nothing left to match follows a tree of the node it enters. -/
theorem Grammar.follows (hg : g.IsBuilt) (hdone : e.isDone = true) (n : Nat) :
    g.Follows w j e n := by
  induction n using Nat.strong_induction_on with
  | _ n ih =>
      intro i id b hruns ht hb
      obtain ⟨m, b', rfl, hmove, hrest⟩ := hruns.exists_move_of_target hdone ht
      have hlt := Nat.lt_succ_self m
      have hb' := hmove.hears hb
      -- A branch that stops in the node has matched it at once.
      have hstop {choices : List Choice} (hends : b'.target = none) (hsame : b'.frames = b.frames)
          (hgains : b.Gains [] choices b') : g.Resumes w m i b b.frames [] choices j e :=
        ⟨b', hrest, hb', hgains, hsame, hends⟩
      cases hmove with
      | pass ht' hn hp =>
          cases ht.symm.trans ht'
          obtain ⟨form, hyield, hchoices⟩ := Cursor.exists_match_of_passes id hp
          exact (hstop rfl rfl (.still rfl rfl rfl rfl)).followsTree hlt hn form hyield hchoices
      | wait ht' hn hw =>
          cases ht.symm.trans ht'
          obtain ⟨k, form, hyield, hchoices, m', hle, hres⟩ :=
            hrest.exists_match_of_waits hg hn hw hdone rfl rfl hb
          exact (hres.after_still (b := b) (.still rfl rfl rfl rfl)).followsTree (by omega) hn form
            hyield hchoices
      | watch ht' hn hc hp =>
          cases ht.symm.trans ht'
          obtain ⟨m', hle, hnext, hres⟩ := hrest.resumes_of_observe hn hc hdone rfl rfl hb
          have hfork : b.Gains [] [⟨id, 1, i⟩] ((b.arrived.via id 1 i).push id 0 i) :=
            .choice rfl rfl rfl rfl
          exact (hres.after hfork).followsTree (by omega) hn (.observe hc hnext) rfl
            (by simp [Match.choices, hp])
      | ignore ht' hn hc hp =>
          cases ht.symm.trans ht'
          exact (hstop rfl rfl (.choice rfl rfl rfl rfl)).followsTree hlt hn (.pass hp) rfl
            (by simp [Match.choices, hc, Grammar.cursorAt])
      | skip ht' hn hs =>
          cases ht.symm.trans ht'
          obtain ⟨form, hyield, hchoices⟩ := Derivations.exists_match id hs (.nil (g := g) (w := w))
          exact (hstop rfl rfl (.still rfl rfl rfl rfl)).followsTree hlt hn form hyield hchoices
      | only ht' hn hs =>
          cases ht.symm.trans ht'
          exact Follows.series ih hdone hlt hn hs hrest rfl hb rfl (.still rfl rfl rfl rfl)
      | first ht' hn hs =>
          cases ht.symm.trans ht'
          exact Follows.series ih hdone hlt hn hs hrest rfl hb rfl (.still rfl rfl rfl rfl)
      | @choose id' choice choices index ht' hn hc ha =>
          cases ht.symm.trans ht'
          obtain ⟨k, tree, m', hlt', hres⟩ := ih m hlt hrest rfl hb
          have hfork : b.Gains [] [⟨id, index, i⟩] ((b.arrived.via id index i).aim choice) :=
            .choice rfl rfl rfl rfl
          exact (hres.after hfork).followsTree (by omega) hn (.alt index hc tree) rfl rfl
      | loop ht' hn =>
          cases ht.symm.trans ht'
          exact Follows.loop ih hdone hlt hn hrest hb
      | shun ht' hn =>
          cases ht.symm.trans ht'
          exact (hstop rfl rfl (.choice rfl rfl rfl rfl)).followsTree hlt hn (.star .done) rfl rfl
      | call ht' hn hbody =>
          cases ht.symm.trans ht'
          obtain ⟨k, tree, m', hlt', hres⟩ := ih m hlt hrest rfl hb
          exact (hres.after_still (b := b) (.still rfl rfl rfl rfl)).followsTree (by omega) hn
            (.rule hbody tree) rfl rfl
      | openFixed ht' hn =>
          cases ht.symm.trans ht'
          exact (ih m hlt).emitFixed hdone hlt hn hrest hb
      | openMade ht' hn =>
          cases ht.symm.trans ht'
          exact (ih m hlt).emitMade hdone hlt hn hrest hb
      | openFold ht' hn =>
          cases ht.symm.trans ht'
          exact (ih m hlt).fold hdone hlt hn hrest hb
      | next ht' | again ht' | leave ht' | closeFixed ht' | closeMade ht' | closeFold ht' =>
          cases ht.symm.trans ht'

end Ramify
