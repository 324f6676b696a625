import Ramify.Proofs.Run

/-!
# Every derivation is run

A branch that is about to enter a node can follow any derivation tree of it: some run
takes it through the symbols that the tree spans, and it comes back with the tokens and
the choices of the tree (`Derivation.runs`).  The proof goes along the tree.
-/

namespace Ramify

variable {σ τ : Type} [DecidableEq σ] {g : Grammar σ τ} {w : List σ}

/-- A branch that waits for the rest of a run of symbols can take them. -/
theorem runs_literal {run : List σ} {base : List Frame} :
    ∀ {rest : List σ} {i : Nat} {b : Branch σ τ} {frame : Frame},
      g.nodes[frame.node]? = some (.literal run) → run.drop frame.progress = rest →
      b.target = none → b.frames = openSeries frame base rest → rest <+: w.drop i →
      ∃ n e, g.Runs w n i b (i + rest.length) e ∧ b.Leaves base [] [] e
  | [], _, _, _, _, _, ht, hf, _ => ⟨_, _, .refl, .still rfl rfl rfl rfl, hf, ht⟩
  | symbol :: rest, i, b, frame, hn, hrun, ht, hf, hw => by
      obtain ⟨more, hmore⟩ := hw
      have hget : run[frame.progress]? = some symbol := by
        rw [← List.head?_drop, hrun]
        rfl
      have hnext : w[i]? = some symbol := by
        rw [← List.head?_drop, ← hmore]
        rfl
      have htake := Grammar.Takes.run hf hn hget
      have hdrop : run.drop (frame.progress + 1) = rest := by
        rw [← List.tail_drop, hrun]
        rfl
      have hrest : rest <+: w.drop (i + 1) := by
        rw [← List.tail_drop, ← hmore]
        exact ⟨more, rfl⟩
      have hn' : g.nodes[Frame.node { frame with progress := frame.progress + 1 }]? =
          some (.literal run) := hn
      obtain ⟨n, e, hruns, hleaves⟩ :=
        runs_literal hn' hdrop (run_target ht) (run_openSeries hf hrun) hrest
      have hend : i + (symbol :: rest).length = i + 1 + rest.length := by
        rw [List.length_cons]
        omega
      rw [hend]
      exact ⟨n + 1, e, .take ht hnext htake hruns, hleaves.after_still htake.still⟩

/-- The guard of a node admits what comes where a tree of the node begins. -/
theorem Derivation.admits {id : NodeId} {i j : Nat} (tree : Derivation g w id i j) :
    (g.cursorAt w i).admits id = true := by
  unfold Cursor.admits
  rw [Option.all_eq_true]
  intro set hset
  unfold Grammar.guard? at hset
  split at hset
  next hn =>
    cases hset
    exact (tree.of_guard hn).1
  next first parts hn =>
    split at hset
    next hfirst =>
      cases hset
      obtain ⟨hn', form⟩ := tree
      cases Option.some.inj (hn.symm.trans hn')
      cases form with
      | seq trees =>
          cases trees with
          | cons tree _ => exact (tree.of_guard hfirst).1
    · cases hset
  · cases hset

/-! ## Observers -/

/-- A branch that is about to enter an observer can follow the form without a symbol. -/
theorem runs_pass {id : NodeId} {observer : Observer} {i : Nat} {b : Branch σ τ}
    (hn : g.nodes[id]? = some (.observe observer)) (hp : observer.passes = true)
    (ht : b.target = some id) :
    ∃ n e, g.Runs w n i b i e ∧
      b.Leaves b.frames [] ((Match.pass hp : Match g w _ i i).choices id) e := by
  cases hc : observer.consumes with
  | false =>
      have hpass : (g.cursorAt w i).passes (.observe observer) = true := by
        simp [Cursor.passes, hc, hp]
      refine ⟨_, _, .move (.pass ht hn hpass) .refl, ?_, rfl, rfl⟩
      simp only [Match.choices, hc, Bool.false_eq_true, if_false]
      exact .still rfl rfl rfl rfl
  | true =>
      refine ⟨_, _, .move (.ignore ht hn hc hp) .refl, ?_, rfl, rfl⟩
      simp only [Match.choices, hc, if_true]
      exact .choice rfl rfl rfl rfl

/-- A branch that is about to enter an observer can follow the form with a symbol. -/
theorem runs_observe {id : NodeId} {observer : Observer} {i : Nat} {b : Branch σ τ}
    (hn : g.nodes[id]? = some (.observe observer)) (hc : observer.consumes = true)
    (hw : i < w.length) (ht : b.target = some id) :
    ∃ n e, g.Runs w n i b (i + 1) e ∧
      b.Leaves b.frames [] ((Match.observe hc hw : Match g w _ i (i + 1)).choices id) e := by
  have hnext : w[i]? = some w[i] := List.getElem?_eq_getElem hw
  cases hp : observer.passes with
  | false =>
      have hwait : (Node.observe observer : Node σ τ).waits = true := by simp [Node.waits, hc, hp]
      have hleaves : (b.arrived.push id 0 i).Leaves b.frames [] [] _ := .hear rfl rfl w[i]
      refine ⟨_, _, .move (.wait ht hn hwait) (.take rfl hnext (.any rfl hn hc) .refl), ?_⟩
      simp only [Match.choices, hp, Bool.false_eq_true, if_false]
      exact hleaves.after_still (.still rfl rfl rfl rfl)
  | true =>
      have hfork : b.Gains [] [⟨id, 1, i⟩] ((b.arrived.via id 1 i).push id 0 i) :=
        .choice rfl rfl rfl rfl
      have hleaves : ((b.arrived.via id 1 i).push id 0 i).Leaves b.frames [] [] _ :=
        .hear rfl rfl w[i]
      refine ⟨_, _, .move (.watch ht hn hc hp) (.take rfl hnext (.any rfl hn hc) .refl), ?_⟩
      simp only [Match.choices, hp, if_true]
      exact hleaves.after hfork

/-! ## Trees -/

mutual

/-- A branch that is about to enter a node can follow any tree of it. -/
theorem Derivation.runs : {id : NodeId} → {i j : Nat} → (tree : Derivation g w id i j) →
    {b : Branch σ τ} → g.IsBuilt → b.target = some id → b.Hears w i →
    ∃ n e, g.Runs w n i b j e ∧ b.Leaves b.frames tree.yield tree.choices e
  | _, _, _, .of hn form, _, hg, ht, hb => form.runs hg hn ht hb
termination_by structural _ _ _ x => x

/-- A branch that is about to enter a node can follow any form of it. -/
theorem Match.runs {id : NodeId} : {node : Node σ τ} → {i j : Nat} → (form : Match g w node i j) →
    {b : Branch σ τ} → g.IsBuilt → g.nodes[id]? = some node → b.target = some id → b.Hears w i →
    ∃ n e, g.Runs w n i b j e ∧ b.Leaves b.frames form.yield (form.choices id) e
  | _, _, _, .empty, _, _, hn, ht, _ =>
      ⟨_, _, .move (.pass ht hn rfl) .refl, .still rfl rfl rfl rfl, rfl, rfl⟩
  | _, i, _, @Match.oneOf _ _ _ _ _ _ _ symbol hw hs, b, _, hn, ht, _ => by
      have hleaves : (b.arrived.push id 0 i).Leaves b.frames [] [] _ := .hear rfl rfl symbol
      exact ⟨_, _, .move (.wait ht hn rfl) (.take rfl hw (.member rfl hn hs) .refl),
        hleaves.after_still (.still rfl rfl rfl rfl)⟩
  | _, i, _, @Match.literal _ _ _ _ _ run _ hw, b, hg, hn, ht, _ => by
      have hf : (b.arrived.push id 0 i).frames =
          openSeries ⟨id, 0, i, b.tokens.length⟩ b.frames run := by
        cases run with
        | nil => exact absurd rfl (hg.literal_ne_nil hn)
        | cons => rfl
      obtain ⟨n, e, hruns, hleaves⟩ := runs_literal hn List.drop_zero rfl hf hw
      exact ⟨n + 1, e, .move (.wait ht hn rfl) hruns, hleaves.after_still (.still rfl rfl rfl rfl)⟩
  | _, _, _, .guard ha, _, _, hn, ht, _ =>
      ⟨_, _, .move (.pass ht hn ha) .refl, .still rfl rfl rfl rfl, rfl, rfl⟩
  | _, _, _, .seq trees, _, hg, hn, ht, hb => trees.runsSeries hg hn rfl ht hb
  | _, i, _, @Match.alt _ _ _ _ _ choices choice _ _ index hc tree, b, hg, hn, ht, hb => by
      obtain ⟨n, e, hruns, hleaves⟩ :=
        tree.runs (b := (b.arrived.via id index i).aim choice) hg rfl hb
      have hmove : (g.cursorAt w i).Moves b ((b.arrived.via id index i).aim choice) :=
        .choose ht hn hc tree.admits
      have hfork : b.Gains [] [⟨id, index, i⟩] ((b.arrived.via id index i).aim choice) :=
        .choice rfl rfl rfl rfl
      exact ⟨n + 1, e, .move hmove hruns, hleaves.after hfork⟩
  | _, _, _, .star .done, _, _, hn, ht, _ =>
      ⟨_, _, .move (.shun ht hn) .refl, .choice rfl rfl rfl rfl, rfl, rfl⟩
  | .star body, i, _, .star (.round tree hlt rounds), b, hg, hn, ht, hb => by
      have hfork : b.Gains [] [⟨id, 1, i⟩] (((b.arrived.via id 1 i).push id i i).aim body) :=
        .choice rfl rfl rfl rfl
      obtain ⟨n, e, hruns, hround⟩ :=
        tree.runs (b := ((b.arrived.via id 1 i).push id i i).aim body) hg rfl hb
      obtain ⟨m, e', hruns', hrest⟩ :=
        rounds.runs hg hn hround.target_eq hround.frames_eq rfl (Nat.ne_of_lt hlt) (hruns.hears hb)
      exact ⟨_, e', .move (.loop ht hn) (hruns.trans hruns'),
        (hrest.after hround.toGains).after hfork⟩
  | _, _, _, .times trees, _, hg, hn, ht, hb => trees.runsSeries hg hn rfl ht hb
  | _, _, _, @Match.rule _ _ _ _ _ _ body _ _ hbody tree, b, hg, hn, ht, hb => by
      obtain ⟨n, e, hruns, hleaves⟩ := tree.runs (b := b.arrived.aim body) hg rfl hb
      exact ⟨_, e, .move (.call ht hn hbody) hruns, hleaves.after_still (.still rfl rfl rfl rfl)⟩
  | .emit body (.fixed token), i, j, .emit tree, b, hg, hn, ht, hb => by
      obtain ⟨n, e, hruns, hbody⟩ := tree.runs (b := (b.arrived.push id 0 i).aim body) hg rfl hb
      have hclose : (g.cursorAt w j).Moves e _ := .closeFixed hbody.target_eq hbody.frames_eq hn
      have hinside : b.Leaves _ tree.yield tree.choices e :=
        hbody.after_still (.still rfl rfl rfl rfl)
      exact ⟨_, _, .move (.openFixed ht hn) (hruns.trans (.move hclose .refl)), hinside.emit token⟩
  | .emit body (.ofSymbols make), i, j, .emit tree, b, hg, hn, ht, hb => by
      have hlisten : (b.arrived.listen i).Hears w i := Branch.Hears.listen hb
      obtain ⟨n, e, hruns, hbody⟩ :=
        tree.runs (b := ((b.arrived.listen i).push id 0 i).aim body) hg rfl hlisten
      have hclose : (g.cursorAt w j).Moves e _ := .closeMade hbody.target_eq hbody.frames_eq hn
      have hinside : (b.arrived.listen i).Leaves _ tree.yield tree.choices e :=
        hbody.after_still (.still rfl rfl rfl rfl)
      exact ⟨_, _, .move (.openMade ht hn) (hruns.trans (.move hclose .refl)),
        (hinside.make hb (hruns.hears hlisten) make).after_still (.still rfl rfl rfl rfl)⟩
  | .fold body merge, i, j, .fold tree, b, hg, hn, ht, hb => by
      obtain ⟨n, e, hruns, hbody⟩ := tree.runs (b := (b.arrived.push id 0 i).aim body) hg rfl hb
      have hclose : (g.cursorAt w j).Moves e _ := .closeFold hbody.target_eq hbody.frames_eq hn
      have hinside : b.Leaves _ tree.yield tree.choices e :=
        hbody.after_still (.still rfl rfl rfl rfl)
      exact ⟨_, _, .move (.openFold ht hn) (hruns.trans (.move hclose .refl)), hinside.gather merge⟩
  | .observe _, _, _, .pass hp, _, _, hn, ht, _ => runs_pass hn hp ht
  | .observe _, _, _, .observe hc hw, _, _, hn, ht, _ => runs_observe hn hc hw ht
termination_by structural _ _ _ x => x

/-- A branch that is about to enter a series can follow any trees of its parts. -/
theorem Derivations.runsSeries {id : NodeId} {node : Node σ τ} : {parts : List NodeId} →
    {i j : Nat} → (trees : Derivations g w parts i j) → {b : Branch σ τ} → g.IsBuilt →
    g.nodes[id]? = some node → node.series? = some parts → b.target = some id → b.Hears w i →
    ∃ n e, g.Runs w n i b j e ∧ b.Leaves b.frames trees.yield trees.choices e
  | _, _, _, .nil, _, _, hn, hs, ht, _ =>
      ⟨_, _, .move (.skip ht hn hs) .refl, .still rfl rfl rfl rfl, rfl, rfl⟩
  | [part], _, _, .cons tree .nil, b, hg, hn, hs, ht, hb => by
      obtain ⟨n, e, hruns, hpart⟩ := tree.runs (b := b.arrived.aim part) hg rfl hb
      have hgains : b.Gains tree.yield tree.choices e :=
        hpart.toGains.after_still (.still rfl rfl rfl rfl)
      refine ⟨_, e, .move (.only ht hn hs) hruns, ?_, hpart.frames_eq, hpart.target_eq⟩
      exact hgains.trans (.still rfl rfl rfl rfl)
  | part :: second :: parts, i, _, .cons tree trees, b, hg, hn, hs, ht, hb => by
      obtain ⟨n, e, hruns, hpart⟩ := tree.runs (b := (b.arrived.push id 0 i).aim part) hg rfl hb
      have hgains : b.Gains tree.yield tree.choices e :=
        hpart.toGains.after_still (.still rfl rfl rfl rfl)
      have hopen : e.frames = openSeries ⟨id, 0, i, b.tokens.length⟩ b.frames (second :: parts) :=
        hpart.frames_eq
      have hparts : node.series? = some ([part] ++ second :: parts) := hs
      obtain ⟨m, e', hruns', hrest⟩ :=
        trees.runs hg hn hparts hpart.target_eq hopen rfl rfl (hruns.hears hb)
      exact ⟨_, e', .move (.first ht hn hs) (hruns.trans hruns'), hrest.after hgains⟩
termination_by structural _ _ _ x => x

/-- A branch that is back in a series can follow any trees of the parts that are left. -/
theorem Derivations.runs {id : NodeId} {node : Node σ τ} : {parts : List NodeId} →
    {i j : Nat} → (trees : Derivations g w parts i j) → {done : List NodeId} →
    {b : Branch σ τ} → {frame : Frame} → {base : List Frame} → g.IsBuilt →
    g.nodes[id]? = some node → node.series? = some (done ++ parts) → b.target = none →
    b.frames = openSeries frame base parts → frame.node = id →
    frame.progress + 1 = done.length → b.Hears w i →
    ∃ n e, g.Runs w n i b j e ∧ b.Leaves base trees.yield trees.choices e
  | _, _, _, .nil, _, _, _, _, _, _, _, ht, hf, _, _, _ =>
      ⟨_, _, .refl, .still rfl rfl rfl rfl, hf, ht⟩
  | part :: parts, i, _, .cons tree trees, done, b, frame, base, hg, hn, hs, ht, hf, hid, hp, hb => by
      subst hid
      have hpart : (done ++ part :: parts)[frame.progress + 1]? = some part := by
        rw [hp, List.getElem?_append_right (Nat.le_refl _), Nat.sub_self]
        rfl
      have hmove : (g.cursorAt w i).Moves b _ := .next ht hf hn hs hpart
      obtain ⟨n, e, hruns, htree⟩ := tree.runs hg rfl (hmove.hears hb)
      have hopen := htree.frames_eq.trans (next_openSeries hf hp)
      have hparts : node.series? = some ((done ++ [part]) ++ parts) := by
        rw [List.append_assoc]
        exact hs
      obtain ⟨m, e', hruns', hrest⟩ := trees.runs hg hn hparts htree.target_eq hopen rfl
        (by simp [← hp]) (hruns.hears (hmove.hears hb))
      exact ⟨_, e', .move hmove (hruns.trans hruns'),
        hrest.after (htree.toGains.after_still next_still)⟩
termination_by structural _ _ _ x => x

/-- A branch that is back in a loop can follow any rounds that are left. -/
theorem Rounds.runs {id : NodeId} : {body : NodeId} → {i j : Nat} →
    (rounds : Rounds g w body i j) → {b : Branch σ τ} → {frame : Frame} → {base : List Frame} →
    g.IsBuilt → g.nodes[id]? = some (.star body) → b.target = none → b.frames = frame :: base →
    frame.node = id → frame.progress ≠ i → b.Hears w i →
    ∃ n e, g.Runs w n i b j e ∧ b.Leaves base rounds.yield (rounds.choices id) e
  | _, i, _, .done, b, frame, base, _, hn, ht, hf, hid, hp, _ => by
      subst hid
      have hmove : (g.cursorAt w i).Moves b (b.pop.via frame.node 0 i) := .leave ht hf hn hp
      exact ⟨_, _, .move hmove .refl, .choice rfl rfl rfl rfl, congrArg List.tail hf, ht⟩
  | body, i, _, .round tree hlt rounds, b, frame, base, hg, hn, ht, hf, hid, hp, hb => by
      subst hid
      have hmove : (g.cursorAt w i).Moves b (((b.reach i).via frame.node 1 i).aim body) :=
        .again ht hf hn hp
      have hfork : b.Gains [] [⟨frame.node, 1, i⟩] (((b.reach i).via frame.node 1 i).aim body) :=
        .choice rfl rfl rfl rfl
      obtain ⟨n, e, hruns, hround⟩ :=
        tree.runs (b := ((b.reach i).via frame.node 1 i).aim body) hg rfl hb
      have hopen : e.frames = { frame with progress := i } :: base :=
        hround.frames_eq.trans (Branch.reach_frames hf i)
      obtain ⟨m, e', hruns', hrest⟩ :=
        rounds.runs hg hn hround.target_eq hopen rfl (Nat.ne_of_lt hlt) (hruns.hears hb)
      exact ⟨_, e', .move hmove (hruns.trans hruns'), (hrest.after hround.toGains).after hfork⟩
termination_by structural _ _ _ x => x

end

end Ramify
