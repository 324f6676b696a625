import Ramify.Proofs.Exactness
import Ramify.Proofs.Placement

/-!
# What can still follow

A branch that is live after some symbols stands for a beginning of a derivation.  What is
open on its stack can be closed from the innermost construct to the outermost one if the
parts of a series that are left match something, whatever follows them; the rest of a run of
symbols is given, and a loop can be left (`Frame.Fits.closes`).  That is so if every node that
the start leads to matches some input, and none looks at the symbol that comes next.  It can
also be so where a node looks ahead, if that node comes first in its series.

A loop can be left because its round has consumed something.  A round that began where the
branch stands would die there; but a live branch has just taken a symbol, and every round
that is open then began before it.

The other direction needs none of this: every derivation of a longer input runs through one
of the live branches (`Forest.Free.exists_branch_iff`).
-/

namespace Ramify

variable {σ τ : Type}

namespace Grammar

/-- A node is a part of another, or the body of the rule that the other mentions. -/
inductive Child (g : Grammar σ τ) (id : NodeId) : NodeId → Prop where
  /-- A part of the node. -/
  | part {node : Node σ τ} {part : NodeId} (hn : g.nodes[id]? = some node)
      (hp : part ∈ node.parts) : Child g id part
  /-- The body of the rule. -/
  | body {index : RuleId} {body : NodeId} (hn : g.nodes[id]? = some (.rule index))
      (hb : g.body? index = some body) : Child g id body

/-- Parts and bodies of rules lead from one node to another. -/
def Reaches (g : Grammar σ τ) : NodeId → NodeId → Prop :=
  Relation.ReflTransGen g.Child

/-- No node tests the next symbol without taking it. -/
def Unguarded (g : Grammar σ τ) : Prop :=
  ∀ (id : NodeId) (set : SymbolSet σ), g.nodes[id]? ≠ some (.guard set)

variable [DecidableEq σ]

/-- A node matches some input. -/
def Productive (g : Grammar σ τ) (id : NodeId) : Prop :=
  ∃ u : List σ, Nonempty (Derivation g u id 0 u.length)

/-- A node matches some text wherever that stands, whatever follows it. -/
def MatchesAnywhere (g : Grammar σ τ) (id : NodeId) : Prop :=
  ∃ v : List σ, ∀ (u : List σ) (i : Nat), v <+: u.drop i →
    Nonempty (Derivation g u id i (i + v.length))

/-- Every node that the start leads to matches some input. -/
def Trim (g : Grammar σ τ) : Prop :=
  ∀ id, g.Reaches g.start id → g.Productive id

end Grammar

/-- What a node can have left when it is open can be matched: any part but the first, and a
symbol of its set. -/
structure Node.Closable [DecidableEq σ] (g : Grammar σ τ) (node : Node σ τ) : Prop where
  /-- The parts after the first match something. -/
  parts : ∀ parts, node.series? = some parts → ∀ id ∈ parts.tail, g.MatchesAnywhere id
  /-- The set of symbols has a member. -/
  member : ∀ set, node = .oneOf set → ∃ symbol, set.contains symbol = true

theorem Node.mem_parts_of_series {node : Node σ τ} {parts : List NodeId} {part : NodeId}
    (hs : node.series? = some parts) (hp : part ∈ parts) : part ∈ node.parts := by
  cases node with
  | seq =>
      cases hs
      exact hp
  | times body count =>
      cases hs
      exact List.mem_singleton.mpr (List.eq_of_mem_replicate hp)
  | empty | oneOf | literal | guard | alt | star | rule | emit | fold | observe => cases hs

/-! ## Branches within what the start leads to -/

/-- The start leads to every node that a branch has open or is about to enter. -/
structure Branch.Within (g : Grammar σ τ) (b : Branch σ τ) : Prop where
  /-- It leads to the nodes that are open. -/
  frames : ∀ frame ∈ b.frames, g.Reaches g.start frame.node
  /-- It leads to the node that comes next. -/
  target : ∀ id, b.target = some id → g.Reaches g.start id

namespace Branch.Within

variable {g : Grammar σ τ} {b b' : Branch σ τ} {id : NodeId}

theorem start (g : Grammar σ τ) : (Branch.start g.start : Branch σ τ).Within g where
  frames frame hframe := by cases hframe
  target id hid := Option.some.inj hid ▸ .refl

theorem congr (h : b.Within g) (hf : b'.frames = b.frames) (ht : b'.target = b.target) :
    b'.Within g where
  frames := hf ▸ h.frames
  target := ht ▸ h.target

theorem arrived (h : b.Within g) : b.arrived.Within g where
  frames := h.frames
  target id hid := by cases hid

theorem via (h : b.Within g) (node way position : Nat) : (b.via node way position).Within g :=
  h.congr rfl rfl

theorem push (h : b.Within g) (hid : g.Reaches g.start id) (progress position : Nat) :
    (b.push id progress position).Within g where
  frames frame hframe := by
    rcases List.mem_cons.mp hframe with rfl | hframe
    · exact hid
    · exact h.frames frame hframe
  target := h.target

theorem aim (h : b.Within g) (hid : g.Reaches g.start id) : (b.aim id).Within g where
  frames := h.frames
  target _ hother := Option.some.inj hother ▸ hid

theorem pop (h : b.Within g) : b.pop.Within g where
  frames frame hframe := h.frames frame (List.mem_of_mem_tail hframe)
  target := h.target

theorem reach (h : b.Within g) (progress : Nat) : (b.reach progress).Within g where
  frames frame hframe := by
    cases hf : b.frames with
    | nil =>
        simp only [Branch.reach, hf] at hframe
        cases hframe
    | cons first frames =>
        simp only [Branch.reach, hf, List.modifyHead_cons, List.mem_cons] at hframe
        rcases hframe with rfl | hframe
        · exact h.frames first (by rw [hf]; exact List.mem_cons_self)
        · exact h.frames frame (by rw [hf]; exact List.mem_cons_of_mem _ hframe)
  target := h.target

end Branch.Within

section Kept

variable [DecidableEq σ] {g : Grammar σ τ} {b b' : Branch σ τ}

theorem Cursor.Moves.within {here : Cursor σ τ} (h : here.Moves b b')
    (hb : b.Within here.grammar) : b'.Within here.grammar := by
  have harrived := hb.arrived
  -- The node that is entered next belongs to the one that was entered or is open.
  have hpart : ∀ {id part : NodeId} {node : Node σ τ},
      here.grammar.Reaches here.grammar.start id → here.grammar.nodes[id]? = some node →
      part ∈ node.parts → here.grammar.Reaches here.grammar.start part :=
    fun hid hn hp => hid.tail (.part hn hp)
  have hframe : ∀ {frame : Frame} {frames : List Frame}, b.frames = frame :: frames →
      here.grammar.Reaches here.grammar.start frame.node :=
    fun hf => hb.frames _ (by rw [hf]; exact List.mem_cons_self)
  cases h with
  | pass | skip => exact harrived
  | ignore | shun => exact harrived.via _ _ _
  | wait ht => exact harrived.push (hb.target _ ht) _ _
  | watch ht => exact (harrived.via _ _ _).push (hb.target _ ht) _ _
  | only ht hn hs =>
      exact harrived.aim (hpart (hb.target _ ht) hn (Node.mem_parts_of_series hs (by simp)))
  | first ht hn hs =>
      exact (harrived.push (hb.target _ ht) _ _).aim
        (hpart (hb.target _ ht) hn (Node.mem_parts_of_series hs (by simp)))
  | choose ht hn hc =>
      exact (harrived.via _ _ _).aim (hpart (hb.target _ ht) hn (List.mem_of_getElem? hc))
  | loop ht hn =>
      exact ((harrived.via _ _ _).push (hb.target _ ht) _ _).aim
        (hpart (hb.target _ ht) hn (List.mem_singleton_self _))
  | call ht hn hbody => exact harrived.aim ((hb.target _ ht).tail (.body hn hbody))
  | openFixed ht hn | openFold ht hn =>
      exact (harrived.push (hb.target _ ht) _ _).aim
        (hpart (hb.target _ ht) hn (List.mem_singleton_self _))
  | openMade ht hn =>
      have hlisten := harrived.congr (Branch.listen_frames b.arrived here.position)
        (Branch.listen_target b.arrived here.position)
      exact (hlisten.push (hb.target _ ht) _ _).aim
        (hpart (hb.target _ ht) hn (List.mem_singleton_self _))
  | next ht hf hn hs hp =>
      have hreach := hpart (hframe hf) hn (Node.mem_parts_of_series hs (List.mem_of_getElem? hp))
      split
      · exact hb.pop.aim hreach
      · exact (hb.reach _).aim hreach
  | again ht hf hn =>
      exact ((hb.reach _).via _ _ _).aim (hpart (hframe hf) hn (List.mem_singleton_self _))
  | leave | closeFixed | closeFold => exact hb.pop.congr rfl rfl
  | closeMade =>
      exact hb.pop.congr (Branch.unlisten_frames b.pop) (Branch.unlisten_target b.pop)

theorem Grammar.Takes.target_eq {symbol : σ} (h : g.Takes symbol b b') : b'.target = b.target := by
  cases h with
  | member | any => exact Branch.hear_target _ _
  | run =>
      split
      · exact Branch.hear_target _ _
      · exact Branch.hear_target _ _

theorem Grammar.Takes.within {symbol : σ} (h : g.Takes symbol b b') (hb : b.Within g) :
    b'.Within g := by
  cases h with
  | member | any => exact hb.pop.congr (Branch.hear_frames _ _) (Branch.hear_target _ _)
  | run =>
      split
      · exact hb.pop.congr (Branch.hear_frames _ _) (Branch.hear_target _ _)
      · exact (hb.reach _).congr (Branch.hear_frames _ _) (Branch.hear_target _ _)

theorem Grammar.Runs.within {w : List σ} {n i j : Nat} {e : Branch σ τ}
    (h : g.Runs w n i b j e) (hb : b.Within g) : e.Within g := by
  induction h with
  | refl => exact hb
  | move hmove _ ih => exact ih (hmove.within hb)
  | take _ _ htake _ ih => exact ih (htake.within hb)

end Kept

/-! ## Trees elsewhere in an input -/

section Shift

variable [DecidableEq σ] {g : Grammar σ τ} {u u' : List σ} {d : Nat}

mutual

/-- Where no node looks ahead, a tree of an input is a tree wherever the input stands in
another. -/
theorem Derivation.shift (hg : g.Unguarded) (hu : u <+: u'.drop d) : {id : NodeId} →
    {i j : Nat} → Derivation g u id i j → Nonempty (Derivation g u' id (d + i) (d + j))
  | id, _, _, .of hn form => by
      obtain ⟨form'⟩ := form.shift hg hu fun set hset => hg id set (hset ▸ hn)
      exact ⟨.of hn form'⟩
termination_by structural _ _ _ x => x

theorem Match.shift (hg : g.Unguarded) (hu : u <+: u'.drop d) : {node : Node σ τ} →
    {i j : Nat} → Match g u node i j → (∀ set, node ≠ .guard set) →
    Nonempty (Match g u' node (d + i) (d + j))
  | _, _, _, .empty, _ => ⟨.empty⟩
  | _, _, _, .oneOf hw hs, _ => ⟨.oneOf (getElem?_of_prefix_drop hu hw) hs⟩
  | _, i, _, @Match.literal _ _ _ _ _ run _ hw, _ => by
      have hprefix : run <+: u'.drop (d + i) := by
        rw [← List.drop_drop]
        exact hw.trans (hu.drop i)
      exact ⟨Nat.add_assoc d i run.length ▸ .literal hprefix⟩
  | .guard set, _, _, .guard _, hnode => absurd rfl (hnode set)
  | _, _, _, .seq trees, _ => by
      obtain ⟨trees'⟩ := trees.shift hg hu
      exact ⟨.seq trees'⟩
  | _, _, _, .alt index hc tree, _ => by
      obtain ⟨tree'⟩ := tree.shift hg hu
      exact ⟨.alt index hc tree'⟩
  | _, _, _, .star rounds, _ => by
      obtain ⟨rounds'⟩ := rounds.shift hg hu
      exact ⟨.star rounds'⟩
  | _, _, _, .times trees, _ => by
      obtain ⟨trees'⟩ := trees.shift hg hu
      exact ⟨.times trees'⟩
  | _, _, _, .rule hb tree, _ => by
      obtain ⟨tree'⟩ := tree.shift hg hu
      exact ⟨.rule hb tree'⟩
  | _, _, _, .emit tree, _ => by
      obtain ⟨tree'⟩ := tree.shift hg hu
      exact ⟨.emit tree'⟩
  | _, _, _, .fold tree, _ => by
      obtain ⟨tree'⟩ := tree.shift hg hu
      exact ⟨.fold tree'⟩
  | _, _, _, .pass hp, _ => ⟨.pass hp⟩
  | _, i, _, .observe hc hw, _ => by
      have hnext := getElem?_of_prefix_drop hu (List.getElem?_eq_getElem hw)
      exact ⟨.observe hc (List.getElem?_eq_some_iff.mp hnext).1⟩
termination_by structural _ _ _ x => x

theorem Derivations.shift (hg : g.Unguarded) (hu : u <+: u'.drop d) : {ids : List NodeId} →
    {i j : Nat} → Derivations g u ids i j → Nonempty (Derivations g u' ids (d + i) (d + j))
  | _, _, _, .nil => ⟨.nil⟩
  | _, _, _, .cons tree trees => by
      obtain ⟨tree'⟩ := tree.shift hg hu
      obtain ⟨trees'⟩ := trees.shift hg hu
      exact ⟨.cons tree' trees'⟩
termination_by structural _ _ _ x => x

theorem Rounds.shift (hg : g.Unguarded) (hu : u <+: u'.drop d) : {body : NodeId} →
    {i j : Nat} → Rounds g u body i j → Nonempty (Rounds g u' body (d + i) (d + j))
  | _, _, _, .done => ⟨.done⟩
  | _, _, _, .round tree hlt rounds => by
      obtain ⟨tree'⟩ := tree.shift hg hu
      obtain ⟨rounds'⟩ := rounds.shift hg hu
      exact ⟨.round tree' (Nat.add_lt_add_left hlt d) rounds'⟩
termination_by structural _ _ _ x => x

end

theorem Grammar.Productive.matchesAnywhere {id : NodeId} (h : g.Productive id)
    (hg : g.Unguarded) : g.MatchesAnywhere id := by
  obtain ⟨v, ⟨tree⟩⟩ := h
  exact ⟨v, fun u i hv => tree.shift hg hv⟩

/-- Where no node looks ahead, a node can be closed if all that it leads to is productive. -/
theorem Node.closable_of_productive {id : NodeId} {node : Node σ τ} (hg : g.Unguarded)
    (hn : g.nodes[id]? = some node) (h : ∀ other, g.Reaches id other → g.Productive other) :
    node.Closable g where
  parts parts hs part hpart := by
    have hmem := Node.mem_parts_of_series hs (List.mem_of_mem_tail hpart)
    exact (h part (.single (.part hn hmem))).matchesAnywhere hg
  member set hset := by
    obtain ⟨w, ⟨tree⟩⟩ := h id .refl
    obtain ⟨symbol, -, hsymbol, -⟩ := tree.of_oneOf (hset ▸ hn)
    exact ⟨symbol, hsymbol⟩

theorem Grammar.exists_trees_of_matchesAnywhere {ids : List NodeId}
    (h : ∀ id ∈ ids, g.MatchesAnywhere id) :
    ∃ v : List σ, ∀ (u : List σ) (i : Nat), v <+: u.drop i →
      Nonempty (Derivations g u ids i (i + v.length)) := by
  induction ids with
  | nil => exact ⟨[], fun u i _ => ⟨.nil⟩⟩
  | cons id ids ih =>
      obtain ⟨v, htree⟩ := h id List.mem_cons_self
      obtain ⟨v', htrees⟩ := ih fun other hother => h other (List.mem_cons_of_mem _ hother)
      refine ⟨v ++ v', fun u i hv => ?_⟩
      obtain ⟨hfirst, hrest⟩ := prefix_drop_of_append hv
      obtain ⟨tree⟩ := htree u i hfirst
      obtain ⟨trees⟩ := htrees u (i + v.length) hrest
      rw [List.length_append, ← Nat.add_assoc]
      exact ⟨.cons tree trees⟩

namespace Grammar.MatchesAnywhere

variable {id : NodeId}

theorem oneOf {set : SymbolSet σ} {symbol : σ} (hn : g.nodes[id]? = some (.oneOf set))
    (hs : set.contains symbol = true) : g.MatchesAnywhere id :=
  ⟨[symbol], fun _ _ hv => ⟨.of hn (.oneOf (getElem?_of_prefix_drop (n := 0) hv rfl) hs)⟩⟩

/-- A set of one symbol matches it. -/
theorem symbol {symbol : σ} (hn : g.nodes[id]? = some (.oneOf (.of [symbol]))) :
    g.MatchesAnywhere id :=
  .oneOf hn (SymbolSet.contains_of.mpr List.mem_cons_self)

theorem star {body : NodeId} (hn : g.nodes[id]? = some (.star body)) : g.MatchesAnywhere id :=
  ⟨[], fun _ _ _ => ⟨.of hn (.star .done)⟩⟩

theorem seq {parts : List NodeId} (hn : g.nodes[id]? = some (.seq parts))
    (h : ∀ part ∈ parts, g.MatchesAnywhere part) : g.MatchesAnywhere id := by
  obtain ⟨v, htrees⟩ := exists_trees_of_matchesAnywhere h
  refine ⟨v, fun u i hv => ?_⟩
  obtain ⟨trees⟩ := htrees u i hv
  exact ⟨.of hn (.seq trees)⟩

/-- A node that has a form over another matches what that one matches. -/
theorem through {inner : NodeId} {node : Node σ τ} (h : g.MatchesAnywhere inner)
    (hn : g.nodes[id]? = some node)
    (form : ∀ {u : List σ} {i j : Nat}, Derivation g u inner i j → Match g u node i j) :
    g.MatchesAnywhere id := by
  obtain ⟨v, htree⟩ := h
  refine ⟨v, fun u i hv => ?_⟩
  obtain ⟨tree⟩ := htree u i hv
  exact ⟨.of hn (form tree)⟩

end Grammar.MatchesAnywhere

end Shift

/-! ## Closing what is open -/

section Closing

variable [DecidableEq σ] {g : Grammar σ τ}

/-- After the given position a branch that reads `v` can close its innermost construct, if
that has the given frame. -/
def Frame.ClosesOn (g : Grammar σ τ) (position : Nat) (frame : Frame) (v : List σ) : Prop :=
  ∀ (u : List σ) (i : Nat) (b : Branch σ τ) (base : List Frame), position < i →
    b.frames = frame :: base → b.target = none → b.Hears u i → v <+: u.drop i →
    ∃ n e, g.Runs u n i b (i + v.length) e ∧ e.frames = base ∧ e.target = none

namespace Frame.ClosesOn

variable {position : Nat} {frame : Frame}

/-- A construct that one symbol closes. -/
theorem of_takes {symbol : σ} (h : ∀ (b : Branch σ τ) (base : List Frame),
    b.frames = frame :: base → g.Takes symbol b (b.pop.hear symbol)) :
    frame.ClosesOn g position [symbol] := by
  intro u i b base _ hf ht _ hv
  have hnext : u[i]? = some symbol := getElem?_of_prefix_drop (n := 0) hv rfl
  have hheard := Branch.Leaves.hear ht hf symbol
  exact ⟨1, _, .take ht hnext (h b base hf) .refl, hheard.frames_eq, hheard.target_eq⟩

/-- A construct that one move closes after the given position. -/
theorem of_moves (h : ∀ (u : List σ) (i : Nat) (b : Branch σ τ) (base : List Frame),
    position < i → b.frames = frame :: base → b.target = none →
    ∃ b', (g.cursorAt u i).Moves b b' ∧ b'.frames = base ∧ b'.target = none) :
    frame.ClosesOn g position [] := by
  intro u i b base hi hf ht _ _
  obtain ⟨b', hmove, hf', ht'⟩ := h u i b base hi hf ht
  exact ⟨1, b', .move hmove .refl, hf', ht'⟩

/-- A series is closed by what its parts that are left match. -/
theorem exists_of_series (hg : g.IsBuilt) {node : Node σ τ} {parts : List NodeId}
    (hn : g.nodes[frame.node]? = some node) (hs : node.series? = some parts)
    (hp : frame.progress + 1 < parts.length) (hnode : node.Closable g) :
    ∃ v, frame.ClosesOn g position v := by
  have hleft : ∀ id ∈ parts.drop (frame.progress + 1), g.MatchesAnywhere id := by
    intro id hid
    rw [← List.drop_tail] at hid
    exact hnode.parts parts hs id (List.mem_of_mem_drop hid)
  obtain ⟨v, htrees⟩ := Grammar.exists_trees_of_matchesAnywhere hleft
  refine ⟨v, fun u i b base _ hf ht hb hv => ?_⟩
  obtain ⟨trees⟩ := htrees u i hv
  have hparts : node.series? =
      some (parts.take (frame.progress + 1) ++ parts.drop (frame.progress + 1)) := by
    rw [List.take_append_drop]
    exact hs
  have hopen : b.frames = openSeries frame base (parts.drop (frame.progress + 1)) := by
    rw [List.drop_eq_getElem_cons hp]
    exact hf
  have hdone : frame.progress + 1 = (parts.take (frame.progress + 1)).length := by
    rw [List.length_take]
    omega
  obtain ⟨n, e, hruns, hleaves⟩ := trees.runs hg hn hparts ht hopen rfl hdone hb
  exact ⟨n, e, hruns, hleaves.frames_eq, hleaves.target_eq⟩

/-- A run of symbols is closed by those that are left. -/
theorem of_literal {run : List σ} (hn : g.nodes[frame.node]? = some (.literal run))
    (hp : frame.progress < run.length) : frame.ClosesOn g position (run.drop frame.progress) := by
  intro u i b base _ hf ht _ hv
  have hopen : b.frames = openSeries frame base (run.drop frame.progress) := by
    rw [List.drop_eq_getElem_cons hp]
    exact hf
  obtain ⟨n, e, hruns, hleaves⟩ := runs_literal hn rfl ht hopen hv
  exact ⟨n, e, hruns, hleaves.frames_eq, hleaves.target_eq⟩

end Frame.ClosesOn

/-- Every frame of a stack can be closed.  The symbol is one for observers to take. -/
theorem Frame.Fits.closes {position : Nat} {frame : Frame} (h : frame.Fits g position)
    (hg : g.IsBuilt) (hnode : ∀ node, g.nodes[frame.node]? = some node → node.Closable g)
    (symbol : σ) : ∃ v, frame.ClosesOn g position v := by
  cases h with
  | series hn hs hp => exact ClosesOn.exists_of_series hg hn hs hp (hnode _ hn)
  | star hn hp =>
      refine ⟨[], .of_moves fun u i b base hi hf ht => ?_⟩
      -- The round that is open has consumed something, so the loop can be left.
      have hround : frame.progress ≠ i := by omega
      exact ⟨_, .leave ht hf hn hround, congrArg List.tail hf, ht⟩
  | oneOf hn =>
      obtain ⟨member, hmember⟩ := (hnode _ hn).member _ rfl
      exact ⟨[member], .of_takes fun b base hf => .member hf hn hmember⟩
  | literal hn hp => exact ⟨_, .of_literal hn hp⟩
  | observe hn hc => exact ⟨[symbol], .of_takes fun b base hf => .any hf hn hc⟩
  | @emit body yields hn =>
      refine ⟨[], .of_moves fun u i b base _ hf ht => ?_⟩
      cases yields with
      | fixed token => exact ⟨_, .closeFixed ht hf hn, congrArg List.tail hf, ht⟩
      | ofSymbols make =>
          exact ⟨_, .closeMade ht hf hn, (Branch.unlisten_frames _).trans (congrArg List.tail hf),
            (Branch.unlisten_target _).trans ht⟩
  | fold hn =>
      exact ⟨[], .of_moves fun u i b base _ hf ht =>
        ⟨_, .closeFold ht hf hn, congrArg List.tail hf, ht⟩⟩

/-- A stack of frames can be closed from the innermost to the outermost. -/
theorem exists_completion (hg : g.IsBuilt) (symbol : σ) {position : Nat} {frames : List Frame}
    (hfit : ∀ frame ∈ frames, frame.Fits g position)
    (hnode : ∀ frame ∈ frames, ∀ node, g.nodes[frame.node]? = some node → node.Closable g) :
    ∃ v : List σ, ∀ (u : List σ) (i : Nat) (b : Branch σ τ), position < i → b.frames = frames →
      b.target = none → b.Hears u i → v <+: u.drop i →
      ∃ n e, g.Runs u n i b (i + v.length) e ∧ e.isDone = true := by
  induction frames with
  | nil =>
      refine ⟨[], fun u i b _ hf ht _ _ => ?_⟩
      exact ⟨0, b, .refl, Branch.isDone_iff.mpr ⟨hf, ht⟩⟩
  | cons frame base ih =>
      obtain ⟨v, hclose⟩ := (hfit frame List.mem_cons_self).closes hg
        (hnode frame List.mem_cons_self) symbol
      obtain ⟨v', hrest⟩ := ih (fun other hother => hfit other (List.mem_cons_of_mem _ hother))
        fun other hother => hnode other (List.mem_cons_of_mem _ hother)
      refine ⟨v ++ v', fun u i b hi hf ht hb hv => ?_⟩
      obtain ⟨hfirst, hlater⟩ := prefix_drop_of_append hv
      obtain ⟨n, b', hruns, hf', ht'⟩ := hclose u i b base hi hf ht hb hfirst
      obtain ⟨m, e, hruns', hdone⟩ :=
        hrest u (i + v.length) b' (by omega) hf' ht' (hruns.hears hb) hlater
      rw [List.length_append, ← Nat.add_assoc]
      exact ⟨_, e, hruns.trans hruns', hdone⟩

end Closing

/-! ## Live branches -/

namespace Forest

variable [DecidableEq σ] {f : Forest σ τ} {g : Grammar σ τ}

/-- A branch that has just taken a symbol has nothing to enter, and its frames fitted before
the symbol. -/
theorem Free.fits_before {symbol : σ} (hf : f.Free) {b : Branch σ τ}
    (hb : b ∈ (f.advanced symbol).branches) : b.Fits f.grammar f.consumed ∧ b.target = none := by
  obtain ⟨b₀, hb₀, r, hvisit, hstop, htake⟩ := hf.mem_advanced_iff.mp hb
  have hg : (f.cursor (some symbol)).grammar.IsBuilt := hf.built
  have hrest : r.Fits f.grammar f.consumed := hvisit.fits hg (hf.fits b₀ hb₀)
  refine ⟨htake.fits_before hrest, ?_⟩
  exact htake.target_eq.trans (Cursor.target_of_move_eq_none hstop)

theorem Free.exists_fits_before : ∀ {symbols : List σ} {f : Forest σ τ}, f.Free →
    f.consumed + symbols.length ≤ maxCount → symbols ≠ [] →
    ∀ b ∈ (f.takeAll symbols).forest.branches,
      (∃ position < f.consumed + symbols.length, b.Fits f.grammar position) ∧ b.target = none
  | [], _, _, _, hne => absurd rfl hne
  | symbol :: symbols, f, hf, hcount, _ => by
      intro b hb
      rw [List.length_cons] at hcount ⊢
      obtain ⟨hok, hforest⟩ := hf.take (by omega) symbol
      rw [(takeAll_cons hok).2, hforest] at hb
      cases symbols with
      | nil =>
          obtain ⟨hfit, htarget⟩ := hf.fits_before hb
          exact ⟨⟨f.consumed, by simp, hfit⟩, htarget⟩
      | cons second symbols =>
          have hmore : (f.advanced symbol).consumed + (second :: symbols).length =
              f.consumed + ((second :: symbols).length + 1) := by
            show f.consumed + 1 + _ = _
            omega
          rw [← hmore] at hcount ⊢
          exact Free.exists_fits_before (hf.advanced symbol) hcount (List.cons_ne_nil _ _) b hb

/-- A live branch can be completed if every node that it can have open can be closed. -/
theorem exists_continuation_of_closable (hg : g.IsBuilt) (hstart : g.Productive g.start)
    (hopen : ∀ id node, g.Reaches g.start id → g.nodes[id]? = some node → node.Closable g)
    {w : List σ} (hw : w.length ≤ maxCount)
    (hlive : ((Forest.new g .unlimited).takeAll w).forest.isHopeless = false) :
    ∃ v, Nonempty (Derivation g (w ++ v) g.start 0 (w ++ v).length) := by
  cases hsymbols : w with
  | nil => exact hstart
  | cons symbol rest =>
      rw [← hsymbols]
      have hcount : (Forest.new g .unlimited).consumed + w.length ≤ maxCount := by
        simpa [Forest.new] using hw
      obtain ⟨b, hb⟩ := List.exists_mem_of_ne_nil _ (List.isEmpty_eq_false_iff.mp hlive)
      obtain ⟨⟨position, hbefore, hfit⟩, htarget⟩ := (Free.new hg).exists_fits_before hcount
        (by rw [hsymbols]; exact List.cons_ne_nil _ _) b hb
      have hzero : (Forest.new g .unlimited).consumed + w.length = w.length := Nat.zero_add _
      rw [hzero] at hbefore
      -- Whatever follows, the branch is run through the symbols that were taken.
      have hrun : ∀ v, ∃ n, g.Runs (w ++ v) n 0 (.start g.start) w.length b := by
        intro v
        have hiff := (Free.new hg).exists_branch_iff (e := b) (List.prefix_append w v) hcount
          (Nat.le_refl _)
        rw [hzero] at hiff
        obtain ⟨b₀, hb₀, n, hruns⟩ := hiff.mp ⟨b, hb, 0, .refl⟩
        cases List.mem_singleton.mp hb₀
        exact ⟨n, hruns⟩
      have hwithin : b.Within g := by
        obtain ⟨n, hruns⟩ := hrun []
        exact hruns.within (.start g)
      obtain ⟨v, hcomplete⟩ := exists_completion hg symbol hfit
        fun frame hframe node => hopen frame.node node (hwithin.frames frame hframe)
      obtain ⟨n, hruns⟩ := hrun v
      obtain ⟨m, e, hruns', hdone⟩ := hcomplete (w ++ v) w.length b hbefore rfl htarget
        (hruns.hears (Branch.start_hears g.start (w ++ v))) (by rw [List.drop_left])
      rw [← List.length_append] at hruns'
      obtain ⟨tree, -⟩ := (hruns.trans hruns').exists_tree hg hdone
      exact ⟨v, ⟨tree⟩⟩

/-- A live branch can be completed. -/
theorem exists_continuation (hg : g.IsBuilt) (hguard : g.Unguarded) (htrim : g.Trim) {w : List σ}
    (hw : w.length ≤ maxCount)
    (hlive : ((Forest.new g .unlimited).takeAll w).forest.isHopeless = false) :
    ∃ v, Nonempty (Derivation g (w ++ v) g.start 0 (w ++ v).length) := by
  refine exists_continuation_of_closable hg (htrim g.start .refl) (fun id node hid hn => ?_) hw
    hlive
  exact Node.closable_of_productive hguard hn fun other hother => htrim other (hid.trans hother)

/-- Every derivation of a longer input runs through a live branch. -/
theorem not_isHopeless_of_derivation (hg : g.IsBuilt) {w v : List σ} (hw : w.length ≤ maxCount)
    (tree : Derivation g (w ++ v) g.start 0 (w ++ v).length) :
    ((Forest.new g .unlimited).takeAll w).forest.isHopeless = false := by
  have hcount : (Forest.new g .unlimited).consumed + w.length ≤ maxCount := by
    simpa [Forest.new] using hw
  obtain ⟨n, e, hruns, -, -⟩ := tree.exists_run hg
  have hiff := (Free.new hg).exists_branch_iff (j := (w ++ v).length) (e := e)
    (List.prefix_append w v) hcount (by simp [Forest.new])
  obtain ⟨b, hb, -⟩ := hiff.mpr ⟨_, List.mem_singleton.mpr rfl, n, hruns⟩
  exact List.isEmpty_eq_false_iff.mpr (List.ne_nil_of_mem hb)

/-- Once no branch is live, no continuation of the input has a derivation.  Where no node
looks ahead and every node that the start leads to matches something, the converse holds:
as long as a branch is live, some continuation has a derivation.  An input of more symbols
than can be counted is not taken. -/
theorem isHopeless_iff_no_continuation (hg : g.IsBuilt) (w : List σ) :
    let fed := (Forest.new g .unlimited).takeAll w
    (w.length ≤ maxCount →
      fed.result = .ok () ∧
      (fed.forest.isHopeless = true →
        ∀ v, IsEmpty (Derivation g (w ++ v) g.start 0 (w ++ v).length)) ∧
      (g.Unguarded → g.Trim →
        (fed.forest.isHopeless = false ↔
          ∃ v, Nonempty (Derivation g (w ++ v) g.start 0 (w ++ v).length)))) ∧
    (maxCount < w.length → fed.result = .error (.tooManySymbols (maxCount + 1) maxCount)) := by
  intro fed
  refine ⟨fun hw => ⟨?_, fun hhopeless v => ⟨fun tree => ?_⟩, fun hguard htrim => ⟨?_, ?_⟩⟩,
    fun hw => ?_⟩
  · exact (exists_trees hg hw).1
  · exact Bool.false_ne_true ((not_isHopeless_of_derivation hg hw tree).symm.trans hhopeless)
  · exact exists_continuation hg hguard htrim hw
  · intro ⟨v, ⟨tree⟩⟩
    exact not_isHopeless_of_derivation hg hw tree
  · exact (Free.new hg).takeAll_of_gt (Nat.zero_le _) (by simpa [Forest.new] using hw)

/-- After the first of two symbols that a loop repeats, something can follow. -/
theorem isHopeless_iff_no_continuation_loop :
    ∃ g : Grammar Char Nat, g.IsBuilt ∧ g.Unguarded ∧ g.Trim ∧
      ∃ v, Nonempty (Derivation g (['a'] ++ v) g.start 0 (['a'] ++ v).length) := by
  let g : Grammar Char Nat := ⟨#[.literal ['a', 'b'], .star 0], #[], #[false, true], 1⟩
  have hg : g.IsBuilt := ⟨.new, .star (.literal ['a', 'b']), .new, rfl⟩
  have hguard : g.Unguarded := by
    intro id set hn
    match id with
    | 0 => cases hn
    | 1 => cases hn
    | id + 2 => cases hn
  have htrim : g.Trim := by
    intro id hid
    have hnodes : id = 0 ∨ id = 1 := by
      induction hid with
      | refl => exact .inr rfl
      | tail _ hchild ih =>
          rcases ih with rfl | rfl
          · cases hchild with
            | part hn hp =>
                cases hn
                cases hp
            | body hn => cases hn
          · cases hchild with
            | part hn hp =>
                cases hn
                exact .inl (List.mem_singleton.mp hp)
            | body hn => cases hn
    rcases hnodes with rfl | rfl
    · exact ⟨['a', 'b'], ⟨.of rfl (.literal (List.prefix_refl _))⟩⟩
    · exact ⟨[], ⟨.of rfl (.star .done)⟩⟩
  obtain ⟨-, -, hiff⟩ := (isHopeless_iff_no_continuation hg ['a']).1 (by decide)
  exact ⟨g, hg, hguard, htrim, (hiff hguard htrim).mp (by decide +kernel)⟩

end Forest

end Ramify
