import Mathlib.Algebra.Group.Nat.Defs
import Ramify.Parse.Unfold
import Ramify.Proofs.Moves

/-!
# A measure that every move lowers

The moves of a branch between two symbols come to an end.  `Cursor.cost` bounds how
many of them are left along one way, and `Cursor.Moves.cost_lt` says that each move
lowers it.

The cost of entering a node is a power of the spread of the grammar whose exponent is
the rank of the node.  A node enters only its left corners before a symbol is taken,
they have a smaller rank, and the spread is large enough to pay for all of them.  What
lies below a node on the stack is paid for only if the node can match the empty text:
a branch does not come back out of another node before it has taken a symbol.  This is
where the marks of `Nullable.compute` come in, and all that is needed of them is that
they are closed.

A loop that went round without taking a symbol dies when its round ends, so the
cost of returning into it does not count what lies below.

`Cursor.cost_lt_fuel` says that the fuel which `Cursor.unfold` gives to a branch is
more than its cost.
-/

namespace Ramify

variable {σ τ : Type}

/-! ## The spread -/

theorem le_foldl_max {α : Type} (f : α → Nat) :
    ∀ (xs : List α) (least : Nat), least ≤ xs.foldl (fun most x => max most (f x)) least ∧
      ∀ x ∈ xs, f x ≤ xs.foldl (fun most x => max most (f x)) least
  | [], least => ⟨Nat.le_refl least, by simp⟩
  | x :: xs, least => by
      obtain ⟨hstart, hrest⟩ := le_foldl_max f xs (max least (f x))
      refine ⟨Nat.le_trans (Nat.le_max_left least (f x)) hstart, ?_⟩
      intro y hy
      rcases List.mem_cons.mp hy with rfl | hy
      · exact Nat.le_trans (Nat.le_max_right least (f y)) hstart
      · exact hrest y hy

namespace Grammar

variable {g : Grammar σ τ}

/-- The spread pays twice for every part of a node, and for three more. -/
theorem arity_le_spread {id : NodeId} {node : Node σ τ} (hn : g.nodes[id]? = some node) :
    2 * node.arity + 3 ≤ g.spread := by
  have hmem : node ∈ g.nodes.toList := Array.mem_def.mp (Array.mem_of_getElem? hn)
  have hle := (le_foldl_max Node.arity g.nodes.toList 0).2 node hmem
  rw [Array.foldl_toList] at hle
  unfold Grammar.spread
  omega

theorem three_le_spread (g : Grammar σ τ) : 3 ≤ g.spread := by
  unfold Grammar.spread
  omega

/-! ## Entering a node -/

/-- The cost of entering a node. -/
noncomputable def entry (g : Grammar σ τ) (id : NodeId) : Nat := g.spread ^ g.rank id

theorem entry_pos (g : Grammar σ τ) (id : NodeId) : 0 < g.entry id :=
  Nat.pow_pos (by have := g.three_le_spread; omega)

theorem entry_le (g : Grammar σ τ) (id : NodeId) : g.entry id ≤ g.spread ^ g.nodes.size :=
  Nat.pow_le_pow_right (by have := g.three_le_spread; omega) (g.rank_le id)

theorem pay_le {count unit : Nat} (h : 0 < unit) :
    count * (unit + 1) + unit + 2 ≤ (2 * count + 3) * unit := by
  have hcount : count ≤ count * unit := Nat.le_mul_of_pos_right count h
  calc count * (unit + 1) + unit + 2 = count * unit + count + unit + 2 := by rw [Nat.mul_succ]
    _ ≤ 2 * (count * unit) + 3 * unit := by omega
    _ = (2 * count + 3) * unit := by rw [Nat.add_mul, Nat.mul_assoc]

/-- The cost of a node pays for its left corners, each as dear as `unit` at most, as often
as it has parts and once more. -/
theorem exists_unit (hwf : WellFounded g.LeftCorner) {id : NodeId} {node : Node σ τ}
    (hn : g.nodes[id]? = some node) :
    ∃ unit, 0 < unit ∧ (∀ corner, g.LeftCorner corner id → g.entry corner ≤ unit) ∧
      node.arity * (unit + 1) + unit + 2 ≤ g.entry id := by
  have hspread : 0 < g.spread := by have := g.three_le_spread; omega
  have hrank : 0 < g.rank id := by
    classical
    refine Finset.card_pos.mpr ⟨id, Finset.mem_filter.mpr ⟨?_, .refl⟩⟩
    exact Finset.mem_range.mpr (Array.getElem?_eq_some_iff.mp hn).1
  have hpos : 0 < g.spread ^ (g.rank id - 1) := Nat.pow_pos hspread
  refine ⟨g.spread ^ (g.rank id - 1), hpos, ?_, ?_⟩
  · intro corner hcorner
    have hlt := g.rank_lt hwf hcorner
    exact Nat.pow_le_pow_right hspread (by omega)
  · have hentry : g.entry id = g.spread * g.spread ^ (g.rank id - 1) := by
      rw [Nat.mul_comm, ← Nat.pow_succ, Nat.succ_eq_add_one, Nat.sub_add_cancel hrank, entry]
    rw [hentry]
    exact Nat.le_trans (pay_le hpos) (Nat.mul_le_mul_right _ (arity_le_spread hn))

theorem entry_lt (hwf : WellFounded g.LeftCorner) {corner id : NodeId}
    (h : g.LeftCorner corner id) : g.entry corner < g.entry id :=
  Nat.pow_lt_pow_right (by have := g.three_le_spread; omega) (g.rank_lt hwf h)

/-- The cost of running through parts, where returning out of the last costs `rest`. -/
noncomputable def seriesCost (g : Grammar σ τ) (rest : Nat) : List NodeId → Nat
  | [] => rest
  | part :: parts =>
    g.entry part + 1 + if g.isNullable part then g.seriesCost rest parts else 0

/-- Parts cost what is entered of them, and `rest` only if all can match the empty text. -/
theorem seriesCost_le (rest unit : Nat) :
    ∀ (parts : List NodeId), (∀ part ∈ g.leadingParts parts, g.entry part ≤ unit) →
      g.seriesCost rest parts ≤
        parts.length * (unit + 1) + if parts.all g.isNullable then rest else 0
  | [], _ => by simp [seriesCost]
  | part :: parts, h => by
      have hpart : g.entry part ≤ unit := h part (by simp [leadingParts])
      rw [seriesCost, List.length_cons, Nat.succ_mul, List.all_cons]
      by_cases hnull : g.isNullable part = true
      · have ih := seriesCost_le rest unit parts fun other hother =>
          h other (by simp [leadingParts, hnull, hother])
        simp only [hnull, if_true, Bool.true_and]
        omega
      · simp only [Bool.not_eq_true] at hnull
        simp only [hnull, Bool.false_eq_true, if_false, Bool.false_and]
        omega

/-- The parts of a series that can be entered before a symbol are left corners. -/
theorem leftCorner_of_leading {id part : NodeId} {node : Node σ τ} {parts : List NodeId}
    (hn : g.nodes[id]? = some node) (hs : node.series? = some parts)
    (h : part ∈ g.leadingParts parts) : g.LeftCorner part id := by
  cases node with
  | seq =>
      cases hs
      simpa only [LeftCorner, leftCorners, hn] using h
  | times body count =>
      cases hs
      obtain ⟨hcount, rfl⟩ := List.mem_replicate.mp (mem_of_mem_leadingParts h)
      simp [LeftCorner, leftCorners, hn, hcount]
  | empty | oneOf | literal | guard | alt | star | rule | emit | fold | observe => cases hs

/-- A series of parts that can all match the empty text can match it too. -/
theorem holds_of_series {node : Node σ τ} {parts : List NodeId} (hs : node.series? = some parts)
    (h : parts.all g.isNullable = true) : Nullable.holds g.rules g.nullable node = true := by
  cases node with
  | seq =>
      cases hs
      exact h
  | times body count =>
      cases hs
      cases count with
      | zero => rfl
      | succ count =>
          rw [List.replicate_succ, List.all_cons, Bool.and_eq_true] at h
          simp only [Nullable.holds, Bool.or_eq_true]
          exact Or.inr h.1
  | empty | oneOf | literal | guard | alt | star | rule | emit | fold | observe => cases hs

theorem length_eq_arity {node : Node σ τ} {parts : List NodeId} (hs : node.series? = some parts) :
    parts.length = node.arity := by
  cases node with
  | seq => cases hs; rfl
  | times body count => cases hs; exact List.length_replicate
  | empty | oneOf | literal | guard | alt | star | rule | emit | fold | observe => cases hs

end Grammar

/-! ## Returning, and the cost of a branch -/

namespace Cursor

/-- The cost of returning into the innermost of some frames. -/
noncomputable def returnCost (here : Cursor σ τ) : List Frame → Nat
  | [] => 0
  | frame :: frames =>
    match here.grammar.nodes[frame.node]? with
    | none => 0
    | some (.star body) =>
      if frame.progress = here.position then 1
      else here.grammar.entry body + 2 + here.returnCost frames
    | some node =>
      if node.consumes then 0
      else
        match node.series? with
        | some parts =>
          1 + here.grammar.seriesCost (here.returnCost frames) (parts.drop (frame.progress + 1))
        | none => 1 + here.returnCost frames

/-- The cost of entering a node above some frames. -/
noncomputable def enterCost (here : Cursor σ τ) (id : NodeId) (frames : List Frame) : Nat :=
  here.grammar.entry id + if here.grammar.isNullable id then here.returnCost frames else 0

/-- A bound on the moves that a branch makes along one way. -/
noncomputable def cost (here : Cursor σ τ) (b : Branch σ τ) : Nat :=
  match b.target with
  | some id => here.enterCost id b.frames
  | none => here.returnCost b.frames

variable {here : Cursor σ τ} {frame : Frame} {frames : List Frame}

theorem returnCost_consumes (frame : Frame) {node : Node σ τ}
    (hn : here.grammar.nodes[frame.node]? = some node) (hc : node.consumes = true) :
    here.returnCost (frame :: frames) = 0 := by
  cases node with
  | oneOf | literal | observe => simp [returnCost, hn, hc]
  | empty | guard | seq | alt | star | times | rule | emit | fold => cases hc

theorem returnCost_series (frame : Frame) {node : Node σ τ} {parts : List NodeId}
    (hn : here.grammar.nodes[frame.node]? = some node) (hs : node.series? = some parts) :
    here.returnCost (frame :: frames) =
      1 + here.grammar.seriesCost (here.returnCost frames) (parts.drop (frame.progress + 1)) := by
  cases node with
  | seq | times =>
      cases hs
      simp [returnCost, hn, Node.consumes, Node.series?]
  | empty | oneOf | literal | guard | alt | star | rule | emit | fold | observe => cases hs

theorem returnCost_star (frame : Frame) {body : NodeId}
    (hn : here.grammar.nodes[frame.node]? = some (.star body)) :
    here.returnCost (frame :: frames) =
      if frame.progress = here.position then 1
      else here.grammar.entry body + 2 + here.returnCost frames := by
  simp [returnCost, hn]

theorem returnCost_emit (frame : Frame) {body : NodeId} {yields : Yield σ τ}
    (hn : here.grammar.nodes[frame.node]? = some (.emit body yields)) :
    here.returnCost (frame :: frames) = 1 + here.returnCost frames := by
  simp [returnCost, hn, Node.consumes, Node.series?]

theorem returnCost_fold (frame : Frame) {body : NodeId} {merge : List τ → τ}
    (hn : here.grammar.nodes[frame.node]? = some (.fold body merge)) :
    here.returnCost (frame :: frames) = 1 + here.returnCost frames := by
  simp [returnCost, hn, Node.consumes, Node.series?]

/-- Entering a node instead of one that it is a left corner of is cheaper, if the other
can match the empty text whenever the node can. -/
theorem enterCost_lt {corner id : NodeId} (hwf : WellFounded here.grammar.LeftCorner)
    (h : here.grammar.LeftCorner corner id)
    (hnull : here.grammar.isNullable corner = true → here.grammar.isNullable id = true) :
    here.enterCost corner frames < here.enterCost id frames := by
  have hlt := Grammar.entry_lt hwf h
  unfold Cursor.enterCost
  by_cases hc : here.grammar.isNullable corner = true
  · simp only [hc, hnull hc, if_true]
    omega
  · rw [if_neg hc]
    omega

/-- Running through the parts of a series is cheaper than entering its node. -/
theorem seriesCost_lt {id : NodeId} {node : Node σ τ} {parts : List NodeId}
    (hg : here.grammar.IsBuilt) (hn : here.grammar.nodes[id]? = some node)
    (hs : node.series? = some parts) :
    here.grammar.seriesCost (here.returnCost frames) parts < here.enterCost id frames := by
  obtain ⟨unit, hpos, hcorner, hunit⟩ := Grammar.exists_unit hg.wellFounded_leftCorner hn
  have hle := Grammar.seriesCost_le (here.returnCost frames) unit parts fun part hpart =>
    hcorner part (Grammar.leftCorner_of_leading hn hs hpart)
  rw [Grammar.length_eq_arity hs] at hle
  unfold Cursor.enterCost
  by_cases hall : parts.all here.grammar.isNullable = true
  · rw [if_pos hall] at hle
    rw [if_pos (hg.isNullable hn (Grammar.holds_of_series hs hall))]
    omega
  · rw [if_neg hall] at hle
    omega

/-- Coming out of a node that can match the empty text is cheaper than entering it. -/
theorem returnCost_lt_enterCost {id : NodeId} (hnull : here.grammar.isNullable id = true) :
    here.returnCost frames < here.enterCost id frames := by
  have := here.grammar.entry_pos id
  unfold Cursor.enterCost
  rw [if_pos hnull]
  omega

/-- Opening a construct that closes by one more move is cheaper than entering its node. -/
theorem open_lt {id body : NodeId} {node : Node σ τ} (hg : here.grammar.IsBuilt)
    (hn : here.grammar.nodes[id]? = some node) (hbody : here.grammar.LeftCorner body id)
    (hnull : here.grammar.isNullable body = true → here.grammar.isNullable id = true)
    (hreturn : here.returnCost (frame :: frames) = 1 + here.returnCost frames) :
    here.enterCost body (frame :: frames) < here.enterCost id frames := by
  obtain ⟨unit, hpos, hcorner, hunit⟩ := Grammar.exists_unit hg.wellFounded_leftCorner hn
  have hle := hcorner body hbody
  unfold Cursor.enterCost
  rw [hreturn]
  by_cases hb : here.grammar.isNullable body = true
  · rw [if_pos hb, if_pos (hnull hb)]
    omega
  · rw [if_neg hb]
    omega

/-- Waiting for a symbol is cheaper than entering the node that waits for it. -/
theorem returnCost_lt_of_consumes {id : NodeId} {node : Node σ τ}
    (hn : here.grammar.nodes[id]? = some node) (hc : node.consumes = true)
    (progress before count : Nat) :
    here.returnCost (⟨id, progress, before, count⟩ :: frames) < here.enterCost id frames := by
  rw [returnCost_consumes ⟨id, progress, before, count⟩ hn hc]
  exact Nat.lt_of_lt_of_le (here.grammar.entry_pos id) (Nat.le_add_right _ _)

/-- Entering the first of several parts is cheaper than entering the series. -/
theorem enterCost_first_lt {id part second : NodeId} {parts : List NodeId} {node : Node σ τ}
    (hg : here.grammar.IsBuilt) (hn : here.grammar.nodes[id]? = some node)
    (hs : node.series? = some (part :: second :: parts)) (before count : Nat) :
    here.enterCost part (⟨id, 0, before, count⟩ :: frames) < here.enterCost id frames := by
  refine Nat.lt_of_le_of_lt ?_ (seriesCost_lt hg hn hs)
  rw [Cursor.enterCost, returnCost_series ⟨id, 0, before, count⟩ hn hs, Grammar.seriesCost]
  split
  · simp only [Nat.zero_add, List.drop_succ_cons, List.drop_zero]
    omega
  · omega

/-- Entering the next part of a series is cheaper than returning into the series. -/
theorem enterCost_next_lt {part : NodeId} {parts : List NodeId} {node : Node σ τ}
    (hn : here.grammar.nodes[frame.node]? = some node) (hs : node.series? = some parts)
    (hp : parts[frame.progress + 1]? = some part) :
    here.enterCost part ({ frame with progress := frame.progress + 1 } :: frames) <
      here.returnCost (frame :: frames) := by
  obtain ⟨hlt, hpart⟩ := List.getElem?_eq_some_iff.mp hp
  rw [returnCost_series frame hn hs, List.drop_eq_getElem_cons hlt, hpart, Grammar.seriesCost,
    Cursor.enterCost, returnCost_series { frame with progress := frame.progress + 1 } hn hs]
  simp only
  split
  · omega
  · omega

/-- The last part of a series is entered above what lies below the series, and that is
cheaper than returning into it. -/
theorem enterCost_last_lt {part : NodeId} {parts : List NodeId} {node : Node σ τ}
    (hn : here.grammar.nodes[frame.node]? = some node) (hs : node.series? = some parts)
    (hp : parts[frame.progress + 1]? = some part) (hlast : frame.progress + 2 = parts.length) :
    here.enterCost part frames < here.returnCost (frame :: frames) := by
  obtain ⟨hlt, hpart⟩ := List.getElem?_eq_some_iff.mp hp
  rw [returnCost_series frame hn hs, List.drop_eq_getElem_cons hlt, hpart, Cursor.enterCost,
    List.drop_of_length_le (by omega), Grammar.seriesCost, Grammar.seriesCost]
  omega

/-- A round costs what its body costs: a loop that took no symbol in it dies. -/
theorem enterCost_round_le {body : NodeId}
    (hn : here.grammar.nodes[frame.node]? = some (.star body))
    (hp : frame.progress = here.position) :
    here.enterCost body (frame :: frames) ≤ here.grammar.entry body + 1 := by
  rw [Cursor.enterCost, returnCost_star frame hn, if_pos hp]
  split
  · exact Nat.le_refl _
  · exact Nat.le_succ _

/-- Entering the first round of a loop is cheaper than entering the loop. -/
theorem enterCost_loop_lt {id body : NodeId} (hg : here.grammar.IsBuilt)
    (hn : here.grammar.nodes[id]? = some (.star body)) (before count : Nat) :
    here.enterCost body (⟨id, here.position, before, count⟩ :: frames) <
      here.enterCost id frames := by
  obtain ⟨unit, -, hcorner, hunit⟩ := Grammar.exists_unit hg.wellFounded_leftCorner hn
  have hbody := hcorner body (by simp [Grammar.LeftCorner, Grammar.leftCorners, hn])
  have hround : here.enterCost body (⟨id, here.position, before, count⟩ :: frames) ≤
      here.grammar.entry body + 1 := enterCost_round_le hn rfl
  have hentry : here.grammar.entry id ≤ here.enterCost id frames := Nat.le_add_right _ _
  omega

section Lowered

variable {b b' : Branch σ τ}

theorem cost_of_target {id : NodeId} (ht : b.target = some id) :
    here.cost b = here.enterCost id b.frames := by
  rw [Cursor.cost, ht]

theorem cost_of_frames (ht : b.target = none) (hf : b.frames = frames) :
    here.cost b = here.returnCost frames := by
  rw [Cursor.cost, ht, hf]

/-- Closing a construct by one move is cheaper than returning into it. -/
theorem cost_lt_of_closes (ht : b.target = none) (hf : b.frames = frame :: frames)
    (ht' : b'.target = none) (hf' : b'.frames = frames)
    (hreturn : here.returnCost (frame :: frames) = 1 + here.returnCost frames) :
    here.cost b' < here.cost b := by
  rw [cost_of_frames ht hf, cost_of_frames ht' hf', hreturn, Nat.add_comm]
  exact Nat.lt_succ_self _

variable [DecidableEq σ]

/-- A node that matches the empty text here is marked. -/
theorem isNullable_of_passes {id : NodeId} {node : Node σ τ} (hg : here.grammar.IsBuilt)
    (hn : here.grammar.nodes[id]? = some node) (hp : here.passes node = true) :
    here.grammar.isNullable id = true := by
  refine hg.isNullable hn ?_
  cases node with
  | empty | guard => rfl
  | observe observer =>
      obtain ⟨hc, -⟩ := Bool.and_eq_true_iff.mp hp
      simp only [Nullable.holds, hc, Bool.true_or]
  | oneOf | literal | seq | alt | star | times | rule | emit | fold => cases hp

/-- Every move lowers the cost. -/
theorem Moves.cost_lt (h : here.Moves b b') (hg : here.grammar.IsBuilt) :
    here.cost b' < here.cost b := by
  have hwf := hg.wellFounded_leftCorner
  cases h with
  | pass ht hn hp =>
      rw [cost_of_target ht]
      exact returnCost_lt_enterCost (isNullable_of_passes hg hn hp)
  | wait ht hn hw =>
      rw [cost_of_target ht]
      exact returnCost_lt_of_consumes hn (Node.consumes_of_waits hw) _ _ _
  | watch ht hn hc hp =>
      rw [cost_of_target ht]
      exact returnCost_lt_of_consumes hn hc _ _ _
  | ignore ht hn hc hp =>
      rw [cost_of_target ht]
      exact returnCost_lt_enterCost (hg.isNullable hn (by simp [Nullable.holds, hp]))
  | skip ht hn hs =>
      rw [cost_of_target ht]
      exact returnCost_lt_enterCost (hg.isNullable hn (Grammar.holds_of_series hs rfl))
  | only ht hn hs =>
      rw [cost_of_target ht]
      refine enterCost_lt hwf (Grammar.leftCorner_of_leading hn hs (by simp [Grammar.leadingParts]))
        fun hnull => hg.isNullable hn (Grammar.holds_of_series hs ?_)
      rw [List.all_cons, hnull]
      rfl
  | first ht hn hs =>
      rw [cost_of_target ht]
      exact enterCost_first_lt hg hn hs _ _
  | choose ht hn hc ha =>
      rw [cost_of_target ht]
      refine enterCost_lt hwf ?_ fun hnull => hg.isNullable hn ?_
      · simpa only [Grammar.LeftCorner, Grammar.leftCorners, hn] using List.mem_of_getElem? hc
      · exact List.any_eq_true.mpr ⟨_, List.mem_of_getElem? hc, hnull⟩
  | loop ht hn =>
      rw [cost_of_target ht]
      exact enterCost_loop_lt hg hn _ _
  | shun ht hn =>
      rw [cost_of_target ht]
      exact returnCost_lt_enterCost (hg.isNullable hn rfl)
  | call ht hn hb =>
      rw [cost_of_target ht]
      refine enterCost_lt hwf ?_ fun hnull => hg.isNullable hn ?_
      · simp [Grammar.LeftCorner, Grammar.leftCorners, hn, hb]
      · obtain ⟨rule, hrule, rfl⟩ := Option.map_eq_some_iff.mp hb
        simp only [Nullable.holds, hrule, Option.any_some]
        exact hnull
  | openFixed ht hn =>
      rw [cost_of_target ht]
      exact open_lt hg hn (by simp [Grammar.LeftCorner, Grammar.leftCorners, hn])
        (fun hnull => hg.isNullable hn hnull) (returnCost_emit _ hn)
  | openMade ht hn =>
      have hframes : (b.arrived.listen here.position).frames = b.frames :=
        Branch.listen_frames b.arrived here.position
      rw [cost_of_target ht, ← hframes]
      exact open_lt hg hn (by simp [Grammar.LeftCorner, Grammar.leftCorners, hn])
        (fun hnull => hg.isNullable hn hnull) (returnCost_emit _ hn)
  | openFold ht hn =>
      rw [cost_of_target ht]
      exact open_lt hg hn (by simp [Grammar.LeftCorner, Grammar.leftCorners, hn])
        (fun hnull => hg.isNullable hn hnull) (returnCost_fold _ hn)
  | @next frame frames node parts part ht hf hn hs hp =>
      rw [cost_of_frames ht hf]
      split
      next hlast =>
        change here.enterCost part b.frames.tail < _
        rw [hf]
        exact enterCost_last_lt hn hs hp hlast
      next hmore =>
        change here.enterCost part (b.reach (frame.progress + 1)).frames < _
        rw [Branch.reach_frames hf]
        exact enterCost_next_lt hn hs hp
  | @again frame frames body ht hf hn hp =>
      rw [cost_of_frames ht hf, returnCost_star _ hn, if_neg hp]
      change here.enterCost body (b.reach here.position).frames < _
      have hround : here.enterCost body ({ frame with progress := here.position } :: frames) ≤
          here.grammar.entry body + 1 := enterCost_round_le hn rfl
      rw [Branch.reach_frames hf]
      exact Nat.lt_of_le_of_lt hround (by omega)
  | leave ht hf hn hp =>
      rw [cost_of_frames ht hf, returnCost_star _ hn, if_neg hp,
        cost_of_frames (b := (b.pop).via _ _ _) ht (congrArg List.tail hf)]
      exact Nat.lt_add_of_pos_left (Nat.succ_pos _)
  | closeFixed ht hf hn =>
      exact cost_lt_of_closes ht hf ht (congrArg List.tail hf) (returnCost_emit _ hn)
  | closeMade ht hf hn =>
      exact cost_lt_of_closes ht hf ((Branch.unlisten_target _).trans ht)
        ((Branch.unlisten_frames _).trans (congrArg List.tail hf)) (returnCost_emit _ hn)
  | closeFold ht hf hn =>
      exact cost_lt_of_closes ht hf ht (congrArg List.tail hf) (returnCost_fold _ hn)

end Lowered

/-! ## The fuel of an unfolding -/

/-- The cost of a node among the parts of another is covered by the bound on moves. -/
theorem pay_le_moveBound {id : NodeId} {node : Node σ τ}
    (hn : here.grammar.nodes[id]? = some node) :
    node.arity * (here.grammar.spread ^ here.grammar.nodes.size + 1) +
      here.grammar.spread ^ here.grammar.nodes.size + 2 ≤ here.grammar.moveBound := by
  have hpos : 0 < here.grammar.spread ^ here.grammar.nodes.size :=
    Nat.pow_pos (by have := here.grammar.three_le_spread; omega)
  calc node.arity * (here.grammar.spread ^ here.grammar.nodes.size + 1) +
        here.grammar.spread ^ here.grammar.nodes.size + 2
      ≤ (2 * node.arity + 3) * here.grammar.spread ^ here.grammar.nodes.size :=
        Grammar.pay_le hpos
    _ ≤ here.grammar.spread * here.grammar.spread ^ here.grammar.nodes.size :=
        Nat.mul_le_mul_right _ (Grammar.arity_le_spread hn)
    _ = here.grammar.moveBound := by rw [Nat.mul_comm, ← Nat.pow_succ]; rfl

/-- Each frame costs the bound on moves at most. -/
theorem returnCost_cons_le (frame : Frame) (frames : List Frame) :
    here.returnCost (frame :: frames) ≤ here.grammar.moveBound + here.returnCost frames := by
  cases hn : here.grammar.nodes[frame.node]? with
  | none => simp [returnCost, hn]
  | some node =>
      have hpay := pay_le_moveBound hn
      cases hc : node.consumes with
      | true =>
          rw [returnCost_consumes _ hn hc]
          omega
      | false =>
          cases hs : node.series? with
          | some parts =>
              have hle := Grammar.seriesCost_le (here.returnCost frames)
                (here.grammar.spread ^ here.grammar.nodes.size)
                (parts.drop (frame.progress + 1)) fun part _ => here.grammar.entry_le part
              have hlength : (parts.drop (frame.progress + 1)).length ≤ node.arity := by
                rw [List.length_drop, Grammar.length_eq_arity hs]
                omega
              have hmul := Nat.mul_le_mul_right
                (here.grammar.spread ^ here.grammar.nodes.size + 1) hlength
              rw [returnCost_series _ hn hs]
              split at hle
              · omega
              · omega
          | none =>
              cases node with
              | star body =>
                  have hbody := here.grammar.entry_le body
                  rw [returnCost_star _ hn]
                  split
                  · omega
                  · omega
              | empty | guard | alt | rule | emit | fold | oneOf | literal | observe =>
                  simp only [returnCost, hn, hc, hs, Bool.false_eq_true, if_false]
                  omega
              | seq | times => cases hs

theorem returnCost_le (frames : List Frame) :
    here.returnCost frames ≤ frames.length * here.grammar.moveBound := by
  induction frames with
  | nil => exact Nat.zero_le _
  | cons frame frames ih =>
      have hle := here.returnCost_cons_le frame frames
      rw [List.length_cons, Nat.succ_mul]
      omega

/-- The fuel that a branch unfolds with is more than its cost. -/
theorem cost_lt_fuel (here : Cursor σ τ) (b : Branch σ τ) :
    here.cost b < (b.depth + 1) * here.grammar.moveBound + 1 := by
  have hreturn := here.returnCost_le b.frames
  rw [b.depth_eq, Nat.succ_mul]
  cases ht : b.target with
  | none =>
      rw [Cursor.cost, ht]
      simp only
      omega
  | some id =>
      have hpos : 0 < here.grammar.spread := by
        have := here.grammar.three_le_spread
        omega
      have hentry : here.grammar.entry id ≤ here.grammar.moveBound :=
        Nat.le_trans (here.grammar.entry_le id) (Nat.pow_le_pow_right hpos (Nat.le_succ _))
      rw [Cursor.cost, ht]
      simp only [Cursor.enterCost]
      split
      · omega
      · omega

end Cursor

end Ramify
