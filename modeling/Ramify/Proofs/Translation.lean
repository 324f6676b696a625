import Ramify.Proofs.Lockstep

/-!
# Parses of translated input

A parse sees of a symbol only which sets it is in and where it stands in the runs.
`Grammar.Translated` relates two grammars that have the same nodes up to sets and runs, and
treat a symbol and its translation alike.

What a branch can do is settled by its *shape*: the node that it enters next and the places
of its frames.  Where a round of a loop began is left out of it, except whether the round has
taken a symbol.  So branches can have the same shape in parses of different lengths.  From
then on they keep in step on an input and its translation: they come to rest as branches of
the same shapes, in the same order, and take the next symbol alike
(`Grammar.Translated.shapes_advanced`).
-/

namespace Ramify

variable {σ τ : Type}

/-! ## Shapes -/

/-- The place of a frame. -/
structure Slot where
  /-- The node that is open. -/
  node : NodeId
  /-- How far the construct has come; at a loop, whether the round has taken a symbol. -/
  progress : Nat
  deriving DecidableEq

/-- What settles the moves that a branch can make. -/
structure Shape where
  /-- The node to enter next. -/
  target : Option NodeId
  /-- The places of the frames, innermost first. -/
  slots : List Slot
  deriving DecidableEq

/-- Whether a node is a loop. -/
def Node.isLoop : Node σ τ → Bool
  | .star _ => true
  | _ => false

/-- The place of a frame after a number of symbols. -/
def Frame.slot (g : Grammar σ τ) (position : Nat) (frame : Frame) : Slot where
  node := frame.node
  progress :=
    if g.nodes[frame.node]?.any Node.isLoop then if frame.progress = position then 0 else 1
    else frame.progress

/-- The shape of a branch after a number of symbols. -/
def Branch.shape (g : Grammar σ τ) (position : Nat) (b : Branch σ τ) : Shape where
  target := b.target
  slots := b.frames.map (Frame.slot g position)

/-- The shapes of the branches of a parse. -/
def Forest.shapes (f : Forest σ τ) : List Shape :=
  f.branches.map (Branch.shape f.grammar f.consumed)

namespace Frame

variable {g : Grammar σ τ} {position : Nat} {frame : Frame}

theorem slot_of_loop {body : NodeId} (hn : g.nodes[frame.node]? = some (.star body)) :
    frame.slot g position = ⟨frame.node, if frame.progress = position then 0 else 1⟩ := by
  simp [Frame.slot, hn, Node.isLoop]

theorem slot_of_isLoop_eq_false {node : Node σ τ} (hn : g.nodes[frame.node]? = some node)
    (hloop : node.isLoop = false) : frame.slot g position = ⟨frame.node, frame.progress⟩ := by
  simp [Frame.slot, hn, hloop]

/-- Two frames in the same place have come equally far, unless they are of a loop. -/
theorem progress_eq_of_slot_eq {g' : Grammar σ τ} {position' : Nat} {frame' : Frame}
    {node node' : Node σ τ} (hslot : frame.slot g position = frame'.slot g' position')
    (hn : g.nodes[frame.node]? = some node) (hloop : node.isLoop = false)
    (hn' : g'.nodes[frame'.node]? = some node') (hloop' : node'.isLoop = false) :
    frame.progress = frame'.progress := by
  rw [slot_of_isLoop_eq_false hn hloop, slot_of_isLoop_eq_false hn' hloop'] at hslot
  exact congrArg Slot.progress hslot

/-- Two frames of a loop in the same place have both taken a symbol in this round, or neither. -/
theorem progress_iff_of_slot_eq {g' : Grammar σ τ} {position' : Nat} {frame' : Frame}
    {body body' : NodeId} (hslot : frame.slot g position = frame'.slot g' position')
    (hn : g.nodes[frame.node]? = some (.star body))
    (hn' : g'.nodes[frame'.node]? = some (.star body')) :
    frame.progress = position ↔ frame'.progress = position' := by
  rw [slot_of_loop hn, slot_of_loop hn', Slot.mk.injEq] at hslot
  have hround := hslot.2
  split_ifs at hround with h h' h'
  · exact ⟨fun _ => h', fun _ => h⟩
  · exact ⟨fun hp => absurd hp h, fun hp => absurd hp h'⟩

end Frame

/-- A round of a loop began with one of the symbols taken so far. -/
theorem Frame.Fits.progress_le {g : Grammar σ τ} {position : Nat} {frame : Frame}
    (h : frame.Fits g position) {body : NodeId} (hn : g.nodes[frame.node]? = some (.star body)) :
    frame.progress ≤ position := by
  cases h with
  | star _ hp => exact hp
  | @series node parts hn₁ hs =>
      rw [hn] at hn₁
      cases hn₁
      cases hs
  | oneOf hn₁ | literal hn₁ | observe hn₁ | emit hn₁ | fold hn₁ =>
      rw [hn] at hn₁
      cases hn₁

/-- Two branches have the same shape. -/
def Branch.Resembles (g g' : Grammar σ τ) (position position' : Nat) (b b' : Branch σ τ) : Prop :=
  b.shape g position = b'.shape g' position'

namespace Branch.Resembles

variable {g g' : Grammar σ τ} {position position' : Nat} {b b' : Branch σ τ}

theorem target_eq (h : b.Resembles g g' position position' b') : b.target = b'.target :=
  congrArg Shape.target h

theorem slots_eq (h : b.Resembles g g' position position' b') :
    b.frames.map (Frame.slot g position) = b'.frames.map (Frame.slot g' position') :=
  congrArg Shape.slots h

/-- The innermost frames of branches of the same shape have the same place. -/
theorem head_slot_eq (h : b.Resembles g g' position position' b') {frame frame' : Frame}
    {frames frames' : List Frame} (hf : b.frames = frame :: frames)
    (hf' : b'.frames = frame' :: frames') : frame.slot g position = frame'.slot g' position' := by
  have hslots := h.slots_eq
  rw [hf, hf', List.map_cons, List.map_cons] at hslots
  exact List.head_eq_of_cons_eq hslots

theorem of_slots {c c' : Branch σ τ} (ht : c.target = c'.target)
    (hslots : c.frames.map (Frame.slot g position) = c'.frames.map (Frame.slot g' position')) :
    c.Resembles g g' position position' c' := by
  rw [Branch.Resembles, Branch.shape, Branch.shape, ht, hslots]

/-- What is not part of the shape does not matter. -/
theorem of_eq (h : b.Resembles g g' position position' b') {c c' : Branch σ τ}
    (hf : c.frames = b.frames) (hf' : c'.frames = b'.frames) (ht : c.target = c'.target) :
    c.Resembles g g' position position' c' := by
  refine .of_slots ht ?_
  rw [hf, hf', h.slots_eq]

theorem arrived (h : b.Resembles g g' position position' b') :
    b.arrived.Resembles g g' position position' b'.arrived :=
  h.of_eq rfl rfl rfl

theorem aim (h : b.Resembles g g' position position' b') (id : NodeId) :
    (b.aim id).Resembles g g' position position' (b'.aim id) :=
  h.of_eq rfl rfl rfl

theorem via (h : b.Resembles g g' position position' b') (id way : Nat) :
    (b.via id way position).Resembles g g' position position' (b'.via id way position') :=
  h.of_eq rfl rfl h.target_eq

theorem listen (h : b.Resembles g g' position position' b') :
    (b.listen position).Resembles g g' position position' (b'.listen position') := by
  refine h.of_eq ?_ ?_ ?_
  · rw [listen_frames]
  · rw [listen_frames]
  · rw [listen_target, listen_target, h.target_eq]

theorem push (h : b.Resembles g g' position position' b') {id progress progress' : Nat}
    (hslot : Frame.slot g position ⟨id, progress, position, b.tokens.length⟩ =
      Frame.slot g' position' ⟨id, progress', position', b'.tokens.length⟩) :
    (b.push id progress position).Resembles g g' position position'
      (b'.push id progress' position') := by
  refine .of_slots h.target_eq ?_
  simp only [Branch.push, List.map_cons, hslot, h.slots_eq]

theorem pop (h : b.Resembles g g' position position' b') :
    b.pop.Resembles g g' position position' b'.pop := by
  refine .of_slots h.target_eq ?_
  simp only [Branch.pop, List.map_tail, h.slots_eq]

theorem reach (h : b.Resembles g g' position position' b') {frame frame' : Frame}
    {frames frames' : List Frame} (hf : b.frames = frame :: frames)
    (hf' : b'.frames = frame' :: frames') {progress progress' : Nat}
    (hslot : Frame.slot g position { frame with progress } =
      Frame.slot g' position' { frame' with progress := progress' }) :
    (b.reach progress).Resembles g g' position position' (b'.reach progress') := by
  have hslots := h.slots_eq
  rw [hf, hf', List.map_cons, List.map_cons] at hslots
  refine .of_slots h.target_eq ?_
  simp only [Branch.reach, hf, hf', List.modifyHead_cons, List.map_cons, hslot,
    List.tail_eq_of_cons_eq hslots]

theorem unlisten (h : b.Resembles g g' position position' b') :
    b.unlisten.Resembles g g' position position' b'.unlisten := by
  refine h.of_eq ?_ ?_ ?_
  · rw [unlisten_frames]
  · rw [unlisten_frames]
  · rw [unlisten_target, unlisten_target, h.target_eq]

theorem emit (h : b.Resembles g g' position position' b') (token token' : τ) :
    (b.emit token).Resembles g g' position position' (b'.emit token') :=
  h.of_eq rfl rfl h.target_eq

theorem gather (h : b.Resembles g g' position position' b') (mark mark' : Nat)
    (merge merge' : List τ → τ) :
    (b.gather mark merge).Resembles g g' position position' (b'.gather mark' merge') :=
  h.of_eq rfl rfl h.target_eq

theorem hear (h : b.Resembles g g' position position' b') (symbol symbol' : σ) :
    (b.hear symbol).Resembles g g' position position' (b'.hear symbol') := by
  refine h.of_eq ?_ ?_ ?_
  · rw [hear_frames]
  · rw [hear_frames]
  · rw [hear_target, hear_target, h.target_eq]

theorem length_eq (h : b.Resembles g g' position position' b') :
    b.frames.length = b'.frames.length := by
  have hslots := congrArg List.length h.slots_eq
  rwa [List.length_map, List.length_map] at hslots

/-- Both of two branches of the same shape have something open, or neither has. -/
theorem frames_cases (h : b.Resembles g g' position position' b') :
    (b.frames = [] ∧ b'.frames = []) ∨ ∃ frame frames frame' frames',
      b.frames = frame :: frames ∧ b'.frames = frame' :: frames' := by
  have hlength := h.length_eq
  cases hf : b.frames with
  | nil =>
      rw [hf] at hlength
      exact .inl ⟨rfl, List.length_eq_zero_iff.mp hlength.symm⟩
  | cons frame frames =>
      cases hf' : b'.frames with
      | nil => simp [hf, hf'] at hlength
      | cons frame' frames' => exact .inr ⟨frame, frames, frame', frames', rfl, rfl⟩

theorem isDone_eq (h : b.Resembles g g' position position' b') : b.isDone = b'.isDone := by
  have hempty : b.frames.isEmpty = b'.frames.isEmpty := by
    rw [Bool.eq_iff_iff, List.isEmpty_iff_length_eq_zero, List.isEmpty_iff_length_eq_zero,
      h.length_eq]
  rw [Branch.isDone, Branch.isDone, hempty, h.target_eq]

end Branch.Resembles

theorem Forest.shapes_eq_iff {f f' : Forest σ τ} : f.shapes = f'.shapes ↔ List.Forall₂
    (Branch.Resembles f.grammar f'.grammar f.consumed f'.consumed) f.branches f'.branches := by
  rw [Forest.shapes, Forest.shapes, ← List.forall₂_eq_eq_eq, List.forall₂_map_left_iff,
    List.forall₂_map_right_iff]
  rfl

theorem Turn.split_resembles {g g' : Grammar σ τ} {position position' : Nat}
    {ways ways' : List (Branch σ τ)}
    (h : List.Forall₂ (Branch.Resembles g g' position position') ways ways') :
    List.Forall₂ (Branch.Resembles g g' position position') (Turn.split ways).branches
      (Turn.split ways').branches := by
  cases h with
  | nil => exact .nil
  | cons hown hothers => exact .cons hown (List.rel_reverse hothers)

/-! ## Translated grammars -/

variable [DecidableEq σ]

/-- Two nodes treat a symbol and its translation alike. -/
inductive Node.Translated (translate : σ → σ) : Node σ τ → Node σ τ → Prop where
  | empty : Translated translate .empty .empty
  | oneOf {set set' : SymbolSet σ}
      (h : ∀ symbol, set.contains symbol = set'.contains (translate symbol)) :
      Translated translate (.oneOf set) (.oneOf set')
  | literal {run run' : List σ} (hlength : run.length = run'.length)
      (h : ∀ (index : Nat) symbol,
        run[index]? = some symbol ↔ run'[index]? = some (translate symbol)) :
      Translated translate (.literal run) (.literal run')
  | guard {set set' : SymbolSet σ}
      (h : ∀ next : Option σ, set.admits next = set'.admits (next.map translate)) :
      Translated translate (.guard set) (.guard set')
  | seq (parts : List NodeId) : Translated translate (.seq parts) (.seq parts)
  | alt (choices : List NodeId) : Translated translate (.alt choices) (.alt choices)
  | star (body : NodeId) : Translated translate (.star body) (.star body)
  | times (body : NodeId) (count : Nat) :
      Translated translate (.times body count) (.times body count)
  | rule (index : RuleId) : Translated translate (.rule index) (.rule index)
  | fixed (body : NodeId) (token token' : τ) :
      Translated translate (.emit body (.fixed token)) (.emit body (.fixed token'))
  | ofSymbols (body : NodeId) (make make' : List σ → τ) :
      Translated translate (.emit body (.ofSymbols make)) (.emit body (.ofSymbols make'))
  | fold (body : NodeId) (merge merge' : List τ → τ) :
      Translated translate (.fold body merge) (.fold body merge')
  | observe (observer : Observer) : Translated translate (.observe observer) (.observe observer)

/-- A symbol is the only one that is translated to another. -/
def IsSourceOf (translate : σ → σ) (symbol image : σ) : Prop :=
  ∀ other, other = symbol ↔ translate other = image

namespace Node.Translated

variable {translate : σ → σ} {listed images : List σ}

theorem contains_eq (h : List.Forall₂ (IsSourceOf translate) listed images) (negated : Bool)
    (symbol : σ) : (SymbolSet.mk negated listed).contains symbol =
      (SymbolSet.mk negated images).contains (translate symbol) := by
  have hmem : symbol ∈ listed ↔ translate symbol ∈ images := by
    induction h with
    | nil => simp
    | cons hfirst _ ih => rw [List.mem_cons, List.mem_cons, hfirst symbol, ih]
  simp only [SymbolSet.contains, hmem]

theorem oneOf_listed (h : List.Forall₂ (IsSourceOf translate) listed images) (negated : Bool) :
    Translated translate (.oneOf ⟨negated, listed⟩ : Node σ τ) (.oneOf ⟨negated, images⟩) :=
  .oneOf (contains_eq h negated)

theorem guard_listed (h : List.Forall₂ (IsSourceOf translate) listed images) (negated : Bool) :
    Translated translate (.guard ⟨negated, listed⟩ : Node σ τ) (.guard ⟨negated, images⟩) := by
  refine .guard fun next => ?_
  cases next with
  | none => rfl
  | some symbol => exact contains_eq h negated symbol

theorem literal_listed (h : List.Forall₂ (IsSourceOf translate) listed images) :
    Translated translate (.literal listed : Node σ τ) (.literal images) := by
  refine .literal h.length_eq fun index symbol => ?_
  rcases rel_cases (rel_getElem? h index) with ⟨hnone, hnone'⟩ | ⟨x, x', hx, hx', hsource⟩
  · simp [hnone, hnone']
  · rw [hx, hx', Option.some.injEq, Option.some.injEq, eq_comm, hsource symbol, eq_comm]

end Node.Translated

/-- Two grammars have the same nodes up to a translation of the symbols. -/
structure Grammar.Translated (translate : σ → σ) (g g' : Grammar σ τ) : Prop where
  /-- The nodes at each place treat symbols alike. -/
  nodes (id : NodeId) : Option.Rel (Node.Translated translate) g.nodes[id]? g'.nodes[id]?
  /-- The rules have the same bodies. -/
  bodies (index : RuleId) : g.body? index = g'.body? index
  /-- A parse starts at the same node. -/
  start : g.start = g'.start

/-! ## Moves -/

theorem Node.Translated.isLoop_eq {translate : σ → σ} {node node' : Node σ τ}
    (h : node.Translated translate node') : node.isLoop = node'.isLoop := by
  cases h with
  | empty | oneOf | literal | guard | seq | alt | star | times | rule | fixed | ofSymbols | fold
  | observe => rfl

namespace Grammar.Translated

variable {translate : σ → σ} {g g' : Grammar σ τ} {position position' : Nat} {next : Option σ}
  {b b' : Branch σ τ}

theorem guard?_rel (h : g.Translated translate g') (id : NodeId) :
    Option.Rel
      (fun set set' => ∀ next : Option σ, set.admits next = set'.admits (next.map translate))
      (g.guard? id) (g'.guard? id) := by
  rcases rel_cases (h.nodes id) with ⟨hn, hn'⟩ | ⟨node, node', hn, hn', hnode⟩
  · simp only [Grammar.guard?, hn, hn']
    exact .none
  simp only [Grammar.guard?, hn, hn']
  cases hnode with
  | guard hset => exact .some hset
  | seq parts =>
      cases parts with
      | nil => exact .none
      | cons first parts =>
          rcases rel_cases (h.nodes first) with ⟨hf, hf'⟩ | ⟨node, node', hf, hf', hnode⟩
          · simp only [hf, hf']
            exact .none
          simp only [hf, hf']
          cases hnode with
          | guard hset => exact .some hset
          | empty | oneOf | literal | seq | alt | star | times | rule | fixed | ofSymbols | fold
          | observe => exact .none
  | empty | oneOf | literal | alt | star | times | rule | fixed | ofSymbols | fold
  | observe => exact .none

theorem admits_eq (h : g.Translated translate g') (position position' : Nat) (next : Option σ)
    (id : NodeId) :
    (Cursor.mk g position next).admits id =
      (Cursor.mk g' position' (next.map translate)).admits id := by
  rcases rel_cases (h.guard?_rel id) with ⟨hg, hg'⟩ | ⟨set, set', hg, hg', hset⟩
  · simp only [Cursor.admits, hg, hg', Option.all_none]
  · simp only [Cursor.admits, hg, hg', Option.all_some, hset next]

theorem waitsAt_eq (h : g.Translated translate g') (position position' : Nat) (next : Option σ)
    (id : NodeId) :
    (Cursor.mk g position next).waitsAt id =
      (Cursor.mk g' position' (next.map translate)).waitsAt id := by
  rcases rel_cases (h.nodes id) with ⟨hn, hn'⟩ | ⟨node, node', hn, hn', hnode⟩
  · simp only [Cursor.waitsAt, hn, hn', Option.any_none]
  simp only [Cursor.waitsAt, hn, hn', Option.any_some]
  cases hnode with
  | empty | oneOf | literal | guard | seq | alt | star | times | rule | fixed | ofSymbols | fold
  | observe => rfl

/-- A frame that a node other than a loop opens has the same place in both parses. -/
theorem slot_eq (h : g.Translated translate g') {id : NodeId} {node : Node σ τ}
    (hn : g.nodes[id]? = some node) (hloop : node.isLoop = false)
    (progress before before' tokens tokens' : Nat) :
    Frame.slot g position ⟨id, progress, before, tokens⟩ =
      Frame.slot g' position' ⟨id, progress, before', tokens'⟩ := by
  rcases rel_cases (h.nodes id) with ⟨hn', -⟩ | ⟨node, node', hn₁, hn', hnode⟩
  · rw [hn] at hn'
    cases hn'
  · rw [hn] at hn₁
    cases hn₁
    rw [Frame.slot_of_isLoop_eq_false hn hloop, Frame.slot_of_isLoop_eq_false hn']
    exact hnode.isLoop_eq ▸ hloop

/-- A construct other than a loop comes equally far in both parses. -/
theorem reach (h : g.Translated translate g') (hb : b.Resembles g g' position position' b')
    {frame frame' : Frame} {frames frames' : List Frame} (hf : b.frames = frame :: frames)
    (hf' : b'.frames = frame' :: frames') {node : Node σ τ}
    (hn : g.nodes[frame.node]? = some node) (hloop : node.isLoop = false) (progress : Nat) :
    (b.reach progress).Resembles g g' position position' (b'.reach progress) := by
  have hid : frame.node = frame'.node := congrArg Slot.node (hb.head_slot_eq hf hf')
  refine hb.reach hf hf' ?_
  rw [← hid]
  exact h.slot_eq hn hloop ..

/-- Entering a node leads to branches of the same shapes. -/
theorem descend (h : g.Translated translate g') (hb : b.Resembles g g' position position' b')
    (id : NodeId) :
    List.Forall₂ (Branch.Resembles g g' position position')
      ((Cursor.mk g position next).descend b id).branches
      ((Cursor.mk g' position' (next.map translate)).descend b' id).branches := by
  rcases rel_cases (h.nodes id) with ⟨hn, hn'⟩ | ⟨node, node', hn, hn', hnode⟩
  · simp only [Cursor.descend, hn, hn']
    exact .nil
  simp only [Cursor.descend, hn, hn']
  cases hnode with
  | empty => exact .cons hb .nil
  | oneOf | literal => exact .cons (hb.push (h.slot_eq hn rfl ..)) .nil
  | guard hset =>
      simp only [hset next]
      split
      · exact .cons hb .nil
      · exact .nil
  | seq parts =>
      rcases parts with _ | ⟨first, _ | ⟨second, parts⟩⟩
      · exact .cons hb .nil
      · exact .cons (hb.aim first) .nil
      · exact .cons ((hb.push (h.slot_eq hn rfl ..)).aim first) .nil
  | alt choices =>
      refine Turn.split_resembles ?_
      simp only [h.admits_eq position position']
      rw [List.forall₂_map_left_iff, List.forall₂_map_right_iff, List.forall₂_same]
      exact fun entry _ => (hb.via id entry.2).aim entry.1
  | star body =>
      have hslot : Frame.slot g position ⟨id, position, position, b.tokens.length⟩ =
          Frame.slot g' position' ⟨id, position', position', b'.tokens.length⟩ := by
        rw [Frame.slot_of_loop hn, Frame.slot_of_loop hn']
        simp
      exact Turn.split_resembles
        (.cons (((hb.via id 1).push hslot).aim body) (.cons (hb.via id 0) .nil))
  | times body count =>
      rcases count with _ | _ | count
      · exact .cons hb .nil
      · exact .cons (hb.aim body) .nil
      · exact .cons ((hb.push (h.slot_eq hn rfl ..)).aim body) .nil
  | rule index =>
      simp only [h.bodies index]
      split
      next body _ => exact .cons (hb.aim body) .nil
      · exact .nil
  | fixed body => exact .cons ((hb.push (h.slot_eq hn rfl ..)).aim body) .nil
  | ofSymbols body => exact .cons ((hb.listen.push (h.slot_eq hn rfl ..)).aim body) .nil
  | fold body => exact .cons ((hb.push (h.slot_eq hn rfl ..)).aim body) .nil
  | observe observer =>
      simp only
      split
      · simp only
        split
        · exact .cons hb .nil
        · exact .nil
      next hc hp => exact .cons (hb.push (h.slot_eq hn rfl ..)) .nil
      next hc hp =>
        exact Turn.split_resembles
          (.cons ((hb.via id 1).push (h.slot_eq hn rfl ..)) (.cons (hb.via id 0) .nil))

/-- Returning into a construct leads to branches of the same shapes. -/
theorem resume (h : g.Translated translate g') (hb : b.Resembles g g' position position' b')
    {frame frame' : Frame} {frames frames' : List Frame} (hf : b.frames = frame :: frames)
    (hf' : b'.frames = frame' :: frames') :
    List.Forall₂ (Branch.Resembles g g' position position')
      ((Cursor.mk g position next).resume b frame).branches
      ((Cursor.mk g' position' (next.map translate)).resume b' frame').branches := by
  have hslot := hb.head_slot_eq hf hf'
  have hid : frame.node = frame'.node := congrArg Slot.node hslot
  rcases rel_cases (h.nodes frame.node) with ⟨hn, hn'⟩ | ⟨node, node', hn, hn', hnode⟩
  · rw [hid] at hn'
    simp only [Cursor.resume, hn, hn']
    exact .nil
  rw [hid] at hn'
  have hprogress : node.isLoop = false → frame.progress = frame'.progress := fun hloop =>
    Frame.progress_eq_of_slot_eq hslot hn hloop hn' (hnode.isLoop_eq ▸ hloop)
  have hreach := h.reach hb hf hf' hn
  simp only [Cursor.resume, hn, hn']
  cases hnode with
  | empty | oneOf | literal | guard | alt | rule | observe => exact .cons hb.pop .nil
  | seq parts =>
      simp only [hprogress rfl]
      split
      · exact .nil
      next part _ =>
        split
        · exact .cons (hb.pop.aim part) .nil
        · exact .cons ((hreach rfl _).aim part) .nil
  | star body =>
      have hround : (b.reach position).Resembles g g' position position' (b'.reach position') := by
        refine hb.reach hf hf' ?_
        rw [hid] at hn
        simp [Frame.slot, hn, hn', hid, Node.isLoop]
      simp only [Frame.progress_iff_of_slot_eq hslot hn hn']
      split
      · exact .nil
      · rw [hid]
        exact Turn.split_resembles
          (.cons ((hround.via _ 1).aim body) (.cons (hb.pop.via _ 0) .nil))
  | times body count =>
      simp only [hprogress rfl]
      split
      · exact .cons (hb.pop.aim body) .nil
      · exact .cons ((hreach rfl _).aim body) .nil
  | fixed body token token' => exact .cons (hb.pop.emit token token') .nil
  | ofSymbols body => exact .cons (hb.pop.unlisten.emit _ _) .nil
  | fold body => exact .cons (hb.pop.gather _ _ _ _) .nil

/-- Branches of the same shape both rest, or make moves to branches of the same shapes. -/
theorem move (h : g.Translated translate g') (next : Option σ)
    (hb : b.Resembles g g' position position' b') :
    Option.Rel (fun turn turn' => List.Forall₂ (Branch.Resembles g g' position position')
        turn.branches turn'.branches)
      ((Cursor.mk g position next).move b)
      ((Cursor.mk g' position' (next.map translate)).move b') := by
  cases ht : b.target with
  | some id =>
      have ht' := hb.target_eq.symm.trans ht
      rw [Cursor.move_of_target ht, Cursor.move_of_target ht']
      exact .some (h.descend hb.arrived id)
  | none =>
      have ht' := hb.target_eq.symm.trans ht
      rcases hb.frames_cases with ⟨hf, hf'⟩ | ⟨frame, frames, frame', frames', hf, hf'⟩
      · simp only [Cursor.move, ht, ht', hf, hf']
        exact .none
      · have hid : frame.node = frame'.node := congrArg Slot.node (hb.head_slot_eq hf hf')
        simp only [Cursor.move, ht, ht', hf, hf', hid, h.waitsAt_eq position position']
        split
        · exact .none
        · exact .some (h.resume hb hf hf')

/-- Branches of the same shape come to rest as branches of the same shapes, in the same order. -/
theorem rests (h : g.Translated translate g') (hg : g.IsBuilt) (hg' : g'.IsBuilt) :
    ∀ {fuel : Nat} {b b' : Branch σ τ}, (Cursor.mk g position next).cost b < fuel →
      b.Resembles g g' position position' b' → b.Fits g position → b'.Fits g' position' →
      List.Forall₂ (Branch.Resembles g g' position position')
        ((Cursor.mk g position next).rests b)
        ((Cursor.mk g' position' (next.map translate)).rests b')
  | 0, _, _, hfuel, _, _, _ => absurd hfuel (Nat.not_lt_zero _)
  | fuel + 1, b, b', hfuel, hb, hfit, hfit' => by
      rcases rel_cases (h.move next hb) with ⟨hm, hm'⟩ | ⟨turn, turn', hm, hm', hturn⟩
      · rw [Cursor.rests_of_rest hm, Cursor.rests_of_rest hm']
        exact .cons hb .nil
      · rw [Cursor.rests_of_move hg hfit hm, Cursor.rests_of_move hg' hfit' hm']
        refine rel_flatMap hturn fun x hx x' hx' hway => ?_
        have hmove := Cursor.moves_of_move hfit hm hx
        have hmove' := Cursor.moves_of_move hfit' hm' hx'
        have hcost := Nat.lt_of_lt_of_le (hmove.cost_lt hg) (Nat.le_of_lt_succ hfuel)
        exact h.rests hg hg' hcost hway (hmove.fits hg hfit) (hmove'.fits hg' hfit')

/-! ## Symbols -/

/-- Frames in the same place are still in the same place one symbol later. -/
theorem slot_succ (h : g.Translated translate g') {frame frame' : Frame}
    (hslot : frame.slot g position = frame'.slot g' position') (hfit : frame.Fits g position)
    (hfit' : frame'.Fits g' position') :
    frame.slot g (position + 1) = frame'.slot g' (position' + 1) := by
  have hid : frame.node = frame'.node := congrArg Slot.node hslot
  rcases rel_cases (h.nodes frame.node) with ⟨hn, -⟩ | ⟨node, node', hn, hn', hnode⟩
  · cases hfit with
    | series hn₁ | star hn₁ | oneOf hn₁ | literal hn₁ | observe hn₁ | emit hn₁ | fold hn₁ =>
        rw [hn] at hn₁
        cases hn₁
  rw [hid] at hn'
  cases hloop : node.isLoop with
  | false =>
      have hloop' := hnode.isLoop_eq ▸ hloop
      have hprogress := Frame.progress_eq_of_slot_eq hslot hn hloop hn' hloop'
      rw [Frame.slot_of_isLoop_eq_false hn hloop, Frame.slot_of_isLoop_eq_false hn' hloop', hid,
        hprogress]
  | true =>
      cases hnode with
      | star body =>
          have hle := hfit.progress_le hn
          have hle' := hfit'.progress_le hn'
          rw [Frame.slot_of_loop hn, Frame.slot_of_loop hn', hid, if_neg (by omega),
            if_neg (by omega)]
      | empty | oneOf | literal | guard | seq | alt | times | rule | fixed | ofSymbols | fold
      | observe => cases hloop

theorem resembles_succ (h : g.Translated translate g')
    (hb : b.Resembles g g' position position' b') (hfit : b.Fits g position)
    (hfit' : b'.Fits g' position') : b.Resembles g g' (position + 1) (position' + 1) b' := by
  refine .of_slots hb.target_eq ?_
  have hslots := hb.slots_eq
  simp only [Branch.Fits] at hfit hfit'
  generalize b.frames = frames, b'.frames = frames' at hslots hfit hfit'
  induction frames generalizing frames' with
  | nil =>
      cases frames' with
      | nil => rfl
      | cons => cases hslots
  | cons frame frames ih =>
      cases frames' with
      | nil => cases hslots
      | cons frame' frames' =>
          rw [List.forall_mem_cons] at hfit hfit'
          rw [List.map_cons, List.map_cons, List.cons.injEq] at hslots
          rw [List.map_cons, List.map_cons, h.slot_succ hslots.1 hfit.1 hfit'.1,
            ih frames' hslots.2 hfit.2 hfit'.2]

/-- A symbol fits a branch just if its translation fits a branch of the same shape. -/
theorem consume (h : g.Translated translate g') (symbol : σ)
    (hb : b.Resembles g g' position position' b') (hfit : b.Fits g position)
    (hfit' : b'.Fits g' position') :
    Option.Rel (Branch.Resembles g g' (position + 1) (position' + 1)) (g.consume symbol b)
      (g'.consume (translate symbol) b') := by
  have hlater := h.resembles_succ hb hfit hfit'
  rcases hb.frames_cases with ⟨hf, hf'⟩ | ⟨frame, frames, frame', frames', hf, hf'⟩
  · simp only [Grammar.consume, hf, hf']
    exact .none
  have hslot := hb.head_slot_eq hf hf'
  have hid : frame.node = frame'.node := congrArg Slot.node hslot
  rcases rel_cases (h.nodes frame.node) with ⟨hn, hn'⟩ | ⟨node, node', hn, hn', hnode⟩
  · rw [hid] at hn'
    simp only [Grammar.consume, hf, hf', hn, hn']
    exact .none
  rw [hid] at hn'
  simp only [Grammar.consume, hf, hf', hn, hn']
  cases hnode with
  | empty | guard | seq | alt | star | times | rule | fixed | ofSymbols | fold => exact .none
  | oneOf hset =>
      simp only [hset symbol]
      split
      · exact .some (hlater.pop.hear _ _)
      · exact .none
  | literal hlength hrun =>
      have hprogress := Frame.progress_eq_of_slot_eq hslot hn rfl hn' rfl
      simp only [hprogress, hrun, hlength]
      split
      · refine .some (Branch.Resembles.hear ?_ _ _)
        split
        · exact hlater.pop
        · exact h.reach hlater hf hf' hn rfl _
      · exact .none
  | observe observer =>
      simp only
      split
      · exact .some (hlater.pop.hear _ _)
      · exact .none

end Grammar.Translated

/-! ## Forests -/

namespace Forest

variable {translate : σ → σ} {f f' : Forest σ τ}

/-- Parses whose branches have the same shapes come to rest as branches of the same shapes. -/
theorem rested_resembles (h : f.grammar.Translated translate f'.grammar) (hf : f.Free)
    (hf' : f'.Free) (hshapes : f.shapes = f'.shapes) (next : Option σ) :
    List.Forall₂ (Branch.Resembles f.grammar f'.grammar f.consumed f'.consumed)
      (f.unfold next).rested (f'.unfold (next.map translate)).rested := by
  rw [hf.rested_eq, hf'.rested_eq]
  exact rel_flatMap (shapes_eq_iff.mp hshapes) fun b hb b' hb' hsame =>
    h.rests hf.built hf'.built (Nat.lt_succ_self _) hsame (hf.fits b hb) (hf'.fits b' hb')

/-- Frames fit while a parse comes to rest. -/
theorem Free.fits_of_mem_rested (hf : f.Free) {next : Option σ} {b : Branch σ τ}
    (hb : b ∈ (f.unfold next).rested) : b.Fits f.grammar f.consumed := by
  obtain ⟨b₀, hb₀, hvisit, -⟩ := hf.visits_of_mem_rested hb
  exact hvisit.fits hf.built (hf.fits b₀ hb₀)

/-- Parses whose branches have the same shapes hold branches of the same shapes after a symbol and
its translation. -/
theorem shapes_advanced (h : f.grammar.Translated translate f'.grammar) (hf : f.Free)
    (hf' : f'.Free) (hshapes : f.shapes = f'.shapes) (symbol : σ) :
    (f.advanced symbol).shapes = (f'.advanced (translate symbol)).shapes := by
  rw [shapes_eq_iff, hf.advanced_branches, hf'.advanced_branches]
  rw [List.filterMap_eq_flatMap_toList, List.filterMap_eq_flatMap_toList]
  refine rel_flatMap (rested_resembles h hf hf' hshapes (some symbol)) fun b hb b' hb' hsame => ?_
  have hfit := hf.fits_of_mem_rested hb
  have hfit' := hf'.fits_of_mem_rested hb'
  rcases rel_cases (h.consume symbol hsame hfit hfit') with ⟨hc, hc'⟩ | ⟨x, x', hc, hc', hx⟩
  · rw [hc, hc']
    exact .nil
  · rw [hc, hc']
    exact .cons hx .nil

/-- Parses whose branches have the same shapes have as many complete branches. -/
theorem length_finals (h : f.grammar.Translated translate f'.grammar) (hf : f.Free)
    (hf' : f'.Free) (hshapes : f.shapes = f'.shapes) : f.finals.length = f'.finals.length := by
  rw [hf.finals_eq, hf'.finals_eq]
  refine List.Forall₂.length_eq
    (R := Branch.Resembles f.grammar f'.grammar f.consumed f'.consumed) ?_
  refine List.rel_filter (fun b b' hb => ?_) (rested_resembles h hf hf' hshapes none)
  simp only [hb.isDone_eq]

end Forest

end Ramify
