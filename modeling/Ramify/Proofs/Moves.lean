import Ramify.Parse.Move
import Ramify.Proofs.Built

/-!
# The moves as a relation

`Cursor.Moves here b b'` says that one move leads from `b` to `b'`.  It has one
constructor for each way in which a node is entered and for each way in which a
branch returns into an open construct, so an invariant of branches is proved by one
case for each of them.  `Grammar.Takes` does the same for taking a symbol.

Sequences and fixed repetitions run through their parts in the same manner.
`Node.series?` gives the parts of both, and one constructor covers the two.

The relation is what `Cursor.move` computes for branches whose frames fit the
grammar (`Branch.Fits`).  Every branch of a parse has such frames: the start has
none, and moves and symbols keep them.
-/

namespace Ramify

variable {σ τ : Type}

/-- The branch without its target. -/
def Branch.arrived (b : Branch σ τ) : Branch σ τ := { b with target := none }

/-- The parts of a node that runs through parts one after the other. -/
def Node.series? : Node σ τ → Option (List NodeId)
  | .seq parts => some parts
  | .times body count => some (List.replicate count body)
  | _ => none

/-- Whether entering a node makes a branch wait for a symbol, and nothing else. -/
def Node.waits : Node σ τ → Bool
  | .oneOf _ | .literal _ => true
  | .observe observer => observer.consumes && !observer.passes
  | _ => false

theorem Node.consumes_of_waits {node : Node σ τ} (h : node.waits = true) :
    node.consumes = true := by
  cases node with
  | oneOf | literal => rfl
  | observe observer => exact (Bool.and_eq_true_iff.mp h).1
  | empty | guard | seq | alt | star | times | rule | emit | fold => cases h

theorem Node.consumes_of_series {node : Node σ τ} {parts : List NodeId}
    (hs : node.series? = some parts) : node.consumes = false := by
  cases node with
  | seq | times => rfl
  | empty | oneOf | literal | guard | alt | star | rule | emit | fold | observe => cases hs

namespace Cursor

variable [DecidableEq σ]

/-- Whether a node that has no parts matches the empty text here, and in this way only. -/
def passes (here : Cursor σ τ) : Node σ τ → Bool
  | .empty => true
  | .guard set => set.admits here.next
  | .observe observer => !observer.consumes && observer.passes
  | _ => false

/-- One move leads from the branch `b` to another. -/
inductive Moves (here : Cursor σ τ) (b : Branch σ τ) : Branch σ τ → Prop where
  /-- A node without parts matches the empty text. -/
  | pass {id : NodeId} {node : Node σ τ} (ht : b.target = some id)
      (hn : here.grammar.nodes[id]? = some node) (hp : here.passes node = true) :
      Moves here b b.arrived
  /-- A node waits for a symbol. -/
  | wait {id : NodeId} {node : Node σ τ} (ht : b.target = some id)
      (hn : here.grammar.nodes[id]? = some node) (hw : node.waits = true) :
      Moves here b (b.arrived.push id 0 here.position)
  /-- An observer that need not wait for a symbol waits for one. -/
  | watch {id : NodeId} {observer : Observer} (ht : b.target = some id)
      (hn : here.grammar.nodes[id]? = some (.observe observer)) (hc : observer.consumes = true)
      (hp : observer.passes = true) :
      Moves here b ((b.arrived.via id 1 here.position).push id 0 here.position)
  /-- An observer that may wait for a symbol passes. -/
  | ignore {id : NodeId} {observer : Observer} (ht : b.target = some id)
      (hn : here.grammar.nodes[id]? = some (.observe observer)) (hc : observer.consumes = true)
      (hp : observer.passes = true) :
      Moves here b (b.arrived.via id 0 here.position)
  /-- A series of no parts is skipped. -/
  | skip {id : NodeId} {node : Node σ τ} (ht : b.target = some id)
      (hn : here.grammar.nodes[id]? = some node) (hs : node.series? = some []) :
      Moves here b b.arrived
  /-- The only part of a series is entered. -/
  | only {id part : NodeId} {node : Node σ τ} (ht : b.target = some id)
      (hn : here.grammar.nodes[id]? = some node) (hs : node.series? = some [part]) :
      Moves here b (b.arrived.aim part)
  /-- The first of several parts is entered. -/
  | first {id part second : NodeId} {parts : List NodeId} {node : Node σ τ}
      (ht : b.target = some id) (hn : here.grammar.nodes[id]? = some node)
      (hs : node.series? = some (part :: second :: parts)) :
      Moves here b ((b.arrived.push id 0 here.position).aim part)
  /-- One of several choices is entered. -/
  | choose {id choice : NodeId} {choices : List NodeId} {index : Nat} (ht : b.target = some id)
      (hn : here.grammar.nodes[id]? = some (.alt choices)) (hc : choices[index]? = some choice)
      (ha : here.admits choice = true) :
      Moves here b ((b.arrived.via id index here.position).aim choice)
  /-- A loop begins its first round. -/
  | loop {id body : NodeId} (ht : b.target = some id)
      (hn : here.grammar.nodes[id]? = some (.star body)) :
      Moves here b
        (((b.arrived.via id 1 here.position).push id here.position here.position).aim body)
  /-- A loop is left before its first round. -/
  | shun {id body : NodeId} (ht : b.target = some id)
      (hn : here.grammar.nodes[id]? = some (.star body)) :
      Moves here b (b.arrived.via id 0 here.position)
  /-- The body of a rule is entered. -/
  | call {id body : NodeId} {index : RuleId} (ht : b.target = some id)
      (hn : here.grammar.nodes[id]? = some (.rule index))
      (hb : here.grammar.body? index = some body) :
      Moves here b (b.arrived.aim body)
  /-- The emission of a fixed token is opened. -/
  | openFixed {id body : NodeId} {token : τ} (ht : b.target = some id)
      (hn : here.grammar.nodes[id]? = some (.emit body (.fixed token))) :
      Moves here b ((b.arrived.push id 0 here.position).aim body)
  /-- The emission of a token made of symbols is opened. -/
  | openMade {id body : NodeId} {make : List σ → τ} (ht : b.target = some id)
      (hn : here.grammar.nodes[id]? = some (.emit body (.ofSymbols make))) :
      Moves here b (((b.arrived.listen here.position).push id 0 here.position).aim body)
  /-- A fold is opened. -/
  | openFold {id body : NodeId} {merge : List τ → τ} (ht : b.target = some id)
      (hn : here.grammar.nodes[id]? = some (.fold body merge)) :
      Moves here b ((b.arrived.push id 0 here.position).aim body)
  /-- The next part of a series is entered, the last one without the frame. -/
  | next {frame : Frame} {frames : List Frame} {node : Node σ τ} {parts : List NodeId}
      {part : NodeId} (ht : b.target = none) (hf : b.frames = frame :: frames)
      (hn : here.grammar.nodes[frame.node]? = some node) (hs : node.series? = some parts)
      (hp : parts[frame.progress + 1]? = some part) :
      Moves here b ((if frame.progress + 2 = parts.length then b.pop
        else b.reach (frame.progress + 1)).aim part)
  /-- A loop goes round once more. -/
  | again {frame : Frame} {frames : List Frame} {body : NodeId} (ht : b.target = none)
      (hf : b.frames = frame :: frames) (hn : here.grammar.nodes[frame.node]? = some (.star body))
      (hp : frame.progress ≠ here.position) :
      Moves here b (((b.reach here.position).via frame.node 1 here.position).aim body)
  /-- A loop is left after a round. -/
  | leave {frame : Frame} {frames : List Frame} {body : NodeId} (ht : b.target = none)
      (hf : b.frames = frame :: frames) (hn : here.grammar.nodes[frame.node]? = some (.star body))
      (hp : frame.progress ≠ here.position) :
      Moves here b (b.pop.via frame.node 0 here.position)
  /-- The emission of a fixed token is closed. -/
  | closeFixed {frame : Frame} {frames : List Frame} {body : NodeId} {token : τ}
      (ht : b.target = none) (hf : b.frames = frame :: frames)
      (hn : here.grammar.nodes[frame.node]? = some (.emit body (.fixed token))) :
      Moves here b (b.pop.emit token)
  /-- The emission of a token made of symbols is closed. -/
  | closeMade {frame : Frame} {frames : List Frame} {body : NodeId} {make : List σ → τ}
      (ht : b.target = none) (hf : b.frames = frame :: frames)
      (hn : here.grammar.nodes[frame.node]? = some (.emit body (.ofSymbols make))) :
      Moves here b (b.pop.unlisten.emit (make (b.heardSince frame.symbolsBefore)))
  /-- A fold is closed. -/
  | closeFold {frame : Frame} {frames : List Frame} {body : NodeId} {merge : List τ → τ}
      (ht : b.target = none) (hf : b.frames = frame :: frames)
      (hn : here.grammar.nodes[frame.node]? = some (.fold body merge)) :
      Moves here b (b.pop.gather frame.tokensBefore merge)

end Cursor

/-- Taking a symbol leads from the branch `b` to another. -/
inductive Grammar.Takes [DecidableEq σ] (g : Grammar σ τ) (symbol : σ) (b : Branch σ τ) :
    Branch σ τ → Prop where
  /-- The symbol is in the set. -/
  | member {frame : Frame} {frames : List Frame} {set : SymbolSet σ}
      (hf : b.frames = frame :: frames) (hn : g.nodes[frame.node]? = some (.oneOf set))
      (hs : set.contains symbol = true) :
      Takes g symbol b (b.pop.hear symbol)
  /-- The symbol is the next of the run. -/
  | run {frame : Frame} {frames : List Frame} {run : List σ}
      (hf : b.frames = frame :: frames) (hn : g.nodes[frame.node]? = some (.literal run))
      (hs : run[frame.progress]? = some symbol) :
      Takes g symbol b ((if frame.progress + 1 = run.length then b.pop
        else b.reach (frame.progress + 1)).hear symbol)
  /-- An observer takes any symbol. -/
  | any {frame : Frame} {frames : List Frame} {observer : Observer}
      (hf : b.frames = frame :: frames) (hn : g.nodes[frame.node]? = some (.observe observer))
      (hc : observer.consumes = true) :
      Takes g symbol b (b.pop.hear symbol)

theorem Grammar.consume_eq_some_iff [DecidableEq σ] {g : Grammar σ τ} {symbol : σ}
    {b b' : Branch σ τ} : g.consume symbol b = some b' ↔ g.Takes symbol b b' := by
  constructor
  · intro h
    unfold Grammar.consume at h
    split at h
    · cases h
    next frame frames hf =>
      split at h
      next set hn =>
        split at h
        next hs =>
          cases h
          exact .member hf hn hs
        · cases h
      next run hn =>
        split at h
        next hs =>
          cases h
          exact .run hf hn hs
        · cases h
      next observer hn =>
        split at h
        next hc =>
          cases h
          exact .any hf hn hc
        · cases h
      · cases h
  · intro h
    cases h with
    | member hf hn hs => simp [Grammar.consume, hf, hn, hs]
    | run hf hn hs => simp [Grammar.consume, hf, hn, hs]
    | any hf hn hc => simp [Grammar.consume, hf, hn, hc]

/-! ## Frames that fit -/

/-- A frame that a grammar can have put on the stack. -/
inductive Frame.Fits (g : Grammar σ τ) (position : Nat) (frame : Frame) : Prop where
  /-- A part of a series is in progress, and not the last. -/
  | series {node : Node σ τ} {parts : List NodeId} (hn : g.nodes[frame.node]? = some node)
      (hs : node.series? = some parts) (hp : frame.progress + 1 < parts.length)
  /-- A round of a loop began here or before. -/
  | star {body : NodeId} (hn : g.nodes[frame.node]? = some (.star body))
      (hp : frame.progress ≤ position)
  /-- A symbol of a set is awaited. -/
  | oneOf {set : SymbolSet σ} (hn : g.nodes[frame.node]? = some (.oneOf set))
  /-- A symbol of a run is awaited. -/
  | literal {run : List σ} (hn : g.nodes[frame.node]? = some (.literal run))
      (hp : frame.progress < run.length)
  /-- A symbol is awaited by an observer. -/
  | observe {observer : Observer} (hn : g.nodes[frame.node]? = some (.observe observer))
      (hc : observer.consumes = true)
  /-- An emission is open. -/
  | emit {body : NodeId} {yields : Yield σ τ} (hn : g.nodes[frame.node]? = some (.emit body yields))
  /-- A fold is open. -/
  | fold {body : NodeId} {merge : List τ → τ} (hn : g.nodes[frame.node]? = some (.fold body merge))

/-- A branch all of whose frames fit. -/
def Branch.Fits (g : Grammar σ τ) (position : Nat) (b : Branch σ τ) : Prop :=
  ∀ frame ∈ b.frames, frame.Fits g position

theorem Branch.start_fits (g : Grammar σ τ) (id : NodeId) :
    (Branch.start id : Branch σ τ).Fits g 0 := by
  intro frame hframe
  cases hframe

namespace Turn

theorem mem_go {b b' : Branch σ τ} : b' ∈ (Turn.go b).branches ↔ b' = b :=
  List.mem_singleton

theorem mem_split {b : Branch σ τ} {branches : List (Branch σ τ)} :
    b ∈ (Turn.split branches).branches ↔ b ∈ branches := by
  cases branches with
  | nil => exact Iff.rfl
  | cons own others => simp [Turn.split]

theorem mem_fork {b x y : Branch σ τ} : b ∈ (Turn.split [x, y]).branches ↔ b = x ∨ b = y := by
  rw [mem_split, List.mem_cons, List.mem_singleton]

end Turn

namespace Cursor

/-! ## Turns, by kind of node -/

section Turns

variable {here : Cursor σ τ} {b : Branch σ τ} {id : NodeId} {node : Node σ τ}

section Descending

variable [DecidableEq σ]

/-- A node that matches the empty text lets the branch go on; an observer may report as well. -/
theorem branches_descend_of_passes (hn : here.grammar.nodes[id]? = some node)
    (hp : here.passes node = true) : (here.descend b id).branches = [b] := by
  cases node with
  | empty => simp [descend, hn, Turn.go]
  | guard set =>
      have ha : set.admits here.next = true := hp
      simp [descend, hn, Turn.go, ha]
  | observe observer =>
      obtain ⟨hc, hp⟩ := Bool.and_eq_true_iff.mp hp
      simp [descend, hn, hp, Bool.not_eq_true' _ ▸ hc]
  | oneOf | literal | seq | alt | star | times | rule | emit | fold => cases hp

theorem descend_of_waits (hn : here.grammar.nodes[id]? = some node) (hw : node.waits = true) :
    here.descend b id = .go (b.push id 0 here.position) := by
  cases node with
  | oneOf | literal => simp [descend, hn]
  | observe observer =>
      obtain ⟨hc, hp⟩ := Bool.and_eq_true_iff.mp hw
      simp [descend, hn, hc, Bool.not_eq_true' _ ▸ hp]
  | empty | guard | seq | alt | star | times | rule | emit | fold => cases hw

/-- An observer that need not wait for a symbol parts the ways. -/
theorem descend_watched {observer : Observer}
    (hn : here.grammar.nodes[id]? = some (.observe observer)) (hc : observer.consumes = true)
    (hp : observer.passes = true) :
    here.descend b id = .split [(b.via id 1 here.position).push id 0 here.position,
      b.via id 0 here.position] := by
  simp [descend, hn, hc, hp]

/-- A series is skipped if it has no parts, and needs a frame if it has several. -/
theorem descend_series {parts : List NodeId} (hn : here.grammar.nodes[id]? = some node)
    (hs : node.series? = some parts) :
    here.descend b id =
      match parts with
      | [] => .go b
      | [part] => .go (b.aim part)
      | part :: _ :: _ => .go ((b.push id 0 here.position).aim part) := by
  cases node with
  | seq =>
      cases hs
      rcases parts with _ | ⟨part, _ | ⟨second, parts⟩⟩
      · simp [descend, hn]
      · simp [descend, hn]
      · simp [descend, hn]
  | times body count =>
      cases hs
      rcases count with _ | _ | count
      · simp [descend, hn]
      · simp [descend, hn]
      · simp [descend, hn, List.replicate_succ]
  | empty | oneOf | literal | guard | alt | star | rule | emit | fold | observe => cases hs

end Descending

/-- Returning into a series leads to its next part, the last one without the frame. -/
theorem resume_series {frame : Frame} {parts : List NodeId} {part : NodeId}
    (hn : here.grammar.nodes[frame.node]? = some node) (hs : node.series? = some parts)
    (hp : parts[frame.progress + 1]? = some part) :
    here.resume b frame =
      .go ((if frame.progress + 2 = parts.length then b.pop
        else b.reach (frame.progress + 1)).aim part) := by
  cases node with
  | seq =>
      cases hs
      simp only [resume, hn, hp]
  | times body count =>
      cases hs
      have hbody : part = body := List.eq_of_mem_replicate (List.mem_of_getElem? hp)
      simp only [resume, hn, hbody, List.length_replicate]
  | empty | oneOf | literal | guard | alt | star | rule | emit | fold | observe => cases hs

/-- Returning into a loop parts the ways, unless the round consumed nothing. -/
theorem resume_star {frame : Frame} {body : NodeId}
    (hn : here.grammar.nodes[frame.node]? = some (.star body)) :
    here.resume b frame =
      if frame.progress = here.position then .dead
      else .split [((b.reach here.position).via frame.node 1 here.position).aim body,
        b.pop.via frame.node 0 here.position] := by
  simp only [resume, hn]

end Turns

variable [DecidableEq σ] {here : Cursor σ τ} {b b' : Branch σ τ}

/-! ## The relation is what a move computes -/

/-- The branches that entering a series leads to. -/
theorem moves_of_mem_series {id : NodeId} {node : Node σ τ} {parts : List NodeId}
    (ht : b.target = some id) (hn : here.grammar.nodes[id]? = some node)
    (hs : node.series? = some parts) (h : b' ∈ (here.descend b.arrived id).branches) :
    here.Moves b b' := by
  rw [descend_series hn hs] at h
  rcases parts with _ | ⟨part, _ | ⟨second, parts⟩⟩
  · cases Turn.mem_go.mp h
    exact .skip ht hn hs
  · cases Turn.mem_go.mp h
    exact .only ht hn hs
  · cases Turn.mem_go.mp h
    exact .first ht hn hs

/-- The branches that entering an observer leads to. -/
theorem moves_of_mem_observe {id : NodeId} {observer : Observer} (ht : b.target = some id)
    (hn : here.grammar.nodes[id]? = some (.observe observer))
    (h : b' ∈ (here.descend b.arrived id).branches) : here.Moves b b' := by
  cases hc : observer.consumes with
  | false =>
      cases hp : observer.passes with
      | false => simp [descend, hn, hc, hp] at h
      | true =>
          have hpass : here.passes (.observe observer) = true := by simp [passes, hc, hp]
          rw [branches_descend_of_passes hn hpass] at h
          cases List.mem_singleton.mp h
          exact .pass ht hn hpass
  | true =>
      cases hp : observer.passes with
      | false =>
          have hwait : (Node.observe observer : Node σ τ).waits = true := by
            simp [Node.waits, hc, hp]
          rw [descend_of_waits hn hwait] at h
          cases Turn.mem_go.mp h
          exact .wait ht hn hwait
      | true =>
          rw [descend_watched hn hc hp] at h
          rcases Turn.mem_fork.mp h with rfl | rfl
          · exact .watch ht hn hc hp
          · exact .ignore ht hn hc hp

/-- The branches that entering a node leads to. -/
theorem moves_of_mem_descend {id : NodeId} (ht : b.target = some id)
    (h : b' ∈ (here.descend b.arrived id).branches) : here.Moves b b' := by
  cases hn : here.grammar.nodes[id]? with
  | none =>
      rw [descend, hn] at h
      cases h
  | some node =>
      cases node with
      | empty =>
          rw [branches_descend_of_passes hn rfl] at h
          cases List.mem_singleton.mp h
          exact .pass ht hn rfl
      | oneOf | literal =>
          rw [descend_of_waits hn rfl] at h
          cases Turn.mem_go.mp h
          exact .wait ht hn rfl
      | guard set =>
          simp only [descend, hn] at h
          split at h
          next ha =>
            cases Turn.mem_go.mp h
            exact .pass ht hn ha
          · cases h
      | seq | times => exact moves_of_mem_series ht hn rfl h
      | alt choices =>
          simp only [descend, hn, Turn.mem_split, List.mem_map] at h
          obtain ⟨⟨choice, index⟩, hc, rfl⟩ := h
          obtain ⟨hc, ha⟩ := List.mem_filter.mp hc
          exact .choose ht hn (List.mem_zipIdx_iff_getElem?.mp hc) ha
      | star body =>
          simp only [descend, hn] at h
          rcases Turn.mem_fork.mp h with rfl | rfl
          · exact .loop ht hn
          · exact .shun ht hn
      | rule index =>
          simp only [descend, hn] at h
          split at h
          next body hb =>
            cases Turn.mem_go.mp h
            exact .call ht hn hb
          · cases h
      | emit body yields =>
          cases yields with
          | fixed token =>
              simp only [descend, hn] at h
              cases Turn.mem_go.mp h
              exact .openFixed ht hn
          | ofSymbols make =>
              simp only [descend, hn] at h
              cases Turn.mem_go.mp h
              exact .openMade ht hn
      | fold body merge =>
          simp only [descend, hn] at h
          cases Turn.mem_go.mp h
          exact .openFold ht hn
      | observe observer => exact moves_of_mem_observe ht hn h

/-- The branches that returning into an open construct leads to. -/
theorem moves_of_mem_resume {frame : Frame} {frames : List Frame} (ht : b.target = none)
    (hf : b.frames = frame :: frames) (hfit : frame.Fits here.grammar here.position)
    (hwait : here.waitsAt frame.node = false)
    (h : b' ∈ (here.resume b frame).branches) : here.Moves b b' := by
  cases hfit with
  | @series node parts hn hs hp =>
      have hpart := List.getElem?_eq_getElem hp
      rw [resume_series hn hs hpart] at h
      cases Turn.mem_go.mp h
      exact .next ht hf hn hs hpart
  | star hn hp =>
      rw [resume_star hn] at h
      split at h
      · cases h
      next hne =>
        rcases Turn.mem_fork.mp h with rfl | rfl
        · exact .again ht hf hn hne
        · exact .leave ht hf hn hne
  | oneOf hn => simp [Cursor.waitsAt, hn, Node.consumes] at hwait
  | literal hn => simp [Cursor.waitsAt, hn, Node.consumes] at hwait
  | observe hn hc => simp [Cursor.waitsAt, hn, Node.consumes, hc] at hwait
  | @emit body yields hn =>
      cases yields with
      | fixed token =>
          simp only [resume, hn] at h
          cases Turn.mem_go.mp h
          exact .closeFixed ht hf hn
      | ofSymbols make =>
          simp only [resume, hn] at h
          cases Turn.mem_go.mp h
          exact .closeMade ht hf hn
  | fold hn =>
      simp only [resume, hn] at h
      cases Turn.mem_go.mp h
      exact .closeFold ht hf hn

/-- Every branch that a move gives is reached by the relation. -/
theorem moves_of_move {turn : Turn σ τ} (hfit : b.Fits here.grammar here.position)
    (h : here.move b = some turn) (hb' : b' ∈ turn.branches) : here.Moves b b' := by
  unfold Cursor.move at h
  split at h
  next id ht =>
    cases h
    exact moves_of_mem_descend ht hb'
  · cases h
  next frame frames ht hf =>
    split at h
    · cases h
    next hwait =>
      cases h
      exact moves_of_mem_resume ht hf (hfit frame (by rw [hf]; exact List.mem_cons_self))
        (Bool.eq_false_iff.mpr hwait) hb'

theorem move_of_target {id : NodeId} (ht : b.target = some id) :
    here.move b = some (here.descend b.arrived id) := by
  unfold Cursor.move
  rw [ht]
  rfl

theorem move_of_frame {frame : Frame} {frames : List Frame} {node : Node σ τ}
    (ht : b.target = none) (hf : b.frames = frame :: frames)
    (hn : here.grammar.nodes[frame.node]? = some node) (hc : node.consumes = false) :
    here.move b = some (here.resume b frame) := by
  simp [Cursor.move, ht, hf, Cursor.waitsAt, hn, hc]

/-- The relation leads to nothing but what a move gives. -/
theorem Moves.exists_turn (h : here.Moves b b') :
    ∃ turn, here.move b = some turn ∧ b' ∈ turn.branches := by
  cases h with
  | pass ht hn hp =>
      exact ⟨_, move_of_target ht, by simp [branches_descend_of_passes hn hp]⟩
  | wait ht hn hw => exact ⟨_, move_of_target ht, by simp [descend_of_waits hn hw, Turn.mem_go]⟩
  | watch ht hn hc hp =>
      exact ⟨_, move_of_target ht, by simp [descend_watched hn hc hp, Turn.mem_fork]⟩
  | ignore ht hn hc hp =>
      exact ⟨_, move_of_target ht, by simp [descend_watched hn hc hp, Turn.mem_fork]⟩
  | skip ht hn hs | only ht hn hs | first ht hn hs =>
      exact ⟨_, move_of_target ht, by simp [descend_series hn hs, Turn.mem_go]⟩
  | choose ht hn hc ha =>
      refine ⟨_, move_of_target ht, ?_⟩
      simp only [descend, hn, Turn.mem_split, List.mem_map]
      exact ⟨(_, _), List.mem_filter.mpr ⟨List.mem_zipIdx_iff_getElem?.mpr hc, ha⟩, rfl⟩
  | loop ht hn | shun ht hn =>
      exact ⟨_, move_of_target ht, by simp [descend, hn, Turn.mem_fork]⟩
  | call ht hn hb => exact ⟨_, move_of_target ht, by simp [descend, hn, hb, Turn.mem_go]⟩
  | openFixed ht hn | openMade ht hn | openFold ht hn =>
      exact ⟨_, move_of_target ht, by simp [descend, hn, Turn.mem_go]⟩
  | next ht hf hn hs hp =>
      refine ⟨_, move_of_frame ht hf hn (Node.consumes_of_series hs), ?_⟩
      rw [resume_series hn hs hp]
      exact Turn.mem_go.mpr rfl
  | again ht hf hn hp | leave ht hf hn hp =>
      exact ⟨_, move_of_frame ht hf hn rfl, by simp [resume_star hn, hp, Turn.mem_fork]⟩
  | closeFixed ht hf hn | closeMade ht hf hn | closeFold ht hf hn =>
      exact ⟨_, move_of_frame ht hf hn rfl, by simp [resume, hn, Turn.mem_go]⟩

end Cursor

/-- Where the innermost construct has come further. -/
theorem Branch.reach_frames {b : Branch σ τ} {frame : Frame} {frames : List Frame}
    (hf : b.frames = frame :: frames) (progress : Nat) :
    (b.reach progress).frames = { frame with progress } :: frames := by
  show b.frames.modifyHead _ = _
  rw [hf]
  rfl

/-! ## Buffers -/

namespace Branch

/-- An emission that begins to listen empties the buffer, unless another one listens. -/
theorem listen_eq (b : Branch σ τ) (position : Nat) : b.listen position =
    { b with
      heard := if b.listeners = 0 then [] else b.heard
      heardFrom := if b.listeners = 0 then position else b.heardFrom
      listeners := b.listeners + 1 } := by
  by_cases h : b.listeners = 0
  · simp [Branch.listen, h]
  · simp [Branch.listen, h]

/-- The last emission that listened empties the buffer. -/
theorem unlisten_eq (b : Branch σ τ) : b.unlisten =
    { b with
      heard := if b.listeners ≤ 1 then [] else b.heard
      listeners := b.listeners - 1 } := by
  by_cases h : b.listeners ≤ 1
  · have hzero : b.listeners - 1 = 0 := by omega
    simp [Branch.unlisten, h, hzero]
  · simp [Branch.unlisten, h]

/-- A symbol is heard if an emission listens. -/
theorem hear_eq (b : Branch σ τ) (symbol : σ) : b.hear symbol =
    { b with heard := if b.listeners = 0 then b.heard else symbol :: b.heard } := by
  by_cases h : b.listeners = 0
  · rw [Branch.hear, if_pos h, if_pos h]
  · rw [Branch.hear, if_neg h, if_neg h]

@[simp] theorem listen_frames (b : Branch σ τ) (position : Nat) :
    (b.listen position).frames = b.frames := by
  rw [listen_eq]

@[simp] theorem listen_target (b : Branch σ τ) (position : Nat) :
    (b.listen position).target = b.target := by
  rw [listen_eq]

@[simp] theorem listen_trail (b : Branch σ τ) (position : Nat) :
    (b.listen position).trail = b.trail := by
  rw [listen_eq]

@[simp] theorem listen_tokens (b : Branch σ τ) (position : Nat) :
    (b.listen position).tokens = b.tokens := by
  rw [listen_eq]

@[simp] theorem listen_listeners (b : Branch σ τ) (position : Nat) :
    (b.listen position).listeners = b.listeners + 1 := by
  rw [listen_eq]

@[simp] theorem unlisten_frames (b : Branch σ τ) : b.unlisten.frames = b.frames := by
  rw [unlisten_eq]

@[simp] theorem unlisten_target (b : Branch σ τ) : b.unlisten.target = b.target := by
  rw [unlisten_eq]

@[simp] theorem unlisten_trail (b : Branch σ τ) : b.unlisten.trail = b.trail := by
  rw [unlisten_eq]

@[simp] theorem unlisten_tokens (b : Branch σ τ) : b.unlisten.tokens = b.tokens := by
  rw [unlisten_eq]

@[simp] theorem unlisten_heardFrom (b : Branch σ τ) : b.unlisten.heardFrom = b.heardFrom := by
  rw [unlisten_eq]

@[simp] theorem unlisten_listeners (b : Branch σ τ) :
    b.unlisten.listeners = b.listeners - 1 := by
  rw [unlisten_eq]

@[simp] theorem hear_frames (b : Branch σ τ) (symbol : σ) : (b.hear symbol).frames = b.frames := by
  rw [hear_eq]

@[simp] theorem hear_target (b : Branch σ τ) (symbol : σ) : (b.hear symbol).target = b.target := by
  rw [hear_eq]

@[simp] theorem hear_trail (b : Branch σ τ) (symbol : σ) : (b.hear symbol).trail = b.trail := by
  rw [hear_eq]

@[simp] theorem hear_tokens (b : Branch σ τ) (symbol : σ) : (b.hear symbol).tokens = b.tokens := by
  rw [hear_eq]

@[simp] theorem hear_listeners (b : Branch σ τ) (symbol : σ) :
    (b.hear symbol).listeners = b.listeners := by
  rw [hear_eq]

@[simp] theorem hear_heardFrom (b : Branch σ τ) (symbol : σ) :
    (b.hear symbol).heardFrom = b.heardFrom := by
  rw [hear_eq]

/-! ## Fitting is kept -/

namespace Fits

variable {g : Grammar σ τ} {position : Nat} {b b' : Branch σ τ}

theorem of_frames (h : b.Fits g position) (hf : b'.frames = b.frames) : b'.Fits g position := by
  intro frame hframe
  rw [hf] at hframe
  exact h frame hframe

theorem push (h : b.Fits g position) {id : NodeId} {progress before : Nat}
    (hframe : (Frame.mk id progress before b.tokens.length).Fits g position) :
    (b.push id progress before).Fits g position := by
  intro frame hmem
  rcases List.mem_cons.mp hmem with rfl | hmem
  · exact hframe
  · exact h frame hmem

theorem pop (h : b.Fits g position) : b.pop.Fits g position :=
  fun frame hmem => h frame (List.mem_of_mem_tail hmem)

theorem reach (h : b.Fits g position) {frame : Frame} {frames : List Frame}
    (hf : b.frames = frame :: frames) (progress : Nat)
    (hframe : Frame.Fits g position { frame with progress }) :
    (b.reach progress).Fits g position := by
  intro other hmem
  simp only [Branch.reach, hf, List.modifyHead_cons, List.mem_cons] at hmem
  rcases hmem with rfl | hmem
  · exact hframe
  · exact h other (by rw [hf]; exact List.mem_cons_of_mem _ hmem)

end Fits

end Branch

theorem Frame.Fits.later {g : Grammar σ τ} {position later : Nat} {frame : Frame}
    (h : frame.Fits g position) (hle : position ≤ later) : frame.Fits g later := by
  cases h with
  | series hn hs hp => exact .series hn hs hp
  | star hn hp => exact .star hn (Nat.le_trans hp hle)
  | oneOf hn => exact .oneOf hn
  | literal hn hp => exact .literal hn hp
  | observe hn hc => exact .observe hn hc
  | emit hn => exact .emit hn
  | fold hn => exact .fold hn

/-- A frame that waits for a symbol fits when it is put on the stack. -/
theorem Node.waits_fits {g : Grammar σ τ} {position before tokens : Nat} {id : NodeId}
    {node : Node σ τ} (hg : g.IsBuilt) (hn : g.nodes[id]? = some node) (hw : node.waits = true) :
    (Frame.mk id 0 before tokens).Fits g position := by
  cases node with
  | oneOf => exact .oneOf hn
  | literal run => exact .literal hn (List.length_pos_iff.mpr (hg.literal_ne_nil hn))
  | observe => exact .observe hn (Bool.and_eq_true_iff.mp hw).1
  | empty | guard | seq | alt | star | times | rule | emit | fold => cases hw

section Kept

variable [DecidableEq σ] {b b' : Branch σ τ}

theorem Cursor.Moves.fits {here : Cursor σ τ} (h : here.Moves b b') (hg : here.grammar.IsBuilt)
    (hfit : b.Fits here.grammar here.position) : b'.Fits here.grammar here.position := by
  have harrived : b.arrived.Fits here.grammar here.position := hfit
  cases h with
  | pass | ignore | skip | only | choose | shun | call => exact hfit
  | wait ht hn hw => exact harrived.push (Node.waits_fits hg hn hw)
  | @watch id observer ht hn hc hp =>
      have hvia : (b.arrived.via id 1 here.position).Fits here.grammar here.position := hfit
      exact hvia.push (.observe hn hc)
  | @first id part second parts node ht hn hs =>
      have hframe : (Frame.mk id 0 here.position b.arrived.tokens.length).Fits here.grammar
          here.position := .series hn hs (by simp)
      exact (harrived.push hframe).of_frames rfl
  | @loop id body ht hn =>
      have hvia : (b.arrived.via id 1 here.position).Fits here.grammar here.position := hfit
      have hframe : (Frame.mk id here.position here.position b.arrived.tokens.length).Fits
          here.grammar here.position := .star hn (Nat.le_refl _)
      exact (hvia.push hframe).of_frames rfl
  | openFixed ht hn => exact (harrived.push (.emit hn)).of_frames rfl
  | openMade ht hn =>
      have hlisten := harrived.of_frames (Branch.listen_frames b.arrived here.position)
      exact (hlisten.push (.emit hn)).of_frames rfl
  | openFold ht hn => exact (harrived.push (.fold hn)).of_frames rfl
  | @next frame frames node parts part ht hf hn hs hp =>
      split
      · exact hfit.pop.of_frames rfl
      next hne =>
        have hlt : frame.progress + 1 < parts.length := (List.getElem?_eq_some_iff.mp hp).1
        exact (hfit.reach hf (frame.progress + 1) (.series hn hs (by simp only; omega))).of_frames
          rfl
  | again ht hf hn hp =>
      exact (hfit.reach hf here.position (.star hn (Nat.le_refl _))).of_frames rfl
  | leave | closeFixed | closeFold => exact hfit.pop.of_frames rfl
  | closeMade => exact hfit.pop.of_frames (Branch.unlisten_frames b.pop)

/-- Taking a symbol leaves frames that fitted before it. -/
theorem Grammar.Takes.fits_before {g : Grammar σ τ} {symbol : σ} {position : Nat}
    (h : g.Takes symbol b b') (hfit : b.Fits g position) : b'.Fits g position := by
  cases h with
  | member | any => exact hfit.pop.of_frames (Branch.hear_frames b.pop symbol)
  | @run frame frames run hf hn hs =>
      split
      · exact hfit.pop.of_frames (Branch.hear_frames b.pop symbol)
      next hne =>
        have hlt : frame.progress < run.length := (List.getElem?_eq_some_iff.mp hs).1
        have hreach := hfit.reach hf (frame.progress + 1) (.literal hn (by simp only; omega))
        exact hreach.of_frames (Branch.hear_frames _ symbol)

theorem Grammar.Takes.fits {g : Grammar σ τ} {symbol : σ} {position : Nat}
    (h : g.Takes symbol b b') (hfit : b.Fits g position) : b'.Fits g (position + 1) :=
  fun frame hframe => (h.fits_before hfit frame hframe).later (Nat.le_succ position)

end Kept

end Ramify
