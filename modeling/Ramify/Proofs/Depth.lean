import Ramify.Proofs.Exactness

/-!
# Room for frames

While a part of a node is in progress, at most one frame of the node itself is on the
stack, and none while the last part of a series is, a choice, or the body of a rule.
`Grammar.opens` lists the parts of a node with that number.

A number for each node that covers its own frame and the numbers of its parts
(`Grammar.Budget`) bounds how many frames lie above the place where the node is entered.
So the number of the start bounds the depth of every branch, whatever the input is.  Such
numbers exist as long as no cycle through the parts opens a frame, however it recurses.
-/

namespace Ramify

variable {σ τ : Type}

/-- The parts of a series with the number of its frames that are open meanwhile. -/
def opensSeries : List NodeId → List (NodeId × Nat)
  | [] => []
  | [last] => [(last, 0)]
  | part :: parts => (part, 1) :: opensSeries parts

namespace Grammar

/-- The parts of a node with the number of frames of the node that are open meanwhile. -/
def opens (g : Grammar σ τ) : Node σ τ → List (NodeId × Nat)
  | .seq parts => opensSeries parts
  | .times body count => opensSeries (List.replicate count body)
  | .alt choices => choices.map (·, 0)
  | .star body | .emit body _ | .fold body _ => [(body, 1)]
  | .rule index => (g.body? index).toList.map (·, 0)
  | .empty | .oneOf _ | .literal _ | .guard _ | .observe _ => []

/-- A number for each node that covers its own frame and the numbers of its parts. -/
structure Budget (g : Grammar σ τ) (room : NodeId → Nat) : Prop where
  /-- A node that waits for a symbol has a frame. -/
  waits {id : NodeId} {node : Node σ τ} (hn : g.nodes[id]? = some node)
    (hc : node.consumes = true) : 1 ≤ room id
  /-- A part has its number on top of the frames of the node. -/
  part {id part : NodeId} {own : Nat} {node : Node σ τ} (hn : g.nodes[id]? = some node)
    (hp : (part, own) ∈ g.opens node) : room part + own ≤ room id

end Grammar

theorem mem_opensSeries_of_lt :
    ∀ (parts : List NodeId) {index : Nat} {part : NodeId}, parts[index]? = some part →
      index + 1 < parts.length → (part, 1) ∈ opensSeries parts
  | [], _, _, h, _ => by cases h
  | [_], _, _, _, hlt => absurd hlt (by simp)
  | first :: second :: parts, 0, part, h, _ => by
      cases h
      exact List.mem_cons_self
  | first :: second :: parts, index + 1, part, h, hlt =>
      List.mem_cons_of_mem _ (mem_opensSeries_of_lt (second :: parts) h
        (Nat.lt_of_succ_lt_succ hlt))

theorem mem_opensSeries_of_eq :
    ∀ (parts : List NodeId) {index : Nat} {part : NodeId}, parts[index]? = some part →
      index + 1 = parts.length → (part, 0) ∈ opensSeries parts
  | [], _, _, h, _ => by cases h
  | [_], 0, _, h, _ => by
      cases h
      exact List.mem_cons_self
  | [_], _ + 1, _, h, _ => by cases h
  | _ :: _ :: _, 0, _, _, hend => absurd hend (by simp)
  | first :: second :: parts, index + 1, part, h, hend =>
      List.mem_cons_of_mem _ (mem_opensSeries_of_eq (second :: parts) h
        (Nat.succ.inj hend))

theorem Grammar.opens_series {g : Grammar σ τ} {node : Node σ τ} {parts : List NodeId}
    (hs : node.series? = some parts) : g.opens node = opensSeries parts := by
  cases node with
  | seq | times =>
      cases hs
      rfl
  | empty | oneOf | literal | guard | alt | star | rule | emit | fold | observe => cases hs

/-- Whether every frame of a stack has the room of its node above it. -/
def FramesKeepTo (room : NodeId → Nat) (bound : Nat) : List Frame → Prop
  | [] => True
  | frame :: frames => frames.length + room frame.node ≤ bound ∧ FramesKeepTo room bound frames

namespace FramesKeepTo

variable {room : NodeId → Nat} {bound : Nat}

theorem tail : ∀ {frames : List Frame}, FramesKeepTo room bound frames →
    FramesKeepTo room bound frames.tail
  | [], h => h
  | _ :: _, h => h.2

theorem reach (progress : Nat) : ∀ {frames : List Frame}, FramesKeepTo room bound frames →
    FramesKeepTo room bound (frames.modifyHead fun frame => { frame with progress })
  | [], h => h
  | _ :: _, h => h

end FramesKeepTo

/-- A branch that leaves the nodes on its stack, and the one that it enters next, the room
that they need. -/
structure Branch.KeepsTo (room : NodeId → Nat) (bound : Nat) (b : Branch σ τ) : Prop where
  /-- Every frame has the room of its node above it. -/
  frames : FramesKeepTo room bound b.frames
  /-- The node that is entered next has its room. -/
  target {id : NodeId} (ht : b.target = some id) : b.frames.length + room id ≤ bound

namespace Branch.KeepsTo

variable {room : NodeId → Nat} {bound : Nat} {b : Branch σ τ}

theorem start (room : NodeId → Nat) (id : NodeId) :
    (Branch.start id : Branch σ τ).KeepsTo room (room id) where
  frames := trivial
  target ht := by
    cases ht
    exact Nat.le_of_eq (Nat.zero_add _)

theorem of_target_none (hframes : FramesKeepTo room bound b.frames) (ht : b.target = none) :
    b.KeepsTo room bound where
  frames := hframes
  target h := by
    rw [ht] at h
    cases h

/-- A branch enters a part without a frame of the node it comes from. -/
theorem aim_own {frames : List Frame} {id part : NodeId}
    (hframes : FramesKeepTo room bound frames) (hid : frames.length + room id ≤ bound)
    (hpart : room part + 0 ≤ room id) (hf : b.frames = frames) :
    (b.aim part).KeepsTo room bound where
  frames := by
    rw [← hf] at hframes
    exact hframes
  target ht := by
    cases ht
    show b.frames.length + room part ≤ bound
    rw [hf]
    omega

/-- A branch enters a part under a frame of the node it comes from. -/
theorem aim_under (frame : Frame) {frames : List Frame} {part : NodeId}
    (hframes : FramesKeepTo room bound frames)
    (hid : frames.length + room frame.node ≤ bound) (hpart : room part + 1 ≤ room frame.node)
    (hf : b.frames = frame :: frames) : (b.aim part).KeepsTo room bound where
  frames := by
    show FramesKeepTo room bound b.frames
    rw [hf]
    exact ⟨hid, hframes⟩
  target ht := by
    cases ht
    show b.frames.length + room part ≤ bound
    rw [hf, List.length_cons]
    omega

end Branch.KeepsTo

/-- A frame that fits is counted by the number of its node. -/
theorem Frame.Fits.room_pos {g : Grammar σ τ} {room : NodeId → Nat} (hroom : g.Budget room)
    {position : Nat} {frame : Frame} (h : frame.Fits g position) : 1 ≤ room frame.node := by
  cases h with
  | @series node parts hn hs hp =>
      have hpart : parts[frame.progress]? = some parts[frame.progress] :=
        List.getElem?_eq_getElem (by omega)
      have hopens := mem_opensSeries_of_lt _ hpart hp
      rw [← g.opens_series hs] at hopens
      exact Nat.le_trans (Nat.le_add_left _ _) (hroom.part hn hopens)
  | oneOf hn | literal hn => exact hroom.waits hn rfl
  | observe hn hc => exact hroom.waits hn hc
  | star hn | emit hn | fold hn =>
      exact Nat.le_trans (Nat.le_add_left _ _) (hroom.part hn List.mem_cons_self)

namespace Branch

variable {g : Grammar σ τ} {room : NodeId → Nat} {bound position : Nat} {b : Branch σ τ}

/-- A branch that keeps to a bound is not deeper. -/
theorem KeepsTo.depth_le (h : b.KeepsTo room bound) (hroom : g.Budget room)
    (hfit : b.Fits g position) : b.depth ≤ bound := by
  rw [b.depth_eq]
  have hframes := h.frames
  cases hb : b.frames with
  | nil => exact Nat.zero_le _
  | cons frame frames =>
      rw [hb] at hframes
      have hpos := (hfit frame (by rw [hb]; exact List.mem_cons_self)).room_pos hroom
      have hroom := hframes.1
      rw [List.length_cons]
      omega

end Branch

section Kept

variable [DecidableEq σ] {room : NodeId → Nat} {bound : Nat} {b b' : Branch σ τ}

/-- A move keeps to a bound. -/
theorem Cursor.Moves.keepsTo {here : Cursor σ τ} (h : here.Moves b b')
    (hroom : here.grammar.Budget room) (hb : b.KeepsTo room bound) : b'.KeepsTo room bound := by
  have hframes := hb.frames
  cases h with
  | pass | ignore | skip | shun => exact .of_target_none hframes rfl
  | wait ht hn hw => exact .of_target_none ⟨hb.target ht, hframes⟩ rfl
  | watch ht hn hc hp => exact .of_target_none ⟨hb.target ht, hframes⟩ rfl
  | only ht hn hs =>
      refine .aim_own hframes (hb.target ht) (hroom.part hn ?_) rfl
      rw [Grammar.opens_series hs]
      exact List.mem_cons_self
  | first ht hn hs =>
      refine .aim_under _ hframes (hb.target ht) (hroom.part hn ?_) rfl
      rw [Grammar.opens_series hs]
      exact List.mem_cons_self
  | choose ht hn hc ha =>
      refine .aim_own hframes (hb.target ht) (hroom.part hn ?_) rfl
      exact List.mem_map_of_mem (List.mem_of_getElem? hc)
  | call ht hn hbody =>
      refine .aim_own hframes (hb.target ht) (hroom.part hn ?_) rfl
      simp [Grammar.opens, hbody]
  | loop ht hn | openFixed ht hn | openFold ht hn =>
      exact .aim_under _ hframes (hb.target ht) (hroom.part hn List.mem_cons_self) rfl
  | @openMade id body make ht hn =>
      refine .aim_under ⟨id, 0, here.position, b.tokens.length⟩ hframes (hb.target ht)
        (hroom.part hn List.mem_cons_self) ?_
      simp [Branch.push, Branch.arrived]
  | @next frame frames node parts part ht hf hn hs hp =>
      rw [hf] at hframes
      have hlt : frame.progress + 1 < parts.length := (List.getElem?_eq_some_iff.mp hp).1
      split
      next hend =>
        refine .aim_own hframes.2 hframes.1 (hroom.part hn ?_) (congrArg List.tail hf)
        rw [Grammar.opens_series hs]
        exact mem_opensSeries_of_eq _ hp hend
      next hne =>
        refine .aim_under { frame with progress := frame.progress + 1 } hframes.2
          hframes.1 (hroom.part hn ?_) ?_
        · rw [Grammar.opens_series hs]
          exact mem_opensSeries_of_lt _ hp (by omega)
        · exact Branch.reach_frames hf _
  | @again frame frames body ht hf hn hp =>
      rw [hf] at hframes
      refine .aim_under { frame with progress := here.position } hframes.2 hframes.1
        (hroom.part hn List.mem_cons_self) ?_
      exact Branch.reach_frames hf _
  | leave ht | closeFixed ht | closeFold ht => exact .of_target_none hframes.tail ht
  | closeMade ht =>
      refine .of_target_none (b := (Branch.unlisten _).emit _) ?_ ?_
      · show FramesKeepTo room bound (Branch.unlisten _).frames
        rw [Branch.unlisten_frames]
        exact hframes.tail
      · show (Branch.unlisten _).target = none
        rw [Branch.unlisten_target]
        exact ht

/-- Taking a symbol keeps to a bound. -/
theorem Grammar.Takes.keepsTo {g : Grammar σ τ} {symbol : σ} (h : g.Takes symbol b b')
    (ht : b.target = none) (hb : b.KeepsTo room bound) : b'.KeepsTo room bound := by
  have hpop : (b.pop.hear symbol).KeepsTo room bound := by
    refine .of_target_none ?_ ?_
    · rw [Branch.hear_frames]
      exact hb.frames.tail
    · rw [Branch.hear_target]
      exact ht
  cases h with
  | member | any => exact hpop
  | @run frame frames run hf hn hs =>
      split
      · exact hpop
      · refine .of_target_none ?_ ?_
        · rw [Branch.hear_frames]
          exact hb.frames.reach _
        · rw [Branch.hear_target]
          exact ht

theorem Cursor.Visits.keepsTo {here : Cursor σ τ} (h : here.Visits b b')
    (hroom : here.grammar.Budget room) (hb : b.KeepsTo room bound) : b'.KeepsTo room bound := by
  induction h with
  | refl => exact hb
  | tail _ hmove ih => exact hmove.keepsTo hroom ih

end Kept

namespace Forest

variable [DecidableEq σ] {g : Grammar σ τ} {limits : Limits} {room : NodeId → Nat} {f : Forest σ τ}
  {depth limit : Nat}

/-- Every branch of a parse keeps to the number of the start. -/
theorem Reachable.keepsTo (h : Reachable g limits f) (hg : g.IsBuilt) (hroom : g.Budget room) :
    ∀ b ∈ f.branches, b.KeepsTo room (room g.start) := by
  induction h with
  | new =>
      intro b hb
      cases List.mem_singleton.mp hb
      exact .start room g.start
  | @take f h symbol ih =>
      have hadvanced : ∀ b ∈ (f.advanced symbol).branches, b.KeepsTo room (room g.start) := by
        intro b' hb'
        rw [(h.tidy hg).advanced_branches] at hb'
        obtain ⟨r, hr, htake⟩ := List.mem_filterMap.mp hb'
        obtain ⟨b, hb, hvisit, hrest, -⟩ := (h.tidy hg).visits_of_mem_rested hr
        have hkeeps := hvisit.keepsTo (by rw [Forest.cursor, h.grammar_eq.1]; exact hroom) (ih b hb)
        exact (Grammar.consume_eq_some_iff.mp htake).keepsTo
          (Cursor.target_of_move_eq_none hrest) hkeeps
      rcases take_forest f symbol with hf | ⟨_, hf⟩ | ⟨_, hf⟩ | hf
      · rwa [hf]
      · rw [hf]
        exact List.forall_mem_nil _
      · rw [hf]
        exact List.forall_mem_nil _
      · rwa [hf]
  | @close f h ih =>
      rw [close_forest]
      exact List.forall_mem_nil _
  | @restart f h ih =>
      intro b hb
      cases List.mem_singleton.mp hb
      rw [h.grammar_eq.1]
      exact .start room g.start

/-- No branch that a parse comes across, between any two symbols or at the end, is deeper than the
number of the start. -/
theorem Reachable.depth_le (h : Reachable g limits f) (hg : g.IsBuilt) (hroom : g.Budget room)
    {next : Option σ} {b b' : Branch σ τ} (hb : b ∈ f.branches)
    (hvisit : (f.cursor next).Visits b b') : b'.depth ≤ room g.start := by
  have hgrammar : (f.cursor next).grammar = g := h.grammar_eq.1
  have hbuilt : (f.cursor next).grammar.IsBuilt := by rwa [hgrammar]
  have hbudget : (f.cursor next).grammar.Budget room := by rwa [hgrammar]
  have hfit := hvisit.fits hbuilt ((h.tidy hg).fits b hb)
  exact (hvisit.keepsTo hbudget (h.keepsTo hg hroom b hb)).depth_le hbudget hfit

/-- A limit on the depth that the number of the start keeps to is never exceeded. -/
theorem Reachable.not_overruns (h : Reachable g limits f) (hg : g.IsBuilt) (hroom : g.Budget room)
    {maxDepth : Nat} (hmax : room g.start ≤ maxDepth) (next : Option σ) :
    ¬ f.Overruns next maxDepth := by
  rintro ⟨b, hb, b', hvisit, hdeep⟩
  have hdepth := h.depth_le hg hroom hb hvisit
  have hlimit := (Limits.isExceeded_iff.mp hdeep).1
  omega

/-- No branch overruns a limit on the depth that a budget keeps to. -/
theorem Reachable.overrun_eq_none (h : Reachable g limits f) (hg : g.IsBuilt)
    (hroom : g.Budget room) (hmax : room g.start ≤ limits.depth) (next : Option σ) :
    (f.unfold next).overrun = none := by
  have hsound : f.Sound := (h.tidy hg).toSound
  rw [hsound.overrun_eq_none_iff, h.grammar_eq.2]
  exact h.not_overruns hg hroom hmax next

/-- Under a limit on the depth that a budget keeps to no parse is stopped as too deep. -/
theorem Reachable.fault_ne_tooDeep (h : Reachable g limits f) (hg : g.IsBuilt)
    (hroom : g.Budget room) (hmax : room g.start ≤ limits.depth) :
    f.fault ≠ some (.tooDeep depth limit) := by
  induction h with
  | new => exact nofun
  | @take f h symbol ih =>
      intro hfault
      rcases take_eq_tooDeep (take_of_stopped hfault) with hbefore | hover
      · exact ih hbefore
      · exact hover (h.overrun_eq_none hg hroom hmax _)
  | @close f h ih =>
      rw [close_forest]
      exact nofun
  | restart => exact nofun

theorem Reachable.take_ne_tooDeep (h : Reachable g limits f) (hg : g.IsBuilt)
    (hroom : g.Budget room) (hmax : room g.start ≤ limits.depth) (symbol : σ) :
    (f.take symbol).result ≠ .error (.tooDeep depth limit) := by
  intro hresult
  rcases take_eq_tooDeep hresult with hfault | hover
  · exact h.fault_ne_tooDeep hg hroom hmax hfault
  · exact hover (h.overrun_eq_none hg hroom hmax _)

theorem Reachable.close_ne_tooDeep (h : Reachable g limits f) (hg : g.IsBuilt)
    (hroom : g.Budget room) (hmax : room g.start ≤ limits.depth) :
    f.close.result ≠ .error (.aborted (.tooDeep depth limit)) := by
  intro hresult
  cases hfault : f.fault with
  | some reason =>
      cases (close_of_fault hfault).symm.trans hresult
      exact h.fault_ne_tooDeep hg hroom hmax hfault
  | none =>
      rw [close_of_room hfault (h.overrun_eq_none hg hroom hmax none)] at hresult
      exact verdict_ne_aborted hresult

end Forest

end Ramify
