import Ramify.Proofs.History

/-!
# What is matched inside an open construct

While a branch matches the body of an emission or of a fold, the frame of that construct and all
below it stay on the stack untouched.  A step of the branch is then a step of the same branch
without them (`Cursor.Moves.rebase`, `Grammar.Takes.rebase`).

So the part of a run since a construct was opened can be cut out as a run of its own
(`Branch.Enclosed`).  When the branch is back in the construct, that run has ended with nothing
left to match, and has followed a tree of the body (`Grammar.LeadsTo.exists_closes`): the tree
spans the symbols consumed since the construct was opened, and yields the tokens emitted since.
-/

namespace Ramify

variable {σ τ : Type}

/-- The body of an emission or of a fold. -/
def Node.wrapped? : Node σ τ → Option NodeId
  | .emit body _ | .fold body _ => some body
  | _ => none

/-- The branch on another stack. -/
def Branch.withFrames (b : Branch σ τ) (frames : List Frame) : Branch σ τ :=
  { b with
    frames
    depth := frames.length
    depth_eq := rfl }

namespace Branch

variable (b : Branch σ τ) (frames : List Frame)

theorem pop_withFrames (frame : Frame) :
    (b.withFrames (frame :: frames)).pop = b.pop.withFrames frames :=
  rfl

theorem reach_withFrames (frame : Frame) (progress : Nat) :
    (b.withFrames (frame :: frames)).reach progress =
      (b.reach progress).withFrames ({ frame with progress } :: frames) :=
  rfl

theorem listen_withFrames (position : Nat) :
    (b.withFrames frames).listen position = (b.listen position).withFrames frames := by
  rw [listen_eq, listen_eq]
  rfl

theorem unlisten_withFrames :
    (b.withFrames frames).unlisten = b.unlisten.withFrames frames := by
  rw [unlisten_eq, unlisten_eq]
  rfl

theorem hear_withFrames (symbol : σ) :
    (b.withFrames frames).hear symbol = (b.hear symbol).withFrames frames := by
  rw [hear_eq, hear_eq]
  rfl

end Branch

section Rebasing

variable [DecidableEq σ] {b b' : Branch σ τ} {above base : List Frame}

/-- A move that leaves what is at the bottom of the stack is a move without it. -/
theorem Cursor.Moves.rebase {here : Cursor σ τ} (h : here.Moves b b')
    (hf : b.frames = above ++ base) (hin : above ≠ [] ∨ b.target ≠ none) :
    ∃ above', b'.frames = above' ++ base ∧
      here.Moves (b.withFrames above) (b'.withFrames above') := by
  have hpush : ∀ {frame : Frame}, frame :: b.frames = (frame :: above) ++ base :=
    congrArg (List.cons _) hf
  -- A branch that is back in a construct is in one of those above.
  have htop : ∀ {frame : Frame} {frames : List Frame}, b.target = none →
      b.frames = frame :: frames → ∃ rest, above = frame :: rest ∧ frames = rest ++ base := by
    intro frame frames ht hb
    obtain ⟨hnil, -⟩ | ⟨rest, habove, hrest⟩ := List.cons_eq_append_iff.mp (hb.symm.trans hf)
    · rcases hin with hne | hne
      · exact absurd hnil hne
      · exact absurd ht hne
    · exact ⟨rest, habove, hrest⟩
  cases h with
  | pass ht hn hp => exact ⟨_, hf, .pass ht hn hp⟩
  | wait ht hn hw => exact ⟨_, hpush, .wait ht hn hw⟩
  | watch ht hn hc hp => exact ⟨_, hpush, .watch ht hn hc hp⟩
  | ignore ht hn hc hp => exact ⟨_, hf, .ignore ht hn hc hp⟩
  | skip ht hn hs => exact ⟨_, hf, .skip ht hn hs⟩
  | only ht hn hs => exact ⟨_, hf, .only ht hn hs⟩
  | first ht hn hs => exact ⟨_, hpush, .first ht hn hs⟩
  | choose ht hn hc ha => exact ⟨_, hf, .choose ht hn hc ha⟩
  | loop ht hn => exact ⟨_, hpush, .loop ht hn⟩
  | shun ht hn => exact ⟨_, hf, .shun ht hn⟩
  | call ht hn hb => exact ⟨_, hf, .call ht hn hb⟩
  | openFixed ht hn => exact ⟨_, hpush, .openFixed ht hn⟩
  | openMade ht hn =>
      have hmove := Cursor.Moves.openMade (b := b.withFrames above) ht hn
      have harrived : (b.withFrames above).arrived = b.arrived.withFrames above := rfl
      rw [harrived, Branch.listen_withFrames] at hmove
      exact ⟨_, (congrArg (List.cons _) (Branch.listen_frames _ _)).trans hpush, hmove⟩
  | openFold ht hn => exact ⟨_, hpush, .openFold ht hn⟩
  | @next frame frames node parts part ht hb hn hs hp =>
      obtain ⟨rest, rfl, rfl⟩ := htop ht hb
      have hmove := Cursor.Moves.next (b := b.withFrames (frame :: rest)) ht rfl hn hs hp
      split
      next hlast =>
        rw [if_pos hlast] at hmove
        exact ⟨_, congrArg List.tail hf, hmove⟩
      next hmore =>
        rw [if_neg hmore] at hmove
        exact ⟨{ frame with progress := frame.progress + 1 } :: rest,
          Branch.reach_frames hf _, hmove⟩
  | @again frame frames body ht hb hn hp =>
      obtain ⟨rest, rfl, rfl⟩ := htop ht hb
      exact ⟨{ frame with progress := here.position } :: rest, Branch.reach_frames hf _,
        .again (b := b.withFrames (frame :: rest)) ht rfl hn hp⟩
  | @leave frame frames body ht hb hn hp =>
      obtain ⟨rest, rfl, rfl⟩ := htop ht hb
      exact ⟨_, congrArg List.tail hf,
        .leave (b := b.withFrames (frame :: rest)) ht rfl hn hp⟩
  | @closeFixed frame frames body token ht hb hn =>
      obtain ⟨rest, rfl, rfl⟩ := htop ht hb
      exact ⟨_, congrArg List.tail hf, .closeFixed (b := b.withFrames (frame :: rest)) ht rfl hn⟩
  | @closeMade frame frames body make ht hb hn =>
      obtain ⟨rest, rfl, rfl⟩ := htop ht hb
      have hmove := Cursor.Moves.closeMade (b := b.withFrames (frame :: rest)) ht rfl hn
      rw [Branch.pop_withFrames, Branch.unlisten_withFrames] at hmove
      exact ⟨_, (Branch.unlisten_frames _).trans (congrArg List.tail hf), hmove⟩
  | @closeFold frame frames body merge ht hb hn =>
      obtain ⟨rest, rfl, rfl⟩ := htop ht hb
      exact ⟨_, congrArg List.tail hf, .closeFold (b := b.withFrames (frame :: rest)) ht rfl hn⟩

/-- Taking a symbol leaves what is at the bottom of the stack. -/
theorem Grammar.Takes.rebase {g : Grammar σ τ} {symbol : σ} (h : g.Takes symbol b b')
    (hf : b.frames = above ++ base) (hin : above ≠ []) :
    ∃ above', b'.frames = above' ++ base ∧
      g.Takes symbol (b.withFrames above) (b'.withFrames above') := by
  obtain ⟨top, rest, rfl⟩ := List.exists_cons_of_ne_nil hin
  have htop : ∀ {frame : Frame} {frames : List Frame}, b.frames = frame :: frames → top = frame :=
    fun hb => (List.cons.inj (hf.symm.trans hb)).1
  cases h with
  | member hb hn hs =>
      cases htop hb
      have htake := Grammar.Takes.member (b := b.withFrames (top :: rest)) rfl hn hs
      rw [Branch.pop_withFrames, Branch.hear_withFrames] at htake
      exact ⟨_, (Branch.hear_frames _ _).trans (congrArg List.tail hf), htake⟩
  | any hb hn hc =>
      cases htop hb
      have htake : g.Takes symbol (b.withFrames (top :: rest)) _ := .any rfl hn hc
      rw [Branch.pop_withFrames, Branch.hear_withFrames] at htake
      exact ⟨_, (Branch.hear_frames _ _).trans (congrArg List.tail hf), htake⟩
  | run hb hn hs =>
      cases htop hb
      have htake := Grammar.Takes.run (b := b.withFrames (top :: rest)) rfl hn hs
      split
      next hlast =>
        rw [if_pos hlast, Branch.pop_withFrames, Branch.hear_withFrames] at htake
        exact ⟨_, (Branch.hear_frames _ _).trans (congrArg List.tail hf), htake⟩
      next hmore =>
        rw [if_neg hmore, Branch.reach_withFrames, Branch.hear_withFrames] at htake
        exact ⟨_, (Branch.hear_frames _ _).trans (Branch.reach_frames hf _), htake⟩

end Rebasing

/-! ## Stacks -/

/-- What a move or a symbol does to the stack and the tokens of a branch. -/
inductive Branch.Shifts (g : Grammar σ τ) (position : Nat) (b b' : Branch σ τ) : Prop where
  /-- A node is entered without a frame. -/
  | stay (ht : b.target ≠ none) (hf : b'.frames = b.frames) (htokens : b'.tokens = b.tokens)
  /-- A node is entered and put on the stack; if it has a body, that is entered next. -/
  | push {id : NodeId} {node : Node σ τ} {progress : Nat} (ht : b.target = some id)
      (hn : g.nodes[id]? = some node)
      (hf : b'.frames = ⟨id, progress, position, b.tokens.length⟩ :: b.frames)
      (htokens : b'.tokens = b.tokens)
      (hbody : ∀ body, node.wrapped? = some body → b'.target = some body)
  /-- The innermost construct, which is neither an emission nor a fold, comes further. -/
  | reach {frame : Frame} {frames : List Frame} {node : Node σ τ} {progress : Nat}
      (ht : b.target = none) (hb : b.frames = frame :: frames)
      (hn : g.nodes[frame.node]? = some node) (hplain : node.wrapped? = none)
      (hf : b'.frames = { frame with progress } :: frames) (htokens : b'.tokens = b.tokens)
  /-- The innermost construct is closed, and the tokens from before it was entered stay. -/
  | pop {frame : Frame} {frames : List Frame} (ht : b.target = none)
      (hb : b.frames = frame :: frames) (hf : b'.frames = frames)
      (htokens : b.tokens.take frame.tokensBefore <+: b'.tokens)

theorem Node.wrapped?_of_waits {node : Node σ τ} (h : node.waits = true) :
    node.wrapped? = none := by
  cases node with
  | oneOf | literal | observe => rfl
  | empty | guard | seq | alt | star | times | rule | emit | fold => cases h

theorem Node.wrapped?_of_series {node : Node σ τ} {parts : List NodeId}
    (h : node.series? = some parts) : node.wrapped? = none := by
  cases node with
  | seq | times => rfl
  | empty | oneOf | literal | guard | alt | star | rule | emit | fold | observe => cases h

section Shifting

variable [DecidableEq σ] {b b' : Branch σ τ}

theorem Cursor.Moves.shifts {here : Cursor σ τ} (h : here.Moves b b') :
    b.Shifts here.grammar here.position b' := by
  have hkeep : ∀ {count : Nat}, b.tokens.take count <+: b.tokens := List.take_prefix _ _
  cases h with
  | pass ht | ignore ht | skip ht | only ht | choose ht | shun ht | call ht =>
      exact .stay (by simp [ht]) rfl rfl
  | wait ht hn hw =>
      exact .push ht hn rfl rfl fun _ hbody => by cases (Node.wrapped?_of_waits hw).symm.trans hbody
  | watch ht hn => exact .push ht hn rfl rfl fun _ hbody => by cases hbody
  | first ht hn hs =>
      exact .push ht hn rfl rfl fun _ hbody => by
        cases (Node.wrapped?_of_series hs).symm.trans hbody
  | loop ht hn => exact .push ht hn rfl rfl fun _ hbody => by cases hbody
  | openFixed ht hn | openFold ht hn => exact .push ht hn rfl rfl fun _ hbody => hbody
  | @openMade id body make ht hn =>
      have htokens : (b.arrived.listen here.position).tokens = b.tokens :=
        Branch.listen_tokens _ _
      have hframes : ((b.arrived.listen here.position).push id 0 here.position).frames =
          ⟨id, 0, here.position, b.tokens.length⟩ :: b.frames := by
        rw [← htokens]
        exact congrArg (List.cons _) (Branch.listen_frames _ _)
      exact .push ht hn hframes htokens fun _ hbody => hbody
  | next ht hf hn hs =>
      split
      · exact .pop ht hf (congrArg List.tail hf) hkeep
      · exact .reach ht hf hn (Node.wrapped?_of_series hs) (Branch.reach_frames hf _) rfl
  | again ht hf hn => exact .reach ht hf hn rfl (Branch.reach_frames hf _) rfl
  | leave ht hf => exact .pop ht hf (congrArg List.tail hf) hkeep
  | closeFixed ht hf =>
      exact .pop ht hf (congrArg List.tail hf) (hkeep.trans (List.prefix_append _ _))
  | closeMade ht hf =>
      refine .pop ht hf ?_ ?_
      · exact (Branch.unlisten_frames _).trans (congrArg List.tail hf)
      · show _ <+: b.pop.unlisten.tokens ++ _
        rw [Branch.unlisten_tokens]
        exact hkeep.trans (List.prefix_append _ _)
  | closeFold ht hf => exact .pop ht hf (congrArg List.tail hf) (List.prefix_append _ _)

theorem Grammar.Takes.shifts {g : Grammar σ τ} {symbol : σ} (h : g.Takes symbol b b')
    (ht : b.target = none) (position : Nat) : b.Shifts g position b' := by
  have hkeep : ∀ {count : Nat} {other : Branch σ τ}, other.tokens = b.tokens →
      b.tokens.take count <+: (other.hear symbol).tokens := by
    intro count other htokens
    rw [Branch.hear_tokens, htokens]
    exact List.take_prefix _ _
  cases h with
  | member hf | any hf =>
      exact .pop ht hf ((Branch.hear_frames _ _).trans (congrArg List.tail hf)) (hkeep rfl)
  | run hf hn =>
      split
      · exact .pop ht hf ((Branch.hear_frames _ _).trans (congrArg List.tail hf)) (hkeep rfl)
      · exact .reach ht hf hn rfl ((Branch.hear_frames _ _).trans (Branch.reach_frames hf _))
          (Branch.hear_tokens _ _)

end Shifting

/-- A branch that has an emission or a fold on its stack had it there before, and what was done was
done inside of it; or it has been opened. -/
theorem Branch.Shifts.wrapped_cases {g : Grammar σ τ} {position : Nat} {b b' : Branch σ τ}
    {above base : List Frame} {frame : Frame} {node : Node σ τ} {body : NodeId}
    (h : b.Shifts g position b') (hf : b'.frames = above ++ frame :: base)
    (hn : g.nodes[frame.node]? = some node) (hw : node.wrapped? = some body) :
    (∃ before, b.frames = before ++ frame :: base ∧ (before ≠ [] ∨ b.target ≠ none)) ∨
      above = [] ∧ b.target = some frame.node ∧ b.frames = base ∧
        b.tokens.length = frame.tokensBefore ∧ position = frame.symbolsBefore ∧
        b'.target = some body ∧ b'.tokens = b.tokens := by
  cases h with
  | stay ht hsame => exact .inl ⟨above, hsame.symm.trans hf, .inr ht⟩
  | push ht hn' hpush htokens hbody =>
      rcases List.cons_eq_append_iff.mp (hpush.symm.trans hf) with ⟨rfl, hcons⟩ | ⟨rest, -, hrest⟩
      · cases hcons
        cases hn.symm.trans hn'
        exact .inr ⟨rfl, ht, rfl, rfl, rfl, hbody body hw, htokens⟩
      · exact .inl ⟨rest, hrest, .inr (by simp [ht])⟩
  | reach ht hb hn' hplain hreach =>
      rcases List.cons_eq_append_iff.mp (hreach.symm.trans hf) with ⟨-, hcons⟩ | ⟨rest, -, hrest⟩
      · cases hcons
        cases hn.symm.trans hn'
        cases hw.symm.trans hplain
      · exact .inl ⟨_ :: rest, hb.trans (congrArg _ hrest), .inl (List.cons_ne_nil _ _)⟩
  | pop ht hb hpop =>
      have hrest := hpop.symm.trans hf
      exact .inl ⟨_ :: above, hb.trans (congrArg _ hrest), .inl (List.cons_ne_nil _ _)⟩

/-! ## Runs inside a construct -/

section Enclosed

variable [DecidableEq σ] {g : Grammar σ τ} {w : List σ} {i : Nat} {b b' : Branch σ τ}
  {frame : Frame} {base : List Frame} {node : Node σ τ} {body : NodeId}

/-- A run leads to a branch whose next move opens an emission or a fold. -/
structure Grammar.Opens (g : Grammar σ τ) (w : List σ) (frame : Frame) (base : List Frame)
    (body : NodeId) (b b' : Branch σ τ) : Prop where
  /-- As many symbols were consumed as the frame says. -/
  leadsTo : g.LeadsTo w frame.symbolsBefore b
  /-- The node of the frame is entered next. -/
  target : b.target = some frame.node
  /-- The frame goes on top of these. -/
  frames : b.frames = base
  /-- There are as many tokens as the frame says. -/
  count : b.tokens.length = frame.tokensBefore
  /-- The construct is opened. -/
  move : (g.cursorAt w frame.symbolsBefore).Moves b b'
  /-- The body is entered then. -/
  body : b'.target = some body
  /-- Nothing was emitted. -/
  tokens : b'.tokens = b.tokens

/-- For every emission and every fold on the stack, the run since it was opened can be cut out:
it is a run from the body with nothing below. -/
def Branch.Enclosed (g : Grammar σ τ) (w : List σ) (i : Nat) (b : Branch σ τ) : Prop :=
  ∀ ⦃above : List Frame⦄ ⦃frame : Frame⦄ ⦃base : List Frame⦄ ⦃node : Node σ τ⦄ ⦃body : NodeId⦄,
    b.frames = above ++ frame :: base → g.nodes[frame.node]? = some node →
    node.wrapped? = some body →
    ∃ b₀ b₁ n, g.Opens w frame base body b₀ b₁ ∧ (∃ m, g.Runs w m frame.symbolsBefore b₀ i b) ∧
      g.Runs w n frame.symbolsBefore (b₁.withFrames []) i (b.withFrames above)

theorem Cursor.Moves.enclosed (h : (g.cursorAt w i).Moves b b') (hto : g.LeadsTo w i b)
    (hb : b.Enclosed g w i) : b'.Enclosed g w i := by
  intro above frame base node body hf hn hw
  rcases h.shifts.wrapped_cases hf hn hw with
    ⟨before, hbefore, hin⟩ | ⟨rfl, ht, hbase, hcount, hi, hbody, htokens⟩
  · obtain ⟨b₀, b₁, n, hopens, ⟨m, hruns⟩, hinside⟩ := hb hbefore hn hw
    obtain ⟨above', hf', hmove⟩ := h.rebase hbefore hin
    obtain rfl := List.append_cancel_right (hf.symm.trans hf')
    exact ⟨b₀, b₁, _, hopens, ⟨_, hruns.trans (.move h .refl)⟩, hinside.trans (.move hmove .refl)⟩
  · cases hi
    exact ⟨b, b', 0, ⟨hto, ht, hbase, hcount, h, hbody, htokens⟩, ⟨1, .move h .refl⟩, .refl⟩

theorem Grammar.Takes.enclosed {symbol : σ} (h : g.Takes symbol b b') (ht : b.target = none)
    (hsymbol : w[i]? = some symbol) (hb : b.Enclosed g w i) : b'.Enclosed g w (i + 1) := by
  intro above frame base node body hf hn hw
  rcases (h.shifts ht i).wrapped_cases hf hn hw with ⟨before, hbefore, hin⟩ | ⟨-, htarget, -⟩
  · obtain ⟨b₀, b₁, n, hopens, ⟨m, hruns⟩, hinside⟩ := hb hbefore hn hw
    obtain ⟨above', hf', htake⟩ := h.rebase hbefore (hin.resolve_right (absurd ht))
    obtain rfl := List.append_cancel_right (hf.symm.trans hf')
    exact ⟨b₀, b₁, _, hopens, ⟨_, hruns.trans (.take ht hsymbol h .refl)⟩,
      hinside.trans (.take ht hsymbol htake .refl)⟩
  · cases htarget.symm.trans ht

theorem Grammar.LeadsTo.enclosed (h : g.LeadsTo w i b) : b.Enclosed g w i := by
  refine h.keeps (P := fun i b => b.Enclosed g w i) ?_
    (fun hto hb hmove => hmove.enclosed hto hb) fun _ hb ht hw htake => htake.enclosed ht hw hb
  intro above frame base node body hf
  exact absurd hf.symm (List.append_ne_nil_of_right_ne_nil _ (List.cons_ne_nil _ _))

/-- The body of an emission or a fold has matched since the construct was entered. -/
structure Grammar.Closes (g : Grammar σ τ) (w : List σ) (frame : Frame) (base : List Frame)
    {body : NodeId} {i : Nat} (tree : Derivation g w body frame.symbolsBefore i)
    (b₀ b : Branch σ τ) : Prop where
  /-- A run led to a branch after as many symbols as the frame says, -/
  leadsTo : g.LeadsTo w frame.symbolsBefore b₀
  /-- which was about to enter the construct, -/
  target : b₀.target = some frame.node
  /-- had on its stack what is below the frame, -/
  frames : b₀.frames = base
  /-- and had as many tokens as the frame says. -/
  count : b₀.tokens.length = frame.tokensBefore
  /-- From there the run led on. -/
  runs : ∃ n, g.Runs w n frame.symbolsBefore b₀ i b
  /-- The tokens of a tree of the body have been added since. -/
  tokens : b.tokens = b₀.tokens ++ tree.yield

theorem Grammar.LeadsTo.hears (h : g.LeadsTo w i b) : b.Hears w i := by
  obtain ⟨n, hruns⟩ := h
  exact hruns.hears (Branch.start_hears g.start w)

/-- A branch that is back in an emission or in a fold has followed a tree of the body since it
entered the construct. -/
theorem Grammar.LeadsTo.exists_closes (h : g.LeadsTo w i b) (hg : g.IsBuilt)
    (ht : b.target = none) (hf : b.frames = frame :: base)
    (hn : g.nodes[frame.node]? = some node) (hw : node.wrapped? = some body) :
    ∃ (tree : Derivation g w body frame.symbolsBefore i) (b₀ : Branch σ τ),
      g.Closes w frame base tree b₀ b := by
  have hinnermost : b.frames = [] ++ frame :: base := hf
  obtain ⟨b₀, b₁, n, hopens, hruns, hinside⟩ := h.enclosed hinnermost hn hw
  have hdone : (b.withFrames []).isDone = true := Branch.isDone_iff.mpr ⟨rfl, ht⟩
  have hhears : (b₁.withFrames []).Hears w frame.symbolsBefore :=
    (hopens.leadsTo.move hopens.move).hears
  obtain ⟨k, tree, m, -, e, hrest, -, hleaves⟩ :=
    Grammar.follows hg hdone n hinside hopens.body hhears
  obtain ⟨rfl, rfl⟩ :=
    hrest.eq_of_isDone (Branch.isDone_iff.mpr ⟨hleaves.frames_eq, hleaves.target_eq⟩)
  have htokens : b.tokens = b₁.tokens ++ tree.yield := hleaves.tokens
  rw [hopens.tokens] at htokens
  exact ⟨tree, b₀, hopens.leadsTo, hopens.target, hopens.frames, hopens.count, hruns, htokens⟩

end Enclosed

end Ramify
