import Ramify.Proofs.Derivation
import Ramify.Proofs.Trail

/-!
# Runs of one branch

`Grammar.Runs` follows a single branch through an input: it moves, looking at the symbol
that comes next, and it takes the symbols it waits for.

Two facts about runs carry the rest of the theory.  While an emission listens, a branch
has heard the symbols of the input since it began to listen (`Branch.Hears`).  And what
a branch gains in tokens and choices while it matches a node (`Branch.Gains`) adds up,
whatever it had before.  Once it has matched the node, it stands in the constructs that
were open around it (`Branch.Leaves`).
-/

namespace Ramify

variable {σ τ : Type}

/-! ## Buffers -/

namespace Branch

variable (b : Branch σ τ)

/-- While an emission listens, what was heard is the input since it was opened. -/
def Hears (w : List σ) (i : Nat) : Prop :=
  0 < b.listeners → b.heardFrom ≤ i ∧ b.heard.reverse = (w.take i).drop b.heardFrom

variable {b} {w : List σ} {i j : Nat}

theorem Hears.listen (h : b.Hears w i) : (b.listen i).Hears w i := by
  unfold Branch.listen
  split
  next hzero =>
    intro _
    refine ⟨Nat.le_refl _, ?_⟩
    exact (List.drop_eq_nil_of_le (List.length_take_le _ _)).symm
  next hpos =>
    intro _
    exact h (Nat.pos_of_ne_zero hpos)

theorem Hears.unlisten (h : b.Hears w i) : b.unlisten.Hears w i := by
  unfold Branch.unlisten
  split
  · intro hpos
    exact absurd hpos (Nat.lt_irrefl 0)
  next hmany =>
    intro _
    exact h (by omega)

theorem Hears.hear {symbol : σ} (h : b.Hears w i) (hw : w[i]? = some symbol) :
    (b.hear symbol).Hears w (i + 1) := by
  unfold Branch.hear
  split
  next hzero => exact fun hpos => absurd hpos (by omega)
  next hpos =>
    intro _
    obtain ⟨hle, hheard⟩ := h (Nat.pos_of_ne_zero hpos)
    obtain ⟨hlt, hget⟩ := List.getElem?_eq_some_iff.mp hw
    refine ⟨Nat.le_succ_of_le hle, ?_⟩
    have hlen : b.heardFrom ≤ (w.take i).length := by
      rw [List.length_take]
      omega
    rw [List.reverse_cons, hheard, List.take_succ_eq_append_getElem hlt, hget,
      List.drop_append_of_le_length hlen]

/-- The symbols since a position at which an emission was listening. -/
theorem Hears.heardSince_eq (h : b.Hears w j) (hpos : 0 < b.listeners) (hle : b.heardFrom ≤ i) :
    b.heardSince i = (w.take j).drop i := by
  rw [Branch.heardSince, (h hpos).2, List.drop_drop, Nat.add_sub_cancel' hle]

end Branch

/-! ## Gains -/

/-- A branch has come by tokens and choices, and listens to as much as before. -/
structure Branch.Gains (b : Branch σ τ) (tokens : List τ) (choices : List Choice)
    (b' : Branch σ τ) : Prop where
  /-- The tokens were added. -/
  tokens : b'.tokens = b.tokens ++ tokens
  /-- The choices were made. -/
  trail : b'.trail = choices.reverse ++ b.trail
  /-- As many emissions listen. -/
  listeners : b'.listeners = b.listeners
  /-- The outermost of them is the same. -/
  heardFrom : 0 < b.listeners → b'.heardFrom = b.heardFrom

namespace Branch.Gains

variable {b b₁ b₂ : Branch σ τ} {tokens tokens' : List τ} {choices choices' : List Choice}

theorem trans (h : b.Gains tokens choices b₁) (h' : b₁.Gains tokens' choices' b₂) :
    b.Gains (tokens ++ tokens') (choices ++ choices') b₂ where
  tokens := by rw [h'.tokens, h.tokens, List.append_assoc]
  trail := by rw [h'.trail, h.trail, List.reverse_append, List.append_assoc]
  listeners := h'.listeners.trans h.listeners
  heardFrom hpos := (h'.heardFrom (h.listeners ▸ hpos)).trans (h.heardFrom hpos)

/-- A branch that only stands elsewhere has gained nothing. -/
theorem still (ht : b₁.tokens = b.tokens) (hc : b₁.trail = b.trail)
    (hl : b₁.listeners = b.listeners) (hf : b₁.heardFrom = b.heardFrom) : b.Gains [] [] b₁ where
  tokens := by rw [ht, List.append_nil]
  trail := hc
  listeners := hl
  heardFrom _ := hf

/-- A branch that took a way at a fork has gained that choice. -/
theorem choice {c : Choice} (ht : b₁.tokens = b.tokens) (hc : b₁.trail = c :: b.trail)
    (hl : b₁.listeners = b.listeners) (hf : b₁.heardFrom = b.heardFrom) : b.Gains [] [c] b₁ where
  tokens := by rw [ht, List.append_nil]
  trail := hc
  listeners := hl
  heardFrom _ := hf

/-- What was gained after standing elsewhere was gained. -/
theorem after_still (h' : b₁.Gains tokens choices b₂) (h : b.Gains [] [] b₁) :
    b.Gains tokens choices b₂ :=
  h.trans h'

theorem emit (h : b.Gains tokens choices b₁) (token : τ) :
    b.Gains (tokens ++ [token]) choices (b₁.pop.emit token) where
  tokens := by
    show b₁.tokens ++ [token] = _
    rw [h.tokens, List.append_assoc]
  trail := h.trail
  listeners := h.listeners
  heardFrom := h.heardFrom

/-- Folding what was gained leaves one token of it. -/
theorem gather (h : b.Gains tokens choices b₁) (merge : List τ → τ) :
    b.Gains [merge tokens] choices (b₁.pop.gather b.tokens.length merge) where
  tokens := by
    show b₁.tokens.take b.tokens.length ++ [merge (b₁.tokens.drop b.tokens.length)] = _
    rw [h.tokens, List.take_left, List.drop_left]
  trail := h.trail
  listeners := h.listeners
  heardFrom := h.heardFrom

/-- An emission that listened makes its token of the symbols between its ends. -/
theorem make {w : List σ} {i j : Nat} (hb : b.Hears w i) (h : (b.listen i).Gains tokens choices b₁)
    (hb₁ : b₁.Hears w j) (make : List σ → τ) :
    b.Gains (tokens ++ [make ((w.take j).drop i)]) choices
      (b₁.pop.unlisten.emit (make (b₁.heardSince i))) where
  tokens := by
    have hlisten := h.listeners
    rw [Branch.listen_listeners] at hlisten
    have hfrom := h.heardFrom (by rw [Branch.listen_listeners]; omega)
    have hle : b₁.heardFrom ≤ i := by
      rw [hfrom]
      exact (hb.listen (by rw [Branch.listen_listeners]; omega)).1
    show b₁.pop.unlisten.tokens ++ _ = _
    rw [Branch.unlisten_tokens, hb₁.heardSince_eq (by omega) hle]
    show b₁.tokens ++ _ = _
    rw [h.tokens, Branch.listen_tokens, List.append_assoc]
  trail := by
    show b₁.pop.unlisten.trail = _
    rw [Branch.unlisten_trail]
    show b₁.trail = _
    rw [h.trail, Branch.listen_trail]
  listeners := by
    show b₁.pop.unlisten.listeners = _
    rw [Branch.unlisten_listeners]
    show b₁.listeners - 1 = _
    rw [h.listeners, Branch.listen_listeners]
    exact Nat.add_sub_cancel _ _
  heardFrom hpos := by
    show b₁.pop.unlisten.heardFrom = _
    rw [Branch.unlisten_heardFrom]
    show b₁.heardFrom = _
    rw [h.heardFrom (by rw [Branch.listen_listeners]; omega), Branch.listen,
      if_neg (Nat.pos_iff_ne_zero.mp hpos)]

end Branch.Gains

/-- A branch has matched what it was about to match, and stands in the open constructs
`frames` with what it gained. -/
structure Branch.Leaves (b : Branch σ τ) (frames : List Frame) (tokens : List τ)
    (choices : List Choice) (e : Branch σ τ) : Prop extends b.Gains tokens choices e where
  /-- The open constructs. -/
  frames_eq : e.frames = frames
  /-- Nothing is to be entered. -/
  target_eq : e.target = none

theorem Branch.isDone_iff {b : Branch σ τ} :
    b.isDone = true ↔ b.frames = [] ∧ b.target = none := by
  simp [Branch.isDone]

namespace Branch.Leaves

variable {b b₁ e : Branch σ τ} {frame : Frame} {frames : List Frame} {tokens tokens' : List τ}
  {choices choices' : List Choice}

/-- What a branch gained before is added to what it gains while it matches. -/
theorem after (h : b₁.Leaves frames tokens' choices' e) (h' : b.Gains tokens choices b₁) :
    b.Leaves frames (tokens ++ tokens') (choices ++ choices') e where
  toGains := h'.trans h.toGains
  frames_eq := h.frames_eq
  target_eq := h.target_eq

theorem after_still (h : b₁.Leaves frames tokens choices e) (h' : b.Gains [] [] b₁) :
    b.Leaves frames tokens choices e :=
  h.after h'

/-- A branch that has matched what it waited for and had nothing else open is complete. -/
theorem isDone (h : b.Leaves [] tokens choices e) : e.isDone = true :=
  Branch.isDone_iff.mpr ⟨h.frames_eq, h.target_eq⟩

/-- A branch that waits for one symbol only has matched it when it takes it. -/
theorem hear (ht : b.target = none) (hf : b.frames = frame :: frames) (symbol : σ) :
    b.Leaves frames [] [] (b.pop.hear symbol) where
  toGains := .still (hear_tokens _ _) (hear_trail _ _) (hear_listeners _ _) (hear_heardFrom _ _)
  frames_eq := (hear_frames _ _).trans (congrArg List.tail hf)
  target_eq := (hear_target _ _).trans ht

/-- The emission of a fixed token is closed when its body has matched. -/
theorem emit (h : b.Leaves (frame :: frames) tokens choices e) (token : τ) :
    b.Leaves frames (tokens ++ [token]) choices (e.pop.emit token) where
  toGains := h.toGains.emit token
  frames_eq := congrArg List.tail h.frames_eq
  target_eq := h.target_eq

/-- A fold is closed when its body has matched. -/
theorem gather (h : b.Leaves (frame :: frames) tokens choices e) (merge : List τ → τ) :
    b.Leaves frames [merge tokens] choices (e.pop.gather b.tokens.length merge) where
  toGains := h.toGains.gather merge
  frames_eq := congrArg List.tail h.frames_eq
  target_eq := h.target_eq

/-- The emission of a token made of symbols is closed when its body has matched. -/
theorem make {w : List σ} {i j : Nat}
    (h : (b.listen i).Leaves (frame :: (b.listen i).frames) tokens choices e) (hb : b.Hears w i)
    (he : e.Hears w j) (make : List σ → τ) :
    b.Leaves b.frames (tokens ++ [make ((w.take j).drop i)]) choices
      (e.pop.unlisten.emit (make (e.heardSince i))) where
  toGains := .make hb h.toGains he make
  frames_eq := by
    show e.pop.unlisten.frames = b.frames
    rw [unlisten_frames, ← listen_frames b i]
    exact congrArg List.tail h.frames_eq
  target_eq := (unlisten_target _).trans h.target_eq

end Branch.Leaves

/-- The open constructs while parts of a series, or symbols of a run, are left: the frame
is closed when none is. -/
def openSeries {α : Type} (frame : Frame) (base : List Frame) : List α → List Frame
  | [] => base
  | _ :: _ => frame :: base

/-- The next part of a series leaves its frame open just if it is not the last. -/
theorem next_openSeries {b : Branch σ τ} {frame : Frame} {base : List Frame} {part : NodeId}
    {done parts : List NodeId} (hf : b.frames = frame :: base)
    (hp : frame.progress + 1 = done.length) :
    ((if frame.progress + 2 = (done ++ part :: parts).length then b.pop
        else b.reach (frame.progress + 1)).aim part).frames =
      openSeries { frame with progress := frame.progress + 1 } base parts := by
  cases parts with
  | nil =>
      rw [if_pos (by simp [← hp])]
      exact congrArg List.tail hf
  | cons second parts =>
      rw [if_neg (by simp only [List.length_append, List.length_cons]; omega)]
      exact Branch.reach_frames hf _

theorem next_still {b : Branch σ τ} {progress count : Nat} {part : NodeId} :
    b.Gains [] [] ((if progress + 2 = count then b.pop else b.reach (progress + 1)).aim part) := by
  split
  · exact .still rfl rfl rfl rfl
  · exact .still rfl rfl rfl rfl

/-- The next symbol of a run leaves its frame open just if it is not the last. -/
theorem run_openSeries {b : Branch σ τ} {frame : Frame} {base : List Frame} {symbol : σ}
    {run rest : List σ} (hf : b.frames = frame :: base)
    (hrun : run.drop frame.progress = symbol :: rest) :
    ((if frame.progress + 1 = run.length then b.pop
        else b.reach (frame.progress + 1)).hear symbol).frames =
      openSeries { frame with progress := frame.progress + 1 } base rest := by
  have hlength := congrArg List.length hrun
  rw [List.length_drop, List.length_cons] at hlength
  rw [Branch.hear_frames]
  cases rest with
  | nil =>
      rw [List.length_nil] at hlength
      rw [if_pos (by omega)]
      exact congrArg List.tail hf
  | cons second rest =>
      rw [List.length_cons] at hlength
      rw [if_neg (by omega)]
      exact Branch.reach_frames hf _

theorem run_target {b : Branch σ τ} {progress count : Nat} {symbol : σ} (ht : b.target = none) :
    ((if progress + 1 = count then b.pop else b.reach (progress + 1)).hear symbol).target =
      none := by
  rw [Branch.hear_target]
  split
  · exact ht
  · exact ht

/-! ## Runs -/

/-- The cursor at a position of an input. -/
def Grammar.cursorAt (g : Grammar σ τ) (w : List σ) (i : Nat) : Cursor σ τ := ⟨g, i, w[i]?⟩

variable [DecidableEq σ]

/-- A number of moves and symbols lead a branch from one position to another. -/
inductive Grammar.Runs (g : Grammar σ τ) (w : List σ) :
    Nat → Nat → Branch σ τ → Nat → Branch σ τ → Prop where
  /-- The branch stays. -/
  | refl {i : Nat} {b : Branch σ τ} : Runs g w 0 i b i b
  /-- The branch moves first. -/
  | move {n i j : Nat} {b b' e : Branch σ τ} (h : (g.cursorAt w i).Moves b b')
      (hrest : Runs g w n i b' j e) : Runs g w (n + 1) i b j e
  /-- The branch takes a symbol first. -/
  | take {n i j : Nat} {b b' e : Branch σ τ} {symbol : σ} (ht : b.target = none)
      (hw : w[i]? = some symbol) (h : g.Takes symbol b b') (hrest : Runs g w n (i + 1) b' j e) :
      Runs g w (n + 1) i b j e

theorem Cursor.Moves.hears {here : Cursor σ τ} {w : List σ} {b b' : Branch σ τ}
    (h : here.Moves b b') (hb : b.Hears w here.position) : b'.Hears w here.position := by
  cases h with
  | pass | wait | watch | ignore | skip | only | first | choose | loop | shun | call | openFixed
  | openFold | again | leave | closeFixed | closeFold => exact hb
  | openMade =>
      have harrived : b.arrived.Hears w here.position := hb
      exact harrived.listen
  | next =>
      split
      · exact hb
      · exact hb
  | closeMade =>
      have hpop : b.pop.Hears w here.position := hb
      exact hpop.unlisten

theorem Grammar.Takes.hears {g : Grammar σ τ} {symbol : σ} {w : List σ} {i : Nat}
    {b b' : Branch σ τ} (h : g.Takes symbol b b') (hw : w[i]? = some symbol) (hb : b.Hears w i) :
    b'.Hears w (i + 1) := by
  have hpop : b.pop.Hears w i := hb
  cases h with
  | member | any => exact hpop.hear hw
  | @run frame =>
      split
      · exact hpop.hear hw
      · have hreach : (b.reach (frame.progress + 1)).Hears w i := hb
        exact hreach.hear hw

/-- Taking a symbol gains nothing. -/
theorem Grammar.Takes.still {g : Grammar σ τ} {symbol : σ} {b b' : Branch σ τ}
    (h : g.Takes symbol b b') : b.Gains [] [] b' := by
  cases h with
  | member | any =>
      exact .still (Branch.hear_tokens _ _) (Branch.hear_trail _ _) (Branch.hear_listeners _ _)
        (Branch.hear_heardFrom _ _)
  | run =>
      split
      · exact .still (Branch.hear_tokens _ _) (Branch.hear_trail _ _) (Branch.hear_listeners _ _)
          (Branch.hear_heardFrom _ _)
      · exact .still (Branch.hear_tokens _ _) (Branch.hear_trail _ _) (Branch.hear_listeners _ _)
          (Branch.hear_heardFrom _ _)

namespace Grammar.Runs

variable {g : Grammar σ τ} {w : List σ} {n m i j k : Nat} {b b' e : Branch σ τ}

theorem hears (h : g.Runs w n i b j e) (hb : b.Hears w i) : e.Hears w j := by
  induction h with
  | refl => exact hb
  | move hmove _ ih => exact ih (hmove.hears hb)
  | take _ hw htake _ ih => exact ih (htake.hears hw hb)

theorem trans (h : g.Runs w n i b j b') (h' : g.Runs w m j b' k e) :
    g.Runs w (m + n) i b k e := by
  induction h with
  | refl => exact h'
  | move hmove _ ih => exact .move hmove (ih h')
  | take ht hw htake _ ih => exact .take ht hw htake (ih h')

end Grammar.Runs

end Ramify
