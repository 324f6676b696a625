import Ramify.Proofs.Settling

/-!
# Where a branch comes to rest

Without a limit on depth, all that counts of an unfolding is the branches that come to rest.
`Cursor.rests` lists those of one branch.  It obeys one equation for a branch at rest and
one for a branch that moves, so for a given grammar it can be computed move by move.  A loop is
entered or left (`Cursor.rests_star`, `Cursor.rests_round`), and a round that consumed nothing
comes to rest nowhere.
-/

namespace Ramify

variable {σ τ : Type} [DecidableEq σ]

namespace Cursor

/-- The branches that one branch comes to rest as. -/
noncomputable def rests (here : Cursor σ τ) (b : Branch σ τ) : List (Branch σ τ) :=
  (here.events maxCount b).filterMap Event.branch?

variable {here : Cursor σ τ} {b b' : Branch σ τ}

theorem rests_of_rest (hm : here.move b = none) : here.rests b = [b] := by
  rw [rests, events_of_rest (Limits.isExceeded_maxCount _) hm]
  rfl

theorem rests_of_move (hg : here.grammar.IsBuilt) (hfit : b.Fits here.grammar here.position)
    {turn : Turn σ τ} (hm : here.move b = some turn) :
    here.rests b = turn.branches.flatMap here.rests := by
  have hcalls : (turn.calls.map Event.called : List (Event σ τ)).filterMap Event.branch? = [] := by
    simp [List.filterMap_eq_nil_iff, Event.branch?]
  rw [rests, events_of_move hg hfit (Limits.isExceeded_maxCount _) hm, List.filterMap_append,
    hcalls, List.nil_append, List.filterMap_flatMap]
  rfl

/-- A branch that only goes on comes to rest where it goes. -/
theorem rests_of_go (hg : here.grammar.IsBuilt) (hfit : b.Fits here.grammar here.position)
    (hm : here.move b = some (.go b')) : here.rests b = here.rests b' := by
  rw [rests_of_move hg hfit hm, Turn.go, List.flatMap_singleton]

/-- Where a branch that only goes on goes, its frames fit. -/
theorem fits_of_go (hg : here.grammar.IsBuilt) (hfit : b.Fits here.grammar here.position)
    (hm : here.move b = some (.go b')) : b'.Fits here.grammar here.position :=
  (moves_of_move hfit hm (List.mem_singleton.mpr rfl)).fits hg hfit

/-- A branch whose ways part comes to rest where its ways do, in some order. -/
theorem rests_of_split (hg : here.grammar.IsBuilt) (hfit : b.Fits here.grammar here.position)
    {ways : List (Branch σ τ)} (hm : here.move b = some (.split ways)) :
    (here.rests b).Perm (ways.flatMap here.rests) := by
  rw [rests_of_move hg hfit hm]
  exact (Turn.split_perm ways).flatMap_right _

/-- Where the ways of a branch part, the frames of each fit. -/
theorem fits_of_split (hg : here.grammar.IsBuilt) (hfit : b.Fits here.grammar here.position)
    {ways : List (Branch σ τ)} (hm : here.move b = some (.split ways)) (hb' : b' ∈ ways) :
    b'.Fits here.grammar here.position :=
  (moves_of_move hfit hm (Turn.mem_split.mpr hb')).fits hg hfit

/-- A branch that enters a set of symbols comes to wait for one of them. -/
theorem rests_oneOf (hg : here.grammar.IsBuilt) (hfit : b.Fits here.grammar here.position)
    {id : NodeId} {set : SymbolSet σ} (ht : b.target = some id)
    (hn : here.grammar.nodes[id]? = some (.oneOf set)) :
    here.rests b = [b.arrived.push id 0 here.position] := by
  have hwait : here.move b = some (.go (b.arrived.push id 0 here.position)) := by
    simp [Cursor.move_of_target ht, Cursor.descend, hn]
  have hrest : here.move (b.arrived.push id 0 here.position) = none := by
    simp [Cursor.move, Branch.push, Branch.arrived, Cursor.waitsAt, hn, Node.consumes]
  rw [rests_of_go hg hfit hwait, rests_of_rest hrest]

/-! ### Loops -/

section Loops

variable (here) {body : NodeId} {frame : Frame} {frames : List Frame}

/-- A branch that comes to a loop goes round or leaves it. -/
theorem rests_star (hg : here.grammar.IsBuilt) (hfit : b.Fits here.grammar here.position)
    {id : NodeId} (ht : b.target = some id) (hn : here.grammar.nodes[id]? = some (.star body)) :
    let own := ((b.arrived.via id 1 here.position).push id here.position here.position).aim body
    let out := b.arrived.via id 0 here.position
    own.Fits here.grammar here.position ∧ out.Fits here.grammar here.position ∧
      (here.rests b).Perm (here.rests own ++ here.rests out) := by
  intro own out
  have hm : here.move b = some (.split [own, out]) := by
    rw [Cursor.move_of_target ht, Cursor.descend]
    simp only [hn, own, out]
  refine ⟨fits_of_split hg hfit hm (by simp), fits_of_split hg hfit hm (by simp), ?_⟩
  simpa using rests_of_split hg hfit hm

/-- A branch that has consumed something in a round goes round once more or leaves the loop. -/
theorem rests_round (hg : here.grammar.IsBuilt) (hfit : b.Fits here.grammar here.position)
    (ht : b.target = none) (hf : b.frames = frame :: frames)
    (hn : here.grammar.nodes[frame.node]? = some (.star body))
    (hprogress : frame.progress ≠ here.position) :
    let own := ((b.reach here.position).via frame.node 1 here.position).aim body
    let out := b.pop.via frame.node 0 here.position
    own.Fits here.grammar here.position ∧ out.Fits here.grammar here.position ∧
      (here.rests b).Perm (here.rests own ++ here.rests out) := by
  intro own out
  have hm : here.move b = some (.split [own, out]) := by
    rw [Cursor.move_of_frame ht hf hn rfl, Cursor.resume]
    simp only [hn, hprogress, if_false, own, out]
  refine ⟨fits_of_split hg hfit hm (by simp), fits_of_split hg hfit hm (by simp), ?_⟩
  simpa using rests_of_split hg hfit hm

/-- A branch that has consumed nothing in a round cannot go on. -/
theorem rests_empty_round (hg : here.grammar.IsBuilt) (hfit : b.Fits here.grammar here.position)
    (ht : b.target = none) (hf : b.frames = frame :: frames)
    (hn : here.grammar.nodes[frame.node]? = some (.star body))
    (hprogress : frame.progress = here.position) : here.rests b = [] := by
  have hm : here.move b = some .dead := by
    rw [Cursor.move_of_frame ht hf hn rfl, Cursor.resume]
    simp only [hn, hprogress, if_true]
  rw [rests_of_move hg hfit hm]
  rfl

end Loops

end Cursor

theorem Grammar.consume_oneOf {g : Grammar σ τ} {b : Branch σ τ} {id : NodeId} {set : SymbolSet σ}
    (hn : g.nodes[id]? = some (.oneOf set)) (position : Nat) (symbol : σ) :
    g.consume symbol (b.push id 0 position) =
      if set.contains symbol then some (b.hear symbol) else none := by
  simp only [Grammar.consume, Branch.push, hn]
  rfl

namespace Forest

variable {f : Forest σ τ}

/-- A forest unfolds to what happens while each of its branches unfolds. -/
theorem Sound.unfold_eq (hf : f.Sound) (next : Option σ) :
    f.unfold next = .ofEvents (f.branches.flatMap ((f.cursor next).events f.limits.depth)) := by
  have hg : (f.cursor next).grammar.IsBuilt := hf.built
  rw [Forest.unfold, Cursor.unfold]
  refine congrArg _ (List.flatMap_congr fun b hb => ?_)
  exact Cursor.follow_eq_of_cost_lt hg (Cursor.cost_lt_fuel _ b) (Nat.lt_succ_self _)
    (hf.fits b hb)

/-- A parse without limits unfolds to the branches that its branches come to rest as. -/
theorem Free.rested_eq (hf : f.Free) (next : Option σ) :
    (f.unfold next).rested = f.branches.flatMap (f.cursor next).rests := by
  have hnone := hf.overrun_eq_none next
  have hdepth : f.limits.depth = maxCount := by rw [hf.unlimited]; rfl
  rw [hf.unfold_eq, Unfolded.overrun_eq_none_iff] at hnone
  rw [hf.unfold_eq, Unfolded.rested_eq hnone, List.filterMap_flatMap, hdepth]
  rfl

end Forest

end Ramify
