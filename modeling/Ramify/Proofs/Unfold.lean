import Ramify.Parse.Forest
import Ramify.Proofs.Cost

/-!
# What an unfolding comes across

`Cursor.Visits here b b'` says that moves lead from `b` to `b'`.  The events of
`Branch.follow` are those of the branches it visits: each comes from a visited branch,
and with fuel beyond the cost of a branch none of these is missed.

`Cursor.unfold` gives that much fuel to every branch, so `Forest.unfold` rests at exactly
the visited branches that make no move, or is stopped by a visited branch that is too deep.
-/

namespace Ramify

variable {σ τ : Type}

/-! ## Limits -/

@[simp] theorem Limits.isExceeded_maxCount (count : Nat) :
    Limits.isExceeded maxCount count = false := by
  simp [Limits.isExceeded]

theorem Limits.isExceeded_iff {limit count : Nat} :
    Limits.isExceeded limit count = true ↔ limit < count ∧ limit < maxCount := by
  simp [Limits.isExceeded]

namespace Cursor

variable [DecidableEq σ] {here : Cursor σ τ} {b b' : Branch σ τ}

/-! ## Visited branches -/

/-- Moves lead from one branch to another. -/
def Visits (here : Cursor σ τ) : Branch σ τ → Branch σ τ → Prop :=
  Relation.ReflTransGen here.Moves

theorem Visits.fits (h : here.Visits b b') (hg : here.grammar.IsBuilt)
    (hfit : b.Fits here.grammar here.position) : b'.Fits here.grammar here.position := by
  induction h with
  | refl => exact hfit
  | tail _ hmove ih => exact hmove.fits hg ih

/-- No branch that is visited has more frames than allowed. -/
def WithinDepth (here : Cursor σ τ) (maxDepth : Nat) (b : Branch σ τ) : Prop :=
  ∀ b', here.Visits b b' → Limits.isExceeded maxDepth b'.depth = false

theorem WithinDepth.move {maxDepth : Nat} (h : here.WithinDepth maxDepth b)
    (hmove : here.Moves b b') : here.WithinDepth maxDepth b' :=
  fun _ hvisit => h _ (.head hmove hvisit)

end Cursor

/-! ## Events -/

/-- The branch that comes to rest in an event. -/
def Event.branch? : Event σ τ → Option (Branch σ τ)
  | .rested b => some b
  | _ => none

namespace Branch

variable [DecidableEq σ] {here : Cursor σ τ} {b : Branch σ τ} {maxDepth : Nat}

/-- An event other than a report is the end of the branch, or comes of one that it moves to. -/
theorem exists_move_of_mem_follow {fuel : Nat} {event : Event σ τ}
    (hfit : b.Fits here.grammar here.position) (hcall : ∀ call, event ≠ .called call)
    (h : event ∈ b.follow here.move maxDepth (fuel + 1)) :
    (event = .overran b.depth ∧ Limits.isExceeded maxDepth b.depth = true) ∨
      (event = .rested b ∧ here.move b = none ∧ Limits.isExceeded maxDepth b.depth = false) ∨
      ∃ b', here.Moves b b' ∧ event ∈ b'.follow here.move maxDepth fuel := by
  rw [Branch.follow] at h
  split at h
  next hdepth => exact .inl ⟨List.mem_singleton.mp h, hdepth⟩
  next hdepth =>
    split at h
    next hm => exact .inr (.inl ⟨List.mem_singleton.mp h, hm, Bool.eq_false_iff.mpr hdepth⟩)
    next turn hm =>
      rcases List.mem_append.mp h with h | h
      · obtain ⟨call, -, rfl⟩ := List.mem_map.mp h
        exact absurd rfl (hcall call)
      · obtain ⟨b', hb', h⟩ := List.mem_flatMap.mp h
        exact .inr (.inr ⟨b', Cursor.moves_of_move hfit hm hb', h⟩)

/-- A branch comes to rest where it was visited and makes no move. -/
theorem visits_of_rested (hg : here.grammar.IsBuilt) :
    ∀ {fuel : Nat} {b r : Branch σ τ}, b.Fits here.grammar here.position →
      Event.rested r ∈ b.follow here.move maxDepth fuel →
      here.Visits b r ∧ here.move r = none ∧ Limits.isExceeded maxDepth r.depth = false
  | 0, _, _, _, h => by cases h
  | fuel + 1, b, r, hfit, h => by
      rcases exists_move_of_mem_follow hfit (fun _ => by simp) h with
        ⟨hr, -⟩ | ⟨hr, hrest⟩ | ⟨b', hmove, h⟩
      · cases hr
      · cases hr
        exact ⟨.refl, hrest⟩
      · obtain ⟨hvisit, hrest⟩ := visits_of_rested hg (hmove.fits hg hfit) h
        exact ⟨.head hmove hvisit, hrest⟩

/-- A depth that ends an unfolding is that of a visited branch. -/
theorem visits_of_overran (hg : here.grammar.IsBuilt) :
    ∀ {fuel depth : Nat} {b : Branch σ τ}, b.Fits here.grammar here.position →
      Event.overran depth ∈ b.follow here.move maxDepth fuel →
      ∃ r, here.Visits b r ∧ r.depth = depth ∧ Limits.isExceeded maxDepth depth = true
  | 0, _, _, _, h => by cases h
  | fuel + 1, depth, b, hfit, h => by
      rcases exists_move_of_mem_follow hfit (fun _ => by simp) h with
        ⟨hd, hdeep⟩ | ⟨hd, -⟩ | ⟨b', hmove, h⟩
      · cases hd
        exact ⟨b, .refl, rfl, hdeep⟩
      · cases hd
      · obtain ⟨r, hvisit, hr⟩ := visits_of_overran hg (hmove.fits hg hfit) h
        exact ⟨r, .head hmove hvisit, hr⟩

/-- With enough fuel a branch comes to rest wherever it can, if it is never too deep. -/
theorem rested_of_visits (hg : here.grammar.IsBuilt) :
    ∀ (fuel : Nat) {b r : Branch σ τ}, here.cost b < fuel → here.WithinDepth maxDepth b →
      here.Visits b r → here.move r = none →
      Event.rested r ∈ b.follow here.move maxDepth fuel
  | 0, b, _, hfuel, _, _, _ => absurd hfuel (Nat.not_lt_zero _)
  | fuel + 1, b, r, hfuel, hdepth, hvisit, hrest => by
      rw [Branch.follow, hdepth b .refl]
      rcases Relation.ReflTransGen.cases_head hvisit with rfl | ⟨b', hmove, hvisit⟩
      · simp [hrest]
      · obtain ⟨turn, hm, hb'⟩ := hmove.exists_turn
        have hcost := hmove.cost_lt hg
        have hmem := rested_of_visits hg fuel (by omega) (hdepth.move hmove) hvisit hrest
        rw [hm]
        simp only [Bool.false_eq_true, if_false]
        exact List.mem_append_right _ (List.mem_flatMap.mpr ⟨b', hb', hmem⟩)

/-- With enough fuel a branch that becomes too deep ends the unfolding. -/
theorem overran_of_visits (hg : here.grammar.IsBuilt) :
    ∀ (fuel : Nat) {b r : Branch σ τ}, here.cost b < fuel → here.Visits b r →
      Limits.isExceeded maxDepth r.depth = true →
      ∃ depth, Event.overran depth ∈ b.follow here.move maxDepth fuel
  | 0, b, _, hfuel, _, _ => absurd hfuel (Nat.not_lt_zero _)
  | fuel + 1, b, r, hfuel, hvisit, hdeep => by
      rw [Branch.follow]
      split
      · exact ⟨b.depth, List.mem_singleton.mpr rfl⟩
      next hdepth =>
        rcases Relation.ReflTransGen.cases_head hvisit with rfl | ⟨b', hmove, hvisit⟩
        · exact absurd hdeep hdepth
        · obtain ⟨turn, hm, hb'⟩ := hmove.exists_turn
          have hcost := hmove.cost_lt hg
          obtain ⟨depth, hmem⟩ := overran_of_visits hg fuel (by omega) hvisit hdeep
          rw [hm]
          exact ⟨depth, List.mem_append_right _ (List.mem_flatMap.mpr ⟨b', hb', hmem⟩)⟩

/-- A limit that is never exceeded changes nothing. -/
theorem follow_eq_of_withinDepth :
    ∀ {fuel : Nat} {b : Branch σ τ}, b.Fits here.grammar here.position → here.grammar.IsBuilt →
      here.WithinDepth maxDepth b →
      b.follow here.move maxDepth fuel = b.follow here.move maxCount fuel
  | 0, _, _, _, _ => rfl
  | fuel + 1, b, hfit, hg, hdepth => by
      rw [Branch.follow, Branch.follow, hdepth b .refl, Limits.isExceeded_maxCount]
      cases hm : here.move b with
      | none => rfl
      | some turn =>
          have hbranches : turn.branches.flatMap (Branch.follow here.move maxDepth fuel) =
              turn.branches.flatMap (Branch.follow here.move maxCount fuel) := by
            refine List.flatMap_congr fun b' hb' => ?_
            have hmove := Cursor.moves_of_move hfit hm hb'
            exact follow_eq_of_withinDepth (hmove.fits hg hfit) hg (hdepth.move hmove)
          simp only [hbranches]

end Branch

namespace Unfolded

theorem overrun_eq_none_iff {events : List (Event σ τ)} :
    (ofEvents events).overrun = none ↔ ∀ depth, Event.overran depth ∉ events := by
  induction events with
  | nil => simp [ofEvents]
  | cons event events ih =>
      cases event with
      | called call => simpa [ofEvents] using ih
      | rested b => simpa [ofEvents] using ih
      | overran depth =>
          constructor
          · intro h; cases h
          · intro h; exact absurd List.mem_cons_self (h depth)

theorem mem_of_overrun {events : List (Event σ τ)} {depth : Nat}
    (h : (ofEvents events).overrun = some depth) : Event.overran depth ∈ events := by
  induction events with
  | nil => cases h
  | cons event events ih =>
      cases event with
      | called call => exact List.mem_cons_of_mem _ (ih h)
      | rested b => exact List.mem_cons_of_mem _ (ih h)
      | overran other =>
          cases h
          exact List.mem_cons_self

/-- What is cut off after a branch that is too deep is missing, and nothing else. -/
theorem rested_sublist (events : List (Event σ τ)) :
    (ofEvents events).rested.Sublist (events.filterMap Event.branch?) := by
  induction events with
  | nil => exact .slnil
  | cons event events ih =>
      cases event with
      | called call => exact ih
      | rested b => exact ih.cons_cons b
      | overran depth => exact List.nil_sublist _

theorem mem_of_mem_rested {events : List (Event σ τ)} {b : Branch σ τ}
    (h : b ∈ (ofEvents events).rested) : Event.rested b ∈ events := by
  obtain ⟨event, hmem, hb⟩ := List.mem_filterMap.mp ((rested_sublist events).subset h)
  cases event with
  | rested other =>
      cases hb
      exact hmem
  | called | overran => cases hb

/-- If no branch is too deep, all that came to rest count. -/
theorem rested_eq {events : List (Event σ τ)} (h : ∀ depth, Event.overran depth ∉ events) :
    (ofEvents events).rested = events.filterMap Event.branch? := by
  induction events with
  | nil => rfl
  | cons event events ih =>
      have hrest := ih fun depth hmem => h depth (List.mem_cons_of_mem _ hmem)
      cases event with
      | called call => exact hrest
      | rested b => exact congrArg (List.cons b) hrest
      | overran depth => exact absurd List.mem_cons_self (h depth)

end Unfolded

/-! ## Unfolding a forest -/

namespace Forest

variable [DecidableEq σ] {f : Forest σ τ} {next : Option σ}

/-- The cursor at which a forest stands. -/
def cursor (f : Forest σ τ) (next : Option σ) : Cursor σ τ := ⟨f.grammar, f.consumed, next⟩

/-- A forest over a built grammar whose branches fit it. -/
structure Sound (f : Forest σ τ) : Prop where
  /-- The grammar is built. -/
  built : f.grammar.IsBuilt
  /-- Every frame of every branch fits. -/
  fits : ∀ b ∈ f.branches, b.Fits f.grammar f.consumed

/-- Whether some branch becomes too deep while a forest unfolds. -/
def Overruns (f : Forest σ τ) (next : Option σ) (maxDepth : Nat) : Prop :=
  ∃ b ∈ f.branches, ∃ b', (f.cursor next).Visits b b' ∧ Limits.isExceeded maxDepth b'.depth = true

theorem withinDepth_of_not_overruns {maxDepth : Nat} (h : ¬ f.Overruns next maxDepth)
    {b : Branch σ τ} (hb : b ∈ f.branches) : (f.cursor next).WithinDepth maxDepth b := by
  intro b' hvisit
  by_contra hdeep
  exact h ⟨b, hb, b', hvisit, Bool.not_eq_false _ ▸ hdeep⟩

/-- An unfolding is ended just if a visited branch is too deep. -/
theorem Sound.overrun_eq_none_iff (hf : f.Sound) :
    (f.unfold next).overrun = none ↔ ¬ f.Overruns next f.limits.depth := by
  have hg : (f.cursor next).grammar.IsBuilt := hf.built
  rw [Forest.unfold, Unfolded.overrun_eq_none_iff]
  constructor
  · rintro h ⟨b, hb, b', hvisit, hdeep⟩
    obtain ⟨depth, hmem⟩ :=
      Branch.overran_of_visits hg _ (Cursor.cost_lt_fuel _ b) hvisit hdeep
    exact h depth (List.mem_flatMap.mpr ⟨b, hb, hmem⟩)
  · rintro h depth hmem
    obtain ⟨b, hb, hmem⟩ := List.mem_flatMap.mp hmem
    obtain ⟨b', hvisit, rfl, hdeep⟩ := Branch.visits_of_overran hg (hf.fits b hb) hmem
    exact h ⟨b, hb, b', hvisit, hdeep⟩

/-- The branches at rest are visited and make no move. -/
theorem Sound.visits_of_mem_rested (hf : f.Sound) {r : Branch σ τ}
    (h : r ∈ (f.unfold next).rested) :
    ∃ b ∈ f.branches, (f.cursor next).Visits b r ∧ (f.cursor next).move r = none ∧
      Limits.isExceeded f.limits.depth r.depth = false := by
  have hg : (f.cursor next).grammar.IsBuilt := hf.built
  obtain ⟨b, hb, hmem⟩ := List.mem_flatMap.mp (Unfolded.mem_of_mem_rested h)
  exact ⟨b, hb, Branch.visits_of_rested hg (hf.fits b hb) hmem⟩

/-- Every visited branch that makes no move is at rest in the end, unless one is too deep. -/
theorem Sound.mem_rested (hf : f.Sound) (hdepth : ¬ f.Overruns next f.limits.depth)
    {b r : Branch σ τ} (hb : b ∈ f.branches) (hvisit : (f.cursor next).Visits b r)
    (hrest : (f.cursor next).move r = none) : r ∈ (f.unfold next).rested := by
  have hnone := Unfolded.overrun_eq_none_iff.mp (hf.overrun_eq_none_iff.mpr hdepth)
  rw [Forest.unfold, Unfolded.rested_eq hnone, List.mem_filterMap]
  refine ⟨.rested r, List.mem_flatMap.mpr ⟨b, hb, ?_⟩, rfl⟩
  have hg : (f.cursor next).grammar.IsBuilt := hf.built
  exact Branch.rested_of_visits hg _ (Cursor.cost_lt_fuel _ b)
    (withinDepth_of_not_overruns hdepth hb) hvisit hrest

end Forest

end Ramify
