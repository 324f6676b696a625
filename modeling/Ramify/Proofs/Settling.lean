import Ramify.Proofs.Taking

/-!
# Settling comes to an end

Unfolding is a loop over a work list.  `Cursor.Resolves` is its inner loop: one branch
moves until it rests, dies or is too deep, and every other way at a fork is put on the
work list.  `Cursor.Settles` is its outer loop: a branch is taken from the work list and
resolved until the list is empty.  Neither has a bound of its own, and each holds of
finite runs only.

Every branch of a reachable forest settles, whichever symbol comes next and whatever the
limits are (`Forest.Reachable.settles`): every move makes a branch cheaper, and the forks
of a branch are cheaper than the branch.  What the loop comes to is what `Forest.unfold`
computes.
-/

namespace Ramify

variable {σ τ : Type} [DecidableEq σ]

namespace Cursor

/-! ## The two loops -/

/-- Resolving a branch takes some number of iterations, puts branches on the work list,
and makes events happen. -/
inductive Resolves (here : Cursor σ τ) (maxDepth : Nat) :
    Branch σ τ → Nat → List (Branch σ τ) → List (Event σ τ) → Prop where
  /-- The branch is too deep. -/
  | overrun {b : Branch σ τ} (hd : Limits.isExceeded maxDepth b.depth = true) :
      Resolves here maxDepth b 1 [] [.overran b.depth]
  /-- The branch is at rest. -/
  | rest {b : Branch σ τ} (hd : Limits.isExceeded maxDepth b.depth = false)
      (hm : here.move b = none) :
      Resolves here maxDepth b 1 [] [.rested b]
  /-- The branch dies. -/
  | die {b : Branch σ τ} {turn : Turn σ τ} (hd : Limits.isExceeded maxDepth b.depth = false)
      (hm : here.move b = some turn) (hb : turn.branches = []) :
      Resolves here maxDepth b 1 [] (turn.calls.map .called)
  /-- The branch goes on, and the other ways are put on the work list. -/
  | move {b own : Branch σ τ} {turn : Turn σ τ} {others forks : List (Branch σ τ)}
      {iterations : Nat} {events : List (Event σ τ)}
      (hd : Limits.isExceeded maxDepth b.depth = false) (hm : here.move b = some turn)
      (hb : turn.branches = own :: others)
      (hown : Resolves here maxDepth own iterations forks events) :
      Resolves here maxDepth b (iterations + 1) (forks ++ others)
        (turn.calls.map .called ++ events)

/-- Settling a work list takes some number of branches from it, some number of iterations
to resolve them, and makes events happen. -/
inductive Settles (here : Cursor σ τ) (maxDepth : Nat) :
    List (Branch σ τ) → Nat → Nat → List (Event σ τ) → Prop where
  /-- The work list is empty. -/
  | done : Settles here maxDepth [] 0 0 []
  /-- A branch that is too deep ends the loop. -/
  | stop {b : Branch σ τ} {work forks : List (Branch σ τ)} {iterations depth : Nat}
      {events : List (Event σ τ)} (hb : Resolves here maxDepth b iterations forks events)
      (hd : .overran depth ∈ events) :
      Settles here maxDepth (b :: work) 1 iterations events
  /-- A branch is resolved, and the loop goes on. -/
  | pop {b : Branch σ τ} {work forks : List (Branch σ τ)} {pops iterations further : Nat}
      {events later : List (Event σ τ)} (hb : Resolves here maxDepth b iterations forks events)
      (hd : ∀ depth, .overran depth ∉ events)
      (hwork : Settles here maxDepth (forks ++ work) pops further later) :
      Settles here maxDepth (b :: work) (pops + 1) (iterations + further) (events ++ later)

variable {here : Cursor σ τ} {maxDepth : Nat} {b : Branch σ τ}

/-! ## They end -/

/-- Resolving a branch ends, and its forks are cheaper than the branch. -/
theorem exists_resolves (hg : here.grammar.IsBuilt) :
    ∀ {fuel : Nat} {b : Branch σ τ}, here.cost b < fuel → b.Fits here.grammar here.position →
      ∃ iterations forks events, here.Resolves maxDepth b iterations forks events ∧
        ∀ fork ∈ forks, here.cost fork < here.cost b ∧ fork.Fits here.grammar here.position
  | 0, _, hfuel, _ => absurd hfuel (Nat.not_lt_zero _)
  | fuel + 1, b, hfuel, hfit => by
      cases hd : Limits.isExceeded maxDepth b.depth with
      | true => exact ⟨_, _, _, .overrun hd, by simp⟩
      | false =>
          cases hm : here.move b with
          | none => exact ⟨_, _, _, .rest hd hm, by simp⟩
          | some turn =>
              have hnew : ∀ b' ∈ turn.branches,
                  here.cost b' < here.cost b ∧ b'.Fits here.grammar here.position := by
                intro b' hb'
                have hmove := moves_of_move hfit hm hb'
                exact ⟨hmove.cost_lt hg, hmove.fits hg hfit⟩
              cases hb : turn.branches with
              | nil => exact ⟨_, _, _, .die hd hm hb, by simp⟩
              | cons own others =>
                  rw [hb] at hnew
                  obtain ⟨hcost, hown⟩ := hnew own List.mem_cons_self
                  obtain ⟨_, _, _, hres, hforks⟩ := exists_resolves hg (by omega) hown
                  refine ⟨_, _, _, .move hd hm hb hres, ?_⟩
                  intro fork hfork
                  rcases List.mem_append.mp hfork with hfork | hfork
                  · exact ⟨(hforks fork hfork).1.trans hcost, (hforks fork hfork).2⟩
                  · exact hnew fork (List.mem_cons_of_mem _ hfork)

/-- A work list settles with one more branch on it if it settles without. -/
theorem exists_settles_cons (hg : here.grammar.IsBuilt) :
    ∀ {fuel : Nat} {b : Branch σ τ} {work : List (Branch σ τ)}, here.cost b < fuel →
      b.Fits here.grammar here.position →
      (∃ pops iterations events, here.Settles maxDepth work pops iterations events) →
      ∃ pops iterations events, here.Settles maxDepth (b :: work) pops iterations events
  | 0, _, _, hfuel, _, _ => absurd hfuel (Nat.not_lt_zero _)
  | fuel + 1, b, work, hfuel, hfit, hwork => by
      obtain ⟨_, forks, events, hres, hforks⟩ := exists_resolves hg (Nat.lt_succ_self _) hfit
      by_cases hd : ∃ depth, Event.overran depth ∈ events
      · obtain ⟨depth, hd⟩ := hd
        exact ⟨_, _, _, .stop hres hd⟩
      -- The forks stand before the rest of the list, and each is cheaper than the branch.
      have hall : ∀ forks' : List (Branch σ τ), (∀ fork ∈ forks', fork ∈ forks) →
          ∃ pops iterations events,
            here.Settles maxDepth (forks' ++ work) pops iterations events := by
        intro forks' hsub
        induction forks' with
        | nil => exact hwork
        | cons fork forks' ih =>
            obtain ⟨hcost, hfork⟩ := hforks fork (hsub fork List.mem_cons_self)
            exact exists_settles_cons hg (by omega) hfork
              (ih fun other hother => hsub other (List.mem_cons_of_mem _ hother))
      obtain ⟨_, _, _, hrest⟩ := hall forks fun _ h => h
      exact ⟨_, _, _, .pop hres (not_exists.mp hd) hrest⟩

/-! ## What they come to -/

/-- Fuel beyond the cost of a branch makes no difference. -/
theorem follow_eq_of_cost_lt (hg : here.grammar.IsBuilt) :
    ∀ {fuel fuel' : Nat} {b : Branch σ τ}, here.cost b < fuel → here.cost b < fuel' →
      b.Fits here.grammar here.position →
      b.follow here.move maxDepth fuel = b.follow here.move maxDepth fuel'
  | 0, _, _, hfuel, _, _ => absurd hfuel (Nat.not_lt_zero _)
  | _, 0, _, _, hfuel', _ => absurd hfuel' (Nat.not_lt_zero _)
  | fuel + 1, fuel' + 1, b, hfuel, hfuel', hfit => by
      rw [Branch.follow, Branch.follow]
      cases hm : here.move b with
      | none => rfl
      | some turn =>
          have hbranches : turn.branches.flatMap (Branch.follow here.move maxDepth fuel) =
              turn.branches.flatMap (Branch.follow here.move maxDepth fuel') := by
            refine List.flatMap_congr fun b' hb' => ?_
            have hmove := moves_of_move hfit hm hb'
            have hcost := hmove.cost_lt hg
            exact follow_eq_of_cost_lt hg (by omega) (by omega) (hmove.fits hg hfit)
          simp only [hbranches]

/-- Everything that happens while one branch unfolds. -/
noncomputable def events (here : Cursor σ τ) (maxDepth : Nat) (b : Branch σ τ) :
    List (Event σ τ) :=
  b.follow here.move maxDepth (here.cost b + 1)

theorem events_of_overrun (hd : Limits.isExceeded maxDepth b.depth = true) :
    here.events maxDepth b = [.overran b.depth] := by
  rw [Cursor.events, Branch.follow, if_pos hd]

theorem events_of_rest (hd : Limits.isExceeded maxDepth b.depth = false)
    (hm : here.move b = none) : here.events maxDepth b = [.rested b] := by
  rw [Cursor.events, Branch.follow, hd, hm]
  rfl

theorem events_of_move (hg : here.grammar.IsBuilt) (hfit : b.Fits here.grammar here.position)
    {turn : Turn σ τ} (hd : Limits.isExceeded maxDepth b.depth = false)
    (hm : here.move b = some turn) :
    here.events maxDepth b =
      turn.calls.map .called ++ turn.branches.flatMap (here.events maxDepth) := by
  rw [Cursor.events, Branch.follow, hd, hm]
  simp only [Bool.false_eq_true, if_false]
  congr 1
  refine List.flatMap_congr fun b' hb' => ?_
  have hmove := moves_of_move hfit hm hb'
  have hcost := hmove.cost_lt hg
  exact follow_eq_of_cost_lt hg (by omega) (Nat.lt_succ_self _) (hmove.fits hg hfit)

/-- What happens while a branch is resolved, and then while its forks unfold, is what
happens while the branch unfolds. -/
theorem Resolves.events_eq {iterations : Nat} {forks : List (Branch σ τ)}
    {events : List (Event σ τ)} (h : here.Resolves maxDepth b iterations forks events)
    (hg : here.grammar.IsBuilt) (hfit : b.Fits here.grammar here.position) :
    here.events maxDepth b = events ++ forks.flatMap (here.events maxDepth) := by
  induction h with
  | overrun hd => simp [events_of_overrun hd]
  | rest hd hm => simp [events_of_rest hd hm]
  | die hd hm hb => simp [events_of_move hg hfit hd hm, hb]
  | move hd hm hb hown ih =>
      have hmem := hb ▸ List.mem_cons_self
      have hfit' := (moves_of_move hfit hm hmem).fits hg hfit
      simp [events_of_move hg hfit hd hm, hb, ih hfit']

/-- The forks of a branch fit the grammar if the branch does. -/
theorem Resolves.fits {iterations : Nat} {forks : List (Branch σ τ)}
    {events : List (Event σ τ)} (h : here.Resolves maxDepth b iterations forks events)
    (hg : here.grammar.IsBuilt) (hfit : b.Fits here.grammar here.position) :
    ∀ fork ∈ forks, fork.Fits here.grammar here.position := by
  induction h with
  | overrun | rest | die => simp
  | move hd hm hb hown ih =>
      intro fork hfork
      have hfits : ∀ b', b' ∈ _ :: _ → Branch.Fits here.grammar here.position b' :=
        fun b' hb' => (moves_of_move hfit hm (hb ▸ hb')).fits hg hfit
      rcases List.mem_append.mp hfork with hfork | hfork
      · exact ih (hfits _ List.mem_cons_self) fork hfork
      · exact hfits fork (List.mem_cons_of_mem _ hfork)

end Cursor

namespace Unfolded

omit [DecidableEq σ]

/-- What unfolding comes to in two parts, the second of which is not begun if a branch
is too deep in the first. -/
def andThen (earlier later : Unfolded σ τ) : Unfolded σ τ :=
  match earlier.overrun with
  | some _ => earlier
  | none => ⟨earlier.rested ++ later.rested, earlier.calls ++ later.calls, later.overrun⟩

theorem ofEvents_append (events later : List (Event σ τ)) :
    ofEvents (events ++ later) = (ofEvents events).andThen (ofEvents later) := by
  induction events with
  | nil => rfl
  | cons event events ih =>
      cases event with
      | overran => rfl
      | called call =>
          simp only [List.cons_append, ofEvents, ih, andThen]
          cases hd : (ofEvents events).overrun with
          | none => simp only
          | some => simp only [hd]
      | rested b =>
          simp only [List.cons_append, ofEvents, ih, andThen]
          cases hd : (ofEvents events).overrun with
          | none => simp only
          | some => simp only [hd]

/-- Nothing counts after a branch that is too deep. -/
theorem ofEvents_append_of_overran {events : List (Event σ τ)} {depth : Nat}
    (h : .overran depth ∈ events) (later : List (Event σ τ)) :
    ofEvents (events ++ later) = ofEvents events := by
  rw [ofEvents_append, andThen]
  cases hd : (ofEvents events).overrun with
  | none => exact absurd h (overrun_eq_none_iff.mp hd depth)
  | some => rfl

/-- Unfolding branches one after the other comes to the same if each does. -/
theorem ofEvents_flatMap_congr {branches : List (Branch σ τ)}
    {events events' : Branch σ τ → List (Event σ τ)}
    (h : ∀ b ∈ branches, ofEvents (events b) = ofEvents (events' b)) :
    ofEvents (branches.flatMap events) = ofEvents (branches.flatMap events') := by
  induction branches with
  | nil => rfl
  | cons b branches ih =>
      have hrest := ih fun b' hb' => h b' (List.mem_cons_of_mem _ hb')
      rw [List.flatMap_cons, List.flatMap_cons, ofEvents_append, ofEvents_append,
        h b List.mem_cons_self, hrest]

end Unfolded

/-- The loop over a work list comes to what unfolding its branches comes to. -/
theorem Cursor.Settles.ofEvents_eq {here : Cursor σ τ} {maxDepth pops iterations : Nat}
    {work : List (Branch σ τ)} {events : List (Event σ τ)}
    (h : here.Settles maxDepth work pops iterations events) (hg : here.grammar.IsBuilt)
    (hfit : ∀ b ∈ work, b.Fits here.grammar here.position) :
    Unfolded.ofEvents events = .ofEvents (work.flatMap (here.events maxDepth)) := by
  induction h with
  | done => rfl
  | @stop b work forks iterations depth events hb hd =>
      have hevents := hb.events_eq hg (hfit b List.mem_cons_self)
      rw [List.flatMap_cons, hevents, List.append_assoc]
      exact (Unfolded.ofEvents_append_of_overran hd _).symm
  | @pop b work forks pops iterations further events later hb hd hwork ih =>
      have hown := hfit b List.mem_cons_self
      have hlater := ih fun b' hb' => by
        rcases List.mem_append.mp hb' with hb' | hb'
        · exact hb.fits hg hown b' hb'
        · exact hfit b' (List.mem_cons_of_mem _ hb')
      rw [List.flatMap_cons, hb.events_eq hg hown, List.append_assoc, ← List.flatMap_append]
      rw [Unfolded.ofEvents_append, Unfolded.ofEvents_append, hlater]

/-! ## Reachable forests -/

/-- The loop ends on every branch of a reachable forest, whatever its limits are and
whichever symbol comes next, and one loop after the other comes to `Forest.unfold`. -/
theorem Forest.Reachable.settles {g : Grammar σ τ} {limits : Limits} {f : Forest σ τ}
    (hg : g.IsBuilt) (h : Reachable g limits f) (next : Option σ) :
    ∃ events : Branch σ τ → List (Event σ τ),
      (∀ b ∈ f.branches, ∃ pops iterations,
        (f.cursor next).Settles limits.depth [b] pops iterations (events b)) ∧
      f.unfold next = .ofEvents (f.branches.flatMap events) := by
  obtain ⟨-, rfl⟩ := h.grammar_eq
  have hf := h.tidy hg
  have hbuilt : (f.cursor next).grammar.IsBuilt := hf.built
  have hends : ∀ b, ∃ events, b ∈ f.branches → ∃ pops iterations,
      (f.cursor next).Settles f.limits.depth [b] pops iterations events := by
    intro b
    by_cases hb : b ∈ f.branches
    · obtain ⟨pops, iterations, events, hsettles⟩ := Cursor.exists_settles_cons hbuilt
        (Nat.lt_succ_self _) (hf.fits b hb) ⟨_, _, _, .done⟩
      exact ⟨events, fun _ => ⟨pops, iterations, hsettles⟩⟩
    · exact ⟨[], fun hmem => absurd hmem hb⟩
  choose events hsettles using hends
  refine ⟨events, hsettles, Unfolded.ofEvents_flatMap_congr fun b hb => ?_⟩
  obtain ⟨pops, iterations, hloop⟩ := hsettles b hb
  have hfits : ∀ b' ∈ [b], b'.Fits (f.cursor next).grammar (f.cursor next).position := by
    intro b' hb'
    cases List.mem_singleton.mp hb'
    exact hf.fits b hb
  rw [hloop.ofEvents_eq hbuilt hfits, List.flatMap_singleton]
  exact congrArg _ (Cursor.follow_eq_of_cost_lt hbuilt (Cursor.cost_lt_fuel _ b)
    (Nat.lt_succ_self _) (hf.fits b hb))

/-- A loop of loops settles at the end of the input when a parse has begun anew. -/
theorem Forest.Reachable.settles_nested_loops :
    ∃ (g : Grammar Char Nat) (f : Forest Char Nat), g.IsBuilt ∧ Reachable g .unlimited f ∧
      f.branches ≠ [] ∧ ∃ events : Branch Char Nat → List (Event Char Nat),
        (∀ b ∈ f.branches, ∃ pops iterations,
          (f.cursor none).Settles Limits.unlimited.depth [b] pops iterations (events b)) ∧
        f.unfold none = .ofEvents (f.branches.flatMap events) := by
  have hnew : (Builder.new : Builder Char Nat).Reached := .new
  have hok : ((Builder.new : Builder Char Nat).build
      (.star (.star (.oneOf (.of ['a']))))).toOption.any (fun _ => true) = true := by decide
  obtain ⟨g, hg, -⟩ := hnew.exists_build hok
  have hf : Reachable g .unlimited ((Forest.new g .unlimited).take 'a').forest.restart :=
    (Reachable.new.take 'a').restart
  exact ⟨_, _, hg, hf, List.cons_ne_nil _ _, Reachable.settles hg hf none⟩

end Ramify
