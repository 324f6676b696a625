import Ramify.Proofs.Lockstep
import Ramify.Proofs.Settling

/-!
# Guards that are looked at beforehand

At a choice a branch does not enter the ways whose guard refuses the next symbol, nor those that
are sequences which begin with such a guard.  Entering them would do no harm: such a way ends at
its guard, after two moves at most, and no observer reports before that
(`Cursor.follow_of_not_admits`).

So any check that lets the ways with a passing guard through gives the same branches at rest and
the same reports, in some order (`Cursor.follow_perm`), and unfolding comes to an end under it
within as many moves (`Cursor.follow_moveIf_eq`).  Without a limit on the depth, that is; under
one, a way that is entered in vain may be too deep.
-/

namespace Ramify

variable {σ τ : Type} [DecidableEq σ]

omit [DecidableEq σ] in
theorem Turn.split_calls (branches : List (Branch σ τ)) : (Turn.split branches).calls = [] := by
  cases branches with
  | nil => rfl
  | cons own others => rfl

namespace Cursor

/-! ## Unfolding under a check -/

/-- The branch that enters one way of a choice, given with its index. -/
def enterWay (here : Cursor σ τ) (b : Branch σ τ) (id : NodeId) (way : NodeId × Nat) :
    Branch σ τ :=
  (b.via id way.2 here.position).aim way.1

/-- Enters a node, but at a choice only the ways that pass a check. -/
def descendIf (here : Cursor σ τ) (viable : NodeId → Bool) (b : Branch σ τ) (id : NodeId) :
    Turn σ τ :=
  match here.grammar.nodes[id]? with
  | some (.alt choices) =>
    .split ((choices.zipIdx.filter fun way => viable way.1).map (here.enterWay b id))
  | _ => here.descend b id

/-- One move, which enters only the ways that pass a check. -/
def moveIf (here : Cursor σ τ) (viable : NodeId → Bool) (b : Branch σ τ) : Option (Turn σ τ) :=
  match b.target with
  | some id => some (here.descendIf viable b.arrived id)
  | none => here.move b

/-- Everything that happens while branches unfold which enter only the ways that pass a check. -/
def unfoldIf (here : Cursor σ τ) (viable : NodeId → Bool) (maxDepth : Nat)
    (branches : List (Branch σ τ)) : List (Event σ τ) :=
  let bound := here.grammar.moveBound
  branches.flatMap fun b => b.follow (here.moveIf viable) maxDepth ((b.depth + 1) * bound + 1)

variable {here : Cursor σ τ} {viable : NodeId → Bool} {b : Branch σ τ}

theorem descendIf_admits (here : Cursor σ τ) (b : Branch σ τ) (id : NodeId) :
    here.descendIf here.admits b id = here.descend b id := by
  unfold descendIf
  split
  next choices hn =>
    simp only [descend, hn]
    rfl
  · rfl

/-- The check of `Cursor.descend` is whether the guard of a way passes. -/
theorem moveIf_admits (here : Cursor σ τ) : here.moveIf here.admits = here.move := by
  funext b
  unfold moveIf
  split
  next id ht => rw [descendIf_admits, move_of_target ht]
  · rfl

theorem unfoldIf_admits (here : Cursor σ τ) : here.unfoldIf here.admits = here.unfold := by
  funext maxDepth branches
  rw [unfoldIf, moveIf_admits]
  rfl

theorem moveIf_of_target_none (ht : b.target = none) : here.moveIf viable b = here.move b := by
  simp only [moveIf, ht]

/-- A check makes a difference at choices only. -/
theorem moveIf_of_target {id : NodeId} (ht : b.target = some id)
    (hn : ∀ choices, here.grammar.nodes[id]? ≠ some (.alt choices)) :
    here.moveIf viable b = here.move b := by
  rw [move_of_target ht]
  simp only [moveIf, ht]
  unfold descendIf
  split
  next choices halt => exact absurd halt (hn choices)
  · rfl

theorem moveIf_of_alt {id : NodeId} {choices : List NodeId} (ht : b.target = some id)
    (hn : here.grammar.nodes[id]? = some (.alt choices)) (viable : NodeId → Bool) :
    here.moveIf viable b = some (.split
      ((choices.zipIdx.filter fun way => viable way.1).map (here.enterWay b.arrived id))) := by
  simp only [moveIf, ht, descendIf, hn]

/-! ## A way whose guard does not pass -/

omit [DecidableEq σ] in
theorem follow_of_dead {move : Branch σ τ → Option (Turn σ τ)} (h : move b = some .dead)
    (fuel : Nat) : b.follow move maxCount fuel = [] := by
  cases fuel with
  | zero => rfl
  | succ fuel => simp [Branch.follow, h, Turn.dead]

omit [DecidableEq σ] in
theorem follow_of_go {move : Branch σ τ → Option (Turn σ τ)} {b' : Branch σ τ}
    (h : move b = some (.go b')) (hnil : ∀ fuel, b'.follow move maxCount fuel = [])
    (fuel : Nat) : b.follow move maxCount fuel = [] := by
  cases fuel with
  | zero => rfl
  | succ fuel => simp [Branch.follow, h, Turn.go, hnil fuel]

/-- A branch ends at a guard that does not let the next symbol through. -/
theorem follow_of_guard {id : NodeId} {set : SymbolSet σ}
    (hn : here.grammar.nodes[id]? = some (.guard set)) (hset : set.admits here.next = false)
    (b : Branch σ τ) (fuel : Nat) :
    (b.aim id).follow (here.moveIf viable) maxCount fuel = [] := by
  refine follow_of_dead ?_ fuel
  rw [moveIf_of_target rfl (by simp [hn]), move_of_target rfl]
  simp [descend, hn, hset]

/-- A way that is not admitted begins with a guard that does not pass. -/
theorem guard_of_not_admits {id : NodeId} (h : here.admits id = false) :
    ∃ set, set.admits here.next = false ∧
      (here.grammar.nodes[id]? = some (.guard set) ∨
        ∃ first parts, here.grammar.nodes[id]? = some (.seq (first :: parts)) ∧
          here.grammar.nodes[first]? = some (.guard set)) := by
  obtain ⟨set, hguard, hset⟩ :
      ∃ set, here.grammar.guard? id = some set ∧ set.admits here.next = false := by
    cases hg : here.grammar.guard? id with
    | none => simp [admits, hg] at h
    | some set => exact ⟨set, rfl, by simpa [admits, hg] using h⟩
  refine ⟨set, hset, ?_⟩
  unfold Grammar.guard? at hguard
  split at hguard
  next hn =>
    cases hguard
    exact .inl hn
  next first parts hn =>
    split at hguard
    next hfirst =>
      cases hguard
      exact .inr ⟨first, parts, hn, hfirst⟩
    · cases hguard
  · cases hguard

/-- Nothing comes of a way that is not admitted, and nothing is reported on it. -/
theorem follow_of_not_admits {id : NodeId} (h : here.admits id = false) (b : Branch σ τ)
    (fuel : Nat) : (b.aim id).follow (here.moveIf viable) maxCount fuel = [] := by
  obtain ⟨set, hset, hn | ⟨first, parts, hn, hfirst⟩⟩ := guard_of_not_admits h
  · exact follow_of_guard hn hset b fuel
  · have hmove : here.moveIf viable (b.aim id) = some (here.descend b.arrived id) := by
      rw [moveIf_of_target rfl (by simp [hn]), move_of_target rfl]
      rfl
    cases parts with
    | nil =>
        have hgo : here.moveIf viable (b.aim id) = some (.go (b.arrived.aim first)) := by
          simp [hmove, descend, hn]
        exact follow_of_go hgo (follow_of_guard hfirst hset _) fuel
    | cons second parts =>
        have hgo : here.moveIf viable (b.aim id) =
            some (.go ((b.arrived.push id 0 here.position).aim first)) := by
          simp [hmove, descend, hn]
        exact follow_of_go hgo (follow_of_guard hfirst hset _) fuel

/-! ## The check makes no difference -/

section Viable

/-- One turn makes the reports of another and turns into the same branches, and into some of
which nothing comes. -/
def Idles (here : Cursor σ τ) (viable : NodeId → Bool) (turn turn' : Turn σ τ) : Prop :=
  turn'.calls = turn.calls ∧ ∃ idle, turn'.branches.Perm (turn.branches ++ idle) ∧
    ∀ b ∈ idle, ∀ fuel, b.follow (here.moveIf viable) maxCount fuel = []

theorem Idles.refl (here : Cursor σ τ) (viable : NodeId → Bool) (turn : Turn σ τ) :
    here.Idles viable turn turn :=
  ⟨rfl, [], by rw [List.append_nil], List.forall_mem_nil _⟩

variable (hviable : ∀ id, here.admits id = true → viable id = true)
include hviable

/-- A check that lets every admitted way through lets idle ones through besides. -/
theorem idles_of_alt (b : Branch σ τ) (id : NodeId) (choices : List NodeId) :
    here.Idles viable
      (.split ((choices.zipIdx.filter fun way => here.admits way.1).map (here.enterWay b id)))
      (.split ((choices.zipIdx.filter fun way => viable way.1).map (here.enterWay b id))) := by
  let idle := (choices.zipIdx.filter fun way => viable way.1).filter fun way => !here.admits way.1
  have hadmitted : (choices.zipIdx.filter fun way => viable way.1).filter
      (fun way => here.admits way.1) = choices.zipIdx.filter fun way => here.admits way.1 := by
    rw [List.filter_filter]
    refine List.filter_congr fun way _ => ?_
    cases ha : here.admits way.1 with
    | false => rfl
    | true => rw [hviable _ ha]; rfl
  have hways : (choices.zipIdx.filter fun way => viable way.1).Perm
      ((choices.zipIdx.filter fun way => here.admits way.1) ++ idle) := by
    rw [← hadmitted]
    exact (List.filter_append_perm _ _).symm
  refine ⟨by rw [Turn.split_calls, Turn.split_calls], idle.map (here.enterWay b id), ?_, ?_⟩
  · refine (Turn.split_perm _).trans ((hways.map _).trans ?_)
    rw [List.map_append]
    exact (Turn.split_perm _).symm.append_right _
  · intro b' hb' fuel
    obtain ⟨way, hway, rfl⟩ := List.mem_map.mp hb'
    have hadmits : here.admits way.1 = false := by
      simpa using (List.mem_filter.mp hway).2
    exact follow_of_not_admits hadmits _ fuel

/-- A move under the check is a move, but for idle ways. -/
theorem moveIf_rel (b : Branch σ τ) :
    Option.Rel (here.Idles viable) (here.move b) (here.moveIf viable b) := by
  have hsame : here.moveIf viable b = here.move b →
      Option.Rel (here.Idles viable) (here.move b) (here.moveIf viable b) := by
    intro heq
    rw [heq]
    cases here.move b with
    | none => exact .none
    | some turn => exact .some (.refl here viable turn)
  cases ht : b.target with
  | none => exact hsame (moveIf_of_target_none ht)
  | some id =>
      by_cases hn : ∃ choices, here.grammar.nodes[id]? = some (.alt choices)
      · obtain ⟨choices, hn⟩ := hn
        rw [← moveIf_admits here, moveIf_of_alt ht hn, moveIf_of_alt ht hn]
        exact .some (idles_of_alt hviable b.arrived id choices)
      · exact hsame (moveIf_of_target ht (not_exists.mp hn))

/-- Whatever check lets the admitted ways through, the same happens, in some order. -/
theorem follow_perm : ∀ (fuel : Nat) (b : Branch σ τ),
    (b.follow (here.moveIf viable) maxCount fuel).Perm (b.follow here.move maxCount fuel)
  | 0, _ => .refl _
  | fuel + 1, b => by
      simp only [Branch.follow, Limits.isExceeded_maxCount, Bool.false_eq_true, if_false]
      rcases rel_cases (moveIf_rel hviable b) with
        ⟨hm, hm'⟩ | ⟨turn, turn', hm, hm', hcalls, idle, hbranches, hidle⟩
      · rw [hm, hm']
      · rw [hm, hm']
        simp only [hcalls]
        refine List.Perm.append_left _ ((hbranches.flatMap_right _).trans ?_)
        rw [List.flatMap_append, List.flatMap_eq_nil_iff.mpr fun b' hb' => hidle b' hb' fuel,
          List.append_nil]
        exact List.Perm.flatMap_left _ fun b' _ => follow_perm fuel b'

/-- Fuel beyond the cost of a branch makes no difference under the check either. -/
theorem follow_moveIf_eq (hg : here.grammar.IsBuilt) :
    ∀ {fuel fuel' : Nat} {b : Branch σ τ}, here.cost b < fuel → here.cost b < fuel' →
      b.Fits here.grammar here.position →
      b.follow (here.moveIf viable) maxCount fuel = b.follow (here.moveIf viable) maxCount fuel'
  | 0, _, _, hfuel, _, _ => absurd hfuel (Nat.not_lt_zero _)
  | _, 0, _, _, hfuel', _ => absurd hfuel' (Nat.not_lt_zero _)
  | fuel + 1, fuel' + 1, b, hfuel, hfuel', hfit => by
      rw [Branch.follow, Branch.follow]
      rcases rel_cases (moveIf_rel hviable b) with
        ⟨-, hm'⟩ | ⟨turn, turn', hm, hm', -, idle, hbranches, hidle⟩
      · rw [hm']
      · have hall : turn'.branches.flatMap (Branch.follow (here.moveIf viable) maxCount fuel) =
            turn'.branches.flatMap (Branch.follow (here.moveIf viable) maxCount fuel') := by
          refine List.flatMap_congr fun b' hb' => ?_
          rcases List.mem_append.mp (hbranches.subset hb') with hb' | hb'
          · have hmove := moves_of_move hfit hm hb'
            have hcost := hmove.cost_lt hg
            exact follow_moveIf_eq hg (by omega) (by omega) (hmove.fits hg hfit)
          · rw [hidle b' hb', hidle b' hb']
        simp only [hm', hall]

end Viable

end Cursor

/-! ## What unfolding comes to -/

/-- The report that an observer makes in an event. -/
def Event.call? : Event σ τ → Option (Call σ)
  | .called call => some call
  | _ => none

omit [DecidableEq σ] in
/-- Without a limit on the depth no branch is too deep. -/
theorem Branch.overran_notMem {move : Branch σ τ → Option (Turn σ τ)} (depth : Nat) :
    ∀ (fuel : Nat) (b : Branch σ τ), Event.overran depth ∉ b.follow move maxCount fuel
  | 0, _ => List.not_mem_nil
  | fuel + 1, b => by
      intro h
      simp only [Branch.follow, Limits.isExceeded_maxCount, Bool.false_eq_true, if_false] at h
      cases hm : move b with
      | none => simp [hm] at h
      | some turn =>
          simp only [hm, List.mem_append, List.mem_map, List.mem_flatMap, reduceCtorEq, and_false,
            exists_false, false_or] at h
          obtain ⟨b', -, h⟩ := h
          exact overran_notMem depth fuel b' h

namespace Unfolded

omit [DecidableEq σ]

variable {events events' : List (Event σ τ)}

/-- If no branch is too deep, all reports count. -/
theorem calls_eq (h : ∀ depth, Event.overran depth ∉ events) :
    (ofEvents events).calls = events.filterMap Event.call? := by
  induction events with
  | nil => rfl
  | cons event events ih =>
      have hrest := ih fun depth hmem => h depth (List.mem_cons_of_mem _ hmem)
      cases event with
      | called call => exact congrArg (List.cons call) hrest
      | rested b => exact hrest
      | overran depth => exact absurd List.mem_cons_self (h depth)

/-- If no branch is too deep, the order of events is that of branches and reports. -/
theorem ofEvents_perm (h : events.Perm events') (hnone : ∀ depth, Event.overran depth ∉ events) :
    (ofEvents events).rested.Perm (ofEvents events').rested ∧
      (ofEvents events).calls.Perm (ofEvents events').calls ∧
      (ofEvents events).overrun = none ∧ (ofEvents events').overrun = none := by
  have hnone' : ∀ depth, Event.overran depth ∉ events' :=
    fun depth hmem => hnone depth (h.mem_iff.mpr hmem)
  rw [rested_eq hnone, rested_eq hnone', calls_eq hnone, calls_eq hnone']
  exact ⟨h.filterMap _, h.filterMap _, overrun_eq_none_iff.mpr hnone,
    overrun_eq_none_iff.mpr hnone'⟩

end Unfolded

/-! ## Reachable forests -/

/-- Looking at guards beforehand only saves work.  Let every way of a choice be entered, whether
its guard passes or not.  Then unfolding a branch of a reachable forest without a limit on the
depth gives the same branches at rest, each as often, and the same reports, each as often,
whichever symbol comes next.  The bound on its moves cuts nothing off then either. -/
theorem Forest.Reachable.precheck_only_saves {g : Grammar σ τ} {limits : Limits} {f : Forest σ τ}
    (hg : g.IsBuilt) (h : Reachable g limits f) {b : Branch σ τ} (hb : b ∈ f.branches)
    (next : Option σ) :
    let here := f.cursor next
    let checked := Unfolded.ofEvents (here.unfold maxCount [b])
    let unchecked := Unfolded.ofEvents (here.unfoldIf (fun _ => true) maxCount [b])
    checked.rested.Perm unchecked.rested ∧ checked.calls.Perm unchecked.calls ∧
      checked.overrun = none ∧ unchecked.overrun = none ∧
      here.unfold = here.unfoldIf here.admits ∧
      ∀ fuel, (b.depth + 1) * g.moveBound < fuel →
        b.follow (here.moveIf fun _ => true) maxCount fuel =
          here.unfoldIf (fun _ => true) maxCount [b] := by
  intro here checked unchecked
  obtain ⟨rfl, -⟩ := h.grammar_eq
  have hf := h.tidy hg
  have hbuilt : here.grammar.IsBuilt := hf.built
  have hall : ∀ id, here.admits id = true → (fun _ => true) id = true := fun _ _ => rfl
  have hperm : (here.unfold maxCount [b]).Perm (here.unfoldIf (fun _ => true) maxCount [b]) := by
    rw [Cursor.unfold, Cursor.unfoldIf, List.flatMap_singleton, List.flatMap_singleton]
    exact (Cursor.follow_perm hall _ b).symm
  have hnone : ∀ depth, Event.overran depth ∉ here.unfold maxCount [b] := by
    intro depth
    rw [Cursor.unfold, List.flatMap_singleton]
    exact Branch.overran_notMem depth _ b
  obtain ⟨hrested, hcalls, hover, hover'⟩ := Unfolded.ofEvents_perm hperm hnone
  refine ⟨hrested, hcalls, hover, hover', (Cursor.unfoldIf_admits here).symm, ?_⟩
  intro fuel hfuel
  rw [Cursor.unfoldIf, List.flatMap_singleton]
  have hcost : here.cost b < (b.depth + 1) * here.grammar.moveBound + 1 :=
    Cursor.cost_lt_fuel here b
  refine Cursor.follow_moveIf_eq hall hbuilt (Nat.lt_of_lt_of_le hcost hfuel) hcost (hf.fits b hb)

/-- A choice two of whose ways begin with guards, one of which does not pass. -/
theorem Forest.Reachable.precheck_only_saves_guards :
    ∃ (g : Grammar Char Nat) (f : Forest Char Nat) (b : Branch Char Nat), g.IsBuilt ∧
      Reachable g .unlimited f ∧ b ∈ f.branches ∧
      let here := f.cursor (some 'a')
      (Unfolded.ofEvents (here.unfold maxCount [b])).rested.Perm
        (Unfolded.ofEvents (here.unfoldIf (fun _ => true) maxCount [b])).rested := by
  have hnew : (Builder.new : Builder Char Nat).Reached := .new
  have hok : ((Builder.new : Builder Char Nat).build
      (.alt [.seq [.guard (.of ['b']), .observe ⟨false, true, "any"⟩], .guard (.of ['b']),
        .seq [.guard (.of ['a']), .observe ⟨false, true, "any"⟩]])).toOption.any
      (fun _ => true) = true := by decide
  obtain ⟨g, hg, -⟩ := hnew.exists_build hok
  have hmem : Branch.start g.start ∈ (Forest.new g .unlimited).branches := List.mem_cons_self
  exact ⟨g, _, _, hg, .new, hmem, (precheck_only_saves hg .new hmem (some 'a')).1⟩

end Ramify
