import Mathlib.Data.Set.Card
import Ramify.Proofs.Exactness

/-!
# Nothing is merged

A branch is known by its trail.  Two branches of a forest are *incomparable*: neither trail
goes on where the other ends, and where they first differ both took a way at the same fork,
before the same symbol, and not the same way.

The same holds of the lists from which `Branch.distinct` is to drop branches that are the
same, after a symbol and at the end of the input.  So it drops none, and the number that an
ambiguous parse reports is the number of trails of complete branches
(`Forest.Tidy.close_eq_ambiguous_iff`).
-/

namespace Ramify

variable {σ τ : Type}

/-! ## Incomparable branches -/

/-- A trail that parted from another does not begin it. -/
theorem Parted.not_suffix {s t : List Choice} (h : Parted s t) : ¬ s <:+ t :=
  fun hsuffix => (h.mono hsuffix (List.suffix_refl t)).ne rfl

/-- The trails of two branches differ first in the way taken at one fork, and neither begins
the other. -/
structure Branch.Incomparable (a b : Branch σ τ) : Prop where
  /-- Where they first differ, both took a way at one fork, and not the same. -/
  parted : Parted a.trail b.trail
  /-- The first does not begin the second. -/
  not_suffix : ¬ a.trail <:+ b.trail
  /-- The second does not begin the first. -/
  not_suffix' : ¬ b.trail <:+ a.trail

theorem Branch.Apart.incomparable {a b : Branch σ τ} (h : a.Apart b) : a.Incomparable b :=
  ⟨h, Parted.not_suffix h, Parted.not_suffix h.symm⟩

namespace Forest

variable [DecidableEq σ] {f : Forest σ τ}

/-! ## Complete trails -/

/-- The trails of the complete branches that the branches of a forest lead to at the end of
the input. -/
def completeTrails (f : Forest σ τ) : Set (List Choice) :=
  {trail | ∃ b ∈ f.branches, ∃ e, (f.cursor none).Visits b e ∧ e.isDone = true ∧ e.trail = trail}

/-- If no branch is too deep, the complete branches are those that come to rest. -/
theorem Sound.mem_completeTrails_iff (hf : f.Sound) (hdepth : ¬ f.Overruns none f.limits.depth)
    {trail : List Choice} :
    trail ∈ f.completeTrails ↔
      trail ∈ ((f.unfold none).rested.filter Branch.isDone).map Branch.trail := by
  rw [List.mem_map]
  constructor
  · rintro ⟨b, hb, e, hvisit, hdone, htrail⟩
    have hrest : e ∈ (f.unfold none).rested :=
      hf.mem_rested hdepth hb hvisit (Branch.move_eq_none_of_isDone hdone)
    exact ⟨e, List.mem_filter.mpr ⟨hrest, hdone⟩, htrail⟩
  · rintro ⟨e, he, htrail⟩
    obtain ⟨hrest, hdone⟩ := List.mem_filter.mp he
    obtain ⟨b, hb, hvisit, -⟩ := hf.visits_of_mem_rested hrest
    exact ⟨b, hb, e, hvisit, hdone, htrail⟩

/-- There are as many trails as complete branches. -/
theorem Tidy.ncard_completeTrails (hf : f.Tidy) (hdepth : ¬ f.Overruns none f.limits.depth) :
    f.completeTrails.ncard = f.finals.length := by
  have hnodup : (f.finals.map Branch.trail).Nodup :=
    List.pairwise_map.mpr (hf.finals_apart.imp fun h => h.ne)
  have hset : f.completeTrails = ((f.finals.map Branch.trail).toFinset : Set (List Choice)) := by
    ext trail
    rw [Finset.mem_coe, List.mem_toFinset, hf.finals_eq]
    exact hf.mem_completeTrails_iff hdepth
  rw [hset, Set.ncard_coe_finset, List.toFinset_card_of_nodup hnodup, List.length_map]

/-- An ambiguous parse reports the number of complete trails. -/
theorem Tidy.close_eq_ambiguous_iff (hf : f.Tidy) {count consumed : Nat} :
    f.close.result = .error (.ambiguous count consumed) ↔
      f.fault = none ∧ ¬ f.Overruns none f.limits.depth ∧ 2 ≤ count ∧
        f.completeTrails.ncard = count ∧ consumed = f.consumed := by
  cases hfault : f.fault with
  | some reason =>
      rw [close_of_fault hfault]
      simp
  | none =>
      cases hdeep : (f.unfold none).overrun with
      | some depth =>
          have hoverruns : f.Overruns none f.limits.depth := by
            by_contra hnot
            cases hdeep.symm.trans (hf.overrun_eq_none_iff.mpr hnot)
          rw [close_of_overrun hfault hdeep]
          simp [hoverruns]
      | none =>
          have hdepth := hf.overrun_eq_none_iff.mp hdeep
          rw [close_of_room hfault hdeep, verdict_eq_ambiguous_iff, List.length_map,
            hf.ncard_completeTrails hdepth]
          simp [hdepth]

/-! ## Reachable forests -/

/-- Whatever a forest went through, its branches are incomparable.  So are those that take a
symbol and those that are complete at the end, so no branch is dropped for being the same as
another, and an ambiguous parse reports how many complete trails there are. -/
theorem Reachable.nothing_merged {g : Grammar σ τ} {limits : Limits} (hg : g.IsBuilt)
    (h : Reachable g limits f) :
    f.branches.Pairwise Branch.Incomparable ∧
    (∀ symbol,
      let taken := (f.unfold (some symbol)).rested.filterMap (f.grammar.consume symbol)
      taken.Pairwise Branch.Incomparable ∧ Branch.distinct taken = taken) ∧
    (let complete := (f.unfold none).rested.filter Branch.isDone
     complete.Pairwise Branch.Incomparable ∧ Branch.distinct complete = complete) ∧
    ∀ count consumed, f.close.result = .error (.ambiguous count consumed) ↔
      f.fault = none ∧ ¬ f.Overruns none limits.depth ∧ 2 ≤ count ∧
        f.completeTrails.ncard = count ∧ consumed = f.consumed := by
  have hf := h.tidy hg
  obtain ⟨-, rfl⟩ := h.grammar_eq
  have htaken : ∀ symbol, ((f.unfold (some symbol)).rested.filterMap
      (f.grammar.consume symbol)).Pairwise Branch.Apart :=
    fun symbol => f.grammar.consume_apart symbol (hf.rested_apart hf.apart)
  have hcomplete : ((f.unfold none).rested.filter Branch.isDone).Pairwise Branch.Apart :=
    hf.finals_eq ▸ hf.finals_apart
  refine ⟨hf.apart.imp Branch.Apart.incomparable, fun symbol => ⟨?_, ?_⟩, ⟨?_, ?_⟩, ?_⟩
  · exact (htaken symbol).imp Branch.Apart.incomparable
  · exact Branch.distinct_eq (htaken symbol)
  · exact hcomplete.imp Branch.Apart.incomparable
  · exact Branch.distinct_eq hcomplete
  · exact fun count consumed => hf.close_eq_ambiguous_iff

/-- Two symbols of a loop of loops, begun anew after a symbol that does not fit, are matched in
two ways that stay apart. -/
theorem Reachable.nothing_merged_nested_loops :
    ∃ (g : Grammar Char Nat) (f : Forest Char Nat), g.IsBuilt ∧ Reachable g .unlimited f ∧
      f.size = 2 ∧ f.branches.Pairwise Branch.Incomparable ∧ f.completeTrails.ncard = 2 := by
  have hnew : (Builder.new : Builder Char Nat).Reached := .new
  have hrun : ((Builder.new : Builder Char Nat).build
      (.star (.star (.oneOf (.of ['a']))))).toOption.any (fun g =>
        let begun := ((Forest.new g .unlimited).take 'b').forest.restart
        let f := ((begun.take 'a').forest.take 'a').forest
        decide (f.size = 2 ∧ f.close.result = .error (.ambiguous 2 2))) = true := by
    decide +kernel
  obtain ⟨g, hg, hrun⟩ := hnew.exists_build hrun
  obtain ⟨hsize, hclose⟩ := of_decide_eq_true hrun
  have hbegun : Reachable g .unlimited ((Forest.new g .unlimited).take 'b').forest.restart :=
    (Reachable.new.take 'b').restart
  have hf := (hbegun.take 'a').take 'a'
  obtain ⟨hbranches, -, -, hcount⟩ := Reachable.nothing_merged hg hf
  exact ⟨g, _, hg, hf, hsize, hbranches, ((hcount 2 2).mp hclose).2.2.2.1⟩

end Forest

end Ramify
