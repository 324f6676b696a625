import Ramify.Proofs.Taking

/-!
# Limits only cut a parse short

A parse under limits runs in step with the same parse without limits.  As long as it goes
on it holds the same branches, and `Forest.cut` says of the next symbol whether it stops
the parse, and why.

A move opens one construct at most, and no branch that is at rest is too deep.  So the
first branch that is too deep has exactly one frame more than allowed, whichever branch
it is, and the depth that is reported does not depend on the order of the branches.
-/

namespace Ramify

variable {σ τ : Type}

section Depth

variable [DecidableEq σ] {b b' : Branch σ τ}

/-! ## One frame at a time -/

/-- A move opens one construct at most. -/
theorem Cursor.Moves.depth_le {here : Cursor σ τ} (h : here.Moves b b') :
    b'.depth ≤ b.depth + 1 := by
  rw [b.depth_eq, b'.depth_eq]
  cases h with
  | pass | ignore | skip | only | choose | shun | call => exact Nat.le_succ _
  | wait | watch | first | loop | openFixed | openFold => exact Nat.le_refl _
  | openMade => simp [Branch.aim, Branch.push, Branch.arrived]
  | next =>
      split
      · simp [Branch.aim, Branch.pop]
        omega
      · simp [Branch.aim, Branch.reach]
  | again => simp [Branch.aim, Branch.via, Branch.reach]
  | leave | closeFixed | closeFold =>
      simp [Branch.via, Branch.emit, Branch.gather, Branch.pop]
      omega
  | closeMade =>
      simp [Branch.emit, Branch.pop]
      omega

/-- Taking a symbol opens no construct. -/
theorem Grammar.Takes.depth_le {g : Grammar σ τ} {symbol : σ} (h : g.Takes symbol b b') :
    b'.depth ≤ b.depth := by
  rw [b.depth_eq, b'.depth_eq]
  cases h with
  | member | any => simp [Branch.pop]
  | run =>
      rw [Branch.hear_frames]
      split
      · simp [Branch.pop]
      · simp [Branch.reach]

theorem Limits.isExceeded_of_le {limit count count' : Nat} (hle : count' ≤ count)
    (h : Limits.isExceeded limit count = false) : Limits.isExceeded limit count' = false := by
  rw [← Bool.not_eq_true, Limits.isExceeded_iff] at h ⊢
  omega

/-- A branch that was not too deep is so by one frame when an unfolding ends. -/
theorem Branch.overran_eq {here : Cursor σ τ} {maxDepth : Nat} (hg : here.grammar.IsBuilt) :
    ∀ {fuel depth : Nat} {b : Branch σ τ}, b.Fits here.grammar here.position →
      Limits.isExceeded maxDepth b.depth = false →
      Event.overran depth ∈ b.follow here.move maxDepth fuel → depth = maxDepth + 1
  | 0, _, _, _, _, h => by cases h
  | fuel + 1, depth, b, hfit, hdepth, h => by
      rw [Branch.follow, hdepth] at h
      simp only [Bool.false_eq_true, if_false] at h
      split at h
      · simp at h
      next turn hm =>
        rcases List.mem_append.mp h with h | h
        · simp at h
        obtain ⟨b', hb', h⟩ := List.mem_flatMap.mp h
        have hmove := Cursor.moves_of_move hfit hm hb'
        cases hdeep : Limits.isExceeded maxDepth b'.depth with
        | false => exact overran_eq hg (hmove.fits hg hfit) hdeep h
        | true =>
            cases fuel with
            | zero => cases h
            | succ fuel =>
                rw [Branch.follow, if_pos hdeep, List.mem_singleton, Event.overran.injEq] at h
                have hlimit := Limits.isExceeded_iff.mp hdeep
                rw [← Bool.not_eq_true, Limits.isExceeded_iff] at hdepth
                have hstep := hmove.depth_le
                omega

end Depth

namespace Forest

/-- The same forest under other limits. -/
def withLimits (f : Forest σ τ) (limits : Limits) : Forest σ τ := { f with limits }

theorem Sound.withLimits {f : Forest σ τ} (hf : f.Sound) (limits : Limits) :
    (f.withLimits limits).Sound :=
  ⟨hf.built, hf.fits⟩

/-- A parse without limits that has kept to the limits `c` so far. -/
structure Abides (c : Limits) (u : Forest σ τ) : Prop extends u.Free where
  /-- No more symbols were taken than allowed. -/
  symbols : u.consumed ≤ c.symbols
  /-- No branch is too deep. -/
  depth : ∀ b ∈ u.branches, Limits.isExceeded c.depth b.depth = false

theorem Abides.new {g : Grammar σ τ} (hg : g.IsBuilt) (c : Limits) :
    (Forest.new g .unlimited).Abides c where
  toFree := .new hg
  symbols := Nat.zero_le _
  depth b hb := by
    cases List.mem_singleton.mp hb
    rw [← Bool.not_eq_true, Limits.isExceeded_iff]
    exact fun h => Nat.not_lt_zero _ h.1

variable [DecidableEq σ] {f : Forest σ τ} {next : Option σ}

theorem Sound.overrun_eq (hf : f.Sound)
    (hdepth : ∀ b ∈ f.branches, Limits.isExceeded f.limits.depth b.depth = false) {depth : Nat}
    (h : (f.unfold next).overrun = some depth) : depth = f.limits.depth + 1 := by
  have hg : (f.cursor next).grammar.IsBuilt := hf.built
  obtain ⟨b, hb, hmem⟩ := List.mem_flatMap.mp (Unfolded.mem_of_overrun h)
  exact Branch.overran_eq hg (hf.fits b hb) (hdepth b hb) hmem

/-! ## The same parse under limits -/

/-- The limit that the next symbol exceeds first, if it exceeds one. -/
noncomputable def cut (u : Forest σ τ) (c : Limits) (symbol : σ) : Option Fault :=
  open Classical in
  if c.symbols ≤ u.consumed then some (.tooManySymbols (c.symbols + 1) c.symbols)
  else if u.Overruns (some symbol) c.depth then some (.tooDeep (c.depth + 1) c.depth)
  else if Limits.isExceeded c.branches (u.take symbol).forest.size then
    some (.tooManyBranches (u.take symbol).forest.size c.branches)
  else none

variable {u : Forest σ τ} {c : Limits} {symbol : σ}

/-- Unfolding comes to the same under limits, unless a branch is too deep. -/
theorem Abides.unfold_withLimits (hu : u.Abides c) (h : ¬ u.Overruns next c.depth) :
    (u.withLimits c).unfold next = u.unfold next := by
  have hg : (u.cursor next).grammar.IsBuilt := hu.built
  rw [Forest.unfold, Forest.unfold, hu.unlimited]
  refine congrArg _ (List.flatMap_congr fun b hb => ?_)
  exact Branch.follow_eq_of_withinDepth (hu.fits b hb) hg (withinDepth_of_not_overruns h hb)

/-- A branch that is too deep under limits is so by one frame. -/
theorem Abides.overrun_withLimits (hu : u.Abides c) (h : u.Overruns next c.depth) :
    ((u.withLimits c).unfold next).overrun = some (c.depth + 1) := by
  have hsound := hu.withLimits c
  cases hd : ((u.withLimits c).unfold next).overrun with
  | none => exact absurd h (hsound.overrun_eq_none_iff.mp hd)
  | some depth => rw [hsound.overrun_eq hu.depth hd]; rfl

theorem Abides.advanced_withLimits (hu : u.Abides c) (h : ¬ u.Overruns (some symbol) c.depth) :
    (u.withLimits c).advanced symbol = (u.advanced symbol).withLimits c := by
  unfold Forest.advanced
  rw [hu.unfold_withLimits h]
  rfl

/-- The limits are kept by one symbol more, if it can be taken. -/
theorem Abides.advanced (hu : u.Abides c) (hleft : u.consumed < c.symbols)
    (h : ¬ u.Overruns (some symbol) c.depth) : (u.advanced symbol).Abides c where
  toFree := hu.toFree.advanced symbol
  symbols := hleft
  depth b hb := by
    rw [hu.advanced_branches, ← hu.unfold_withLimits h] at hb
    obtain ⟨r, hr, htake⟩ := List.mem_filterMap.mp hb
    obtain ⟨-, -, -, -, hdepth⟩ := (hu.withLimits c).visits_of_mem_rested hr
    exact Limits.isExceeded_of_le (Grammar.consume_eq_some_iff.mp htake).depth_le hdepth

/-- A symbol that exceeds a limit stops the parse under limits for that reason. -/
theorem Abides.take_of_cut (hu : u.Abides c) (hroom : u.consumed < maxCount) {reason : Fault}
    (h : u.cut c symbol = some reason) : ((u.withLimits c).take symbol).result = .error reason := by
  have hrun : (u.withLimits c).fault = none := hu.running
  unfold Forest.cut at h
  rw [(hu.take hroom symbol).2] at h
  split at h
  next hfull =>
    cases h
    have hfigure : u.consumed = c.symbols := Nat.le_antisymm hu.symbols hfull
    rw [(take_of_full hrun hfull).1, ← hfigure]
    simp only [Forest.withLimits, hfigure]
  next hfull =>
    have hleft : (u.withLimits c).consumed < (u.withLimits c).limits.symbols :=
      Nat.not_le.mp hfull
    split at h
    next hdeep =>
      cases h
      exact (take_of_overrun hrun hleft (hu.overrun_withLimits hdeep)).1
    next hdeep =>
      have hnone := (hu.withLimits c).overrun_eq_none_iff.mpr hdeep
      have hsame := hu.advanced_withLimits hdeep
      split at h
      next hcrowd =>
        cases h
        have hcount : ((u.withLimits c).advanced symbol).size = (u.advanced symbol).size := by
          rw [hsame]
          rfl
        rw [← hcount] at hcrowd ⊢
        exact (take_of_crowded hrun hleft hnone hcrowd).1
      · cases h

/-- Any other symbol is taken, and leads to the forest without limits. -/
theorem Abides.take_of_not_cut (hu : u.Abides c) (hroom : u.consumed < maxCount)
    (h : u.cut c symbol = none) :
    ((u.withLimits c).take symbol).result = .ok () ∧
      ((u.withLimits c).take symbol).forest = (u.advanced symbol).withLimits c ∧
      (u.advanced symbol).Abides c := by
  have hrun : (u.withLimits c).fault = none := hu.running
  unfold Forest.cut at h
  rw [(hu.take hroom symbol).2] at h
  split at h
  · cases h
  next hfull =>
    have hleft : (u.withLimits c).consumed < (u.withLimits c).limits.symbols :=
      Nat.not_le.mp hfull
    split at h
    · cases h
    next hdeep =>
      have hnone := (hu.withLimits c).overrun_eq_none_iff.mpr hdeep
      have hsame := hu.advanced_withLimits hdeep
      split at h
      · cases h
      next hcrowd =>
        have hcount : ((u.withLimits c).advanced symbol).size = (u.advanced symbol).size := by
          rw [hsame]
          rfl
        rw [← hcount, Bool.not_eq_true] at hcrowd
        obtain ⟨hresult, hforest⟩ := take_of_room hrun hleft hnone hcrowd
        exact ⟨hresult, hforest.trans hsame, hu.advanced hleft hdeep⟩

/-- Under limits the next symbol is refused just if it is cut off. -/
theorem Abides.take_result (hu : u.Abides c) (hroom : u.consumed < maxCount) (symbol : σ) :
    ((u.withLimits c).take symbol).result = (u.cut c symbol).elim (.ok ()) .error := by
  cases hcut : u.cut c symbol with
  | none => exact (hu.take_of_not_cut hroom hcut).1
  | some reason => exact hu.take_of_cut hroom hcut

/-! ## Whole parses -/

/-- As long as a parse under limits goes on, it is the parse without limits. -/
theorem Abides.takeAll :
    ∀ {symbols : List σ} {u : Forest σ τ}, u.Abides c → u.consumed + symbols.length ≤ maxCount →
      ((u.withLimits c).takeAll symbols).result = .ok () →
      (u.takeAll symbols).result = .ok () ∧
        ((u.withLimits c).takeAll symbols).forest = (u.takeAll symbols).forest.withLimits c ∧
        (u.takeAll symbols).forest.consumed = u.consumed + symbols.length ∧
        (u.takeAll symbols).forest.Abides c
  | [], _, hu, _, _ => ⟨rfl, rfl, rfl, hu⟩
  | symbol :: symbols, u, hu, hroom, hok => by
      obtain ⟨hfirst, hrest⟩ := takeAll_cons_eq_ok hok
      rw [List.length_cons] at hroom ⊢
      have hleft : u.consumed < maxCount := by omega
      obtain ⟨hfree, hforest⟩ := hu.take hleft symbol
      cases hcut : u.cut c symbol with
      | some reason =>
          rw [hu.take_of_cut hleft hcut] at hfirst
          cases hfirst
      | none =>
          obtain ⟨-, hsame, habides⟩ := hu.take_of_not_cut hleft hcut
          rw [hsame] at hrest
          have hcount : (u.advanced symbol).consumed = u.consumed + 1 := rfl
          obtain ⟨hres, hsim, hconsumed, hend⟩ :=
            Abides.takeAll habides (by rw [hcount]; omega) hrest
          rw [(takeAll_cons hfree).1, (takeAll_cons hfree).2, (takeAll_cons hfirst).2, hforest,
            hsame]
          exact ⟨hres, hsim, by rw [hconsumed, hcount]; omega, hend⟩

/-- Closing under limits is closing without, unless a branch is too deep. -/
theorem Abides.close (hu : u.Abides c) :
    (u.withLimits c).close.result =
      open Classical in
      if u.Overruns none c.depth then .error (.aborted (.tooDeep (c.depth + 1) c.depth))
      else u.close.result := by
  have hrun : (u.withLimits c).fault = none := hu.running
  split
  next hdeep => exact close_of_overrun hrun (hu.overrun_withLimits hdeep)
  next hdeep =>
    have hsame := hu.unfold_withLimits hdeep
    have hnone := hu.overrun_eq_none none
    rw [close_of_room hrun (by rw [hsame]; exact hnone), close_of_room hu.running hnone,
      Forest.finals, Forest.finals, hsame]
    rfl

/-- Limits cut a parse short and change nothing else.  While no symbol has been refused, the
branches are those of the parse without limits; the next symbol is refused just if one of
the limits is exceeded, and for the first that is; and closing differs only where a branch
is too deep.  So what is accepted under limits is accepted without, with the same tokens. -/
theorem limits_only_cut {g : Grammar σ τ} (hg : g.IsBuilt) (c : Limits) {w : List σ}
    (hw : w.length < maxCount) (hok : ((Forest.new g c).takeAll w).result = .ok ()) :
    let u := ((Forest.new g .unlimited).takeAll w).forest
    let f := ((Forest.new g c).takeAll w).forest
    ((Forest.new g .unlimited).takeAll w).result = .ok () ∧
      f.branches = u.branches ∧ f.consumed = w.length ∧ u.consumed = w.length ∧
      (∀ symbol, (f.take symbol).result =
        open Classical in
        if c.symbols ≤ w.length then .error (.tooManySymbols (c.symbols + 1) c.symbols)
        else if u.Overruns (some symbol) c.depth then .error (.tooDeep (c.depth + 1) c.depth)
        else if Limits.isExceeded c.branches (u.take symbol).forest.size then
          .error (.tooManyBranches (u.take symbol).forest.size c.branches)
        else .ok ()) ∧
      (f.close.result =
        open Classical in
        if u.Overruns none c.depth then .error (.aborted (.tooDeep (c.depth + 1) c.depth))
        else u.close.result) ∧
      ∀ tokens, f.close.result = .ok tokens → u.close.result = .ok tokens := by
  intro u f
  have hlength : (Forest.new g .unlimited).consumed + w.length ≤ maxCount := by
    simp only [Forest.new]
    omega
  obtain ⟨hfree, hsame, hconsumed, hu⟩ := (Abides.new hg c).takeAll hlength hok
  have hf : f = u.withLimits c := hsame
  have hcount : u.consumed = w.length := by rw [hconsumed]; exact Nat.zero_add _
  rw [hf]
  refine ⟨hfree, rfl, hcount, hcount, ?_, hu.close, ?_⟩
  · intro symbol
    have hroom : u.consumed < maxCount := by omega
    rw [hu.take_result hroom, Forest.cut, hcount]
    split_ifs
    all_goals rfl
  · intro tokens htokens
    rw [hu.close] at htokens
    split at htokens
    · cases htokens
    · exact htokens

/-- After one symbol a choice inside a sequence holds under three limits what it holds without
limits.  The next symbol is one symbol too many under the first; it leads a branch too deep under
the second, and to two branches where the third allows one. -/
theorem limits_only_cut_choice :
    ∃ g : Grammar Char Nat, g.IsBuilt ∧
      let f := fun c : Limits => ((Forest.new g c).takeAll ['a']).forest
      let u := f .unlimited
      (∀ c ∈ ([{ symbols := 1 }, { depth := 2 }, { branches := 1 }] : List Limits),
        ((Forest.new g c).takeAll ['a']).result = .ok () ∧ (f c).branches = u.branches) ∧
      ((f { symbols := 1 }).take 'a').result = .error (.tooManySymbols 2 1) ∧
      ((f { depth := 2 }).take 'a').result = .error (.tooDeep 3 2) ∧ u.Overruns (some 'a') 2 ∧
      ((f { branches := 1 }).take 'a').result = .error (.tooManyBranches 2 1) ∧
      (u.take 'a').forest.size = 2 := by
  let a : Expr Char Nat := .oneOf (.of ['a'])
  have hnew : (Builder.new : Builder Char Nat).Reached := .new
  have hrun : ((Builder.new : Builder Char Nat).build
      (.seq [a, .alt [a, .seq [a, a]], a])).toOption.any (fun g => decide
        ((∀ c ∈ ([{ symbols := 1 }, { depth := 2 }, { branches := 1 }] : List Limits),
          ((Forest.new g c).takeAll ['a']).result = .ok ()) ∧
        (((Forest.new g { depth := 2 }).takeAll ['a']).forest.take 'a').result =
          .error (.tooDeep 3 2) ∧
        (((Forest.new g { branches := 1 }).takeAll ['a']).forest.take 'a').result =
          .error (.tooManyBranches 2 1))) = true := by
    decide +kernel
  obtain ⟨g, hg, hrun⟩ := hnew.exists_build hrun
  obtain ⟨hok, hdeep, hcrowd⟩ := of_decide_eq_true hrun
  have hnext := fun c hc => (limits_only_cut hg c (by decide) (hok c hc)).2.2.2.2.1 'a'
  refine ⟨g, hg, fun c hc => ⟨hok c hc, ?_⟩, ?_, hdeep, ?_, hcrowd, ?_⟩
  · exact (limits_only_cut hg c (by decide) (hok c hc)).2.1
  · rw [hnext _ (by simp), if_pos (by decide)]
  · have hcut := hnext { depth := 2 } (by simp)
    rw [hdeep, if_neg (by decide)] at hcut
    split at hcut
    next hoverruns => exact hoverruns
    · split at hcut
      all_goals cases hcut
  · have hcut := hnext { branches := 1 } (by simp)
    rw [hcrowd, if_neg (by decide)] at hcut
    show (((Forest.new g .unlimited).takeAll ['a']).forest.take 'a').forest.size = 2
    generalize (((Forest.new g .unlimited).takeAll ['a']).forest.take 'a').forest.size = size
      at hcut ⊢
    split at hcut
    · cases hcut
    · split at hcut
      · cases hcut
        rfl
      · cases hcut

end Forest

end Ramify
