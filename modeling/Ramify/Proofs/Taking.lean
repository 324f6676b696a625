import Ramify.Proofs.Trail

/-!
# What an operation leaves behind

`Forest.take` ends in one of five ways, and there is one lemma for each: the parse had
been stopped before, one of the three limits stops it, or it goes on with
`Forest.advanced`.  Closing and restarting have one way each.

A forest is `Reachable` if such operations lead to it from a parse that has not begun.
Every reachable forest has the grammar and the limits that the parse began with, its
branches fit the grammar, and they are apart.
-/

namespace Ramify

variable {σ τ : Type}

namespace Forest

/-- What closing a parse comes to, given what each complete derivation yields. -/
def verdict (consumed : Nat) : List (List τ) → Except Refusal (List τ)
  | [] => .error (.mismatch consumed)
  | [tokens] => .ok tokens
  | several => .error (.ambiguous several.length consumed)

/-- The forest that holds no branch for the given reason. -/
def halted (f : Forest σ τ) (fault : Option Fault) : Forest σ τ :=
  { f with branches := [], fault }

/-! ## Invariants -/

/-- A sound forest whose branches are apart. -/
structure Tidy (f : Forest σ τ) : Prop extends f.Sound where
  /-- The branches are apart. -/
  apart : f.branches.Pairwise Branch.Apart

theorem Tidy.new {g : Grammar σ τ} (hg : g.IsBuilt) (limits : Limits) : (new g limits).Tidy where
  built := hg
  fits b hb := by
    cases List.mem_singleton.mp hb
    exact Branch.start_fits g g.start
  apart := List.pairwise_singleton _ _

theorem Tidy.halted {f : Forest σ τ} (hf : f.Tidy) (fault : Option Fault) :
    (f.halted fault).Tidy where
  built := hf.built
  fits b hb := by cases hb
  apart := .nil

/-- A parse that no limit restrains or has stopped. -/
structure Free (f : Forest σ τ) : Prop extends f.Tidy where
  /-- Nothing is limited. -/
  unlimited : f.limits = .unlimited
  /-- Nothing has stopped the parse. -/
  running : f.fault = none

theorem Free.new {g : Grammar σ τ} (hg : g.IsBuilt) : (new g .unlimited).Free where
  toTidy := .new hg .unlimited
  unlimited := rfl
  running := rfl

variable [DecidableEq σ] {f : Forest σ τ} {symbol : σ}

/-! ## The ways in which taking a symbol ends -/

/-- The forest one symbol further, whatever the limits are. -/
def advanced (f : Forest σ τ) (symbol : σ) : Forest σ τ :=
  { f with
    branches := Branch.distinct
      ((f.unfold (some symbol)).rested.filterMap (f.grammar.consume symbol))
    consumed := f.consumed + 1 }

theorem take_of_fault {reason : Fault} (h : f.fault = some reason) :
    (f.take symbol).result = .error reason ∧ (f.take symbol).forest = f := by
  simp [Forest.take, h]

theorem take_of_full (h : f.fault = none) (hfull : f.limits.symbols ≤ f.consumed) :
    (f.take symbol).result = .error (.tooManySymbols (f.consumed + 1) f.limits.symbols) ∧
      (f.take symbol).forest =
        f.halted (some (.tooManySymbols (f.consumed + 1) f.limits.symbols)) := by
  simp [Forest.take, h, hfull, Forest.stop, Forest.halted]

theorem take_of_overrun (h : f.fault = none) (hroom : f.consumed < f.limits.symbols) {depth : Nat}
    (hdeep : (f.unfold (some symbol)).overrun = some depth) :
    (f.take symbol).result = .error (.tooDeep depth f.limits.depth) ∧
      (f.take symbol).forest = f.halted (some (.tooDeep depth f.limits.depth)) := by
  simp [Forest.take, h, Nat.not_le.mpr hroom, hdeep, Forest.stop, Forest.halted]

theorem take_of_crowded (h : f.fault = none) (hroom : f.consumed < f.limits.symbols)
    (hdepth : (f.unfold (some symbol)).overrun = none)
    (hcrowd : Limits.isExceeded f.limits.branches (f.advanced symbol).size = true) :
    (f.take symbol).result =
        .error (.tooManyBranches (f.advanced symbol).size f.limits.branches) ∧
      (f.take symbol).forest = (f.advanced symbol).halted
        (some (.tooManyBranches (f.advanced symbol).size f.limits.branches)) := by
  simp only [Forest.advanced, h] at hcrowd
  simp [Forest.take, h, Nat.not_le.mpr hroom, hdepth, hcrowd, Forest.stop, Forest.halted,
    Forest.advanced]

theorem take_of_room (h : f.fault = none) (hroom : f.consumed < f.limits.symbols)
    (hdepth : (f.unfold (some symbol)).overrun = none)
    (hcrowd : Limits.isExceeded f.limits.branches (f.advanced symbol).size = false) :
    (f.take symbol).result = .ok () ∧ (f.take symbol).forest = f.advanced symbol := by
  simp only [Forest.advanced, h] at hcrowd
  simp [Forest.take, h, Nat.not_le.mpr hroom, hdepth, hcrowd, Forest.advanced]

/-- A symbol finds the forest stopped and leaves it as it is, or is refused and halts it, or is
taken. -/
theorem take_cases (f : Forest σ τ) (symbol : σ) :
    (∃ reason, f.fault = some reason ∧ (f.take symbol).result = .error reason ∧
        (f.take symbol).forest = f) ∨
      (∃ reason, (f.take symbol).result = .error reason ∧
        ((f.take symbol).forest = f.halted (some reason) ∨
          (f.take symbol).forest = (f.advanced symbol).halted (some reason))) ∨
      f.fault = none ∧ f.consumed < f.limits.symbols ∧ (f.take symbol).result = .ok () ∧
        (f.take symbol).forest = f.advanced symbol := by
  cases hfault : f.fault with
  | some reason => exact .inl ⟨reason, rfl, take_of_fault hfault⟩
  | none =>
      by_cases hfull : f.limits.symbols ≤ f.consumed
      · have hfirst : (f.take symbol).result = _ ∧ (f.take symbol).forest = _ :=
          take_of_full hfault hfull
        exact .inr (.inl ⟨_, hfirst.1, .inl hfirst.2⟩)
      have hroom := Nat.not_le.mp hfull
      cases hdepth : (f.unfold (some symbol)).overrun with
      | some depth =>
          obtain ⟨hresult, hforest⟩ := take_of_overrun hfault hroom hdepth
          exact .inr (.inl ⟨_, hresult, .inl hforest⟩)
      | none =>
          cases hcrowd : Limits.isExceeded f.limits.branches (f.advanced symbol).size with
          | true =>
              obtain ⟨hresult, hforest⟩ := take_of_crowded hfault hroom hdepth hcrowd
              exact .inr (.inl ⟨_, hresult, .inr hforest⟩)
          | false => exact .inr (.inr ⟨rfl, hroom, take_of_room hfault hroom hdepth hcrowd⟩)

/-- A symbol leaves the forest as it is, or halts it, or is taken. -/
theorem take_forest (f : Forest σ τ) (symbol : σ) :
    (f.take symbol).forest = f ∨ (∃ fault, (f.take symbol).forest = f.halted fault) ∨
      (∃ fault, (f.take symbol).forest = (f.advanced symbol).halted fault) ∨
      (f.take symbol).forest = f.advanced symbol := by
  rcases take_cases f symbol with
    ⟨_, -, -, hsame⟩ | ⟨_, -, hhalted | hhalted⟩ | ⟨-, -, -, htaken⟩
  · exact .inl hsame
  · exact .inr (.inl ⟨_, hhalted⟩)
  · exact .inr (.inr (.inl ⟨_, hhalted⟩))
  · exact .inr (.inr (.inr htaken))

/-- A symbol that is taken was allowed, and leads to the next forest. -/
theorem take_eq_ok (h : (f.take symbol).result = .ok ()) :
    f.consumed < f.limits.symbols ∧ (f.take symbol).forest = f.advanced symbol := by
  rcases take_cases f symbol with
    ⟨_, -, hresult, -⟩ | ⟨_, hresult, -⟩ | ⟨-, hroom, -, hforest⟩
  · cases hresult.symm.trans h
  · cases hresult.symm.trans h
  · exact ⟨hroom, hforest⟩

/-- What has stopped a parse is what refuses the symbol before. -/
theorem take_of_stopped {reason : Fault} (h : (f.take symbol).forest.fault = some reason) :
    (f.take symbol).result = .error reason := by
  rcases take_cases f symbol with
    ⟨_, hfault, hresult, hforest⟩ | ⟨_, hresult, hforest | hforest⟩ | ⟨hfault, -, -, hforest⟩
  · rw [hforest, hfault] at h
    cases h
    exact hresult
  · rw [hforest] at h
    cases h
    exact hresult
  · rw [hforest] at h
    cases h
    exact hresult
  · rw [hforest] at h
    cases hfault.symm.trans h

/-- A symbol is refused as too deep if that has stopped the parse before, or a branch overruns. -/
theorem take_eq_tooDeep {depth limit : Nat}
    (h : (f.take symbol).result = .error (.tooDeep depth limit)) :
    f.fault = some (.tooDeep depth limit) ∨ (f.unfold (some symbol)).overrun ≠ none := by
  cases hfault : f.fault with
  | some reason =>
      cases (take_of_fault hfault).1.symm.trans h
      exact .inl rfl
  | none =>
      refine .inr fun hdepth => ?_
      by_cases hfull : f.limits.symbols ≤ f.consumed
      · cases (take_of_full hfault hfull).1.symm.trans h
      have hroom := Nat.not_le.mp hfull
      cases hcrowd : Limits.isExceeded f.limits.branches (f.advanced symbol).size with
      | true => cases (take_of_crowded hfault hroom hdepth hcrowd).1.symm.trans h
      | false => cases (take_of_room hfault hroom hdepth hcrowd).1.symm.trans h

/-! ## The ways in which closing ends -/

/-- The branches that match the whole input. -/
def finals (f : Forest σ τ) : List (Branch σ τ) :=
  Branch.distinct ((f.unfold none).rested.filter Branch.isDone)

theorem close_of_fault {reason : Fault} (h : f.fault = some reason) :
    f.close.result = .error (.aborted reason) := by
  simp [Forest.close, h]

theorem close_of_overrun (h : f.fault = none) {depth : Nat}
    (hdeep : (f.unfold none).overrun = some depth) :
    f.close.result = .error (.aborted (.tooDeep depth f.limits.depth)) := by
  simp [Forest.close, h, hdeep]

theorem close_of_room (h : f.fault = none) (hdepth : (f.unfold none).overrun = none) :
    f.close.result = verdict f.consumed (f.finals.map Branch.tokens) := by
  unfold Forest.close Forest.finals
  simp only [h, hdepth]
  rcases Branch.distinct ((f.unfold none).rested.filter Branch.isDone) with _ | ⟨b, _ | ⟨b', rest⟩⟩
  · rfl
  · rfl
  · simp [verdict]

theorem close_forest (f : Forest σ τ) : f.close.forest = f.halted none := by
  unfold Forest.close
  cases f.fault with
  | some reason => rfl
  | none =>
      dsimp only
      split
      · rfl
      · split
        · rfl
        · rfl
        · rfl

/-! ## Parses without branches -/

/-- Nothing happens while no branch unfolds. -/
theorem unfold_of_isHopeless (h : f.isHopeless = true) (next : Option σ) : f.unfold next = {} := by
  rw [Forest.unfold, List.isEmpty_iff.mp h]
  rfl

theorem advanced_isHopeless (h : f.isHopeless = true) (symbol : σ) :
    (f.advanced symbol).isHopeless = true := by
  rw [Forest.isHopeless, Forest.advanced, unfold_of_isHopeless h]
  rfl

theorem close_of_isHopeless (hfault : f.fault = none) (h : f.isHopeless = true) :
    f.close.result = .error (.mismatch f.consumed) := by
  have hunfold := unfold_of_isHopeless h none
  rw [close_of_room hfault (by rw [hunfold]), Forest.finals, hunfold]
  rfl

/-! ## What is kept -/

/-- In a tidy forest no branch is dropped for being the same as another. -/
theorem Tidy.advanced_branches (hf : f.Tidy) (symbol : σ) :
    (f.advanced symbol).branches =
      (f.unfold (some symbol)).rested.filterMap (f.grammar.consume symbol) :=
  Branch.distinct_eq (f.grammar.consume_apart symbol (hf.rested_apart hf.apart))

theorem Tidy.finals_eq (hf : f.Tidy) : f.finals = (f.unfold none).rested.filter Branch.isDone :=
  Branch.distinct_eq ((hf.rested_apart hf.apart).filter _)

theorem Tidy.finals_apart (hf : f.Tidy) : f.finals.Pairwise Branch.Apart := by
  rw [hf.finals_eq]
  exact (hf.rested_apart hf.apart).filter _

theorem Tidy.advanced (hf : f.Tidy) (symbol : σ) : (f.advanced symbol).Tidy where
  built := hf.built
  fits b' hb' := by
    rw [hf.advanced_branches] at hb'
    obtain ⟨r, hr, htake⟩ := List.mem_filterMap.mp hb'
    obtain ⟨b, hb, hvisit, -, -⟩ := hf.visits_of_mem_rested hr
    have hg : (f.cursor (some symbol)).grammar.IsBuilt := hf.built
    exact (Grammar.consume_eq_some_iff.mp htake).fits (hvisit.fits hg (hf.fits b hb))
  apart := by
    rw [hf.advanced_branches]
    exact f.grammar.consume_apart symbol (hf.rested_apart hf.apart)

theorem Tidy.take (hf : f.Tidy) (symbol : σ) : (f.take symbol).forest.Tidy := by
  rcases take_forest f symbol with h | ⟨_, h⟩ | ⟨_, h⟩ | h
  · rwa [h]
  · rw [h]
    exact hf.halted _
  · rw [h]
    exact (hf.advanced symbol).halted _
  · rw [h]
    exact hf.advanced symbol

/-! ## Parses without limits -/

theorem Free.not_overruns (hf : f.Free) (next : Option σ) : ¬ f.Overruns next f.limits.depth := by
  rintro ⟨b, -, b', -, hdeep⟩
  rw [hf.unlimited, Limits.unlimited, Limits.isExceeded_maxCount] at hdeep
  cases hdeep

theorem Free.overrun_eq_none (hf : f.Free) (next : Option σ) : (f.unfold next).overrun = none :=
  hf.overrun_eq_none_iff.mpr (hf.not_overruns next)

/-- Without limits a symbol is taken. -/
theorem Free.take (hf : f.Free) (hroom : f.consumed < maxCount) (symbol : σ) :
    (f.take symbol).result = .ok () ∧ (f.take symbol).forest = f.advanced symbol := by
  refine take_of_room hf.running ?_ (hf.overrun_eq_none _) ?_
  · rw [hf.unlimited]
    exact hroom
  · rw [hf.unlimited]
    exact Limits.isExceeded_maxCount _

theorem Free.advanced (hf : f.Free) (symbol : σ) : (f.advanced symbol).Free where
  toTidy := hf.toTidy.advanced symbol
  unlimited := hf.unlimited
  running := hf.running

theorem takeAll_cons {symbols : List σ} (h : (f.take symbol).result = .ok ()) :
    (f.takeAll (symbol :: symbols)).result = ((f.take symbol).forest.takeAll symbols).result ∧
      (f.takeAll (symbol :: symbols)).forest =
        ((f.take symbol).forest.takeAll symbols).forest := by
  rw [Forest.takeAll, h]
  exact ⟨rfl, rfl⟩

theorem takeAll_cons_of_error {symbol : σ} {reason : Fault} (symbols : List σ)
    (h : (f.take symbol).result = .error reason) :
    f.takeAll (symbol :: symbols) = f.take symbol := by
  rw [Forest.takeAll, h]

/-- No symbol is taken where there are as many as allowed. -/
theorem takeAll_cons_of_full {symbols : List σ} (h : f.fault = none)
    (hfull : f.limits.symbols ≤ f.consumed) :
    (f.takeAll (symbol :: symbols)).result =
      .error (.tooManySymbols (f.consumed + 1) f.limits.symbols) := by
  have hstop : (f.take symbol).result = _ := (take_of_full h hfull).1
  rw [Forest.takeAll, hstop]
  exact hstop

theorem takeAll_cons_eq_ok {symbols : List σ}
    (h : (f.takeAll (symbol :: symbols)).result = .ok ()) :
    (f.take symbol).result = .ok () ∧ ((f.take symbol).forest.takeAll symbols).result = .ok () := by
  rw [Forest.takeAll] at h
  cases ht : (f.take symbol).result with
  | error reason =>
      rw [ht] at h
      exact absurd (ht.symm.trans h) (by simp)
  | ok =>
      rw [ht] at h
      exact ⟨rfl, h⟩

theorem takeAll_append {symbols more : List σ} (h : (f.takeAll symbols).result = .ok ()) :
    (f.takeAll (symbols ++ more)).result = ((f.takeAll symbols).forest.takeAll more).result ∧
      (f.takeAll (symbols ++ more)).forest = ((f.takeAll symbols).forest.takeAll more).forest := by
  induction symbols generalizing f with
  | nil => exact ⟨rfl, rfl⟩
  | cons symbol symbols ih =>
      obtain ⟨hfirst, hrest⟩ := takeAll_cons_eq_ok h
      rw [List.cons_append, (takeAll_cons hfirst).1, (takeAll_cons hfirst).2,
        (takeAll_cons hfirst).2]
      exact ih hrest

/-- No more symbols are taken than allowed. -/
theorem consumed_add_length_le {symbols : List σ} (hle : f.consumed ≤ f.limits.symbols)
    (h : (f.takeAll symbols).result = .ok ()) : f.consumed + symbols.length ≤ f.limits.symbols := by
  induction symbols generalizing f with
  | nil => exact hle
  | cons symbol symbols ih =>
      obtain ⟨hfirst, hrest⟩ := takeAll_cons_eq_ok h
      obtain ⟨hroom, hforest⟩ := take_eq_ok hfirst
      rw [hforest] at hrest
      have hnext : f.consumed + 1 + symbols.length ≤ f.limits.symbols :=
        ih (f := f.advanced symbol) hroom hrest
      rw [List.length_cons]
      omega

theorem length_le_of_takeAll {g : Grammar σ τ} {limits : Limits} {symbols : List σ}
    (h : ((Forest.new g limits).takeAll symbols).result = .ok ()) :
    symbols.length ≤ limits.symbols := by
  have hle := consumed_add_length_le (Nat.zero_le _) h
  rwa [show (Forest.new g limits).consumed = 0 from rfl, Nat.zero_add] at hle

/-- Without limits symbols that are taken lead to a parse without limits, and to one without
branches if there was none. -/
theorem Free.takeAll_of_ok {symbols : List σ} (hf : f.Free)
    (h : (f.takeAll symbols).result = .ok ()) :
    (f.takeAll symbols).forest.Free ∧
      (f.takeAll symbols).forest.consumed = f.consumed + symbols.length ∧
      (f.isHopeless = true → (f.takeAll symbols).forest.isHopeless = true) := by
  induction symbols generalizing f with
  | nil => exact ⟨hf, rfl, id⟩
  | cons symbol symbols ih =>
      obtain ⟨hfirst, hrest⟩ := takeAll_cons_eq_ok h
      rw [(take_eq_ok hfirst).2] at hrest
      obtain ⟨hfree, hcount, hhopeless⟩ := ih (hf.advanced symbol) hrest
      rw [(takeAll_cons hfirst).2, (take_eq_ok hfirst).2]
      refine ⟨hfree, ?_, fun h => hhopeless (advanced_isHopeless h symbol)⟩
      have hadvanced : (f.advanced symbol).consumed = f.consumed + 1 := rfl
      rw [hcount, hadvanced, List.length_cons]
      omega

/-- Without limits symbols are taken that can be counted. -/
theorem Free.takeAll_of_le : ∀ {symbols : List σ} {f : Forest σ τ}, f.Free →
    f.consumed + symbols.length ≤ maxCount → (f.takeAll symbols).result = .ok ()
  | [], _, _, _ => rfl
  | symbol :: symbols, f, hf, hle => by
      rw [List.length_cons] at hle
      obtain ⟨hok, hforest⟩ := hf.take (by omega) symbol
      have hcount : (f.advanced symbol).consumed = f.consumed + 1 := rfl
      rw [(takeAll_cons hok).1, hforest]
      exact takeAll_of_le (hf.advanced symbol) (by omega)

/-- A parse without branches comes to a mismatch, whatever follows. -/
theorem Free.close_takeAll_of_isHopeless {symbols : List σ} (hf : f.Free)
    (hok : (f.takeAll symbols).result = .ok ()) (h : f.isHopeless = true) :
    (f.takeAll symbols).forest.close.result =
      .error (.mismatch (f.consumed + symbols.length)) := by
  obtain ⟨hfree, hcount, hhopeless⟩ := hf.takeAll_of_ok hok
  rw [close_of_isHopeless hfree.running (hhopeless h), hcount]

/-- Without limits symbols are taken up to the largest count. -/
theorem Free.takeAll_of_gt : ∀ {symbols : List σ} {f : Forest σ τ}, f.Free →
    f.consumed ≤ maxCount → maxCount < f.consumed + symbols.length →
    (f.takeAll symbols).result = .error (.tooManySymbols (maxCount + 1) maxCount)
  | [], f, _, hle, hgt => absurd hgt (Nat.not_lt.mpr hle)
  | symbol :: symbols, f, hf, hle, hgt => by
      by_cases hroom : f.consumed < maxCount
      · obtain ⟨hok, hforest⟩ := hf.take hroom symbol
        have hcount : (f.advanced symbol).consumed = f.consumed + 1 := rfl
        rw [List.length_cons] at hgt
        rw [(takeAll_cons hok).1, hforest]
        exact takeAll_of_gt (hf.advanced symbol) (by omega) (by omega)
      · have hfull : f.consumed = maxCount := by omega
        have hlimit : f.limits.symbols = maxCount := by rw [hf.unlimited]; rfl
        rw [takeAll_cons_of_full hf.running (by omega), hlimit, hfull]

/-! ## Reachable forests -/

/-- The forests that operations lead to from a parse that has not begun. -/
inductive Reachable (g : Grammar σ τ) (limits : Limits) : Forest σ τ → Prop where
  /-- Nothing has happened. -/
  | new : Reachable g limits (new g limits)
  /-- A symbol was offered. -/
  | take {f : Forest σ τ} (h : Reachable g limits f) (symbol : σ) :
      Reachable g limits (f.take symbol).forest
  /-- The parse was closed. -/
  | close {f : Forest σ τ} (h : Reachable g limits f) : Reachable g limits f.close.forest
  /-- The parse began anew. -/
  | restart {f : Forest σ τ} (h : Reachable g limits f) : Reachable g limits f.restart

theorem take_grammar (f : Forest σ τ) (symbol : σ) :
    (f.take symbol).forest.grammar = f.grammar ∧ (f.take symbol).forest.limits = f.limits := by
  rcases take_forest f symbol with h | ⟨_, h⟩ | ⟨_, h⟩ | h
  all_goals
    rw [h]
    exact ⟨rfl, rfl⟩

theorem takeAll_grammar (f : Forest σ τ) (symbols : List σ) :
    (f.takeAll symbols).forest.grammar = f.grammar := by
  induction symbols generalizing f with
  | nil => rfl
  | cons symbol symbols ih =>
      rw [Forest.takeAll]
      cases (f.take symbol).result with
      | error reason => exact (take_grammar f symbol).1
      | ok => exact (ih _).trans (take_grammar f symbol).1

theorem Reachable.grammar_eq {g : Grammar σ τ} {limits : Limits} (h : Reachable g limits f) :
    f.grammar = g ∧ f.limits = limits := by
  induction h with
  | new => exact ⟨rfl, rfl⟩
  | @take f h symbol ih =>
      obtain ⟨hgrammar, hlimits⟩ := take_grammar f symbol
      exact ⟨hgrammar.trans ih.1, hlimits.trans ih.2⟩
  | @close f h ih =>
      rw [close_forest]
      exact ih
  | restart h ih => exact ih

/-- Symbols lead from one reachable forest to another. -/
theorem Reachable.takeAll {g : Grammar σ τ} {limits : Limits} (h : Reachable g limits f)
    (symbols : List σ) : Reachable g limits (f.takeAll symbols).forest := by
  induction symbols generalizing f with
  | nil => exact h
  | cons symbol symbols ih =>
      rw [Forest.takeAll]
      cases (f.take symbol).result with
      | error reason => exact h.take symbol
      | ok _ => exact ih (h.take symbol)

theorem Reachable.tidy {g : Grammar σ τ} {limits : Limits} (h : Reachable g limits f)
    (hg : g.IsBuilt) : f.Tidy := by
  induction h with
  | new => exact .new hg limits
  | take h symbol ih => exact ih.take symbol
  | @close f h ih =>
      rw [close_forest]
      exact ih.halted none
  | @restart f h ih => exact .new ih.built f.limits

end Forest

end Ramify
