import Ramify.Proofs.Taking

/-!
# The life of a parse

Whatever is done to a parse, it is in one of three conditions.  It goes on; or a limit has
stopped it, and then it holds no branch and stays as it is, until it is closed or begun anew,
while every symbol is refused for the same reason; or it has been closed, and then it holds
no branch and will never hold one, until it is begun anew (`Forest.Spent`).

So a symbol that is refused is refused for good, only the first closing can give tokens or
find several derivations, and beginning anew forgets everything.
-/

namespace Ramify

variable {σ τ : Type}

/-- What can be done to a parse. -/
inductive Operation (σ : Type) where
  /-- Offer a symbol. -/
  | take (symbol : σ)
  /-- Offer symbols, up to the first that is refused. -/
  | takeAll (symbols : List σ)
  /-- Close the parse. -/
  | close
  /-- Begin anew. -/
  | restart

/-- Whether an operation only offers symbols. -/
def Operation.isOffer : Operation σ → Bool
  | .take _ | .takeAll _ => true
  | .close | .restart => false

namespace Forest

variable [DecidableEq σ] {f : Forest σ τ} {g : Grammar σ τ} {limits : Limits}

/-- The forest after an operation. -/
def perform (f : Forest σ τ) : Operation σ → Forest σ τ
  | .take symbol => (f.take symbol).forest
  | .takeAll symbols => (f.takeAll symbols).forest
  | .close => f.close.forest
  | .restart => f.restart

/-- The forest after operations, one after the other. -/
def performAll (f : Forest σ τ) (operations : List (Operation σ)) : Forest σ τ :=
  operations.foldl perform f

/-! ## From one operation to many -/

/-- What a symbol keeps, symbols keep. -/
theorem takeAll_keeps {P : Forest σ τ → Prop} (hstep : ∀ f symbol, P f → P (f.take symbol).forest)
    (symbols : List σ) (h : P f) : P (f.takeAll symbols).forest := by
  induction symbols generalizing f with
  | nil => exact h
  | cons symbol symbols ih =>
      have hfirst := hstep f symbol h
      rw [Forest.takeAll]
      cases (f.take symbol).result with
      | error reason => exact hfirst
      | ok _ => exact ih hfirst

/-- What each of some operations keeps, all of them keep. -/
theorem performAll_keeps {P : Forest σ τ → Prop} {operations : List (Operation σ)}
    (hstep : ∀ operation ∈ operations, ∀ f, P f → P (f.perform operation)) (h : P f) :
    P (f.performAll operations) := by
  induction operations generalizing f with
  | nil => exact h
  | cons operation operations ih =>
      obtain ⟨hfirst, hrest⟩ := List.forall_mem_cons.mp hstep
      exact ih hrest (hfirst f h)

/-! ## Every parse -/

/-- A parse over a grammar under limits, which holds no branch if a limit has stopped it. -/
structure Lives (g : Grammar σ τ) (limits : Limits) (f : Forest σ τ) : Prop where
  /-- The grammar is the one that the parse began with. -/
  grammar : f.grammar = g
  /-- So are the limits. -/
  limits : f.limits = limits
  /-- A parse that was stopped holds no branch. -/
  stopped : ∀ reason, f.fault = some reason → f.branches = []

omit [DecidableEq σ] in
theorem Lives.new (g : Grammar σ τ) (limits : Limits) : Lives g limits (Forest.new g limits) where
  grammar := rfl
  limits := rfl
  stopped reason h := by cases h

omit [DecidableEq σ] in
theorem Lives.halted (h : Lives g limits f) (fault : Option Fault) :
    Lives g limits (f.halted fault) where
  grammar := h.grammar
  limits := h.limits
  stopped _ _ := rfl

theorem Lives.take (h : Lives g limits f) (symbol : σ) :
    Lives g limits (f.take symbol).forest := by
  rcases take_cases f symbol with
    ⟨_, -, -, hforest⟩ | ⟨_, -, hforest | hforest⟩ | ⟨hfault, -, -, hforest⟩
  · rwa [hforest]
  · rw [hforest]
    exact h.halted _
  · rw [hforest]
    exact ⟨h.grammar, h.limits, fun _ _ => rfl⟩
  · rw [hforest]
    exact ⟨h.grammar, h.limits, fun reason hreason => by cases hfault.symm.trans hreason⟩

theorem Lives.perform (h : Lives g limits f) (operation : Operation σ) :
    Lives g limits (f.perform operation) := by
  cases operation with
  | take symbol => exact h.take symbol
  | takeAll symbols =>
      exact takeAll_keeps (P := Lives g limits) (fun _ symbol hf => hf.take symbol) symbols h
  | close =>
      rw [Forest.perform, close_forest]
      exact h.halted none
  | restart =>
      rw [Forest.perform, Forest.restart, h.grammar, h.limits]
      exact .new g limits

/-! ## Parses that were stopped -/

/-- A symbol that is refused stops the parse, or finds it stopped for the same reason. -/
theorem Lives.take_eq_error (h : Lives g limits f) {symbol : σ} {reason : Fault}
    (hresult : (f.take symbol).result = .error reason) :
    (f.take symbol).forest.branches = [] ∧ (f.take symbol).forest.fault = some reason := by
  rcases take_cases f symbol with
    ⟨_, hfault, hfirst, hforest⟩ | ⟨_, hfirst, hforest | hforest⟩ | ⟨-, -, hfirst, -⟩
  all_goals cases hfirst.symm.trans hresult
  · rw [hforest]
    exact ⟨h.stopped _ hfault, hfault⟩
  · rw [hforest]
    exact ⟨rfl, rfl⟩
  · rw [hforest]
    exact ⟨rfl, rfl⟩

/-- Symbols one of which is refused stop the parse. -/
theorem Lives.takeAll_eq_error {symbols : List σ} {reason : Fault} (h : Lives g limits f)
    (hresult : (f.takeAll symbols).result = .error reason) :
    (f.takeAll symbols).forest.branches = [] ∧ (f.takeAll symbols).forest.fault = some reason := by
  induction symbols generalizing f with
  | nil => cases hresult
  | cons symbol symbols ih =>
      cases htake : (f.take symbol).result with
      | error earlier =>
          rw [Forest.takeAll, htake] at hresult ⊢
          exact h.take_eq_error hresult
      | ok _ =>
          rw [(takeAll_cons htake).1] at hresult
          rw [(takeAll_cons htake).2]
          exact ih (h.take symbol) hresult

/-- Offering symbols to a parse that was stopped changes nothing. -/
theorem performAll_of_fault {reason : Fault} (h : f.fault = some reason)
    {offers : List (Operation σ)} (hoffers : ∀ operation ∈ offers, operation.isOffer = true) :
    f.performAll offers = f := by
  refine performAll_keeps (P := (· = f)) (fun operation hmem f' hf' => ?_) rfl
  have hoffer := hoffers operation hmem
  subst hf'
  cases operation with
  | take symbol => exact (take_of_fault h).2
  | takeAll symbols =>
      refine takeAll_keeps (P := (· = f')) (fun f symbol hf => ?_) symbols rfl
      subst hf
      exact (take_of_fault h).2
  | close | restart => cases hoffer

/-! ## Parses that were closed -/

/-- A parse that holds no branch, and that no limit but the number of symbols has stopped. -/
structure Spent (f : Forest σ τ) : Prop where
  /-- No branch is left. -/
  hopeless : f.isHopeless = true
  /-- If a limit has stopped the parse, one symbol more was offered than allowed. -/
  fault : f.fault = none ∨ f.fault = some (.tooManySymbols (f.consumed + 1) f.limits.symbols)

theorem close_spent (f : Forest σ τ) : f.close.forest.Spent := by
  rw [close_forest]
  exact ⟨rfl, .inl rfl⟩

theorem Spent.take (h : f.Spent) (symbol : σ) : (f.take symbol).forest.Spent := by
  rcases h.fault with hfault | hfault
  · by_cases hfull : f.limits.symbols ≤ f.consumed
    · rw [(take_of_full hfault hfull).2]
      exact ⟨rfl, .inr rfl⟩
    · -- Nothing unfolds, so no branch is too deep and none comes of the symbol.
      have hunfold := unfold_of_isHopeless h.hopeless (some symbol)
      have hadvanced := advanced_isHopeless h.hopeless symbol
      have hcrowd : Limits.isExceeded f.limits.branches (f.advanced symbol).size = false := by
        rw [Forest.size, List.isEmpty_iff.mp hadvanced]
        rfl
      have hforest := (take_of_room hfault (Nat.not_le.mp hfull) (by rw [hunfold]) hcrowd).2
      rw [hforest]
      exact ⟨hadvanced, .inl hfault⟩
  · rwa [(take_of_fault hfault).2]

theorem Spent.perform (h : f.Spent) {operation : Operation σ} (hne : operation ≠ .restart) :
    (f.perform operation).Spent := by
  cases operation with
  | take symbol => exact h.take symbol
  | takeAll symbols =>
      exact takeAll_keeps (P := Spent) (fun _ symbol hf => hf.take symbol) symbols h
  | close => exact close_spent f
  | restart => exact absurd rfl hne

theorem Spent.close_result (h : f.Spent) :
    f.close.result = .error (.mismatch f.consumed) ∨
      f.close.result = .error (.aborted (.tooManySymbols (f.consumed + 1) f.limits.symbols)) := by
  rcases h.fault with hfault | hfault
  · exact .inl (close_of_isHopeless hfault h.hopeless)
  · exact .inr (close_of_fault hfault)

/-! ## One symbol after the other -/

/-- Taking symbols is offering one after the other, up to the first that is refused. -/
theorem takeAll_cases (f : Forest σ τ) (symbols : List σ) :
    (∀ reply ∈ (f.takeEach symbols).result, reply.isOk = true) ∧
        f.takeAll symbols = (f.takeEach symbols).withResult (.ok ()) ∨
      ∃ before symbol after reason, symbols = before ++ symbol :: after ∧
        (∀ reply ∈ (f.takeEach before).result, reply.isOk = true) ∧
        ((f.takeEach before).forest.take symbol).result = .error reason ∧
        f.takeAll symbols =
          (f.takeEach before).after ((f.takeEach before).forest.take symbol) := by
  induction symbols generalizing f with
  | nil => exact .inl ⟨by simp [Forest.takeEach], rfl⟩
  | cons symbol symbols ih =>
      cases hresult : (f.take symbol).result with
      | error reason =>
          refine .inr ⟨[], symbol, symbols, reason, rfl, by simp [Forest.takeEach], hresult, ?_⟩
          simp only [Forest.takeAll, hresult]
          rfl
      | ok _ =>
          rcases ih (f.take symbol).forest with ⟨hok, htake⟩ |
            ⟨before, bad, after, reason, rfl, hok, hbad, htake⟩
          · refine .inl ⟨?_, ?_⟩
            · simpa [Forest.takeEach, hresult, Except.map, Except.isOk, Except.toBool,
                Outcome.after] using hok
            · simp [Forest.takeAll, Forest.takeEach, hresult, htake, Outcome.after,
                Outcome.withResult]
          · refine .inr ⟨symbol :: before, bad, after, reason, rfl, ?_, hbad, ?_⟩
            · simpa [Forest.takeEach, hresult, Except.map, Except.isOk, Except.toBool,
                Outcome.after] using hok
            · simp [Forest.takeAll, Forest.takeEach, hresult, htake, Outcome.after]

/-! ## Any number of operations -/

/-- Whatever was done to a parse before:

* a symbol that is refused leaves no branch and the reason; until the parse is closed or begun
  anew, every symbol is refused for that reason and changes nothing, and closing tells it;
* taking symbols is offering one after the other, up to the first that is refused;
* closing leaves no branch, and until the parse is begun anew there is none, and closing again
  finds a mismatch or one symbol more than allowed;
* beginning anew gives the parse that it once was. -/
theorem lifecycle (g : Grammar σ τ) (limits : Limits) (operations : List (Operation σ)) :
    let f := (Forest.new g limits).performAll operations
    (∀ symbol reason, (f.take symbol).result = .error reason →
      let stopped := (f.take symbol).forest
      stopped.size = 0 ∧ stopped.fault = some reason ∧
      ∀ offers : List (Operation σ), (∀ operation ∈ offers, operation.isOffer = true) →
        stopped.performAll offers = stopped ∧
        (∀ another, (stopped.take another).result = .error reason) ∧
        (stopped.performAll offers).close.result = .error (.aborted reason)) ∧
    (∀ symbols,
      (∀ reply ∈ (f.takeEach symbols).result, reply.isOk = true) ∧
          f.takeAll symbols = (f.takeEach symbols).withResult (.ok ()) ∨
        ∃ before symbol after reason, symbols = before ++ symbol :: after ∧
          (∀ reply ∈ (f.takeEach before).result, reply.isOk = true) ∧
          ((f.takeEach before).forest.take symbol).result = .error reason ∧
          f.takeAll symbols =
            (f.takeEach before).after ((f.takeEach before).forest.take symbol)) ∧
    (∀ more : List (Operation σ), .restart ∉ more →
      let later := f.close.forest.performAll more
      later.size = 0 ∧
        (later.close.result = .error (.mismatch later.consumed) ∨
          later.close.result =
            .error (.aborted (.tooManySymbols (later.consumed + 1) limits.symbols)))) ∧
    f.restart = Forest.new g limits := by
  intro f
  have hf : Lives g limits f := performAll_keeps (P := Lives g limits)
    (fun operation _ _ h => h.perform operation) (.new g limits)
  refine ⟨fun symbol reason hresult => ?_, takeAll_cases f, fun more hmore => ?_, ?_⟩
  · obtain ⟨hbranches, hfault⟩ := hf.take_eq_error hresult
    refine ⟨congrArg List.length hbranches, hfault, fun offers hoffers => ?_⟩
    have hsame := performAll_of_fault hfault hoffers
    refine ⟨hsame, fun another => (take_of_fault hfault).1, ?_⟩
    rw [hsame]
    exact close_of_fault hfault
  · have hspent : (f.close.forest.performAll more).Spent := by
      refine performAll_keeps (fun operation hmem _ h => ?_) (close_spent f)
      exact h.perform fun heq => hmore (heq ▸ hmem)
    have hlimits : (f.close.forest.performAll more).limits = limits :=
      (performAll_keeps (P := Lives g limits) (fun operation _ _ h => h.perform operation)
        (hf.perform .close)).limits
    intro later
    refine ⟨congrArg List.length (List.isEmpty_iff.mp hspent.hopeless), ?_⟩
    rw [← hlimits]
    exact hspent.close_result
  · rw [Forest.restart, hf.grammar, hf.limits]

/-- A loop that may take one symbol refuses the second, whatever went before, and goes on to
refuse what follows until it is closed. -/
theorem lifecycle_second_symbol :
    ∃ g : Grammar Char Nat, g.IsBuilt ∧
      let f := (Forest.new g { symbols := 1 }).performAll [.take 'b', .restart, .takeAll ['a']]
      (f.take 'a').result = .error (.tooManySymbols 2 1) ∧
      ((f.take 'a').forest.performAll [.takeAll ['a', 'b'], .take 'c']).close.result =
        .error (.aborted (.tooManySymbols 2 1)) ∧
      (f.close.forest.performAll [.close, .take 'a']).size = 0 := by
  have hnew : (Builder.new : Builder Char Nat).Reached := .new
  have hrun : ((Builder.new : Builder Char Nat).build (.star (.oneOf (.of ['a'])))).toOption.any
      (fun g => decide ((((Forest.new g { symbols := 1 }).performAll
        [.take 'b', .restart, .takeAll ['a']]).take 'a').result =
          .error (.tooManySymbols 2 1))) = true := by
    decide +kernel
  obtain ⟨g, hg, hrun⟩ := hnew.exists_build hrun
  have hrefused := of_decide_eq_true hrun
  obtain ⟨hstopped, -, hclosed, -⟩ :=
    lifecycle g { symbols := 1 } [.take 'b', .restart, .takeAll ['a']]
  obtain ⟨-, -, hoffers⟩ := hstopped 'a' _ hrefused
  refine ⟨g, hg, hrefused, (hoffers _ ?_).2.2, (hclosed _ ?_).1⟩
  · simp [Operation.isOffer]
  · simp

end Forest

end Ramify
