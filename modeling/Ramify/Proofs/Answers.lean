import Ramify.Proofs.Lockstep

/-!
# Forests in step answer alike

A forest is used by requests: a symbol is offered, the parse is closed, or it begins anew.
`Forest.sights` lists what is seen of it from outside, after each of a number of requests.

Two forests are in step if their grammars match, their branches match in some order, and all
else is the same.  A request leads them to forests that are in step again and gets the same
reply from both, so nothing that is seen from outside tells them apart
(`Forest.InStep.sights_eq`).
-/

namespace Ramify

variable {σ τ : Type}

/-! ## Requests -/

/-- What a forest can be asked to do. -/
inductive Request (σ : Type) where
  /-- To take a symbol. -/
  | take (symbol : σ)
  /-- To close the parse. -/
  | close
  /-- To begin anew. -/
  | restart

/-- What a request comes to. -/
inductive Reply (τ : Type) where
  /-- A symbol was taken or refused. -/
  | taken (result : Except Fault Unit)
  /-- The parse was closed. -/
  | closed (result : Except Refusal (List τ))
  /-- The parse began anew. -/
  | restarted

/-- What is seen of a forest after a request. -/
structure Sight (τ : Type) where
  /-- The reply to the request. -/
  reply : Reply τ
  /-- The number of live branches. -/
  size : Nat
  /-- The number of symbols taken. -/
  consumed : Nat
  /-- Whether no branch is left. -/
  isHopeless : Bool

namespace Forest

section Sights

variable [DecidableEq σ]

/-- The forest after a request, and the reply. -/
def serve (f : Forest σ τ) : Request σ → Forest σ τ × Reply τ
  | .take symbol => ((f.take symbol).forest, .taken (f.take symbol).result)
  | .close => (f.close.forest, .closed f.close.result)
  | .restart => (f.restart, .restarted)

/-- What is seen of a forest after each of a number of requests. -/
def sights (f : Forest σ τ) : List (Request σ) → List (Sight τ)
  | [] => []
  | request :: requests =>
    let (next, reply) := f.serve request
    ⟨reply, next.size, next.consumed, next.isHopeless⟩ :: next.sights requests

end Sights

/-- The verdict does not depend on the order of the derivations. -/
theorem verdict_perm {consumed : Nat} {yields yields' : List (List τ)} (h : yields.Perm yields') :
    verdict consumed yields = verdict consumed yields' := by
  have hlength := h.length_eq
  match yields, yields' with
  | [], [] => rfl
  | [tokens], [tokens'] =>
      cases List.singleton_perm_singleton.mp h
      rfl
  | _ :: _ :: _, _ :: _ :: _ => simp only [verdict, hlength]
  | [], _ :: _ | _ :: _, [] | [_], _ :: _ :: _ | _ :: _ :: _, [_] => simp at hlength

/-! ## Depth -/

/-- A tidy forest none of whose branches is too deep. -/
structure Shallow (f : Forest σ τ) : Prop extends f.Tidy where
  /-- No branch is too deep. -/
  depth : ∀ b ∈ f.branches, Limits.isExceeded f.limits.depth b.depth = false

theorem Shallow.new {g : Grammar σ τ} (hg : g.IsBuilt) (limits : Limits) :
    (new g limits).Shallow where
  toTidy := .new hg limits
  depth b hb := by
    cases List.mem_singleton.mp hb
    rw [← Bool.not_eq_true, Limits.isExceeded_iff]
    exact fun h => Nat.not_lt_zero _ h.1

theorem Shallow.halted {f : Forest σ τ} (hf : f.Shallow) (fault : Option Fault) :
    (f.halted fault).Shallow where
  toTidy := hf.toTidy.halted fault
  depth b hb := by cases hb

/-- Taking a symbol makes no branch deeper than it was at rest. -/
theorem Shallow.advanced [DecidableEq σ] {f : Forest σ τ} (hf : f.Shallow) (symbol : σ) :
    (f.advanced symbol).Shallow where
  toTidy := hf.toTidy.advanced symbol
  depth b hb := by
    rw [hf.advanced_branches] at hb
    obtain ⟨r, hr, htake⟩ := List.mem_filterMap.mp hb
    obtain ⟨-, -, -, -, hdepth⟩ := hf.visits_of_mem_rested hr
    exact Limits.isExceeded_of_le (Grammar.consume_eq_some_iff.mp htake).depth_le hdepth

/-! ## Forests in step -/

/-- Two forests over matching grammars hold branches that match in some order, and agree in all
else. -/
structure InStep (M : NodeId → NodeId → Prop) (f f' : Forest σ τ) : Prop where
  /-- The grammars match. -/
  grammar : f.grammar.Matching f'.grammar M
  /-- The same limits are in force. -/
  limits : f.limits = f'.limits
  /-- As many symbols were taken. -/
  consumed : f.consumed = f'.consumed
  /-- The same limit stopped them, if one did. -/
  fault : f.fault = f'.fault
  /-- The branches match in some order. -/
  branches : Multiset.Rel (Branch.Matches M) (f.branches : Multiset (Branch σ τ))
    (f'.branches : Multiset (Branch σ τ))
  /-- The first forest is tidy, and no branch of it too deep. -/
  shallow : f.Shallow
  /-- So is the second. -/
  shallow' : f'.Shallow

namespace InStep

variable {M : NodeId → NodeId → Prop} {f f' : Forest σ τ}

theorem new {g g' : Grammar σ τ} (h : g.Matching g' M) (hg : g.IsBuilt) (hg' : g'.IsBuilt)
    (limits : Limits) : InStep M (Forest.new g limits) (Forest.new g' limits) where
  grammar := h
  limits := rfl
  consumed := rfl
  fault := rfl
  branches := .cons (.start h.start) .zero
  shallow := .new hg limits
  shallow' := .new hg' limits

theorem halted (h : InStep M f f') (fault : Option Fault) :
    InStep M (f.halted fault) (f'.halted fault) where
  grammar := h.grammar
  limits := h.limits
  consumed := h.consumed
  fault := rfl
  branches := .zero
  shallow := h.shallow.halted fault
  shallow' := h.shallow'.halted fault

theorem size_eq (h : InStep M f f') : f.size = f'.size :=
  Multiset.card_eq_card_of_rel h.branches

theorem isHopeless_eq (h : InStep M f f') : f.isHopeless = f'.isHopeless := by
  have hsize : f.branches.length = f'.branches.length := h.size_eq
  rw [Forest.isHopeless, Forest.isHopeless, Bool.eq_iff_iff, List.isEmpty_iff_length_eq_zero,
    List.isEmpty_iff_length_eq_zero, hsize]

variable [DecidableEq σ] {symbol : σ}

/-- The same happens while both unfold, in some order. -/
theorem events (h : InStep M f f') (next : Option σ) :
    Multiset.Rel (Event.Matches M)
      (f.branches.flatMap ((f.cursor next).events f.limits.depth) : Multiset (Event σ τ))
      (f'.branches.flatMap ((f'.cursor next).events f'.limits.depth) : Multiset (Event σ τ)) := by
  rw [← Multiset.coe_bind, ← Multiset.coe_bind]
  refine Multiset.rel_bind (fun _ _ hevents => hevents) (h.branches.mono ?_)
  intro b hb b' hb' hmatch
  have hfit' := h.shallow'.fits b' hb'
  rw [← h.consumed] at hfit'
  rw [Forest.cursor, Forest.cursor, ← h.consumed, ← h.limits]
  exact h.grammar.events h.shallow.built h.shallow'.built _ (Nat.lt_succ_self _) hmatch
    (h.shallow.fits b hb) hfit'

/-- A branch becomes too deep in both or in neither, and by one frame. -/
theorem overrun_eq (h : InStep M f f') (next : Option σ) :
    (f.unfold next).overrun = (f'.unfold next).overrun := by
  have hnone : (f.unfold next).overrun = none ↔ (f'.unfold next).overrun = none := by
    rw [h.shallow.unfold_eq, h.shallow'.unfold_eq, Unfolded.overrun_eq_none_iff,
      Unfolded.overrun_eq_none_iff]
    constructor
    · intro hnot depth hmem
      obtain ⟨event, hevent, hmatch⟩ :=
        Multiset.exists_mem_of_rel_of_mem (Multiset.rel_flip.mpr (h.events next)) hmem
      cases hmatch
      exact hnot depth hevent
    · intro hnot depth hmem
      obtain ⟨event, hevent, hmatch⟩ := Multiset.exists_mem_of_rel_of_mem (h.events next) hmem
      cases hmatch
      exact hnot depth hevent
  -- Different branches may be met first, but each is too deep by one frame.
  cases hd : (f.unfold next).overrun with
  | none => exact (hnone.mp hd).symm
  | some depth =>
      cases hd' : (f'.unfold next).overrun with
      | none => cases hd.symm.trans (hnone.mpr hd')
      | some depth' =>
          rw [h.shallow.overrun_eq h.shallow.depth hd, h.shallow'.overrun_eq h.shallow'.depth hd',
            h.limits]

/-- If no branch becomes too deep, the branches that come to rest match in some order. -/
theorem rested (h : InStep M f f') {next : Option σ} (hnone : (f.unfold next).overrun = none) :
    Multiset.Rel (Branch.Matches M) ((f.unfold next).rested : Multiset (Branch σ τ))
      ((f'.unfold next).rested : Multiset (Branch σ τ)) := by
  have hnone' := (h.overrun_eq next).symm.trans hnone
  rw [h.shallow.unfold_eq] at hnone ⊢
  rw [h.shallow'.unfold_eq] at hnone' ⊢
  rw [Unfolded.rested_eq (Unfolded.overrun_eq_none_iff.mp hnone),
    Unfolded.rested_eq (Unfolded.overrun_eq_none_iff.mp hnone')]
  exact rel_filterMap (h.events next) Event.Matches.branch?

theorem advanced (h : InStep M f f') (hnone : (f.unfold (some symbol)).overrun = none) :
    InStep M (f.advanced symbol) (f'.advanced symbol) where
  grammar := h.grammar
  limits := h.limits
  consumed := congrArg (· + 1) h.consumed
  fault := h.fault
  branches := by
    rw [h.shallow.advanced_branches, h.shallow'.advanced_branches]
    exact rel_filterMap (h.rested hnone) (h.grammar.consume symbol)
  shallow := h.shallow.advanced symbol
  shallow' := h.shallow'.advanced symbol

/-- A symbol is taken or refused alike. -/
theorem take (h : InStep M f f') (symbol : σ) :
    (f.take symbol).result = (f'.take symbol).result ∧
      InStep M (f.take symbol).forest (f'.take symbol).forest := by
  cases hfault : f.fault with
  | some reason =>
      have hfault' : f'.fault = some reason := h.fault.symm.trans hfault
      obtain ⟨hresult, hforest⟩ := @take_of_fault _ _ _ f symbol _ hfault
      obtain ⟨hresult', hforest'⟩ := @take_of_fault _ _ _ f' symbol _ hfault'
      rw [hresult, hresult', hforest, hforest']
      exact ⟨rfl, h⟩
  | none =>
      have hfault' : f'.fault = none := h.fault.symm.trans hfault
      by_cases hfull : f.limits.symbols ≤ f.consumed
      · have hfull' : f'.limits.symbols ≤ f'.consumed := h.limits ▸ h.consumed ▸ hfull
        obtain ⟨hresult, hforest⟩ := @take_of_full _ _ _ f symbol hfault hfull
        obtain ⟨hresult', hforest'⟩ := @take_of_full _ _ _ f' symbol hfault' hfull'
        rw [hresult, hresult', hforest, hforest', h.limits, h.consumed]
        exact ⟨rfl, h.halted _⟩
      have hroom := Nat.not_le.mp hfull
      have hroom' : f'.consumed < f'.limits.symbols := h.limits ▸ h.consumed ▸ hroom
      cases hdepth : (f.unfold (some symbol)).overrun with
      | some depth =>
          have hdepth' := (h.overrun_eq _).symm.trans hdepth
          obtain ⟨hresult, hforest⟩ := take_of_overrun hfault hroom hdepth
          obtain ⟨hresult', hforest'⟩ := take_of_overrun hfault' hroom' hdepth'
          rw [hresult, hresult', hforest, hforest', h.limits]
          exact ⟨rfl, h.halted _⟩
      | none =>
          have hdepth' := (h.overrun_eq _).symm.trans hdepth
          have hnext := h.advanced hdepth
          cases hcrowd : Limits.isExceeded f.limits.branches (f.advanced symbol).size with
          | true =>
              have hcrowd' := hcrowd
              rw [h.limits, hnext.size_eq] at hcrowd'
              obtain ⟨hresult, hforest⟩ := take_of_crowded hfault hroom hdepth hcrowd
              obtain ⟨hresult', hforest'⟩ := take_of_crowded hfault' hroom' hdepth' hcrowd'
              rw [hresult, hresult', hforest, hforest', h.limits, hnext.size_eq]
              exact ⟨rfl, hnext.halted _⟩
          | false =>
              have hcrowd' := hcrowd
              rw [h.limits, hnext.size_eq] at hcrowd'
              obtain ⟨hresult, hforest⟩ := take_of_room hfault hroom hdepth hcrowd
              obtain ⟨hresult', hforest'⟩ := take_of_room hfault' hroom' hdepth' hcrowd'
              rw [hresult, hresult', hforest, hforest']
              exact ⟨rfl, hnext⟩

/-- The complete derivations yield the same tokens, in some order. -/
theorem finals (h : InStep M f f') (hnone : (f.unfold none).overrun = none) :
    (f.finals.map Branch.tokens).Perm (f'.finals.map Branch.tokens) := by
  rw [h.shallow.finals_eq, h.shallow'.finals_eq, ← List.filterMap_eq_map, List.filterMap_filter,
    List.filterMap_filter, ← Multiset.coe_eq_coe, ← Multiset.rel_eq]
  refine rel_filterMap (h.rested hnone) fun {b b'} hmatch => ?_
  rw [hmatch.isDone_eq]
  split
  · exact .some hmatch.tokens
  · exact .none

/-- Closing comes to the same. -/
theorem close_result (h : InStep M f f') : f.close.result = f'.close.result := by
  cases hfault : f.fault with
  | some reason =>
      have hfault' : f'.fault = some reason := h.fault.symm.trans hfault
      simp only [Forest.close, hfault, hfault']
  | none =>
      have hfault' : f'.fault = none := h.fault.symm.trans hfault
      cases hdepth : (f.unfold none).overrun with
      | some depth =>
          have hdepth' := (h.overrun_eq none).symm.trans hdepth
          rw [close_of_overrun hfault hdepth, close_of_overrun hfault' hdepth', h.limits]
      | none =>
          have hdepth' := (h.overrun_eq none).symm.trans hdepth
          rw [close_of_room hfault hdepth, close_of_room hfault' hdepth', h.consumed,
            verdict_perm (h.finals hdepth)]

/-- A request is answered alike, and leaves forests that are in step. -/
theorem serve (h : InStep M f f') (request : Request σ) :
    InStep M (f.serve request).1 (f'.serve request).1 ∧
      (f.serve request).2 = (f'.serve request).2 := by
  cases request with
  | take symbol =>
      obtain ⟨hresult, hnext⟩ := h.take symbol
      exact ⟨hnext, congrArg Reply.taken hresult⟩
  | close =>
      refine ⟨?_, congrArg Reply.closed h.close_result⟩
      simp only [Forest.serve, close_forest]
      exact h.halted none
  | restart =>
      refine ⟨?_, rfl⟩
      simp only [Forest.serve, Forest.restart, h.limits]
      exact .new h.grammar h.shallow.built h.shallow'.built _

/-- Nothing that is seen tells forests in step apart. -/
theorem sights_eq (h : InStep M f f') (requests : List (Request σ)) :
    f.sights requests = f'.sights requests := by
  induction requests generalizing f f' with
  | nil => rfl
  | cons request requests ih =>
      obtain ⟨hnext, hreply⟩ := h.serve request
      simp only [Forest.sights, hreply, hnext.size_eq, hnext.consumed, hnext.isHopeless_eq,
        ih hnext]

end InStep

end Forest

end Ramify
