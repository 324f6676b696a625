import Mathlib.Logic.Function.Iterate
import Ramify.Proofs.Continuation
import Ramify.Proofs.Transport

/-!
# Nodes that vanish

A node *vanishes* if it can match the empty text by the rule of its kind (`Arena.Vanishes`).
Rules make these circular, and the nodes that vanish are the smallest set that is closed under
them.  The sweeps of `Nullable.compute` come to an end with just these nodes marked: they only
mark nodes that vanish, and marks that a sweep leaves alone are closed.

In a grammar that was built, a node that matches an empty span vanishes, whatever stands around
the span.  A node that vanishes need not match one, as a guard may refuse the next symbol, and
an observer that neither passes nor consumes never matches.  Where there are neither, it
matches the empty span at every position, and so whether the start vanishes is whether a parse
that has taken nothing can be closed.
-/

namespace Ramify

variable {σ τ : Type}

/-! ## The smallest set -/

/-- A node can match the empty text, by the rule of its kind. -/
inductive Arena.Vanishes (nodes : Arena σ τ) (rules : Array Rule) : NodeId → Prop where
  /-- The empty text. -/
  | empty {id : NodeId} (hn : nodes[id]? = some .empty) : Vanishes nodes rules id
  /-- A guard. -/
  | guard {id : NodeId} {set : SymbolSet σ} (hn : nodes[id]? = some (.guard set)) :
      Vanishes nodes rules id
  /-- A loop. -/
  | star {id body : NodeId} (hn : nodes[id]? = some (.star body)) : Vanishes nodes rules id
  /-- An observer that does not consume, or that may pass. -/
  | observe {id : NodeId} {observer : Observer} (hn : nodes[id]? = some (.observe observer))
      (h : observer.consumes = false ∨ observer.passes = true) : Vanishes nodes rules id
  /-- A sequence, all of whose parts vanish. -/
  | seq {id : NodeId} {parts : List NodeId} (hn : nodes[id]? = some (.seq parts))
      (h : ∀ part ∈ parts, Vanishes nodes rules part) : Vanishes nodes rules id
  /-- A choice, one of whose ways vanishes. -/
  | alt {id choice : NodeId} {choices : List NodeId} (hn : nodes[id]? = some (.alt choices))
      (hc : choice ∈ choices) (h : Vanishes nodes rules choice) : Vanishes nodes rules id
  /-- No repetition at all. -/
  | never {id body : NodeId} (hn : nodes[id]? = some (.times body 0)) : Vanishes nodes rules id
  /-- A fixed repetition whose body vanishes. -/
  | times {id body : NodeId} {count : Nat} (hn : nodes[id]? = some (.times body count))
      (h : Vanishes nodes rules body) : Vanishes nodes rules id
  /-- A mention of a rule whose body vanishes. -/
  | rule {id : NodeId} {index : RuleId} {rule : Rule} (hn : nodes[id]? = some (.rule index))
      (hr : rules[index]? = some rule) (h : Vanishes nodes rules rule.body) :
      Vanishes nodes rules id
  /-- An emission whose body vanishes. -/
  | emit {id body : NodeId} {yields : Yield σ τ} (hn : nodes[id]? = some (.emit body yields))
      (h : Vanishes nodes rules body) : Vanishes nodes rules id
  /-- A fold whose body vanishes. -/
  | fold {id body : NodeId} {merge : List τ → τ} (hn : nodes[id]? = some (.fold body merge))
      (h : Vanishes nodes rules body) : Vanishes nodes rules id

/-! ## The sweeps -/

namespace Nullable

variable {nodes : Arena σ τ} {rules : Array Rule} {id : NodeId}

/-- Closing marks is sweeping some number of times, each of which but the last marks a node. -/
theorem exists_sweeps (nodes : Arena σ τ) (rules : Array Rule) :
    ∀ (rounds : Nat) (marks : Marks), ∃ sweeps, (marked marks).card + sweeps ≤ marks.size ∧
      (sweep nodes rules)^[sweeps] marks = close nodes rules rounds marks
  | 0, marks => ⟨0, card_marked_le marks, rfl⟩
  | rounds + 1, marks => by
      have hgrows : Grows marks (sweep nodes rules marks) :=
        foldl_mark_grows nodes rules (List.range nodes.size) marks
      rw [close]
      split
      · exact ⟨0, card_marked_le marks, rfl⟩
      next hne =>
        obtain ⟨sweeps, hle, hsweeps⟩ := exists_sweeps nodes rules rounds (sweep nodes rules marks)
        have hlt := hgrows.card_lt hne
        rw [hgrows.size] at hle
        exact ⟨sweeps + 1, by omega, hsweeps⟩

/-- The marks are reached in at most as many sweeps as there are nodes. -/
theorem exists_sweeps_compute (nodes : Arena σ τ) (rules : Array Rule) :
    ∃ sweeps ≤ nodes.size,
      (sweep nodes rules)^[sweeps] (.replicate nodes.size false) = compute nodes rules := by
  obtain ⟨sweeps, hle, hsweeps⟩ :=
    exists_sweeps nodes rules (nodes.size + 1) (.replicate nodes.size false)
  rw [Array.size_replicate] at hle
  exact ⟨sweeps, by omega, hsweeps⟩

/-- One more sweep changes nothing. -/
theorem sweep_compute (nodes : Arena σ τ) (rules : Array Rule) :
    sweep nodes rules (compute nodes rules) = compute nodes rules := by
  refine sweep_close nodes rules _ _ ?_
  rw [Array.size_replicate]
  omega

/-- A node whose equation holds vanishes, if the marked ones do. -/
theorem vanishes_of_holds (hplain : nodes.Plain) {marks : Marks}
    (hmarks : Within (nodes.Vanishes rules) marks) {node : Node σ τ}
    (hn : nodes[id]? = some node) (h : holds rules marks node = true) :
    nodes.Vanishes rules id := by
  cases node with
  | empty => exact .empty hn
  | oneOf => cases h
  | literal run =>
      cases run with
      | nil => exact absurd rfl (hplain _ (Array.mem_of_getElem? hn))
      | cons => cases h
  | guard => exact .guard hn
  | seq parts => exact .seq hn fun part hpart => hmarks part (List.all_eq_true.mp h part hpart)
  | alt choices =>
      obtain ⟨choice, hc, hmark⟩ := List.any_eq_true.mp h
      exact .alt hn hc (hmarks choice hmark)
  | star => exact .star hn
  | times body count =>
      simp only [holds, Bool.or_eq_true, beq_iff_eq] at h
      rcases h with rfl | hmark
      · exact .never hn
      · exact .times hn (hmarks body hmark)
  | rule index =>
      obtain ⟨rule, hr, hmark⟩ := (Option.any_eq_true _ _).mp h
      exact .rule hn hr (hmarks rule.body hmark)
  | emit body => exact .emit hn (hmarks body h)
  | fold body => exact .fold hn (hmarks body h)
  | observe observer =>
      simp only [holds, Bool.or_eq_true, Bool.not_eq_true'] at h
      exact .observe hn h

/-- A node that vanishes is marked. -/
theorem compute_of_vanishes (h : nodes.Vanishes rules id) :
    (compute nodes rules).getD id false = true := by
  induction h with
  | empty hn | guard hn | star hn => exact holds_compute hn rfl
  | observe hn h => exact holds_compute hn (by simpa [holds] using h)
  | seq hn _ ih => exact holds_compute hn (List.all_eq_true.mpr ih)
  | alt hn hc _ ih => exact holds_compute hn (List.any_eq_true.mpr ⟨_, hc, ih⟩)
  | never hn => exact holds_compute hn (by simp [holds])
  | times hn _ ih => exact holds_compute hn (by rw [holds, ih, Bool.or_true])
  | rule hn hr _ ih => exact holds_compute hn (by rw [holds, hr]; exact ih)
  | emit hn _ ih | fold hn _ ih => exact holds_compute hn ih

/-- The marked nodes are those that vanish. -/
theorem compute_eq_true_iff (hplain : nodes.Plain) :
    (compute nodes rules).getD id false = true ↔ nodes.Vanishes rules id :=
  ⟨within_compute (fun hmarks hn => vanishes_of_holds hplain hmarks hn) id, compute_of_vanishes⟩

end Nullable

/-! ## Empty spans -/

namespace Grammar

/-- No observer neither passes nor consumes. -/
def Unblocked (g : Grammar σ τ) : Prop :=
  ∀ (id : NodeId) (observer : Observer), g.nodes[id]? = some (.observe observer) →
    observer.passes = true ∨ observer.consumes = true

variable [DecidableEq σ] {g : Grammar σ τ} {w : List σ} {id : NodeId} {i : Nat}

/-- Nodes one after the other match an empty span if each of them does. -/
theorem exists_empty_trees : ∀ {ids : List NodeId},
    (∀ id ∈ ids, Nonempty (Derivation g w id i i)) → Nonempty (Derivations g w ids i i)
  | [], _ => ⟨.nil⟩
  | id :: ids, h => by
      obtain ⟨tree⟩ := h id List.mem_cons_self
      obtain ⟨trees⟩ := exists_empty_trees fun other hother =>
        h other (List.mem_cons_of_mem _ hother)
      exact ⟨.cons tree trees⟩

/-- Where nothing looks at the next symbol, a node that vanishes matches every empty span. -/
theorem exists_empty_tree (hguard : g.Unguarded) (hblock : g.Unblocked)
    (h : g.nodes.Vanishes g.rules id) : Nonempty (Derivation g w id i i) := by
  induction h with
  | empty hn => exact ⟨.of hn .empty⟩
  | guard hn => exact absurd hn (hguard _ _)
  | star hn => exact ⟨.of hn (.star .done)⟩
  | observe hn h =>
      rcases hblock _ _ hn with hpass | hconsume
      · exact ⟨.of hn (.pass hpass)⟩
      · refine ⟨.of hn (.pass (h.resolve_left ?_))⟩
        simp [hconsume]
  | seq hn _ ih =>
      obtain ⟨trees⟩ := exists_empty_trees ih
      exact ⟨.of hn (.seq trees)⟩
  | alt hn hc _ ih =>
      obtain ⟨index, hindex⟩ := List.mem_iff_getElem?.mp hc
      obtain ⟨tree⟩ := ih
      exact ⟨.of hn (.alt index hindex tree)⟩
  | never hn => exact ⟨.of hn (.times .nil)⟩
  | @times id body count hn _ ih =>
      have hall : ∀ other ∈ List.replicate count body, Nonempty (Derivation g w other i i) :=
        fun other hother => (List.eq_of_mem_replicate hother).symm ▸ ih
      obtain ⟨trees⟩ := exists_empty_trees hall
      exact ⟨.of hn (.times trees)⟩
  | rule hn hr _ ih =>
      obtain ⟨tree⟩ := ih
      exact ⟨.of hn (.rule (by rw [body?, hr]; rfl) tree)⟩
  | emit hn _ ih =>
      obtain ⟨tree⟩ := ih
      exact ⟨.of hn (.emit tree)⟩
  | fold hn _ ih =>
      obtain ⟨tree⟩ := ih
      exact ⟨.of hn (.fold tree)⟩

/-- A branch that has only a node to enter comes to its end before the next symbol just if the
node matches the empty span there. -/
theorem exists_visits_done_iff (hg : g.IsBuilt) :
    (∃ e, (g.cursorAt w i).Visits (.start id) e ∧ e.isDone = true) ↔
      Nonempty (Derivation g w id i i) := by
  have hhears : (Branch.start id : Branch σ τ).Hears w i := fun hpos =>
    absurd hpos (Nat.lt_irrefl 0)
  constructor
  · rintro ⟨e, hvisit, hdone⟩
    obtain ⟨n, hruns⟩ := hvisit.runs
    obtain ⟨k, tree, m, -, b', hrest, -, hleaves⟩ := follows hg hdone n hruns rfl hhears
    have hk : k = i := Nat.le_antisymm hrest.le tree.le
    exact ⟨hk ▸ tree⟩
  · rintro ⟨tree⟩
    obtain ⟨n, e, hruns, hleaves⟩ := tree.runs hg rfl hhears
    rcases hruns.visits_or_takes with ⟨-, hvisit⟩ | ⟨_, _, _, _, _, _, _, _, hlater⟩
    · exact ⟨e, hvisit, hleaves.isDone⟩
    · exact absurd hlater.le (Nat.not_succ_le_self i)

/-- Closing a parse that has taken nothing tells of a mismatch just if the start matches no empty
input. -/
theorem close_new_eq_mismatch_iff (hg : g.IsBuilt) :
    (∃ consumed, (Forest.new g .unlimited).close.result = .error (.mismatch consumed)) ↔
      IsEmpty (Derivation g [] g.start 0 0) := by
  obtain ⟨-, trees, -, hall, hclose⟩ := Forest.exists_trees (w := []) hg (Nat.zero_le _)
  have hresult : (Forest.new g .unlimited).close.result =
      Forest.verdict 0 (trees.map Derivation.yield) := hclose
  rw [hresult]
  rcases trees with _ | ⟨tree, _ | ⟨other, rest⟩⟩
  · exact ⟨fun _ => ⟨fun tree => absurd (hall tree) List.not_mem_nil⟩, fun _ => ⟨0, rfl⟩⟩
  · simpa [Forest.verdict] using Nonempty.intro tree
  · simpa [Forest.verdict] using Nonempty.intro tree

end Grammar

/-! ## Marks, trees and parses -/

/-- The marks of a grammar are exact.  On any nodes and rules the sweeps end, after one for each
node at most, with marks that a further sweep leaves alone; and where no run of symbols is empty,
as in every draft of a builder, these are the nodes of the smallest set that the rules for each
kind close.

In a grammar that was built, a node that matches an empty span of any input is marked, and so is
one that a branch enters and comes back out of before the next symbol.  If nothing looks at the
next symbol without taking it, a marked node matches every empty span, and the start is marked
just if a parse without limits that has taken nothing is not closed with a mismatch. -/
theorem Grammar.marks_are_exact :
    (∀ (nodes : Arena σ τ) (rules : Array Rule),
      (∃ sweeps ≤ nodes.size, (Nullable.sweep nodes rules)^[sweeps]
        (.replicate nodes.size false) = Nullable.compute nodes rules) ∧
      Nullable.sweep nodes rules (Nullable.compute nodes rules) = Nullable.compute nodes rules ∧
      (nodes.Plain → ∀ id, (Nullable.compute nodes rules).getD id false = true ↔
        nodes.Vanishes rules id)) ∧
    (∀ (builder : Builder σ τ) (start : Expr σ τ), builder.Reached →
      (builder.draft start).nodes.Plain) ∧
    ∀ [DecidableEq σ] (g : Grammar σ τ), g.IsBuilt →
      (∀ id, g.isNullable id = true ↔ g.nodes.Vanishes g.rules id) ∧
      (∀ (w : List σ) (id : NodeId) (i : Nat), Nonempty (Derivation g w id i i) →
        g.isNullable id = true) ∧
      (∀ (w : List σ) (id : NodeId) (i : Nat) (e : Branch σ τ),
        (g.cursorAt w i).Visits (.start id) e → e.isDone = true → g.isNullable id = true) ∧
      (g.Unguarded → g.Unblocked →
        (∀ (w : List σ) (id : NodeId) (i : Nat), g.isNullable id = true →
          Nonempty (Derivation g w id i i)) ∧
        (g.isNullable g.start = true ↔ ¬ ∃ consumed,
          (Forest.new g .unlimited).close.result = .error (.mismatch consumed))) := by
  refine ⟨fun nodes rules => ?_, fun builder start hreached => hreached.plain.place start, ?_⟩
  · exact ⟨Nullable.exists_sweeps_compute nodes rules, Nullable.sweep_compute nodes rules,
      fun hplain id => Nullable.compute_eq_true_iff hplain⟩
  intro _ g hg
  have hnull : ∀ {w : List σ} {id : NodeId} {i : Nat}, Nonempty (Derivation g w id i i) →
      g.isNullable id = true := fun ⟨tree⟩ => tree.isNullable hg rfl
  have hvanish : ∀ id, g.isNullable id = true ↔ g.nodes.Vanishes g.rules id := by
    obtain ⟨builder, start, hreached, hbuild⟩ := hg
    obtain ⟨hnodes, hmarks, -⟩ := Builder.build_eq_ok hbuild
    have hplain : g.nodes.Plain := hnodes ▸ hreached.plain.place start
    intro id
    rw [Grammar.isNullable, hmarks, Nullable.compute_eq_true_iff hplain]
  refine ⟨hvanish, fun _ _ _ => hnull, ?_, fun hguard hblock => ⟨?_, ?_⟩⟩
  · intro w id i e hvisit hdone
    exact hnull ((exists_visits_done_iff hg).mp ⟨e, hvisit, hdone⟩)
  · intro w id i hid
    exact exists_empty_tree hguard hblock ((hvanish id).mp hid)
  · rw [close_new_eq_mismatch_iff hg, not_isEmpty_iff]
    exact ⟨fun hid => exists_empty_tree hguard hblock ((hvanish _).mp hid), hnull⟩

/-- Whether a node looks at the next symbol without taking it. -/
def Node.looks : Node σ τ → Bool
  | .guard _ => true
  | .observe observer => !observer.passes && !observer.consumes
  | _ => false

theorem Grammar.unguarded_of_all {g : Grammar σ τ} (h : g.nodes.all (!·.looks) = true) :
    g.Unguarded ∧ g.Unblocked := by
  have hnode : ∀ {id : NodeId} {node : Node σ τ}, g.nodes[id]? = some node →
      node.looks = false := by
    intro id node hn
    obtain ⟨hid, rfl⟩ := Array.getElem?_eq_some_iff.mp hn
    simpa using Array.all_eq_true.mp h id hid
  constructor
  · intro id set hn
    cases hnode hn
  · intro id observer hn
    have hlooks := hnode hn
    cases hp : observer.passes with
    | true => exact .inl rfl
    | false => exact .inr (by simpa [Node.looks, hp] using hlooks)

/-- Two mentions of a rule that mentions itself behind a symbol, and can be empty. -/
theorem Grammar.marks_are_exact_letters :
    ∃ g : Grammar Char Nat, g.IsBuilt ∧ g.Unguarded ∧ g.Unblocked ∧
      Nonempty (Derivation g ['a'] g.start 1 1) ∧
      ¬ ∃ consumed, (Forest.new g .unlimited).close.result = .error (.mismatch consumed) := by
  have hdeclared : ((Builder.new : Builder Char Nat).declare "letters").1.Reached :=
    .declare "letters" .new
  have hrun : (((Builder.new : Builder Char Nat).declare "letters").1.define 0
      (.alt [.seq [.oneOf (.of ['a']), .rule 0], .empty])).toOption.any (fun builder =>
        (builder.build (.seq [.rule 0, .rule 0])).toOption.any fun g =>
          g.nodes.all (!·.looks) && g.isNullable g.start) = true := by
    decide +kernel
  obtain ⟨builder, hreached, hrun⟩ := hdeclared.exists_define hrun
  obtain ⟨g, hg, hrun⟩ := hreached.exists_build hrun
  obtain ⟨hall, hnull⟩ := (Bool.and_eq_true _ _).mp hrun
  obtain ⟨hguard, hblock⟩ := unguarded_of_all hall
  obtain ⟨-, -, -, hexact⟩ := marks_are_exact.2.2 g hg
  obtain ⟨htrees, hclose⟩ := hexact hguard hblock
  exact ⟨g, hg, hguard, hblock, htrees ['a'] g.start 1 hnull, hclose.mp hnull⟩

end Ramify
