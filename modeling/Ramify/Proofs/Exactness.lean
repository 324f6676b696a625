import Mathlib.Data.List.NodupEquivFin
import Mathlib.SetTheory.Cardinal.Finite
import Ramify.Proofs.Completeness
import Ramify.Proofs.Soundness
import Ramify.Proofs.Taking

/-!
# A parse counts derivations

The branches of a forest are those that runs lead to, and the ones that are complete at
the end of the input are those that runs with nothing left lead to
(`Forest.Free.takeAll`).  Runs follow derivation trees and trees are run, and the
trail of a complete branch is the choices of its tree.  As no two branches share a trail
and no two trees share their choices, complete branches and trees correspond one to one.

So closing a parse without limits tells whether the input has no derivation, one or
several, how many, and what the only one yields.
-/

namespace Ramify

variable {σ τ : Type}

theorem Branch.start_hears (id : NodeId) (w : List σ) :
    (Branch.start id : Branch σ τ).Hears w 0 :=
  fun hpos => absurd hpos (Nat.lt_irrefl 0)

namespace Forest

variable {consumed : Nat} {yields : List (List τ)}

theorem verdict_eq_mismatch_iff :
    verdict consumed yields = .error (.mismatch consumed) ↔ yields = [] := by
  rcases yields with _ | ⟨tokens, _ | ⟨tokens', rest⟩⟩ <;> simp [verdict]

theorem verdict_eq_ok_iff {tokens : List τ} :
    verdict consumed yields = .ok tokens ↔ yields = [tokens] := by
  rcases yields with _ | ⟨tokens, _ | ⟨tokens', rest⟩⟩ <;> simp [verdict]

theorem verdict_ne_aborted {fault : Fault} :
    verdict consumed yields ≠ .error (.aborted fault) := by
  rcases yields with _ | ⟨tokens, _ | ⟨tokens', rest⟩⟩ <;> simp [verdict]

theorem verdict_eq_ambiguous_iff {count consumed' : Nat} :
    verdict consumed yields = .error (.ambiguous count consumed') ↔
      2 ≤ count ∧ yields.length = count ∧ consumed' = consumed := by
  rcases yields with _ | ⟨tokens, _ | ⟨tokens', rest⟩⟩
  · simp [verdict]
    omega
  · simp [verdict]
    omega
  · simp [verdict]
    omega

end Forest

variable [DecidableEq σ] {g : Grammar σ τ} {w : List σ} {n i j : Nat}
  {b e : Branch σ τ}

/-! ## Runs between two symbols -/

theorem Cursor.Visits.runs (h : (g.cursorAt w i).Visits b e) : ∃ n, g.Runs w n i b i e := by
  induction h using Relation.ReflTransGen.head_induction_on with
  | refl => exact ⟨0, .refl⟩
  | head hmove _ ih =>
      obtain ⟨n, hruns⟩ := ih
      exact ⟨n + 1, .move hmove hruns⟩

theorem Grammar.Takes.move_eq_none {here : Cursor σ τ} {symbol : σ} {b' : Branch σ τ}
    (h : here.grammar.Takes symbol b b') (ht : b.target = none) : here.move b = none := by
  cases h with
  | member hf hn => simp [Cursor.move, ht, hf, Cursor.waitsAt, hn, Node.consumes]
  | run hf hn => simp [Cursor.move, ht, hf, Cursor.waitsAt, hn, Node.consumes]
  | any hf hn hc => simp [Cursor.move, ht, hf, Cursor.waitsAt, hn, Node.consumes, hc]

theorem Branch.move_eq_none_of_isDone {here : Cursor σ τ} (h : b.isDone = true) :
    here.move b = none := by
  obtain ⟨hf, ht⟩ := Branch.isDone_iff.mp h
  simp [Cursor.move, ht, hf]

/-- A branch that rests has nothing to enter. -/
theorem Cursor.target_of_move_eq_none {here : Cursor σ τ} (h : here.move b = none) :
    b.target = none := by
  cases ht : b.target with
  | none => rfl
  | some id =>
      rw [Cursor.move_of_target ht] at h
      cases h

namespace Grammar.Runs

theorem le (h : g.Runs w n i b j e) : i ≤ j := by
  induction h with
  | refl => exact Nat.le_refl _
  | move _ _ ih => exact ih
  | take _ _ _ _ ih => exact Nat.le_of_succ_le ih

/-- A run takes no symbol, or it moves until it takes its first. -/
theorem visits_or_takes (h : g.Runs w n i b j e) :
    (i = j ∧ (g.cursorAt w i).Visits b e) ∨
      ∃ r symbol b' m, (g.cursorAt w i).Visits b r ∧ r.target = none ∧ w[i]? = some symbol ∧
        g.Takes symbol r b' ∧ g.Runs w m (i + 1) b' j e := by
  induction h with
  | refl => exact .inl ⟨rfl, .refl⟩
  | move hmove _ ih =>
      rcases ih with ⟨rfl, hvisit⟩ | ⟨r, symbol, b', m, hvisit, hrest⟩
      · exact .inl ⟨rfl, .head hmove hvisit⟩
      · exact .inr ⟨r, symbol, b', m, .head hmove hvisit, hrest⟩
  | take ht hw htake hrest _ => exact .inr ⟨_, _, _, _, .refl, ht, hw, htake, hrest⟩

/-- A run from a complete branch stays. -/
theorem eq_of_isDone (h : g.Runs w n i b j e) (hdone : b.isDone = true) : i = j ∧ b = e := by
  obtain ⟨hf, ht⟩ := Branch.isDone_iff.mp hdone
  cases h with
  | refl => exact ⟨rfl, rfl⟩
  | move hmove =>
      obtain ⟨turn, hturn, -⟩ := hmove.exists_turn
      rw [Branch.move_eq_none_of_isDone hdone] at hturn
      cases hturn
  | take _ _ htake =>
      have hconsume := Grammar.consume_eq_some_iff.mpr htake
      simp [Grammar.consume, hf] at hconsume

end Grammar.Runs

/-! ## Complete branches -/

namespace Forest

variable {f : Forest σ τ}

/-- The branches at rest are the visited ones that make no move. -/
theorem Free.mem_rested_iff {next : Option σ} (hf : f.Free) :
    e ∈ (f.unfold next).rested ↔
      ∃ b ∈ f.branches, (f.cursor next).Visits b e ∧ (f.cursor next).move e = none := by
  constructor
  · intro h
    obtain ⟨b, hb, hvisit, hrest, -⟩ := hf.visits_of_mem_rested h
    exact ⟨b, hb, hvisit, hrest⟩
  · rintro ⟨b, hb, hvisit, hrest⟩
    exact hf.mem_rested (hf.not_overruns next) hb hvisit hrest

theorem Free.mem_advanced_iff {symbol : σ} (hf : f.Free) :
    e ∈ (f.advanced symbol).branches ↔
      ∃ b ∈ f.branches, ∃ r, (f.cursor (some symbol)).Visits b r ∧
        (f.cursor (some symbol)).move r = none ∧ f.grammar.Takes symbol r e := by
  rw [hf.advanced_branches, List.mem_filterMap]
  constructor
  · rintro ⟨r, hr, htake⟩
    obtain ⟨b, hb, hvisit, hrest⟩ := hf.mem_rested_iff.mp hr
    exact ⟨b, hb, r, hvisit, hrest, Grammar.consume_eq_some_iff.mp htake⟩
  · rintro ⟨b, hb, r, hvisit, hrest, htake⟩
    exact ⟨r, hf.mem_rested_iff.mpr ⟨b, hb, hvisit, hrest⟩, Grammar.consume_eq_some_iff.mpr htake⟩

omit [DecidableEq σ] in
/-- The cursor of a parse that has come so far into an input. -/
theorem cursor_eq_cursorAt {next : Option σ} (hnext : w[f.consumed]? = next) :
    f.cursor next = f.grammar.cursorAt w f.consumed := by
  rw [Forest.cursor, Grammar.cursorAt, hnext]

/-- The runs past the next symbol pass the branches that have taken it. -/
theorem Free.exists_runs_advanced_iff {symbol : σ} (hf : f.Free)
    (hnext : w[f.consumed]? = some symbol) (hlt : f.consumed < j) :
    (∃ b ∈ (f.advanced symbol).branches, ∃ n, f.grammar.Runs w n (f.consumed + 1) b j e) ↔
      ∃ b ∈ f.branches, ∃ n, f.grammar.Runs w n f.consumed b j e := by
  have hcursor := f.cursor_eq_cursorAt hnext
  constructor
  · rintro ⟨b', hb', n, hruns⟩
    obtain ⟨b, hb, r, hvisit, hstop, htake⟩ := hf.mem_advanced_iff.mp hb'
    rw [hcursor] at hvisit
    obtain ⟨m, hmoves⟩ := hvisit.runs
    have htarget := Cursor.target_of_move_eq_none hstop
    exact ⟨b, hb, _, hmoves.trans (.take htarget hnext htake hruns)⟩
  · rintro ⟨b, hb, n, hruns⟩
    rcases hruns.visits_or_takes with
      ⟨heq, -⟩ | ⟨r, other, b', m, hvisit, ht, hw, htake, hlater⟩
    · exact absurd heq (Nat.ne_of_lt hlt)
    · cases hnext.symm.trans hw
      rw [← hcursor] at hvisit
      have hstop : (f.cursor (some symbol)).move r = none := htake.move_eq_none ht
      exact ⟨b', hf.mem_advanced_iff.mpr ⟨b, hb, r, hvisit, hstop, htake⟩, m, hlater⟩

/-- The branches after some more symbols are those that the runs through an input pass. -/
theorem Free.exists_branch_iff : ∀ {symbols : List σ} {f : Forest σ τ}, f.Free →
    symbols <+: w.drop f.consumed → f.consumed + symbols.length ≤ maxCount →
    f.consumed + symbols.length ≤ j →
      ((∃ b ∈ (f.takeAll symbols).forest.branches, ∃ n,
          f.grammar.Runs w n (f.consumed + symbols.length) b j e) ↔
        ∃ b ∈ f.branches, ∃ n, f.grammar.Runs w n f.consumed b j e)
  | [], _, _, _, _, _ => Iff.rfl
  | symbol :: symbols, f, hf, hw, hcount, hj => by
      have hnext : w[f.consumed]? = some symbol := getElem?_of_prefix_drop (n := 0) hw rfl
      have hrest : symbols <+: w.drop (f.advanced symbol).consumed :=
        (prefix_drop_of_append (v := [symbol]) hw).2
      have hlength : f.consumed + (symbol :: symbols).length =
          (f.advanced symbol).consumed + symbols.length := by
        show _ = f.consumed + 1 + symbols.length
        rw [List.length_cons]
        omega
      have hlt : f.consumed < j := by
        rw [List.length_cons] at hj
        omega
      rw [hlength] at hcount hj ⊢
      obtain ⟨hok, hforest⟩ := hf.take (by rw [List.length_cons] at hlength; omega) symbol
      rw [(takeAll_cons hok).2, hforest]
      exact (Free.exists_branch_iff (hf.advanced symbol) hrest hcount hj).trans
        (hf.exists_runs_advanced_iff hnext hlt)

/-- At the end of an input the complete branches are the complete ends of runs. -/
theorem Free.mem_finals_iff (hf : f.Free) (hend : f.consumed = w.length) :
    e ∈ f.finals ↔
      e.isDone = true ∧ ∃ b ∈ f.branches, ∃ n, f.grammar.Runs w n w.length b w.length e := by
  have hnext : w[w.length]? = none := List.getElem?_eq_none (Nat.le_refl _)
  have hcursor := f.cursor_eq_cursorAt (w := w) (hend ▸ hnext)
  rw [hend] at hcursor
  rw [hf.finals_eq, List.mem_filter, hf.mem_rested_iff, hcursor, and_comm]
  refine and_congr_right fun hdone => ?_
  constructor
  · rintro ⟨b, hb, hvisit, -⟩
    exact ⟨b, hb, hvisit.runs⟩
  · rintro ⟨b, hb, n, hruns⟩
    rcases hruns.visits_or_takes with ⟨-, hvisit⟩ | ⟨_, _, _, _, _, _, hw, _⟩
    · exact ⟨b, hb, hvisit, Branch.move_eq_none_of_isDone hdone⟩
    · cases hnext.symm.trans hw

/-- The rest of the input leads a parse to the branches that its runs lead to. -/
theorem Free.takeAll {symbols : List σ} (hf : f.Free) (hdrop : w.drop f.consumed = symbols)
    (hlen : w.length ≤ maxCount) (hle : f.consumed ≤ w.length) :
    (f.takeAll symbols).result = .ok () ∧ (f.takeAll symbols).forest.Free ∧
      (f.takeAll symbols).forest.consumed = w.length ∧
      ∀ e, e ∈ (f.takeAll symbols).forest.finals ↔
        e.isDone = true ∧ ∃ b ∈ f.branches, ∃ n, f.grammar.Runs w n f.consumed b w.length e := by
  have hcount : f.consumed + symbols.length = w.length := by
    rw [← hdrop, List.length_drop]
    omega
  have hok := hf.takeAll_of_le (hcount.trans_le hlen)
  obtain ⟨hfree, hend, -⟩ := hf.takeAll_of_ok hok
  rw [hcount] at hend
  refine ⟨hok, hfree, hend, fun e => ?_⟩
  refine (hfree.mem_finals_iff hend).trans (and_congr_right fun _ => ?_)
  have hprefix : symbols <+: w.drop f.consumed := by rw [hdrop]
  have hiff := hf.exists_branch_iff (e := e) hprefix (hcount.trans_le hlen) hcount.le
  rw [takeAll_grammar]
  rwa [hcount] at hiff

end Forest

/-! ## Trees and complete branches -/

/-- A run through the whole input follows a tree of it. -/
theorem Grammar.Runs.exists_tree (hg : g.IsBuilt)
    (h : g.Runs w n 0 (.start g.start) w.length e) (hdone : e.isDone = true) :
    ∃ tree : Derivation g w g.start 0 w.length,
      e.tokens = tree.yield ∧ e.trail = tree.choices.reverse := by
  obtain ⟨k, tree, m, -, b', hruns, -, hleaves⟩ :=
    Grammar.follows hg hdone n h rfl (Branch.start_hears g.start w)
  obtain ⟨rfl, rfl⟩ := hruns.eq_of_isDone hleaves.isDone
  exact ⟨tree, hleaves.tokens, hleaves.trail.trans (List.append_nil _)⟩

/-- A tree of the whole input is run. -/
theorem Derivation.exists_run (hg : g.IsBuilt) (tree : Derivation g w g.start 0 w.length) :
    ∃ n e, g.Runs w n 0 (.start g.start) w.length e ∧ e.isDone = true ∧
      e.trail = tree.choices.reverse := by
  obtain ⟨n, e, hruns, hleaves⟩ :=
    tree.runs (b := .start g.start) hg rfl (Branch.start_hears g.start w)
  exact ⟨n, e, hruns, hleaves.isDone, hleaves.trail.trans (List.append_nil _)⟩

/-- The complete branches at the end of an input correspond to its trees. -/
theorem Branch.exists_trees (hg : g.IsBuilt) {finals : List (Branch σ τ)}
    (hapart : finals.Pairwise Branch.Apart)
    (hfinals : ∀ e, e ∈ finals ↔
      e.isDone = true ∧ ∃ n, g.Runs w n 0 (.start g.start) w.length e) :
    ∃ trees : List (Derivation g w g.start 0 w.length), trees.Nodup ∧ (∀ tree, tree ∈ trees) ∧
      trees.map Derivation.yield = finals.map Branch.tokens := by
  have htree : ∀ e ∈ finals, ∃ tree : Derivation g w g.start 0 w.length,
      e.tokens = tree.yield ∧ e.trail = tree.choices.reverse := by
    intro e he
    obtain ⟨hdone, n, hruns⟩ := (hfinals e).mp he
    exact hruns.exists_tree hg hdone
  choose tree htokens htrail using htree
  refine ⟨finals.attach.map fun e => tree e.1 e.2, ?_, ?_, ?_⟩
  · -- The trails of complete branches differ, and so do their trees.
    have hnodup : (finals.map Branch.trail).Nodup :=
      List.pairwise_map.mpr (hapart.imp fun h => h.ne)
    have htrails : (finals.attach.map fun e => tree e.1 e.2).map (fun t => t.choices.reverse) =
        finals.map Branch.trail := by
      rw [List.map_map]
      refine Eq.trans (List.map_congr_left fun e _ => ?_) List.attach_map_val
      exact (htrail e.1 e.2).symm
    rw [← htrails] at hnodup
    exact hnodup.of_map
  · intro t
    obtain ⟨n, e, hruns, hdone, htrail'⟩ := t.exists_run hg
    have he : e ∈ finals := (hfinals e).mpr ⟨hdone, n, hruns⟩
    have heq : tree e he = t := Derivation.choices_injective
      (List.reverse_injective ((htrail e he).symm.trans htrail'))
    exact List.mem_map.mpr ⟨⟨e, he⟩, List.mem_attach _ _, heq⟩
  · rw [List.map_map]
    refine Eq.trans (List.map_congr_left fun e _ => ?_) List.attach_map_val
    exact (htokens e.1 e.2).symm

namespace Forest

/-- A parse without limits takes the whole input, and closing it gives the verdict on all
the derivation trees of the input. -/
theorem exists_trees (hg : g.IsBuilt) (hw : w.length ≤ maxCount) :
    ((Forest.new g .unlimited).takeAll w).result = .ok () ∧
      ∃ trees : List (Derivation g w g.start 0 w.length), trees.Nodup ∧ (∀ tree, tree ∈ trees) ∧
        ((Forest.new g .unlimited).takeAll w).forest.close.result =
          verdict w.length (trees.map Derivation.yield) := by
  have hdrop : w.drop (Forest.new g .unlimited).consumed = w := rfl
  obtain ⟨hok, hfree, hend, hfinals⟩ := (Free.new hg).takeAll hdrop hw (Nat.zero_le _)
  refine ⟨hok, ?_⟩
  obtain ⟨trees, hnodup, hall, hyields⟩ := Branch.exists_trees hg hfree.finals_apart fun e =>
    (hfinals e).trans (and_congr_right fun _ =>
      ⟨fun ⟨b, hb, hruns⟩ => List.mem_singleton.mp hb ▸ hruns,
        fun hruns => ⟨_, List.mem_singleton.mpr rfl, hruns⟩⟩)
  refine ⟨trees, hnodup, hall, ?_⟩
  rw [hyields, close_of_room hfree.running (hfree.overrun_eq_none none), hend]

/-- An input of more symbols than can be counted is not taken. -/
theorem takeAll_new_of_gt (hg : g.IsBuilt) (hw : maxCount < w.length) :
    ((Forest.new g .unlimited).takeAll w).result =
      .error (.tooManySymbols (maxCount + 1) maxCount) :=
  (Free.new hg).takeAll_of_gt (Nat.zero_le _) (by simpa [Forest.new] using hw)

/-- Where no input has two derivations, the tokens of the only one are the result. -/
theorem close_of_subsingleton (hg : g.IsBuilt) (hw : w.length ≤ maxCount)
    (honly : Subsingleton (Derivation g w g.start 0 w.length)) :
    let fed := (Forest.new g .unlimited).takeAll w
    fed.result = .ok () ∧
      ((∃ tree : Derivation g w g.start 0 w.length,
          fed.forest.close.result = .ok tree.yield) ∨
        IsEmpty (Derivation g w g.start 0 w.length) ∧
          fed.forest.close.result = .error (.mismatch w.length)) := by
  intro fed
  obtain ⟨hok, trees, hnodup, hall, hclose⟩ := exists_trees hg hw
  refine ⟨hok, ?_⟩
  rcases trees with _ | ⟨tree, _ | ⟨tree', rest⟩⟩
  · exact .inr ⟨⟨fun tree => absurd (hall tree) List.not_mem_nil⟩, hclose⟩
  · exact .inl ⟨tree, hclose⟩
  · cases honly.elim tree tree'
    exact absurd List.mem_cons_self (List.nodup_cons.mp hnodup).1

/-- Where no input has two derivations, an input of countable length is accepted if it has
one. -/
theorem accepted_iff (hg : g.IsBuilt) (honly : Subsingleton (Derivation g w g.start 0 w.length))
    {tokens : List τ} :
    let fed := (Forest.new g .unlimited).takeAll w
    fed.result = .ok () ∧ fed.forest.close.result = .ok tokens ↔
      w.length ≤ maxCount ∧ ∃ tree : Derivation g w g.start 0 w.length, tree.yield = tokens := by
  intro fed
  constructor
  · rintro ⟨hok, hclose⟩
    have hw := length_le_of_takeAll hok
    obtain ⟨-, ⟨tree, htree⟩ | ⟨-, hmismatch⟩⟩ := close_of_subsingleton hg hw honly
    · exact ⟨hw, tree, Except.ok.inj (htree.symm.trans hclose)⟩
    · cases hmismatch.symm.trans hclose
  · rintro ⟨hw, tree, rfl⟩
    obtain ⟨hok, ⟨tree', htree⟩ | ⟨hempty, -⟩⟩ := close_of_subsingleton hg hw honly
    · exact ⟨hok, honly.elim tree' tree ▸ htree⟩
    · exact hempty.elim tree

theorem not_ambiguous (hg : g.IsBuilt)
    (honly : Subsingleton (Derivation g w g.start 0 w.length))
    (hok : ((Forest.new g .unlimited).takeAll w).result = .ok ()) {count consumed : Nat} :
    ((Forest.new g .unlimited).takeAll w).forest.close.result ≠
      .error (.ambiguous count consumed) := by
  intro hclose
  obtain ⟨-, ⟨tree, htree⟩ | ⟨-, hmismatch⟩⟩ :=
    close_of_subsingleton hg (length_le_of_takeAll hok) honly
  · cases htree.symm.trans hclose
  · cases hmismatch.symm.trans hclose

/-- Closing a parse without limits counts the derivation trees of the input: it tells that
there is none, or what the only one yields, or how many there are.  An input of more symbols
than can be counted is not taken. -/
theorem close_counts_derivations (hg : g.IsBuilt) (w : List σ) :
    let fed := (Forest.new g .unlimited).takeAll w
    (w.length ≤ maxCount →
      fed.result = .ok () ∧ Finite (Derivation g w g.start 0 w.length) ∧
      (fed.forest.close.result = .error (.mismatch w.length) ↔
        IsEmpty (Derivation g w g.start 0 w.length)) ∧
      (∀ tokens, fed.forest.close.result = .ok tokens ↔
        ∃ tree : Derivation g w g.start 0 w.length,
          (∀ other, other = tree) ∧ tree.yield = tokens) ∧
      ∀ count consumed, fed.forest.close.result = .error (.ambiguous count consumed) ↔
        2 ≤ count ∧ Nat.card (Derivation g w g.start 0 w.length) = count ∧
          consumed = w.length) ∧
    (maxCount < w.length → fed.result = .error (.tooManySymbols (maxCount + 1) maxCount)) := by
  intro fed
  refine ⟨fun hw => ?_, fun hw => ?_⟩
  · obtain ⟨hok, trees, hnodup, hall, hclose⟩ := exists_trees hg hw
    have hbij := (List.Nodup.getBijectionOfForallMemList trees hnodup hall).2
    have hcard : Nat.card (Derivation g w g.start 0 w.length) = trees.length :=
      (Nat.card_eq_of_bijective _ hbij).symm.trans (Nat.card_fin _)
    refine ⟨hok, Finite.of_surjective _ hbij.surjective, ?_, fun tokens => ?_, fun count c => ?_⟩
    · rw [hclose, verdict_eq_mismatch_iff, List.map_eq_nil_iff]
      constructor
      · rintro rfl
        exact ⟨fun tree => absurd (hall tree) List.not_mem_nil⟩
      · intro hempty
        exact List.eq_nil_iff_forall_not_mem.mpr fun tree _ => hempty.false tree
    · rw [hclose, verdict_eq_ok_iff, List.map_eq_singleton_iff]
      constructor
      · rintro ⟨tree, rfl, rfl⟩
        exact ⟨tree, fun other => List.mem_singleton.mp (hall other), rfl⟩
      · rintro ⟨tree, honly, rfl⟩
        have hlength : trees.length = 1 := by
          have : Unique (Derivation g w g.start 0 w.length) := ⟨⟨tree⟩, honly⟩
          rw [← hcard, Nat.card_unique]
        obtain ⟨other, hother⟩ := List.length_eq_one_iff.mp hlength
        exact ⟨tree, honly other ▸ hother, rfl⟩
    · rw [hclose, verdict_eq_ambiguous_iff, List.length_map, hcard]
  · exact (Free.new hg).takeAll_of_gt (Nat.zero_le _) (by simpa [Forest.new] using hw)

/-- One symbol that both ways of a choice match has two derivations. -/
theorem close_counts_derivations_choice :
    ∃ g : Grammar Char Nat, g.IsBuilt ∧ Nat.card (Derivation g ['a'] g.start 0 1) = 2 := by
  have hnew : (Builder.new : Builder Char Nat).Reached := .new
  have hrun : ((Builder.new : Builder Char Nat).build
      (.alt [.oneOf (.of ['a']), .oneOf (.of ['a'])])).toOption.any (fun g => decide
        (((Forest.new g .unlimited).takeAll ['a']).forest.close.result =
          .error (.ambiguous 2 1))) = true := by
    decide +kernel
  obtain ⟨g, hg, hrun⟩ := hnew.exists_build hrun
  obtain ⟨-, -, -, -, hcount⟩ := (close_counts_derivations hg ['a']).1 (by decide)
  exact ⟨g, hg, ((hcount 2 1).mp (of_decide_eq_true hrun)).2.1⟩

end Forest

end Ramify
