import Ramify.Proofs.Continuation
import Ramify.Proofs.Lifecycle

/-!
# Where the branches of a parse come from

While its branches unfold, a parse comes across more of them than it holds: `Cursor.move` turns
one into others until all of them rest (`Forest.ComesAcross`).  Each is the end of a run from the
start of the grammar, through the symbols that were offered since the parse began, or began anew
(`Forest.Offered.leadsTo`).  What was offered before that, and which limits there are, makes no
difference.

So an invariant is proved of runs (`Grammar.LeadsTo.keeps`): of the start, of one move, and of
one symbol.  It holds then of all that any parse comes across.
-/

namespace Ramify

variable {σ τ : Type} [DecidableEq σ]

/-- Operations lead from a parse that has not begun to the forest, and these symbols were offered
since it began, or began anew. -/
inductive Forest.Offered (g : Grammar σ τ) (limits : Limits) : List σ → Forest σ τ → Prop where
  /-- Nothing has happened. -/
  | new : Offered g limits [] (.new g limits)
  /-- A symbol was offered. -/
  | take {w : List σ} {f : Forest σ τ} (h : Offered g limits w f) (symbol : σ) :
      Offered g limits (w ++ [symbol]) (f.take symbol).forest
  /-- The parse was closed. -/
  | close {w : List σ} {f : Forest σ τ} (h : Offered g limits w f) :
      Offered g limits w f.close.forest
  /-- The parse began anew. -/
  | restart {w : List σ} {f : Forest σ τ} (h : Offered g limits w f) :
      Offered g limits [] f.restart

/-- One move turns a branch into another, or into others and that one. -/
def Cursor.Turns (here : Cursor σ τ) (b b' : Branch σ τ) : Prop :=
  ∃ turn, here.move b = some turn ∧ b' ∈ turn.branches

/-- The branches of a forest turn into a branch, or it is one of them, before the next symbol or
at the end. -/
def Forest.ComesAcross (f : Forest σ τ) (next : Option σ) (b' : Branch σ τ) : Prop :=
  ∃ b ∈ f.branches, Relation.ReflTransGen (f.cursor next).Turns b b'

/-- A run from the start leads to a branch that stands after `i` symbols. -/
def Grammar.LeadsTo (g : Grammar σ τ) (w : List σ) (i : Nat) (b : Branch σ τ) : Prop :=
  ∃ n, g.Runs w n 0 (.start g.start) i b

/-! ## Runs from the start -/

namespace Grammar.LeadsTo

variable {g : Grammar σ τ} {w : List σ} {i : Nat} {b b' : Branch σ τ}

theorem start (g : Grammar σ τ) (w : List σ) : g.LeadsTo w 0 (.start g.start) :=
  ⟨0, .refl⟩

theorem move (h : g.LeadsTo w i b) (hmove : (g.cursorAt w i).Moves b b') : g.LeadsTo w i b' := by
  obtain ⟨n, hruns⟩ := h
  exact ⟨1 + n, hruns.trans (.move hmove .refl)⟩

theorem take {symbol : σ} (h : g.LeadsTo w i b) (ht : b.target = none)
    (hw : w[i]? = some symbol) (htake : g.Takes symbol b b') : g.LeadsTo w (i + 1) b' := by
  obtain ⟨n, hruns⟩ := h
  exact ⟨1 + n, hruns.trans (.take ht hw htake .refl)⟩

theorem visits (h : g.LeadsTo w i b) (hvisit : (g.cursorAt w i).Visits b b') :
    g.LeadsTo w i b' := by
  induction hvisit with
  | refl => exact h
  | tail _ hmove ih => exact ih.move hmove

/-- What holds of the start, and is kept by moves and symbols, holds of all that runs lead to. -/
theorem keeps {P : Nat → Branch σ τ → Prop} (h : g.LeadsTo w i b) (hstart : P 0 (.start g.start))
    (hmove : ∀ {i : Nat} {b b' : Branch σ τ}, g.LeadsTo w i b → P i b →
      (g.cursorAt w i).Moves b b' → P i b')
    (htake : ∀ {i : Nat} {b b' : Branch σ τ} {symbol : σ}, g.LeadsTo w i b → P i b →
      b.target = none → w[i]? = some symbol → g.Takes symbol b b' → P (i + 1) b') : P i b := by
  -- The run is followed from its beginning, so what leads to each of its branches is known.
  have hfollow : ∀ {n i j : Nat} {b e : Branch σ τ}, g.Runs w n i b j e → g.LeadsTo w i b →
      P i b → P j e := by
    intro n i j b e hruns
    induction hruns with
    | refl => exact fun _ hb => hb
    | move hmove' _ ih => exact fun hto hb => ih (hto.move hmove') (hmove hto hb hmove')
    | take ht hw htake' _ ih =>
        exact fun hto hb => ih (hto.take ht hw htake') (htake hto hb ht hw htake')
  obtain ⟨n, hruns⟩ := h
  exact hfollow hruns (start g w) hstart

end Grammar.LeadsTo

omit [DecidableEq σ] in
/-- After some symbols of an input the others come next. -/
theorem Grammar.cursorAt_append (g : Grammar σ τ) (w rest : List σ) :
    g.cursorAt (w ++ rest) w.length = ⟨g, w.length, rest.head?⟩ := by
  rw [Grammar.cursorAt, List.getElem?_append_right (Nat.le_refl _), Nat.sub_self,
    List.head?_eq_getElem?]

/-! ## Branches that a parse comes across -/

namespace Forest

variable {g : Grammar σ τ} {limits : Limits} {w : List σ} {f : Forest σ τ} {next : Option σ}
  {b b' : Branch σ τ}

/-- A parse comes across the branches that moves lead to. -/
theorem Sound.exists_visits (hf : f.Sound) (h : f.ComesAcross next b') :
    ∃ b ∈ f.branches, (f.cursor next).Visits b b' := by
  obtain ⟨b, hb, hturns⟩ := h
  refine ⟨b, hb, ?_⟩
  have hbuilt : (f.cursor next).grammar.IsBuilt := hf.built
  induction hturns with
  | refl => exact .refl
  | tail _ hturn ih =>
      obtain ⟨turn, hmove, hmem⟩ := hturn
      exact ih.tail (Cursor.moves_of_move (ih.fits hbuilt (hf.fits b hb)) hmove hmem)

theorem Reachable.exists_offered (h : Reachable g limits f) : ∃ w, Offered g limits w f := by
  induction h with
  | new => exact ⟨[], .new⟩
  | take _ symbol ih =>
      obtain ⟨w, hw⟩ := ih
      exact ⟨w ++ [symbol], hw.take symbol⟩
  | close _ ih =>
      obtain ⟨w, hw⟩ := ih
      exact ⟨w, hw.close⟩
  | restart _ ih =>
      obtain ⟨w, hw⟩ := ih
      exact ⟨[], hw.restart⟩

namespace Offered

theorem reachable (h : Offered g limits w f) : Reachable g limits f := by
  induction h with
  | new => exact .new
  | take _ symbol ih => exact ih.take symbol
  | close _ ih => exact ih.close
  | restart _ ih => exact ih.restart

theorem lives (h : Offered g limits w f) : Lives g limits f := by
  induction h with
  | new => exact .new g limits
  | take _ symbol ih => exact ih.take symbol
  | close _ ih => exact ih.perform .close
  | restart _ ih => exact ih.perform .restart

/-- A parse that has taken all that was offered looks at the first symbol of what follows. -/
theorem cursor_eq (h : Offered g limits w f) (hcount : f.consumed = w.length) (rest : List σ) :
    f.cursor rest.head? = g.cursorAt (w ++ rest) w.length := by
  rw [Grammar.cursorAt_append, Forest.cursor, h.lives.grammar, hcount]

/-- A forest that holds branches has taken all that was offered, and a run through it leads to
each of them, whatever follows. -/
theorem leadsTo_of_mem (h : Offered g limits w f) (hg : g.IsBuilt) (hb : b ∈ f.branches) :
    f.consumed = w.length ∧ ∀ rest, g.LeadsTo (w ++ rest) w.length b := by
  induction h generalizing b with
  | new =>
      cases List.mem_singleton.mp hb
      exact ⟨rfl, fun rest => .start g rest⟩
  | @take w f h symbol ih =>
      rcases take_cases f symbol with
        ⟨reason, hfault, -, hforest⟩ | ⟨_, -, hforest | hforest⟩ | ⟨-, -, -, hforest⟩
      · rw [hforest, h.lives.stopped reason hfault] at hb
        cases hb
      · rw [hforest] at hb
        cases hb
      · rw [hforest] at hb
        cases hb
      · have hf := h.reachable.tidy hg
        rw [hforest, hf.advanced_branches] at hb
        obtain ⟨r, hr, htake⟩ := List.mem_filterMap.mp hb
        obtain ⟨b₀, hb₀, hvisit, hrest, -⟩ := hf.visits_of_mem_rested hr
        obtain ⟨hcount, hto⟩ := ih hb₀
        have hgrammar := h.lives.grammar
        rw [hforest]
        refine ⟨by simp [Forest.advanced, hcount], fun rest => ?_⟩
        have hcursor : f.cursor (some symbol) = g.cursorAt (w ++ symbol :: rest) w.length :=
          h.cursor_eq hcount (symbol :: rest)
        rw [hcursor] at hvisit
        rw [hgrammar] at htake
        have hnext : (w ++ symbol :: rest)[w.length]? = some symbol := by simp
        rw [List.append_assoc, List.length_append]
        exact ((hto (symbol :: rest)).visits hvisit).take (Cursor.target_of_move_eq_none hrest)
          hnext (Grammar.consume_eq_some_iff.mp htake)
  | @close w f h ih =>
      rw [close_forest] at hb
      cases hb
  | @restart w f h ih =>
      cases List.mem_singleton.mp hb
      rw [h.lives.grammar]
      exact ⟨rfl, fun rest => .start g rest⟩

/-- A run through what was offered leads to every branch that a parse comes across. -/
theorem leadsTo (h : Offered g limits w f) (hg : g.IsBuilt) (hb : f.ComesAcross next b) :
    f.cursor next = g.cursorAt (w ++ next.toList) w.length ∧
      g.LeadsTo (w ++ next.toList) w.length b := by
  obtain ⟨b₀, hb₀, hvisit⟩ := (h.reachable.tidy hg).exists_visits hb
  obtain ⟨hcount, hto⟩ := h.leadsTo_of_mem hg hb₀
  have hcursor := h.cursor_eq hcount next.toList
  rw [Option.head?_toList] at hcursor
  exact ⟨hcursor, (hto next.toList).visits (hcursor ▸ hvisit)⟩

end Offered

end Forest

end Ramify
