import Ramify.Proofs.Rewriting
import Ramify.Proofs.Unambiguous

/-!
# A loop has no use for the empty text

The body of a loop may be padded: the empty text is added to it as a further choice, beside its
own choices or around them (`Expr.Padded`).  A round of a loop takes a symbol at least, and the
empty text has no such tree, so a padded loop has the same rounds (`Grammar.PaddedLoop.trees`).
What is decided about a loop when a grammar is built is the same as well, as a loop can be empty
anyhow and the empty text has no left corners.
-/

namespace Ramify

variable {σ τ : Type}

/-- The body of a loop may be empty as well. -/
inductive Expr.Padded : Expr σ τ → Expr σ τ → Prop where
  /-- A choice between the body and the empty text. -/
  | nested (e : Expr σ τ) : Padded (.star e) (.star (.alt [e, .empty]))
  /-- If the body is a choice, the empty text is one more way of it. -/
  | flat (e : Expr σ τ) : Padded (.star e) (.star e.optional)

/-- The body of a padded loop is a choice whose last way is the empty text.  Before it stands the
body of the loop, or the ways of it. -/
theorem Expr.Padded.exists_ways {e e' : Expr σ τ} (h : e.Padded e') :
    ∃ body ways, e = .star body ∧ e' = .star (.alt (ways ++ [.empty])) ∧
      (ways = [body] ∨ body = .alt ways) := by
  cases h with
  | nested body => exact ⟨body, [body], rfl, rfl, .inl rfl⟩
  | flat body =>
      cases body with
      | alt ways => exact ⟨.alt ways, ways, rfl, rfl, .inr rfl⟩
      | empty | oneOf | literal | guard | seq | star | times | rule | emit | fold | observe =>
          exact ⟨_, [_], rfl, rfl, .inl rfl⟩

theorem Expr.Padded.mentions_iff {e e' : Expr σ τ} (h : e.Padded e') {index : RuleId} :
    e.Mentions index ↔ e'.Mentions index := by
  obtain ⟨body, ways, rfl, rfl, rfl | rfl⟩ := h.exists_ways
  · simp [Expr.Mentions, Expr.MentionsAny]
  · simp [Expr.Mentions, Expr.mentionsAny_iff, or_and_right, exists_or]

/-! ## Places of padded loops -/

/-- A loop at one place is the padded loop at another. -/
structure Grammar.PaddedLoop (g g' : Grammar σ τ) (M : NodeId → NodeId → Prop)
    (a body a' choice : NodeId) (ways : List NodeId) (stop : NodeId) : Prop where
  /-- The first is a loop over `body`. -/
  isLoop : g.nodes[a]? = some (.star body)
  /-- The second is a loop over `choice`. -/
  isLoop' : g'.nodes[a']? = some (.star choice)
  /-- That is a choice between `ways` and what stands at `stop`. -/
  isChoice : g'.nodes[choice]? = some (.alt (ways ++ [stop]))
  /-- That is the empty text. -/
  isEmpty : g'.nodes[stop]? = some .empty
  /-- The only way is related to the body, or the ways are related to those of the body. -/
  related : (∃ way, ways = [way] ∧ M body way) ∨
    ∃ plain, g.nodes[body]? = some (.alt plain) ∧ List.Forall₂ M plain ways

theorem exists_of_forall₂_concat {α β : Type} {R : α → β → Prop} {xs : List α} {ys : List β}
    {y : β} (h : List.Forall₂ R xs (ys ++ [y])) :
    ∃ front x, xs = front ++ [x] ∧ List.Forall₂ R front ys ∧ R x y := by
  have hfront := List.forall₂_take_append _ _ _ h
  have hlast := List.forall₂_drop_append _ _ _ h
  obtain ⟨x, rest, hx, hrest, hdrop⟩ := List.forall₂_cons_right_iff.mp hlast
  rw [List.forall₂_nil_right_iff.mp hrest] at hdrop
  refine ⟨xs.take ys.length, x, ?_, hfront, hx⟩
  rw [← hdrop, List.take_append_drop]

theorem Arena.Stands.paddedLoop {g g' : Grammar σ τ} (M : NodeId → NodeId → Prop) {a a' : NodeId}
    {e e' : Expr σ τ} (h : Stands g.nodes a e) (h' : Stands g'.nodes a' e') (hpad : e.Padded e')
    (hM : ∀ {id id' : NodeId} {e : Expr σ τ}, Stands g.nodes id e → Stands g'.nodes id' e →
      M id id') :
    ∃ body choice ways stop, g.PaddedLoop g' M a body a' choice ways stop := by
  obtain ⟨body, ways, rfl, rfl, hways⟩ := hpad.exists_ways
  cases h with
  | star hloop hbody =>
      cases h' with
      | star hloop' hchoice =>
          cases hchoice with
          | alt hchoice hids =>
              obtain ⟨front, stop, rfl, hfront, hstop⟩ := exists_of_forall₂_concat hids
              cases hstop with
              | empty hstop =>
                  refine ⟨_, _, front, stop, hloop, hloop', hchoice, hstop, ?_⟩
                  rcases hways with rfl | rfl
                  · cases hfront with
                    | cons hway hnil =>
                        cases hnil
                        exact .inl ⟨_, rfl, hM hbody hway⟩
                  · cases hbody with
                    | alt hplain hids =>
                        exact .inr ⟨_, hplain, stands_same hM hids hfront⟩

/-! ## Building with padded loops -/

namespace Grammar.PaddedLoop

variable {g g' : Grammar σ τ} {M : NodeId → NodeId → Prop} {a body a' choice stop : NodeId}
  {ways : List NodeId}

/-- Left corners from the loop come to an end if those from the padded loop do. -/
theorem acc (h : g.PaddedLoop g' M a body a' choice ways stop)
    (hacc : ∀ {b b' : NodeId}, M b b' → Relation.TransGen g'.LeftCorner b' a' →
      Acc g.LeftCorner b) : Acc g.LeftCorner a := by
  have hway : ∀ way ∈ ways, Relation.TransGen g'.LeftCorner way a' := by
    intro way hway
    have hin : g'.LeftCorner way choice := by simp [LeftCorner, leftCorners, h.isChoice, hway]
    have hchoice : g'.LeftCorner choice a' := by simp [LeftCorner, leftCorners, h.isLoop']
    exact .tail (.single hin) hchoice
  have hbody : Acc g.LeftCorner body := by
    rcases h.related with ⟨way, rfl, hM⟩ | ⟨plain, hn, hplain⟩
    · exact hacc hM (hway way List.mem_cons_self)
    · refine Acc.intro body fun b hb => ?_
      simp only [LeftCorner, leftCorners, hn] at hb
      obtain ⟨way, hmem, hM⟩ := Multiset.exists_mem_of_rel_of_mem (rel_coe hplain) hb
      exact hacc hM (hway way hmem)
  refine Acc.intro a fun b hb => ?_
  simp only [LeftCorner, leftCorners, h.isLoop] at hb
  cases List.mem_singleton.mp hb
  exact hbody

/-- Left corners from the padded loop come to an end if those from the loop do. -/
theorem acc' (h : g.PaddedLoop g' M a body a' choice ways stop)
    (hacc : ∀ {b b' : NodeId}, M b b' → Relation.TransGen g.LeftCorner b a →
      Acc g'.LeftCorner b') : Acc g'.LeftCorner a' := by
  have hbody : g.LeftCorner body a := by simp [LeftCorner, leftCorners, h.isLoop]
  have hway : ∀ way ∈ ways, Acc g'.LeftCorner way := by
    intro way hway
    rcases h.related with ⟨only, rfl, hM⟩ | ⟨plain, hn, hplain⟩
    · cases List.mem_singleton.mp hway
      exact hacc hM (.single hbody)
    · obtain ⟨b, hmem, hM⟩ := Multiset.exists_mem_of_rel_of_mem (rel_coe hplain.flip) hway
      have hb : g.LeftCorner b body := by simpa [LeftCorner, leftCorners, hn] using hmem
      exact hacc hM (.tail (.single hb) hbody)
  have hstop : Acc g'.LeftCorner stop := by
    refine Acc.intro stop fun b hb => ?_
    simp [LeftCorner, leftCorners, h.isEmpty] at hb
  have hchoice : Acc g'.LeftCorner choice := by
    refine Acc.intro choice fun b hb => ?_
    simp only [LeftCorner, leftCorners, h.isChoice] at hb
    rcases List.mem_append.mp hb with hmem | hmem
    · exact hway b hmem
    · exact List.mem_singleton.mp hmem ▸ hstop
  refine Acc.intro a' fun b hb => ?_
  simp only [LeftCorner, leftCorners, h.isLoop'] at hb
  exact List.mem_singleton.mp hb ▸ hchoice

variable [DecidableEq σ] {w : List σ} {i j : Nat}

/-- A padded loop has the rounds of the loop, as the empty text has no tree of a symbol. -/
theorem trees (h : g.PaddedLoop g' M a body a' choice ways stop)
    (hin : InsideCorresponds g g' w M a i j) :
    Corresponds (g.trees w a i j) (g'.trees w a' i j) := by
  have hbody : g.LeftCorner body a := by simp [LeftCorner, leftCorners, h.isLoop]
  have hround : ∀ {k l : Nat}, i ≤ k → k < l → l ≤ j →
      Corresponds (g.trees w body k l) (g'.trees w choice k l) := by
    intro k l hik hkl hlj
    have hstop : IsEmpty (Derivation g' w stop k l) := by
      refine ⟨fun tree => ?_⟩
      obtain ⟨form, rfl⟩ := tree.exists_form h.isEmpty
      cases form
      exact Nat.lt_irrefl k hkl
    have hways : Corresponds (g.trees w body k l) (g'.forms w (.alt ways) k l) := by
      rcases h.related with ⟨way, rfl, hM⟩ | ⟨plain, hn, hplain⟩
      · exact (hin.corner hM (.single hbody) hik hlj).trans forms_alt_singleton.symm
      · have hcorner : ∀ b ∈ plain, Relation.TransGen g.LeftCorner b a := by
          intro b hb
          have hb : g.LeftCorner b body := by simp [LeftCorner, leftCorners, hn, hb]
          exact .tail (.single hb) hbody
        have hall := (List.forall₂_and_left _ _).mpr ⟨hcorner, hplain⟩
        exact (trees_forms hn).trans
          (forms_alt (hall.imp fun _ _ hway => hin.corner hway.2 hway.1 hik hlj))
    exact hways.trans ((forms_alt_concat hstop).symm.trans (trees_forms h.isChoice).symm)
  have hloops := loops_of_round (Nat.le_refl i) hround
  exact (trees_forms h.isLoop).trans (forms_star.trans (hloops.trans
    (forms_star.symm.trans (trees_forms h.isLoop').symm)))

end Grammar.PaddedLoop

namespace Builder

variable {builder builder' : Builder σ τ} {told told' : List (Option (Expr σ τ))}
  {start start' : Expr σ τ}

theorem isNullable_star {g : Grammar σ τ} (hmarks : g.nullable = Nullable.compute g.nodes g.rules)
    {a body : NodeId} (hn : g.nodes[a]? = some (.star body)) : g.isNullable a = true :=
  Grammar.isNullable_of_holds hmarks hn rfl

/-- A builder is well formed just if it is so with padded loops. -/
theorem Holds.wellFormed_padded_iff (h : builder.Holds told) (h' : builder'.Holds told')
    (hreached : builder.Reached) (hreached' : builder'.Reached)
    (hrules : RewrittenAll Expr.Padded told told') (hstart : start.Rewritten Expr.Padded start') :
    builder.WellFormed start ↔ builder'.WellFormed start' := by
  constructor
  · intro hwell
    refine h'.wellFormed_of_rewritten h hreached' hwell hrules.back hstart.back
      (fun hpad => hpad.mentions_iff.mpr) ?_ ?_
    · rintro a' a ⟨e', e, hpad, hstands', hstands⟩
      obtain ⟨body, ways, rfl, -, -⟩ := Expr.Padded.exists_ways hpad
      cases hstands with
      | star hn => exact isNullable_star rfl hn
    · rintro a' a ⟨e', e, hpad, hstands', hstands⟩ hacc
      obtain ⟨body, choice, ways, stop, hloop⟩ := hstands.paddedLoop
        (flip (Arena.Related (Expr.Rewritten (flip Expr.Padded)) _ _)) hstands' hpad
        fun hid hid' => Arena.related_self hid' hid
      exact hloop.acc' hacc
  · intro hwell'
    refine h.wellFormed_of_rewritten h' hreached hwell' hrules hstart
      (fun hpad => hpad.mentions_iff.mp) ?_ ?_
    · rintro a a' ⟨e, e', hpad, hstands, hstands'⟩
      obtain ⟨body, ways, -, rfl, -⟩ := Expr.Padded.exists_ways hpad
      cases hstands' with
      | star hn => exact isNullable_star rfl hn
    · rintro a a' ⟨e, e', hpad, hstands, hstands'⟩ hacc
      obtain ⟨body, choice, ways, stop, hloop⟩ := hstands.paddedLoop
        (Arena.Related (Expr.Rewritten Expr.Padded) _ _) hstands' hpad Arena.related_self
      exact hloop.acc hacc

/-- Parses come to the same when loops are padded. -/
theorem Holds.answer_padded [DecidableEq σ] (h : builder.Holds told) (h' : builder'.Holds told')
    (hreached : builder.Reached) (hreached' : builder'.Reached)
    (hwell : builder.WellFormed start) (hwell' : builder'.WellFormed start')
    (hrules : RewrittenAll Expr.Padded told told') (hstart : start.Rewritten Expr.Padded start')
    (w : List σ) : (builder.draft start).answer w = (builder'.draft start').answer w := by
  refine h.answer_eq h' hreached hreached' hwell hwell' hrules.exists_body hstart w ?_
  rintro a a' i j ⟨e, e', hpad, hstands, hstands'⟩ hin
  obtain ⟨body, choice, ways, stop, hloop⟩ := hstands.paddedLoop
    (Arena.Related (Expr.Rewritten Expr.Padded) _ _) hstands' hpad Arena.related_self
  exact hloop.trees hin

end Builder

/-! ## Runs of a padded loop -/

section Run

variable [DecidableEq σ] {g : Grammar σ τ} {w : List σ}

/-- Rounds of a loop are told by where they begin and end, if the trees of its body that take a
symbol are told by where they begin. -/
theorem Rounds.eq_of_told {body : NodeId}
    (h : ∀ ⦃k l l' : Nat⦄ (tree : Derivation g w body k l) (tree' : Derivation g w body k l'),
      k < l → k < l' → (⟨l, tree⟩ : Σ l, Derivation g w body k l) = ⟨l', tree'⟩) :
    ∀ {i j : Nat} (rounds rounds' : Rounds g w body i j), rounds = rounds'
  | _, _, .done, .done => rfl
  | _, _, .done, .round _ hlt rounds => absurd rounds.le (Nat.not_le.mpr hlt)
  | _, _, .round _ hlt rounds, .done => absurd rounds.le (Nat.not_le.mpr hlt)
  | _, _, .round tree hlt rounds, .round tree' hlt' rounds' => by
      cases h tree tree' hlt hlt'
      cases Rounds.eq_of_told h rounds rounds'
      rfl

/-- A symbol of a set, a loop over a symbol of the set or the empty text, and a symbol again. -/
structure Grammar.PaddedRun (g : Grammar σ τ) (set : SymbolSet σ) (first loop last : NodeId) :
    Prop where
  /-- The three parts. -/
  isSeq : g.nodes[g.start]? = some (.seq [first, loop, last])
  /-- The first symbol. -/
  isFirst : g.nodes[first]? = some (.oneOf set)
  /-- The last symbol. -/
  isLast : g.nodes[last]? = some (.oneOf set)
  /-- The loop between them. -/
  isLoop : ∃ body symbol stop, g.nodes[loop]? = some (.star body) ∧
    g.nodes[body]? = some (.alt [symbol, stop]) ∧ g.nodes[symbol]? = some (.oneOf set) ∧
    g.nodes[stop]? = some .empty

namespace Grammar.PaddedRun

variable {set : SymbolSet σ} {first loop last : NodeId}

/-- A tree of a choice between a symbol and the empty text that takes a symbol is one of the
symbol. -/
theorem exists_tree_symbol {body symbol stop : NodeId} {k l : Nat}
    (hbody : g.nodes[body]? = some (.alt [symbol, stop])) (hstop : g.nodes[stop]? = some .empty)
    (tree : Derivation g w body k l) (hlt : k < l) :
    ∃ inner : Derivation g w symbol k l, tree = .of hbody (.alt 0 rfl inner) := by
  obtain ⟨form, rfl⟩ := tree.exists_form hbody
  cases form with
  | alt index hc inner =>
      rcases index with _ | _ | index
      · cases hc
        exact ⟨inner, rfl⟩
      · cases hc
        obtain ⟨form, rfl⟩ := inner.exists_form hstop
        cases form
        exact absurd hlt (Nat.lt_irrefl k)
      · cases hc

/-- There is one tree at most of a run. -/
theorem determined (h : g.PaddedRun set first loop last) :
    g.Determined w g.start (· = w.length) := by
  obtain ⟨body, symbol, stop, hloop, hbody, hsymbol, hstop⟩ := h.isLoop
  have htold : g.Determined w symbol (fun _ => True) := .oneOf hsymbol
  have hrounds : ∀ {i j : Nat} (rounds rounds' : Rounds g w body i j), rounds = rounds' := by
    refine Rounds.eq_of_told fun k l l' tree tree' hlt hlt' => ?_
    obtain ⟨inner, rfl⟩ := exists_tree_symbol hbody hstop tree hlt
    obtain ⟨inner', rfl⟩ := exists_tree_symbol hbody hstop tree' hlt'
    cases htold inner inner' trivial trivial
    rfl
  have hdetermined : g.Determined w loop (· + 1 = w.length) := by
    intro i j j' tree tree' hj hj'
    obtain rfl : j = j' := Nat.succ.inj (hj.trans hj'.symm)
    obtain ⟨form, rfl⟩ := tree.exists_form hloop
    obtain ⟨form', rfl⟩ := tree'.exists_form hloop
    cases form with
    | star rounds =>
        cases form' with
        | star rounds' => rw [hrounds rounds rounds']
  have hlast : g.DeterminedAll w [last] (· = w.length) := .single (.oneOf h.isLast)
  have hrest : g.DeterminedAll w [loop, last] (· = w.length) := by
    refine .cons hdetermined hlast fun k j trees hj => ?_
    cases trees with
    | cons tree trees =>
        cases trees
        obtain ⟨-, -, -, hend, -⟩ := tree.of_oneOf h.isLast
        omega
  have hfirst : g.Determined w first (fun _ => True) := .oneOf h.isFirst
  exact .seq h.isSeq (.cons hfirst hrest fun _ _ _ _ => trivial)

/-- There is a tree of a run, and it yields nothing. -/
theorem exists_tree (h : g.PaddedRun set first loop last)
    (hrun : ∀ symbol ∈ w, set.contains symbol = true) (hlength : 2 ≤ w.length) :
    ∃ tree : Derivation g w g.start 0 w.length, tree.yield = [] := by
  obtain ⟨body, symbol, stop, hloop, hbody, hsymbol, hstop⟩ := h.isLoop
  have htree : ∀ {id : NodeId}, g.nodes[id]? = some (.oneOf set) → ∀ k, k < w.length →
      ∃ tree : Derivation g w id k (k + 1), tree.yield = [] := fun hn k hk =>
    ⟨.of hn (.oneOf (List.getElem?_eq_getElem hk) (hrun _ (List.getElem_mem hk))), rfl⟩
  have hrounds : ∀ m k l, k + m = l → l < w.length →
      ∃ rounds : Rounds g w body k l, rounds.yield = [] := by
    intro m
    induction m with
    | zero =>
        rintro k l rfl -
        exact ⟨.done, rfl⟩
    | succ m ih =>
        intro k l hkl hl
        obtain ⟨rounds, hrounds⟩ := ih (k + 1) l (by omega) hl
        obtain ⟨tree, htree⟩ := htree hsymbol k (by omega)
        refine ⟨.round (.of hbody (.alt 0 rfl tree)) (Nat.lt_succ_self k) rounds, ?_⟩
        simp only [Rounds.yield, Derivation.yield, Match.yield, htree, hrounds, List.append_nil]
  obtain ⟨last, hend⟩ : ∃ last, last + 1 = w.length := ⟨w.length - 1, by omega⟩
  obtain ⟨opening, hopening⟩ := htree h.isFirst 0 (by omega)
  obtain ⟨rounds, hinner⟩ := hrounds (last - 1) 1 last (by omega) (by omega)
  obtain ⟨closing, hclosing⟩ := htree h.isLast last (by omega)
  rw [← hend]
  refine ⟨.of h.isSeq (.seq (.cons opening (.cons (.of hloop (.star rounds))
    (.cons closing .nil)))), ?_⟩
  simp only [Derivation.yield, Match.yield, Derivations.yield, hopening, hinner, hclosing,
    List.append_nil]

end Grammar.PaddedRun

omit [DecidableEq σ] in
/-- A symbol, a padded loop over it and the symbol again have the places of a run. -/
theorem Arena.Stands.paddedRun {g : Grammar σ τ} {set : SymbolSet σ}
    (h : Stands g.nodes g.start
      (.seq [.oneOf set, .star (.alt [.oneOf set, .empty]), .oneOf set])) :
    ∃ first loop last, g.PaddedRun set first loop last :=
  match h with
  | .seq hseq (.cons (.oneOf hfirst) (.cons (.star hloop (.alt hbody hways)) hrest)) =>
      match hways, hrest with
      | .cons (.oneOf hsymbol) (.cons (.empty hstop) .nil), .cons (.oneOf hlast) .nil =>
          ⟨_, _, _, hseq, hfirst, hlast, _, _, _, hloop, hbody, hsymbol, hstop⟩

/-- A run of two symbols of a set at least has one tree, and is accepted without tokens. -/
theorem Grammar.PaddedRun.accepts {set : SymbolSet σ} {first loop last : NodeId}
    (h : g.PaddedRun set first loop last) (hg : g.IsBuilt)
    (hrun : ∀ symbol ∈ w, set.contains symbol = true) (hlength : 2 ≤ w.length)
    (hcount : w.length ≤ maxCount) :
    Nat.card (Derivation g w g.start 0 w.length) = 1 ∧ g.answer w = (.ok (), .ok []) := by
  have honly : Subsingleton (Derivation g w g.start 0 w.length) := h.determined.subsingleton 0
  obtain ⟨tree, hyield⟩ := h.exists_tree hrun hlength
  obtain ⟨hok, hclose⟩ := (Forest.accepted_iff hg honly).mpr ⟨hcount, tree, hyield⟩
  exact ⟨Nat.card_eq_one_iff_unique.mpr ⟨honly, ⟨tree⟩⟩, Prod.ext hok hclose⟩

end Run

namespace Builder

/-- A loop has no use for the empty text.  Let two descriptions of a grammar differ in that the
bodies of loops may be empty as well, by a choice around them or as one more way of them.  Then
both make a grammar or neither does, and parses without limits come to the same on every input.

In particular a symbol of a set, any number of such symbols where each may be missing, and one
more symbol make a grammar that accepts every run of two symbols at least, with one
derivation. -/
theorem padding_adds_nothing [DecidableEq σ] (steps steps' : List (Step σ τ))
    (start start' : Expr σ τ) :
    (RewrittenAll Expr.Padded (bodies steps) (bodies steps') →
      start.Rewritten Expr.Padded start' →
      ((∃ g, (Builder.new.run steps).1.build start = .ok g) ↔
        ∃ g', (Builder.new.run steps').1.build start' = .ok g') ∧
      ∀ g g', (Builder.new.run steps).1.build start = .ok g →
        (Builder.new.run steps').1.build start' = .ok g' → ∀ w, g.answer w = g'.answer w) ∧
    ∀ set : SymbolSet σ, ∃ g : Grammar σ τ,
      Builder.new.build (.oneOf set ++ .star (Expr.optional (.oneOf set)) ++ .oneOf set) = .ok g ∧
      ∀ w : List σ, (∀ symbol ∈ w, set.contains symbol = true) → 2 ≤ w.length →
        w.length ≤ maxCount →
          Nat.card (Derivation g w g.start 0 w.length) = 1 ∧ g.answer w = (.ok (), .ok []) := by
  have hholds : (Builder.new.run steps).1.Holds (bodies steps) := Holds.new.run steps
  have hholds' : (Builder.new.run steps').1.Holds (bodies steps') := Holds.new.run steps'
  have hreached : (Builder.new.run steps).1.Reached := Reached.new.run steps
  have hreached' : (Builder.new.run steps').1.Reached := Reached.new.run steps'
  refine ⟨fun hrules hstart => ⟨?_, ?_⟩, fun set => ?_⟩
  · simp only [build_eq_ok_iff, exists_and_left, exists_eq, and_true]
    exact hholds.wellFormed_padded_iff hholds' hreached hreached' hrules hstart
  · intro g g' hbuild hbuild' w
    obtain ⟨hwell, rfl⟩ := build_eq_ok_iff.mp hbuild
    obtain ⟨hwell', rfl⟩ := build_eq_ok_iff.mp hbuild'
    exact hholds.answer_padded hholds' hreached hreached' hwell hwell' hrules hstart w
  · let run : Expr σ τ := .seq [.oneOf set, .star (.alt [.oneOf set, .empty]), .oneOf set]
    have hwell : (Builder.new : Builder σ τ).WellFormed run :=
      wellFormed_new fun index => by simp [run, Expr.Mentions, Expr.MentionsAny]
    have hbuild : Builder.new.build run = .ok (Builder.new.draft run) :=
      build_eq_ok_iff.mpr ⟨hwell, rfl⟩
    have hstands : Arena.Stands (Builder.new.draft run).nodes (Builder.new.draft run).start run :=
      Arena.stands_place run
    obtain ⟨first, loop, last, hplaces⟩ := hstands.paddedRun
    exact ⟨Builder.new.draft run, hbuild, fun w hrun hlength hcount =>
      hplaces.accepts ⟨_, _, .new, hbuild⟩ hrun hlength hcount⟩

/-- A loop in a rule and a loop over a choice, each padded. -/
theorem padding_adds_nothing_letters :
    let a : Expr Char Nat := .emit (.oneOf (.of ['a'])) (.fixed 1)
    let b : Expr Char Nat := .literal ['b']
    (∃ g g', (Builder.new.run [.declare "letters", .define 0 (.star a)]).1.build
        (.seq [.rule 0, .star (.alt [a, b])]) = .ok g ∧
      (Builder.new.run [.declare "letters", .define 0 (.star (.alt [a, .empty]))]).1.build
        (.seq [.rule 0, .star (.alt [a, b, .empty])]) = .ok g' ∧
      ∀ w, g.answer w = g'.answer w) ∧
    ∃ g : Grammar Char Nat, Builder.new.build (.oneOf (.of ['T']) ++
        .star (Expr.optional (.oneOf (.of ['T']))) ++ .oneOf (.of ['T'])) = .ok g ∧
      Nat.card (Derivation g ['T', 'T', 'T'] g.start 0 3) = 1 ∧
      g.answer ['T', 'T', 'T'] = (.ok (), .ok []) := by
  intro a b
  have hrules : RewrittenAll Expr.Padded [some (.star a)] [some (.star (.alt [a, .empty]))] :=
    .cons (.some (.here (.nested a))) .nil
  have hstart : (Expr.seq [.rule 0, .star (.alt [a, b])]).Rewritten Expr.Padded
      (.seq [.rule 0, .star (.alt [a, b, .empty])]) :=
    .seq (.cons (.rule 0) (.cons (.here (.flat (.alt [a, b]))) .nil))
  obtain ⟨hsame, hruns⟩ := padding_adds_nothing [.declare "letters", .define 0 (.star a)]
    [.declare "letters", .define 0 (.star (.alt [a, .empty]))]
    (.seq [.rule 0, .star (.alt [a, b])]) (.seq [.rule 0, .star (.alt [a, b, .empty])])
  obtain ⟨hbuilds, hanswer⟩ := hsame hrules hstart
  constructor
  · have hplain : ((Builder.new.run [.declare "letters", .define 0 (.star a)]).1.build
        (.seq [.rule 0, .star (.alt [a, b])])).toOption.isSome = true := by
      decide +kernel
    obtain ⟨g, hg⟩ := exists_build hplain
    obtain ⟨g', hg'⟩ := hbuilds.mp ⟨g, hg⟩
    exact ⟨g, g', hg, hg', hanswer g g' hg hg'⟩
  · obtain ⟨g, hg, hrun⟩ := hruns (.of ['T'])
    obtain ⟨hcard, hresult⟩ := hrun ['T', 'T', 'T'] (by simp) (by decide) (by decide)
    exact ⟨g, hg, hcard, hresult⟩

end Builder

end Ramify
