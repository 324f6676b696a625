import Ramify.Proofs.Enclosure

/-!
# Marks and the buffer of symbols

A frame is marked with the numbers of symbols and of tokens there were when its construct was
entered.  The marks do not decrease inwards, and none is above the numbers there are now
(`MarksUpTo`).  All open emissions that listen share one buffer: it begins at the mark of the
outermost one, and is empty when there is none (`Branch.Listens`).

So a mark never lies outside of the buffer or of the tokens.  What an emission hands to its function
are the symbols that its body has matched, and what a fold merges are the tokens of its body, and
none that was there before (`Forest.Offered.marks_exact`).
-/

namespace Ramify

variable {σ τ : Type}

/-- Whether the node is an emission that listens to symbols. -/
def Node.listens : Node σ τ → Bool
  | .emit _ (.ofSymbols _) => true
  | _ => false

/-- The emissions that listen to symbols among what is open. -/
def Grammar.ears (g : Grammar σ τ) (frames : List Frame) : List Frame :=
  frames.filter fun frame => g.nodes[frame.node]?.any Node.listens

/-- The marks do not decrease inwards, and are at most these. -/
def MarksUpTo (symbols tokens : Nat) : List Frame → Prop
  | [] => True
  | frame :: frames =>
    frame.symbolsBefore ≤ symbols ∧ frame.tokensBefore ≤ tokens ∧
      MarksUpTo frame.symbolsBefore frame.tokensBefore frames

/-- The emissions that listen are counted, and the buffer is that of the outermost one. -/
structure Branch.Listens (g : Grammar σ τ) (b : Branch σ τ) : Prop where
  /-- As many listen as are open. -/
  count : b.listeners = (g.ears b.frames).length
  /-- Nothing is kept if none is. -/
  quiet : b.listeners = 0 → b.heard = []
  /-- The buffer begins at the mark of the outermost one. -/
  since : ∀ outermost, (g.ears b.frames).getLast? = some outermost →
    b.heardFrom = outermost.symbolsBefore

/-- A branch whose marks and whose buffer are exact after the symbols `w`. -/
structure Branch.Marked (g : Grammar σ τ) (w : List σ) (b : Branch σ τ) : Prop
    extends b.Listens g where
  /-- The buffer holds all symbols since it begins. -/
  buffer : 0 < b.listeners → b.heard.reverse = w.drop b.heardFrom
  /-- Marks do not decrease inwards. -/
  ordered : b.frames.Pairwise fun inner outer =>
    outer.symbolsBefore ≤ inner.symbolsBefore ∧ outer.tokensBefore ≤ inner.tokensBefore
  /-- No mark is above the numbers of symbols and of tokens. -/
  bounded : ∀ frame ∈ b.frames,
    frame.symbolsBefore ≤ w.length ∧ frame.tokensBefore ≤ b.tokens.length

/-! ## Marks -/

namespace MarksUpTo

variable {symbols tokens : Nat} {frame : Frame} {frames : List Frame}

theorem mono {symbols' tokens' : Nat} (h : MarksUpTo symbols tokens frames)
    (hs : symbols ≤ symbols') (ht : tokens ≤ tokens') : MarksUpTo symbols' tokens' frames := by
  cases frames with
  | nil => trivial
  | cons frame frames => exact ⟨h.1.trans hs, h.2.1.trans ht, h.2.2⟩

theorem bounded (h : MarksUpTo symbols tokens frames) (hframe : frame ∈ frames) :
    frame.symbolsBefore ≤ symbols ∧ frame.tokensBefore ≤ tokens := by
  induction frames generalizing symbols tokens with
  | nil => cases hframe
  | cons first frames ih =>
      rcases List.mem_cons.mp hframe with rfl | hframe
      · exact ⟨h.1, h.2.1⟩
      · exact ih (h.2.2.mono h.1 h.2.1) hframe

theorem pairwise (h : MarksUpTo symbols tokens frames) : frames.Pairwise fun inner outer =>
    outer.symbolsBefore ≤ inner.symbolsBefore ∧ outer.tokensBefore ≤ inner.tokensBefore := by
  induction frames generalizing symbols tokens with
  | nil => exact .nil
  | cons first frames ih => exact .cons (fun _ hframe => h.2.2.bounded hframe) (ih h.2.2)

end MarksUpTo

/-- A new frame is marked with the numbers there are; and what is closed leaves the tokens from
before it was entered, so the marks below stay within them. -/
theorem Branch.Shifts.marksUpTo {g : Grammar σ τ} {position : Nat} {b b' : Branch σ τ}
    (h : b.Shifts g position b') (hb : MarksUpTo position b.tokens.length b.frames) :
    MarksUpTo position b'.tokens.length b'.frames := by
  cases h with
  | stay ht hf htokens => rwa [hf, htokens]
  | push ht hn hf htokens hbody =>
      rw [hf, htokens]
      exact ⟨Nat.le_refl _, Nat.le_refl _, hb⟩
  | reach ht hframes hn hplain hf htokens =>
      rw [hframes] at hb
      rwa [hf, htokens]
  | pop ht hframes hf htokens =>
      rw [hframes] at hb
      obtain ⟨hsymbols, hcount, hrest⟩ := hb
      have hstay := htokens.length_le
      rw [List.length_take, Nat.min_eq_left hcount] at hstay
      rw [hf]
      exact hrest.mono hsymbols hstay

/-! ## Listening -/

section Ears

variable {g : Grammar σ τ} {b b' : Branch σ τ} {frame : Frame} {frames : List Frame}
  {node : Node σ τ}

theorem Node.listens_of_wrapped? (h : node.wrapped? = none) : node.listens = false := by
  cases node with
  | emit => cases h
  | empty | oneOf | literal | guard | seq | alt | star | times | rule | fold | observe => rfl

theorem Grammar.ears_cons_of_silent (hn : g.nodes[frame.node]? = some node)
    (h : node.listens = false) : g.ears (frame :: frames) = g.ears frames :=
  List.filter_cons_of_neg (by simp [hn, h])

theorem Grammar.ears_cons_of_listens (hn : g.nodes[frame.node]? = some node)
    (h : node.listens = true) : g.ears (frame :: frames) = frame :: g.ears frames :=
  List.filter_cons_of_pos (by simp [hn, h])

namespace Branch.Listens

/-- Nothing changes where the same emissions listen to the same buffer. -/
theorem congr (h : b.Listens g) (he : g.ears b'.frames = g.ears b.frames)
    (hl : b'.listeners = b.listeners) (hh : b'.heard = b.heard)
    (hfrom : b'.heardFrom = b.heardFrom) : b'.Listens g where
  count := by rw [hl, he, h.count]
  quiet hzero := hh.trans (h.quiet (hl.symm.trans hzero))
  since outermost hlast := hfrom.trans (h.since outermost (he ▸ hlast))

theorem push (h : b.Listens g) {id progress position : Nat} (hn : g.nodes[id]? = some node)
    (hsilent : node.listens = false) : (b.push id progress position).Listens g :=
  h.congr (Grammar.ears_cons_of_silent hn hsilent) rfl rfl rfl

theorem pop (h : b.Listens g) (hf : b.frames = frame :: frames)
    (hn : g.nodes[frame.node]? = some node) (hsilent : node.listens = false) :
    b.pop.Listens g := by
  refine h.congr ?_ rfl rfl rfl
  rw [hf, Grammar.ears_cons_of_silent hn hsilent]
  exact congrArg g.ears (congrArg List.tail hf)

theorem reach (h : b.Listens g) (hf : b.frames = frame :: frames)
    (hn : g.nodes[frame.node]? = some node) (hsilent : node.listens = false) (progress : Nat) :
    (b.reach progress).Listens g := by
  refine h.congr ?_ rfl rfl rfl
  rw [reach_frames hf, hf, Grammar.ears_cons_of_silent hn hsilent]
  exact Grammar.ears_cons_of_silent hn hsilent

/-- An emission that is opened listens, and if it is the only one the buffer begins with it. -/
theorem listen (h : b.Listens g) {id position : Nat} (hn : g.nodes[id]? = some node)
    (hlistens : node.listens = true) : ((b.listen position).push id 0 position).Listens g := by
  have hears : g.ears ((b.listen position).push id 0 position).frames =
      ⟨id, 0, position, b.tokens.length⟩ :: g.ears b.frames := by
    rw [← listen_tokens b position, ← listen_frames b position]
    exact Grammar.ears_cons_of_listens hn hlistens
  have hlisteners : ((b.listen position).push id 0 position).listeners = b.listeners + 1 :=
    listen_listeners b position
  refine ⟨?_, fun hzero => ?_, fun outermost hlast => ?_⟩
  · rw [hears, List.length_cons, ← h.count, hlisteners]
  · exact absurd (hlisteners.symm.trans hzero) (Nat.succ_ne_zero _)
  · rw [hears] at hlast
    show (b.listen position).heardFrom = _
    rw [listen_eq]
    split
    next hzero =>
      rw [List.eq_nil_of_length_eq_zero (h.count.symm.trans hzero)] at hlast
      cases hlast
      rfl
    next hpos =>
      have hne : g.ears b.frames ≠ [] := fun hnil => hpos (by rw [h.count, hnil]; rfl)
      rw [List.getLast?_cons_of_ne_nil hne] at hlast
      exact h.since outermost hlast

/-- An emission that is closed does not listen any more, and the last one empties the buffer. -/
theorem unlisten (h : b.Listens g) (hf : b.frames = frame :: frames)
    (hn : g.nodes[frame.node]? = some node) (hlistens : node.listens = true) :
    b.pop.unlisten.Listens g := by
  have hrest : b.pop.unlisten.frames = frames :=
    (unlisten_frames b.pop).trans (congrArg List.tail hf)
  have hears : g.ears b.frames = frame :: g.ears frames := by
    rw [hf, Grammar.ears_cons_of_listens hn hlistens]
  have hcount : b.listeners = (g.ears frames).length + 1 := by
    rw [h.count, hears, List.length_cons]
  have hlisteners : b.pop.unlisten.listeners = b.listeners - 1 := unlisten_listeners b.pop
  refine ⟨by rw [hrest]; omega, fun hzero => ?_, fun outermost hlast => ?_⟩
  · rw [unlisten_eq]
    exact if_pos (show b.listeners ≤ 1 by omega)
  · rw [hrest] at hlast
    rw [unlisten_heardFrom]
    refine h.since outermost ?_
    rw [hears, List.getLast?_cons_of_ne_nil fun hnil => ?_]
    · exact hlast
    · rw [hnil] at hlast
      cases hlast

theorem hear (h : b.Listens g) (symbol : σ) : (b.hear symbol).Listens g := by
  rw [hear_eq]
  refine ⟨h.count, fun hzero => ?_, h.since⟩
  exact (if_pos hzero).trans (h.quiet hzero)

end Branch.Listens

end Ears

/-! ## Runs -/

section Runs

variable [DecidableEq σ] {g : Grammar σ τ} {w : List σ} {i : Nat} {b b' : Branch σ τ}

theorem Cursor.Moves.listens {here : Cursor σ τ} (h : here.Moves b b')
    (hb : b.Listens here.grammar) : b'.Listens here.grammar := by
  have harrived : b.arrived.Listens here.grammar := hb.congr rfl rfl rfl rfl
  cases h with
  | pass | ignore | skip | only | choose | shun | call => exact harrived.congr rfl rfl rfl rfl
  | wait ht hn hw =>
      exact harrived.push hn (Node.listens_of_wrapped? (Node.wrapped?_of_waits hw))
  | @watch id observer ht hn =>
      have hvia : (b.arrived.via id 1 here.position).Listens here.grammar :=
        harrived.congr rfl rfl rfl rfl
      exact hvia.push hn rfl
  | first ht hn hs =>
      exact (harrived.push hn (Node.listens_of_wrapped? (Node.wrapped?_of_series hs))).congr
        rfl rfl rfl rfl
  | @loop id body ht hn =>
      have hvia : (b.arrived.via id 1 here.position).Listens here.grammar :=
        harrived.congr rfl rfl rfl rfl
      exact (hvia.push hn rfl).congr rfl rfl rfl rfl
  | openFixed ht hn | openFold ht hn => exact (harrived.push hn rfl).congr rfl rfl rfl rfl
  | openMade ht hn => exact (harrived.listen hn rfl).congr rfl rfl rfl rfl
  | next ht hf hn hs =>
      have hsilent := Node.listens_of_wrapped? (Node.wrapped?_of_series hs)
      split
      · exact (hb.pop hf hn hsilent).congr rfl rfl rfl rfl
      · exact (hb.reach hf hn hsilent _).congr rfl rfl rfl rfl
  | again ht hf hn => exact (hb.reach hf hn rfl _).congr rfl rfl rfl rfl
  | leave ht hf hn | closeFixed ht hf hn | closeFold ht hf hn =>
      exact (hb.pop hf hn rfl).congr rfl rfl rfl rfl
  | closeMade ht hf hn => exact (hb.unlisten hf hn rfl).congr rfl rfl rfl rfl

theorem Grammar.Takes.listens {symbol : σ} (h : g.Takes symbol b b') (hb : b.Listens g) :
    b'.Listens g := by
  cases h with
  | member hf hn | any hf hn => exact (hb.pop hf hn rfl).hear symbol
  | run hf hn =>
      split
      · exact (hb.pop hf hn rfl).hear symbol
      · exact (hb.reach hf hn rfl _).hear symbol

namespace Grammar.LeadsTo

theorem le_length (h : g.LeadsTo w i b) : i ≤ w.length :=
  h.keeps (P := fun i _ => i ≤ w.length) (Nat.zero_le _) (fun _ hle _ => hle)
    fun _ _ _ hw _ => (List.getElem?_eq_some_iff.mp hw).1

theorem listens (h : g.LeadsTo w i b) : b.Listens g := by
  refine h.keeps (P := fun _ b => b.Listens g) ⟨rfl, fun _ => rfl, fun _ hlast => ?_⟩
    (fun _ hb hmove => hmove.listens hb) fun _ hb _ _ htake => htake.listens hb
  cases hlast

theorem marksUpTo (h : g.LeadsTo w i b) : MarksUpTo i b.tokens.length b.frames :=
  h.keeps (P := fun i b => MarksUpTo i b.tokens.length b.frames) trivial
    (fun _ hb hmove => hmove.shifts.marksUpTo hb)
    fun _ hb ht _ htake =>
      ((htake.shifts ht _).marksUpTo hb).mono (Nat.le_succ _) (Nat.le_refl _)

/-- The marks and the buffer of every branch that a run leads to are exact. -/
theorem marked (h : g.LeadsTo w i b) : b.Marked g (w.take i) where
  toListens := h.listens
  buffer hpos := (h.hears hpos).2
  ordered := h.marksUpTo.pairwise
  bounded frame hframe := by
    rw [List.length_take, Nat.min_eq_left h.le_length]
    exact h.marksUpTo.bounded hframe

end Grammar.LeadsTo

end Runs

/-! ## What a construct is handed -/

/-- The mark of an open emission that listens lies in the buffer, and what the buffer holds since is
what was consumed since. -/
structure Branch.Hands (w : List σ) (frame : Frame) (b : Branch σ τ) : Prop where
  /-- It is counted. -/
  counted : 0 < b.listeners
  /-- The buffer does not begin after it was opened, -/
  begins : b.heardFrom ≤ frame.symbolsBefore
  /-- nor does it end before. -/
  ends : frame.symbolsBefore - b.heardFrom ≤ b.heard.length
  /-- What was heard since is what was consumed since. -/
  heard : b.heardSince frame.symbolsBefore = w.drop frame.symbolsBefore

theorem Branch.Marked.hands {g : Grammar σ τ} {w : List σ} {b : Branch σ τ} {frame : Frame}
    (h : b.Marked g w) (hframe : frame ∈ g.ears b.frames) : b.Hands w frame := by
  obtain ⟨outermost, hlast⟩ := Option.isSome_iff_exists.mp
    (List.getLast?_isSome.mpr (List.ne_nil_of_mem hframe))
  have hfrom := h.since outermost hlast
  have hcounted : 0 < b.listeners := by
    rw [h.count]
    exact List.length_pos_of_mem hframe
  have hheard := h.buffer hcounted
  have hle : outermost.symbolsBefore ≤ frame.symbolsBefore := by
    have hordered : (g.ears b.frames).Pairwise _ := h.ordered.sublist List.filter_sublist
    obtain ⟨inner, hears⟩ := List.getLast?_eq_some_iff.mp hlast
    rw [hears] at hordered hframe
    rcases List.mem_append.mp hframe with hinner | hsame
    · exact ((List.pairwise_append.mp hordered).2.2 frame hinner outermost (by simp)).1
    · exact (List.mem_singleton.mp hsame) ▸ Nat.le_refl _
  have hbounded := (h.bounded frame (List.mem_of_mem_filter hframe)).1
  have hlength : b.heard.length = w.length - b.heardFrom := by
    rw [← List.length_reverse, hheard, List.length_drop]
  rw [← hfrom] at hle
  refine ⟨hcounted, hle, by omega, ?_⟩
  rw [Branch.heardSince, hheard, List.drop_drop, Nat.add_sub_cancel' hle]

section Closing

variable [DecidableEq σ] {g : Grammar σ τ} {w : List σ} {i : Nat} {b : Branch σ τ}
  {frame : Frame} {base : List Frame} {body : NodeId}

/-- An emission that listened makes its token of the symbols that its body has matched. -/
theorem Grammar.LeadsTo.exists_made (h : g.LeadsTo w i b) (hg : g.IsBuilt) (ht : b.target = none)
    (hf : b.frames = frame :: base) {make : List σ → τ}
    (hn : g.nodes[frame.node]? = some (.emit body (.ofSymbols make))) :
    b.Hands (w.take i) frame ∧
      ∃ (tree : Derivation g w body frame.symbolsBefore i) (b₀ b' : Branch σ τ),
        g.Closes w frame base tree b₀ b ∧ (g.cursorAt w i).move b = some (.go b') ∧
          b'.tokens = b.tokens ++ [make ((w.take i).drop frame.symbolsBefore)] ∧
          b'.listeners + 1 = b.listeners := by
  have hhands : b.Hands (w.take i) frame := by
    refine h.marked.hands ?_
    rw [hf, Grammar.ears_cons_of_listens hn rfl]
    exact List.mem_cons_self
  obtain ⟨tree, b₀, hcloses⟩ := h.exists_closes hg ht hf hn rfl
  have hn' : (g.cursorAt w i).grammar.nodes[frame.node]? = some (.emit body (.ofSymbols make)) := hn
  refine ⟨hhands, tree, b₀, b.pop.unlisten.emit (make (b.heardSince frame.symbolsBefore)),
    hcloses, ?_, ?_, ?_⟩
  · rw [Cursor.move_of_frame ht hf hn' rfl, Cursor.resume]
    simp only [hn']
  · show b.pop.unlisten.tokens ++ [make (b.heardSince frame.symbolsBefore)] = _
    rw [Branch.unlisten_tokens, hhands.heard]
    rfl
  · show b.pop.unlisten.listeners + 1 = _
    rw [Branch.unlisten_listeners]
    exact Nat.sub_add_cancel hhands.counted

/-- A fold merges the tokens of its body, and leaves those from before it was entered. -/
theorem Grammar.LeadsTo.exists_folded (h : g.LeadsTo w i b) (hg : g.IsBuilt)
    (ht : b.target = none) (hf : b.frames = frame :: base) {merge : List τ → τ}
    (hn : g.nodes[frame.node]? = some (.fold body merge)) :
    frame.tokensBefore ≤ b.tokens.length ∧
      ∃ (tree : Derivation g w body frame.symbolsBefore i) (b₀ b' : Branch σ τ),
        g.Closes w frame base tree b₀ b ∧ (g.cursorAt w i).move b = some (.go b') ∧
          b'.tokens = b₀.tokens ++ [merge tree.yield] := by
  obtain ⟨tree, b₀, hcloses⟩ := h.exists_closes hg ht hf hn rfl
  have hn' : (g.cursorAt w i).grammar.nodes[frame.node]? = some (.fold body merge) := hn
  refine ⟨?_, tree, b₀, b.pop.gather frame.tokensBefore merge, hcloses, ?_, ?_⟩
  · exact (h.marked.bounded frame (by rw [hf]; exact List.mem_cons_self)).2
  · rw [Cursor.move_of_frame ht hf hn' rfl, Cursor.resume]
    simp only [hn']
  · show b.tokens.take frame.tokensBefore ++ [merge (b.tokens.drop frame.tokensBefore)] = _
    rw [hcloses.tokens, ← hcloses.count, List.take_left, List.drop_left]

end Closing

/-! ## Parses -/

namespace Forest

variable [DecidableEq σ] {g : Grammar σ τ} {limits : Limits} {w : List σ} {f : Forest σ τ}
  {next : Option σ} {b : Branch σ τ}

/-- The marks and the buffer of every branch that a parse comes across are exact after the symbols
that were offered, and after the next one.  Where an emission that listens is closed, its mark lies
in the buffer, and it makes its token of the symbols that its body has matched; where a fold is
closed, its mark is not above the number of tokens, and it merges those that its body has emitted,
and none that was there before. -/
theorem Offered.marks_exact (h : Offered g limits w f) (hg : g.IsBuilt)
    (hb : f.ComesAcross next b) :
    f.consumed = w.length ∧ b.Marked g w ∧
    (∀ symbol b', next = some symbol → (f.cursor next).move b = none →
      g.consume symbol b = some b' → b'.Marked g (w ++ [symbol])) ∧
    ∀ frame frames, b.target = none → b.frames = frame :: frames →
      (∀ body make, g.nodes[frame.node]? = some (.emit body (.ofSymbols make)) →
        b.Hands w frame ∧
        ∃ (tree : Derivation g (w ++ next.toList) body frame.symbolsBefore w.length)
          (b₀ b' : Branch σ τ), g.Closes (w ++ next.toList) frame frames tree b₀ b ∧
            (f.cursor next).move b = some (.go b') ∧
            b'.tokens = b.tokens ++ [make (w.drop frame.symbolsBefore)] ∧
            b'.listeners + 1 = b.listeners) ∧
      (∀ body merge, g.nodes[frame.node]? = some (.fold body merge) →
        frame.tokensBefore ≤ b.tokens.length ∧
        ∃ (tree : Derivation g (w ++ next.toList) body frame.symbolsBefore w.length)
          (b₀ b' : Branch σ τ), g.Closes (w ++ next.toList) frame frames tree b₀ b ∧
            (f.cursor next).move b = some (.go b') ∧
            b'.tokens = b₀.tokens ++ [merge tree.yield]) := by
  obtain ⟨hcursor, hto⟩ := h.leadsTo hg hb
  have hconsumed : (w ++ next.toList).take w.length = w := List.take_left
  rw [hcursor]
  refine ⟨congrArg Cursor.position hcursor, hconsumed ▸ hto.marked, ?_, ?_⟩
  · rintro symbol b' rfl hrest htake
    have hnext : (w ++ [symbol])[w.length]? = some symbol := List.getElem?_concat_length
    have hmarked := (hto.take (Cursor.target_of_move_eq_none hrest) hnext
      (Grammar.consume_eq_some_iff.mp htake)).marked
    rwa [List.take_of_length_le (by simp)] at hmarked
  · intro frame frames ht hf
    refine ⟨fun body make hn => ?_, fun body merge hn => hto.exists_folded hg ht hf hn⟩
    have hmade := hto.exists_made hg ht hf hn
    rwa [hconsumed] at hmade

/-- Two emissions that listen, one inside the other and both inside a fold, share the buffer after
the first two symbols, where the inner one is about to be closed. -/
theorem Offered.marks_exact_nested :
    ∃ (g : Grammar Char Nat) (f : Forest Char Nat) (b : Branch Char Nat) (frame : Frame)
        (frames : List Frame), g.IsBuilt ∧ Offered g .unlimited ['a', 'b'] f ∧
      f.ComesAcross none b ∧ b.listeners = 2 ∧ b.Marked g ['a', 'b'] ∧
      b.frames = frame :: frames ∧ frame.symbolsBefore = 1 ∧ b.Hands ['a', 'b'] frame := by
  let inner : Expr Char Nat := .emit (.star (.oneOf (.of ['b']))) (.ofSymbols List.length)
  let outer : Expr Char Nat := .emit (.seq [.oneOf (.of ['a']), inner]) (.ofSymbols List.length)
  have hnew : (Builder.new : Builder Char Nat).Reached := .new
  have hrun : ((Builder.new : Builder Char Nat).build (.fold outer List.sum)).toOption.any (fun g =>
      let f := (((Forest.new g .unlimited).take 'a').forest.take 'b').forest
      f.branches.any fun b => ((f.cursor none).move b).any fun turn => turn.branches.any fun b =>
        b.target.isNone && b.listeners = 2 && b.frames.head?.any fun frame =>
          frame.symbolsBefore = 1 && g.nodes[frame.node]?.any Node.listens) = true := by
    decide +kernel
  obtain ⟨g, hg, hrun⟩ := hnew.exists_build hrun
  obtain ⟨b₀, hb₀, hrun⟩ := List.any_eq_true.mp hrun
  obtain ⟨turn, hturn, hrun⟩ := (Option.any_eq_true _ _).mp hrun
  obtain ⟨b, hb, hrun⟩ := List.any_eq_true.mp hrun
  simp only [Bool.and_eq_true, Option.any_eq_true, decide_eq_true_eq] at hrun
  obtain ⟨⟨htarget, hlisteners⟩, frame, hhead, hmark, node, hn, hlistens⟩ := hrun
  obtain ⟨frames, hf⟩ := List.head?_eq_some_iff.mp hhead
  have hoffered : Offered g .unlimited ['a', 'b'] _ := (Offered.new.take 'a').take 'b'
  have hacross : ComesAcross _ none b := ⟨b₀, hb₀, .single ⟨turn, hturn, hb⟩⟩
  obtain ⟨-, hmarked, -, hclosing⟩ := Offered.marks_exact hoffered hg hacross
  obtain ⟨hmade, -⟩ := hclosing frame frames (Option.isNone_iff_eq_none.mp htarget) hf
  cases node with
  | emit body yields =>
      cases yields with
      | ofSymbols make =>
          exact ⟨g, _, b, frame, frames, hg, hoffered, hacross, hlisteners, hmarked, hf, hmark,
            (hmade body make hn).1⟩
      | fixed => cases hlistens
  | empty | oneOf | literal | guard | seq | alt | star | times | rule | fold | observe =>
      cases hlistens

end Forest

end Ramify
