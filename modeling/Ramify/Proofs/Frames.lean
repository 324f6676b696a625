import Ramify.Proofs.History
import Ramify.Proofs.Ownership
import Ramify.Proofs.Transport

/-!
# The stack of a branch

What stands on the stack of a branch of a built grammar is in order (`Branch.WellFormed`): every
open construct is a node that can be open, and has come as far as it can come; a construct that
waits for a symbol stands innermost, and only while nothing is to be entered.

The moves look up places of the arena, rules, and parts of a series by number.  `Cursor.move`
makes something up where nothing is found there: a branch dies, a test passes, a construct is
closed.  `Cursor.strictMove` does not, and gives no result then.  On a branch whose stack is in
order the two are equal, so nothing is ever made up.

A series keeps its frame while a part in progress is not the last one, and that is why the next
part can always be found: the frame is pushed for two parts or more, and popped before the last.
-/

namespace Ramify

variable {σ τ : Type}

/-! ## Looking up or failing -/

namespace Cursor

variable [DecidableEq σ]

/-- Whether the next symbol passes the guard of a node; none if a place is not in the arena. -/
def strictAdmits (here : Cursor σ τ) (id : NodeId) : Option Bool := do
  match ← here.grammar.nodes[id]? with
  | .guard set => return set.admits here.next
  | .seq (first :: _) =>
    match ← here.grammar.nodes[first]? with
    | .guard set => return set.admits here.next
    | _ => return true
  | _ => return true

/-- Enters a node; none if a place is not in the arena, or a rule is not there. -/
def strictDescend (here : Cursor σ τ) (b : Branch σ τ) (id : NodeId) : Option (Turn σ τ) := do
  match ← here.grammar.nodes[id]? with
  | .alt choices =>
    let viable ← choices.zipIdx.filterM fun (choice, _) => here.strictAdmits choice
    return .split <| viable.map fun (choice, index) =>
      (b.via id index here.position).aim choice
  | .rule index => return .go (b.aim (← here.grammar.rules[index]?).body)
  | _ => return here.descend b id

/-- Returns into the innermost open construct; none if a place or a part is not there, or if no
part of the node can have been in progress. -/
def strictResume (here : Cursor σ τ) (b : Branch σ τ) (frame : Frame) : Option (Turn σ τ) := do
  match ← here.grammar.nodes[frame.node]? with
  | .seq parts =>
    let part ← parts[frame.progress + 1]?
    return .go ((if frame.progress + 2 = parts.length then b.pop
      else b.reach (frame.progress + 1)).aim part)
  | .times _ _ | .star _ | .emit _ _ | .fold _ _ => return here.resume b frame
  | _ => none

/-- One move of a branch that fails where something is looked up that is not there. -/
def strictMove (here : Cursor σ τ) (b : Branch σ τ) : Option (Option (Turn σ τ)) :=
  match b.target, b.frames with
  | some id, _ => some <$> here.strictDescend b.arrived id
  | none, [] => some none
  | none, frame :: _ => do
    let node ← here.grammar.nodes[frame.node]?
    if node.consumes then return none
    else some <$> here.strictResume b frame

end Cursor

/-- Gives a symbol to a branch; fails where the innermost construct is not in the arena, or does
not wait for a symbol. -/
def Grammar.strictConsume [DecidableEq σ] (g : Grammar σ τ) (symbol : σ) (b : Branch σ τ) :
    Option (Option (Branch σ τ)) :=
  match b.frames with
  | [] => some none
  | frame :: _ => do
    let node ← g.nodes[frame.node]?
    if node.consumes then return g.consume symbol b else none

/-! ## Stacks in order -/

/-- Whether the node can be open with this progress, before which so many symbols were
consumed. -/
def Node.Allows (node : Node σ τ) (position progress : Nat) : Prop :=
  match node with
  | .seq parts => progress + 1 < parts.length
  | .times _ count => progress + 1 < count
  | .star _ => progress ≤ position
  | .literal run => progress < run.length
  | .observe observer => observer.consumes = true
  | .oneOf _ | .emit _ _ | .fold _ _ => True
  | .empty | .guard _ | .alt _ | .rule _ => False

/-- None of these constructs waits for a symbol. -/
def Grammar.Bare (g : Grammar σ τ) (frames : List Frame) : Prop :=
  ∀ frame ∈ frames, ∀ node, g.nodes[frame.node]? = some node → node.consumes = false

/-- A branch whose stack is in order. -/
structure Branch.WellFormed (g : Grammar σ τ) (position : Nat) (b : Branch σ τ) : Prop where
  /-- Every open construct can be open, and has come as far as it has. -/
  frames : ∀ frame ∈ b.frames, ∃ node, g.nodes[frame.node]? = some node ∧
    node.Allows position frame.progress
  /-- Only the innermost construct waits for a symbol. -/
  inner : g.Bare b.frames.tail
  /-- It does not if a node is to be entered. -/
  busy : b.target.isSome = true → g.Bare b.frames
  /-- The node to enter is in the arena. -/
  target : ∀ id, b.target = some id → id < g.nodes.size

/-- A frame fits just if its node is in the arena and can be open like this. -/
theorem Frame.fits_iff {g : Grammar σ τ} {position : Nat} {frame : Frame} :
    frame.Fits g position ↔
      ∃ node, g.nodes[frame.node]? = some node ∧ node.Allows position frame.progress := by
  constructor
  · intro h
    cases h with
    | @series node parts hn hs hp =>
        refine ⟨node, hn, ?_⟩
        cases node with
        | seq =>
            cases hs
            exact hp
        | times body count =>
            cases hs
            rwa [List.length_replicate] at hp
        | empty | oneOf | literal | guard | alt | star | rule | emit | fold | observe => cases hs
    | star hn hp => exact ⟨_, hn, hp⟩
    | oneOf hn => exact ⟨_, hn, trivial⟩
    | literal hn hp => exact ⟨_, hn, hp⟩
    | observe hn hc => exact ⟨_, hn, hc⟩
    | emit hn => exact ⟨_, hn, trivial⟩
    | fold hn => exact ⟨_, hn, trivial⟩
  · rintro ⟨node, hn, hallows⟩
    cases node with
    | seq parts => exact .series hn rfl hallows
    | times body count => exact .series hn rfl (by rwa [List.length_replicate])
    | star => exact .star hn hallows
    | oneOf => exact .oneOf hn
    | literal => exact .literal hn hallows
    | observe => exact .observe hn hallows
    | emit => exact .emit hn
    | fold => exact .fold hn
    | empty | guard | alt | rule => exact hallows.elim

/-! ## Leaves on top -/

namespace Grammar.Bare

variable {g : Grammar σ τ} {frame : Frame} {frames : List Frame} {node : Node σ τ}

theorem cons (h : g.Bare frames) (hn : g.nodes[frame.node]? = some node)
    (hc : node.consumes = false) : g.Bare (frame :: frames) := by
  intro other hother node' hn'
  rcases List.mem_cons.mp hother with rfl | hother
  · cases hn.symm.trans hn'
    exact hc
  · exact h other hother node' hn'

theorem tail (h : g.Bare frames) : g.Bare frames.tail :=
  fun frame hframe => h frame (List.mem_of_mem_tail hframe)

theorem reach {b : Branch σ τ} (h : g.Bare b.frames.tail) (hf : b.frames = frame :: frames)
    (hn : g.nodes[frame.node]? = some node) (hc : node.consumes = false) (progress : Nat) :
    g.Bare (b.reach progress).frames := by
  rw [Branch.reach_frames hf]
  rw [hf] at h
  exact h.cons hn hc

end Grammar.Bare

/-- No construct waits for a symbol; or only the innermost one does, and nothing is to be
entered. -/
def Branch.Poised (g : Grammar σ τ) (b : Branch σ τ) : Prop :=
  g.Bare b.frames ∨ b.target = none ∧ g.Bare b.frames.tail

namespace Branch.Poised

variable {g : Grammar σ τ} {b b' : Branch σ τ}

theorem tail (h : b.Poised g) : g.Bare b.frames.tail := by
  rcases h with h | ⟨-, h⟩
  · exact h.tail
  · exact h

theorem busy (h : b.Poised g) {id : NodeId} (ht : b.target = some id) : g.Bare b.frames := by
  rcases h with h | ⟨hnone, -⟩
  · exact h
  · cases ht.symm.trans hnone

end Branch.Poised

section Kept

variable [DecidableEq σ] {b b' : Branch σ τ}

/-- A leaf is put on a stack without leaves, and nothing is put on a leaf. -/
theorem Cursor.Moves.poised {here : Cursor σ τ} (h : here.Moves b b')
    (hb : b.Poised here.grammar) : b'.Poised here.grammar := by
  cases h with
  | pass ht | ignore ht | skip ht | only ht | choose ht | shun ht | call ht =>
      exact .inl (hb.busy ht)
  | wait ht | watch ht => exact .inr ⟨rfl, hb.busy ht⟩
  | first ht hn hs => exact .inl ((hb.busy ht).cons hn (Node.consumes_of_series hs))
  | loop ht hn | openFixed ht hn | openFold ht hn => exact .inl ((hb.busy ht).cons hn rfl)
  | openMade ht hn =>
      refine .inl (Grammar.Bare.cons ?_ hn rfl)
      rw [Branch.listen_frames]
      exact hb.busy ht
  | next ht hf hn hs =>
      split
      · exact .inl hb.tail
      · exact .inl (hb.tail.reach hf hn (Node.consumes_of_series hs) _)
  | again ht hf hn => exact .inl (hb.tail.reach hf hn rfl _)
  | leave | closeFixed | closeFold => exact .inl hb.tail
  | closeMade =>
      refine .inl ?_
      show here.grammar.Bare b.pop.unlisten.frames
      rw [Branch.unlisten_frames]
      exact hb.tail

theorem Grammar.Takes.poised {g : Grammar σ τ} {symbol : σ} (h : g.Takes symbol b b')
    (ht : b.target = none) (hb : b.Poised g) : b'.Poised g := by
  refine .inr ⟨h.target_eq.trans ht, ?_⟩
  cases h with
  | member | any =>
      rw [Branch.hear_frames]
      exact hb.tail.tail
  | run hf =>
      rw [Branch.hear_frames]
      split
      · exact hb.tail.tail
      · have htail := hb.tail
        rw [hf] at htail
        rwa [Branch.reach_frames hf]

end Kept

/-! ## Places in the arena -/

namespace Grammar.IsBuilt

variable {g : Grammar σ τ} (hg : g.IsBuilt) {id : NodeId}

include hg

theorem lt_size_of_partOf {part : NodeId} (h : g.PartOf part id) : part < g.nodes.size :=
  List.mem_range.mp (hg.owned.mem_iff.mp (List.mem_append_left _ (mem_links_iff.mpr ⟨id, h⟩)))

theorem lt_size_of_root {tree : Option RuleId} (h : g.root? tree = some id) :
    id < g.nodes.size := by
  refine List.mem_range.mp (hg.owned.mem_iff.mp (List.mem_append_right _ ?_))
  cases tree with
  | none =>
      cases h
      exact List.mem_cons_self
  | some index => exact List.mem_cons_of_mem _ (mem_bodies_iff.mpr ⟨index, h⟩)

/-- All that the start leads to is in the arena. -/
theorem lt_size_of_reaches (h : g.Reaches g.start id) : id < g.nodes.size := by
  cases h with
  | refl => exact hg.lt_size_of_root (show g.root? none = some g.start from rfl)
  | tail _ hchild =>
      cases hchild with
      | part hn hp => exact hg.lt_size_of_partOf ⟨_, hn, hp⟩
      | @body index _ _ hb => exact hg.lt_size_of_root (show g.root? (some index) = some _ from hb)

end Grammar.IsBuilt

/-! ## Runs -/

section Runs

variable [DecidableEq σ] {g : Grammar σ τ} {w : List σ} {i : Nat} {b b' : Branch σ τ}

omit [DecidableEq σ] in
theorem Branch.WellFormed.of_poised (hfit : b.Fits g i) (hb : b.Poised g)
    (htarget : ∀ id, b.target = some id → id < g.nodes.size) : b.WellFormed g i where
  frames frame hframe := Frame.fits_iff.mp (hfit frame hframe)
  inner := hb.tail
  busy h := by
    obtain ⟨id, hid⟩ := Option.isSome_iff_exists.mp h
    exact hb.busy hid
  target := htarget

theorem Grammar.LeadsTo.fits (h : g.LeadsTo w i b) (hg : g.IsBuilt) : b.Fits g i :=
  h.keeps (P := fun i b => b.Fits g i) (Branch.start_fits g g.start)
    (fun _ hb hmove => hmove.fits hg hb) fun _ hb _ _ htake => htake.fits hb

theorem Grammar.LeadsTo.poised (h : g.LeadsTo w i b) : b.Poised g :=
  h.keeps (P := fun _ b => b.Poised g) (.inl fun _ hframe => absurd hframe List.not_mem_nil)
    (fun _ hb hmove => hmove.poised hb) fun _ hb ht _ htake => htake.poised ht hb

/-- The stack of every branch that a run leads to is in order. -/
theorem Grammar.LeadsTo.wellFormed (h : g.LeadsTo w i b) (hg : g.IsBuilt) : b.WellFormed g i := by
  refine .of_poised (h.fits hg) h.poised fun id hid => ?_
  obtain ⟨n, hruns⟩ := h
  exact hg.lt_size_of_reaches ((hruns.within (.start g)).target id hid)

/-- A symbol leaves the stack in order. -/
theorem Grammar.Takes.wellFormed {symbol : σ} (h : g.Takes symbol b b') (ht : b.target = none)
    (hfit : b.Fits g i) (hb : b.Poised g) : b'.WellFormed g (i + 1) := by
  refine .of_poised (h.fits hfit) (h.poised ht hb) fun id hid => ?_
  cases hid.symm.trans (h.target_eq.trans ht)

end Runs

/-! ## Nothing is made up -/

theorem filterM_eq_some_filter {α : Type} {p : α → Option Bool} {q : α → Bool}
    {xs : List α} (h : ∀ x ∈ xs, p x = some (q x)) : xs.filterM p = some (xs.filter q) := by
  have haux : ∀ {xs : List α} (found : List α), (∀ x ∈ xs, p x = some (q x)) →
      xs.filterAuxM p found = some ((xs.filter q).reverse ++ found) := by
    intro xs
    induction xs with
    | nil => exact fun _ _ => rfl
    | cons x xs ih =>
        intro found h
        have hrest := fun found => ih found fun y hy => h y (List.mem_cons_of_mem _ hy)
        cases hq : q x with
        | false => simp [List.filterAuxM, h x List.mem_cons_self, hq, hrest]
        | true => simp [List.filterAuxM, h x List.mem_cons_self, hq, hrest]
  simp [List.filterM, haux [] h]

namespace Cursor

variable [DecidableEq σ] {here : Cursor σ τ} {b : Branch σ τ} {id : NodeId}

/-- The test of a choice finds the choice, and the first of its parts. -/
theorem strictAdmits_eq (hg : here.grammar.IsBuilt) (hid : id < here.grammar.nodes.size) :
    here.strictAdmits id = some (here.admits id) := by
  have hn := Array.getElem?_eq_getElem hid
  generalize here.grammar.nodes[id] = node at hn
  unfold Cursor.strictAdmits Cursor.admits Grammar.guard?
  rw [hn]
  cases node with
  | guard set => rfl
  | seq parts =>
      cases parts with
      | nil => rfl
      | cons first parts =>
          have hfirst := hg.lt_size_of_partOf ⟨_, hn, List.mem_cons_self⟩
          have hf := Array.getElem?_eq_getElem hfirst
          generalize here.grammar.nodes[first] = node at hf
          simp only [Option.bind_eq_bind, Option.bind_some, hf]
          cases node <;> rfl
  | empty | oneOf | literal | alt | star | times | rule | emit | fold | observe => rfl

theorem strictDescend_eq (hg : here.grammar.IsBuilt) (hid : id < here.grammar.nodes.size) :
    here.strictDescend b id = some (here.descend b id) := by
  have hn := Array.getElem?_eq_getElem hid
  generalize here.grammar.nodes[id] = node at hn
  unfold Cursor.strictDescend
  rw [hn]
  cases node with
  | alt choices =>
      have hviable : ∀ way ∈ choices.zipIdx,
          here.strictAdmits way.1 = some (here.admits way.1) := by
        intro way hway
        have hchoice := List.mem_of_getElem? (List.mem_zipIdx_iff_getElem?.mp hway)
        exact strictAdmits_eq hg (hg.lt_size_of_partOf ⟨_, hn, hchoice⟩)
      simp [Cursor.descend, hn, filterM_eq_some_filter hviable]
  | rule index =>
      obtain ⟨body, hb⟩ := hg.exists_body hn
      obtain ⟨rule, hrule, rfl⟩ := Option.map_eq_some_iff.mp hb
      simp [Cursor.descend, hn, hrule, hb]
  | empty | oneOf | literal | guard | seq | star | times | emit | fold | observe => rfl

omit [DecidableEq σ] in
/-- Of an open construct that does not wait for a symbol a part can be in progress, and the
next part is there. -/
theorem strictResume_eq {frame : Frame} {node : Node σ τ}
    (hn : here.grammar.nodes[frame.node]? = some node)
    (hallows : node.Allows here.position frame.progress) (hc : node.consumes = false) :
    here.strictResume b frame = some (here.resume b frame) := by
  unfold Cursor.strictResume
  rw [hn]
  cases node with
  | seq parts =>
      have hpart := List.getElem?_eq_getElem (show frame.progress + 1 < parts.length from hallows)
      simp [Cursor.resume, hn, hpart]
  | star | times | emit | fold => rfl
  | oneOf | literal => cases hc
  | observe => cases hc.symm.trans hallows
  | empty | guard | alt | rule => exact hallows.elim

/-- A move of a branch whose stack is in order finds all that it looks up. -/
theorem strictMove_eq (hg : here.grammar.IsBuilt)
    (hb : b.WellFormed here.grammar here.position) :
    here.strictMove b = some (here.move b) := by
  unfold Cursor.strictMove
  split
  next id ht =>
    rw [strictDescend_eq hg (hb.target id ht), move_of_target ht]
    rfl
  next ht hf => simp [Cursor.move, ht, hf]
  next frame frames ht hf =>
    obtain ⟨node, hn, hallows⟩ := hb.frames frame (by rw [hf]; exact List.mem_cons_self)
    rw [hn]
    cases hc : node.consumes with
    | true => simp [Cursor.move, ht, hf, Cursor.waitsAt, hn, hc]
    | false =>
        rw [move_of_frame ht hf hn hc]
        simp [hc, strictResume_eq hn hallows hc]

end Cursor

/-- A branch that rests has nothing open, or waits for a symbol. -/
theorem Grammar.strictConsume_eq [DecidableEq σ] {here : Cursor σ τ} {b : Branch σ τ}
    (hb : b.WellFormed here.grammar here.position) (hrest : here.move b = none) (symbol : σ) :
    here.grammar.strictConsume symbol b = some (here.grammar.consume symbol b) := by
  unfold Grammar.strictConsume
  split
  next hf => simp [Grammar.consume, hf]
  next frame frames hf =>
    obtain ⟨node, hn, -⟩ := hb.frames frame (by rw [hf]; exact List.mem_cons_self)
    have hc : node.consumes = true := by
      cases hc : node.consumes with
      | true => rfl
      | false =>
          cases (Cursor.move_of_frame (Cursor.target_of_move_eq_none hrest) hf hn hc).symm.trans
            hrest
    simp [hn, hc]

/-! ## Parses -/

namespace Forest

variable [DecidableEq σ] {g : Grammar σ τ} {limits : Limits} {f : Forest σ τ}

/-- A parse that has begun has nothing to enter between two symbols. -/
theorem Reachable.new_or_target (h : Reachable g limits f) (hg : g.IsBuilt) :
    f = .new g limits ∨ ∀ b ∈ f.branches, b.target = none := by
  induction h with
  | new => exact .inl rfl
  | @take f h symbol ih =>
      rcases take_forest f symbol with hf | ⟨_, hf⟩ | ⟨_, hf⟩ | hf
      · rwa [hf]
      · rw [hf]
        exact .inr fun _ hb => absurd hb List.not_mem_nil
      · rw [hf]
        exact .inr fun _ hb => absurd hb List.not_mem_nil
      · refine .inr fun b hb => ?_
        have htidy := h.tidy hg
        rw [hf, htidy.advanced_branches] at hb
        obtain ⟨r, hr, htake⟩ := List.mem_filterMap.mp hb
        obtain ⟨-, -, -, hrest, -⟩ := htidy.visits_of_mem_rested hr
        have htarget := (Grammar.consume_eq_some_iff.mp htake).target_eq
        exact htarget.trans (Cursor.target_of_move_eq_none hrest)
  | close =>
      rw [close_forest]
      exact .inr fun _ hb => absurd hb List.not_mem_nil
  | restart h => exact .inl (by rw [Forest.restart, h.grammar_eq.1, h.grammar_eq.2])

/-- The stack of every branch that a parse comes across is in order, whatever the limits are.
So a move finds all the places, rules and parts that it looks up and never closes a construct
that has none in progress; and a branch at rest takes a symbol only at a construct that waits for
one.  Between two symbols no branch is about to enter anything, but for the one of a parse that
has not begun. -/
theorem Reachable.stacks_in_order (h : Reachable g limits f) (hg : g.IsBuilt) :
    (∀ (next : Option σ) (b : Branch σ τ), f.ComesAcross next b →
      b.WellFormed g f.consumed ∧
      (f.cursor next).strictMove b = some ((f.cursor next).move b) ∧
      ((f.cursor next).move b = none → ∀ symbol,
        g.strictConsume symbol b = some (g.consume symbol b) ∧
        ∀ b', g.consume symbol b = some b' →
          b'.WellFormed g (f.consumed + 1) ∧ b'.target = none)) ∧
    (f = .new g limits ∨ ∀ b ∈ f.branches, b.target = none) := by
  refine ⟨fun next b hb => ?_, h.new_or_target hg⟩
  obtain ⟨w, hoffered⟩ := h.exists_offered
  obtain ⟨hcursor, hto⟩ := hoffered.leadsTo hg hb
  have hposition : f.consumed = w.length := congrArg Cursor.position hcursor
  have hwell := hto.wellFormed hg
  rw [hcursor, hposition]
  refine ⟨hwell, Cursor.strictMove_eq hg hwell, fun hrest symbol => ⟨?_, fun b' htake => ?_⟩⟩
  · exact Grammar.strictConsume_eq hwell hrest symbol
  · have ht := Cursor.target_of_move_eq_none hrest
    have htakes := Grammar.consume_eq_some_iff.mp htake
    exact ⟨htakes.wellFormed ht (hto.fits hg) hto.poised, htakes.target_eq.trans ht⟩

/-- In the middle of a run of symbols, which is a part of a series. -/
theorem Reachable.stacks_in_order_run :
    ∃ g : Grammar Char Nat, g.IsBuilt ∧
      let f := ((Forest.new g .unlimited).take 'a').forest
      ∃ b ∈ f.branches, b.frames.length = 2 ∧ b.WellFormed g f.consumed ∧
        (f.cursor (some 'b')).strictMove b = some none ∧
        g.strictConsume 'b' b = some (g.consume 'b' b) ∧ b.target = none := by
  have hnew : (Builder.new : Builder Char Nat).Reached := .new
  have hrun : ((Builder.new : Builder Char Nat).build
      (.seq [.literal ['a', 'b'], .times (.oneOf (.of ['c'])) 2])).toOption.any (fun g =>
        let f := ((Forest.new g .unlimited).take 'a').forest
        f.branches.any fun b =>
          b.frames.length = 2 && ((f.cursor (some 'b')).move b).isNone) = true := by
    decide +kernel
  obtain ⟨g, hg, hrun⟩ := hnew.exists_build hrun
  obtain ⟨b, hb, htwo⟩ := List.any_eq_true.mp hrun
  obtain ⟨hlength, hrest⟩ := Bool.and_eq_true_iff.mp htwo
  have hrest := Option.isNone_iff_eq_none.mp hrest
  have hf : Reachable g .unlimited ((Forest.new g .unlimited).take 'a').forest := .take .new 'a'
  obtain ⟨hwell, hmove, htake⟩ := (Reachable.stacks_in_order hf hg).1 (some 'b') b ⟨b, hb, .refl⟩
  exact ⟨g, hg, b, hb, of_decide_eq_true hlength, hwell, hmove.trans (congrArg some hrest),
    (htake hrest 'b').1, Cursor.target_of_move_eq_none hrest⟩

end Forest

end Ramify
