import Mathlib.Data.Multiset.Filter
import Ramify.Proofs.Limits
import Ramify.Proofs.Matching
import Ramify.Proofs.Resting

/-!
# Matching grammars parse in step

Two branches of matching grammars match if their open constructs are related one by one and
they have heard and emitted the same.  The choices they made are not compared: the ways at a
choice may be numbered differently.

One move of two matching branches makes the same reports and leads to as many branches, which
match in some order (`Grammar.Matching.move`); so does all that follows until they rest
(`Grammar.Matching.events`).  Two forests whose branches match in some order therefore give the
same answer to every request, and their branches match again.
-/

namespace Ramify

variable {σ τ : Type} {M : NodeId → NodeId → Prop}

/-! ## Related lists and multisets -/

theorem rel_cases {α β : Type} {R : α → β → Prop} :
    ∀ {a : Option α} {b : Option β}, Option.Rel R a b →
      (a = none ∧ b = none) ∨ ∃ x y, a = some x ∧ b = some y ∧ R x y
  | _, _, .none => .inl ⟨rfl, rfl⟩
  | _, _, .some h => .inr ⟨_, _, rfl, rfl, h⟩

theorem rel_getElem? {α β : Type} {R : α → β → Prop} {xs : List α} {ys : List β}
    (h : List.Forall₂ R xs ys) (i : Nat) : Option.Rel R xs[i]? ys[i]? := by
  induction h generalizing i with
  | nil => exact .none
  | cons hfirst _ ih =>
      cases i with
      | zero => exact .some hfirst
      | succ i =>
          rw [List.getElem?_cons_succ, List.getElem?_cons_succ]
          exact ih i

/-- Lists that are related one by one are related in some order. -/
theorem rel_coe {α β : Type} {R : α → β → Prop} {xs : List α} {ys : List β}
    (h : List.Forall₂ R xs ys) : Multiset.Rel R (xs : Multiset α) (ys : Multiset β) := by
  induction h with
  | nil => exact .zero
  | cons hfirst _ ih => exact .cons hfirst ih

/-- What stands for members that are related one by one is related through them. -/
theorem rel_through {α β γ δ : Type} {R : α → β → Prop} {S : γ → α → Prop} {S' : δ → β → Prop}
    {xs : List α} {ys : List β} (h : List.Forall₂ R xs ys) :
    ∀ {us : List γ} {vs : List δ}, List.Forall₂ S us xs → List.Forall₂ S' vs ys →
      List.Forall₂ (fun u v => ∃ x y, R x y ∧ S u x ∧ S' v y) us vs := by
  induction h with
  | nil =>
      intro us vs hus hvs
      cases hus
      cases hvs
      exact .nil
  | cons hfirst _ ih =>
      intro us vs hus hvs
      cases hus with
      | cons hu hus =>
          cases hvs with
          | cons hv hvs => exact .cons ⟨_, _, hfirst, hu, hv⟩ (ih hus hvs)

/-- What members that are related one by one lead to is related one by one. -/
theorem rel_flatMap {α β γ δ : Type} {R : α → β → Prop} {S : γ → δ → Prop} {f : α → List γ}
    {g : β → List δ} {xs : List α} {ys : List β} (h : List.Forall₂ R xs ys)
    (hfg : ∀ x ∈ xs, ∀ y ∈ ys, R x y → List.Forall₂ S (f x) (g y)) :
    List.Forall₂ S (xs.flatMap f) (ys.flatMap g) := by
  induction h with
  | nil => exact .nil
  | cons hfirst _ ih =>
      rw [List.flatMap_cons, List.flatMap_cons]
      refine List.rel_append (hfg _ List.mem_cons_self _ List.mem_cons_self hfirst) (ih ?_)
      intro x hx y hy
      exact hfg x (List.mem_cons_of_mem _ hx) y (List.mem_cons_of_mem _ hy)

/-- Related members that are kept together are related. -/
theorem rel_filterMap {α β γ δ : Type} {R : α → β → Prop} {S : γ → δ → Prop}
    {xs : List α} {ys : List β} {f : α → Option γ} {g : β → Option δ}
    (h : Multiset.Rel R (xs : Multiset α) (ys : Multiset β))
    (hfg : ∀ {x y}, R x y → Option.Rel S (f x) (g y)) :
    Multiset.Rel S (xs.filterMap f : Multiset γ) (ys.filterMap g : Multiset δ) := by
  rw [List.filterMap_eq_flatMap_toList, List.filterMap_eq_flatMap_toList, ← Multiset.coe_bind,
    ← Multiset.coe_bind]
  refine Multiset.rel_bind (fun x y hxy => ?_) h
  rcases rel_cases (hfg hxy) with ⟨hx, hy⟩ | ⟨z, z', hx, hy, hS⟩
  · rw [hx, hy]
    exact .zero
  · rw [hx, hy]
    exact .cons hS .zero

/-! ## Branches -/

/-- Two open constructs are at related nodes and have come equally far. -/
structure Frame.Matches (M : NodeId → NodeId → Prop) (frame frame' : Frame) : Prop where
  /-- The nodes are related. -/
  node : M frame.node frame'.node
  /-- They have come equally far. -/
  progress : frame.progress = frame'.progress
  /-- They were entered after as many symbols. -/
  symbolsBefore : frame.symbolsBefore = frame'.symbolsBefore
  /-- They were entered after as many tokens. -/
  tokensBefore : frame.tokensBefore = frame'.tokensBefore

/-- Two branches have related open constructs and the same buffers. -/
structure Branch.Matches (M : NodeId → NodeId → Prop) (b b' : Branch σ τ) : Prop where
  /-- The open constructs are related one by one. -/
  frames : List.Forall₂ (Frame.Matches M) b.frames b'.frames
  /-- They are about to enter related nodes. -/
  target : Option.Rel M b.target b'.target
  /-- They have heard the same symbols. -/
  heard : b.heard = b'.heard
  /-- They have heard them since the same symbol. -/
  heardFrom : b.heardFrom = b'.heardFrom
  /-- As many emissions listen. -/
  listeners : b.listeners = b'.listeners
  /-- They have emitted the same tokens. -/
  tokens : b.tokens = b'.tokens

namespace Branch.Matches

variable {b b' : Branch σ τ} {id id' : NodeId}

theorem start (hM : M id id') : (Branch.start id : Branch σ τ).Matches M (Branch.start id') :=
  ⟨.nil, .some hM, rfl, rfl, rfl, rfl⟩

theorem depth_eq (h : b.Matches M b') : b.depth = b'.depth := by
  rw [b.depth_eq, b'.depth_eq, h.frames.length_eq]

theorem isDone_eq (h : b.Matches M b') : b.isDone = b'.isDone := by
  have hframes := h.frames
  have htarget := h.target
  simp only [Branch.isDone]
  generalize b.frames = frames, b'.frames = frames' at hframes ⊢
  generalize b.target = target, b'.target = target' at htarget ⊢
  cases hframes with
  | nil =>
      cases htarget with
      | none => rfl
      | some => rfl
  | cons => rfl

theorem arrived (h : b.Matches M b') : b.arrived.Matches M b'.arrived :=
  ⟨h.frames, .none, h.heard, h.heardFrom, h.listeners, h.tokens⟩

theorem aim (h : b.Matches M b') (hM : M id id') : (b.aim id).Matches M (b'.aim id') :=
  ⟨h.frames, .some hM, h.heard, h.heardFrom, h.listeners, h.tokens⟩

theorem push (h : b.Matches M b') (hM : M id id') (progress position : Nat) :
    (b.push id progress position).Matches M (b'.push id' progress position) where
  __ := h
  frames := .cons ⟨hM, rfl, rfl, congrArg List.length h.tokens⟩ h.frames

theorem pop (h : b.Matches M b') : b.pop.Matches M b'.pop where
  __ := h
  frames := by
    simp only [Branch.pop, ← List.drop_one]
    exact List.forall₂_drop 1 h.frames

theorem reach (h : b.Matches M b') (progress : Nat) :
    (b.reach progress).Matches M (b'.reach progress) where
  __ := h
  frames := by
    have hframes := h.frames
    simp only [Branch.reach]
    generalize b.frames = frames, b'.frames = frames' at hframes ⊢
    cases hframes with
    | nil => exact .nil
    | cons hfirst hrest => exact .cons { hfirst with progress := rfl } hrest

theorem via (h : b.Matches M b') (id id' : NodeId) (way way' position : Nat) :
    (b.via id way position).Matches M (b'.via id' way' position) :=
  ⟨h.frames, h.target, h.heard, h.heardFrom, h.listeners, h.tokens⟩

theorem listen (h : b.Matches M b') (position : Nat) :
    (b.listen position).Matches M (b'.listen position) := by
  rw [listen_eq, listen_eq]
  exact ⟨h.frames, h.target, by simp only [h.listeners, h.heard],
    by simp only [h.listeners, h.heardFrom], by simp only [h.listeners], h.tokens⟩

theorem unlisten (h : b.Matches M b') : b.unlisten.Matches M b'.unlisten := by
  rw [unlisten_eq, unlisten_eq]
  exact ⟨h.frames, h.target, by simp only [h.listeners, h.heard], h.heardFrom,
    by simp only [h.listeners], h.tokens⟩

theorem hear (h : b.Matches M b') (symbol : σ) : (b.hear symbol).Matches M (b'.hear symbol) := by
  rw [hear_eq, hear_eq]
  exact ⟨h.frames, h.target, by simp only [h.listeners, h.heard], h.heardFrom, h.listeners,
    h.tokens⟩

theorem heardSince_eq (h : b.Matches M b') (mark : Nat) :
    b.heardSince mark = b'.heardSince mark := by
  rw [Branch.heardSince, Branch.heardSince, h.heard, h.heardFrom]

theorem emit (h : b.Matches M b') (token : τ) : (b.emit token).Matches M (b'.emit token) where
  __ := h
  tokens := congrArg (· ++ [token]) h.tokens

theorem gather (h : b.Matches M b') (mark : Nat) (merge : List τ → τ) :
    (b.gather mark merge).Matches M (b'.gather mark merge) where
  __ := h
  tokens := by simp only [Branch.gather, h.tokens]

end Branch.Matches

/-! ## Moves -/

/-- Two turns make the same reports and lead to branches that match in some order. -/
structure Turn.Matches (M : NodeId → NodeId → Prop) (turn turn' : Turn σ τ) : Prop where
  /-- They make the same reports. -/
  calls : turn.calls = turn'.calls
  /-- The branches match in some order. -/
  branches : Multiset.Rel (Branch.Matches M) (turn.branches : Multiset (Branch σ τ))
    (turn'.branches : Multiset (Branch σ τ))

namespace Turn.Matches

theorem dead : (Turn.dead : Turn σ τ).Matches M Turn.dead := ⟨rfl, .zero⟩

theorem go {b b' : Branch σ τ} (h : b.Matches M b') : (Turn.go b).Matches M (Turn.go b') :=
  ⟨rfl, .cons h .zero⟩

theorem split {ways ways' : List (Branch σ τ)}
    (h : Multiset.Rel (Branch.Matches M) (ways : Multiset (Branch σ τ))
      (ways' : Multiset (Branch σ τ))) : (Turn.split ways).Matches M (Turn.split ways') where
  calls := by
    cases ways with
    | nil =>
        cases ways' with
        | nil => rfl
        | cons => rfl
    | cons =>
        cases ways' with
        | nil => rfl
        | cons => rfl
  branches := by
    rwa [Multiset.coe_eq_coe.mpr (Turn.split_perm ways),
      Multiset.coe_eq_coe.mpr (Turn.split_perm ways')]

/-- The two ways at a loop or an observer. -/
theorem fork {x x' y y' : Branch σ τ} (hx : x.Matches M x') (hy : y.Matches M y') :
    (Turn.split [x, y]).Matches M (Turn.split [x', y']) :=
  .split (.cons hx (.cons hy .zero))

end Turn.Matches

namespace Grammar.Matching

variable {g g' : Grammar σ τ} {b b' : Branch σ τ} {id id' : NodeId}

/-- Related nodes are guarded by the same set. -/
theorem guard?_eq (h : Matching g g' M) (hM : M id id') : g.guard? id = g'.guard? id' := by
  obtain ⟨node, node', hn, hn', hmatch⟩ := h.nodes hM
  simp only [Grammar.guard?, hn, hn']
  cases hmatch with
  | seq hparts =>
      cases hparts with
      | nil => rfl
      | cons hfirst _ =>
          obtain ⟨first, first', hf, hf', hmatch⟩ := h.nodes hfirst
          simp only [hf, hf']
          cases hmatch with
          | empty | oneOf | literal | guard | seq | alt | star | times | rule | emit | fold
          | observe => rfl
  | empty | oneOf | literal | guard | alt | star | times | rule | emit | fold | observe => rfl

variable [DecidableEq σ] {position : Nat} {next : Option σ}

theorem admits_eq (h : Matching g g' M) (hM : M id id') :
    (Cursor.mk g position next).admits id = (Cursor.mk g' position next).admits id' := by
  simp only [Cursor.admits, h.guard?_eq hM]

/-- The ways at two choices match in some order. -/
theorem choices (h : Matching g g' M) (hb : b.Matches M b') {choices choices' : List NodeId}
    (hchoices : Multiset.Rel M (choices : Multiset NodeId) (choices' : Multiset NodeId))
    (id id' : NodeId) :
    Multiset.Rel (Branch.Matches M)
      (((choices.zipIdx.filter fun (choice, _) => (Cursor.mk g position next).admits choice).map
        fun (choice, index) => (b.via id index position).aim choice : List (Branch σ τ)) :
          Multiset (Branch σ τ))
      (((choices'.zipIdx.filter fun (choice, _) => (Cursor.mk g' position next).admits choice).map
        fun (choice, index) => (b'.via id' index position).aim choice : List (Branch σ τ)) :
          Multiset (Branch σ τ)) := by
  -- The number of a choice goes into the trail only, so entries are related by their nodes.
  have hindexed : Multiset.Rel (fun entry entry' => M entry.1 entry'.1)
      (choices.zipIdx : Multiset (NodeId × Nat)) (choices'.zipIdx : Multiset (NodeId × Nat)) := by
    rw [← Multiset.rel_map, Multiset.map_coe, Multiset.map_coe, List.zipIdx_map_fst,
      List.zipIdx_map_fst]
    exact hchoices
  rw [← List.filterMap_eq_map, ← List.filterMap_eq_map, List.filterMap_filter,
    List.filterMap_filter]
  refine rel_filterMap hindexed fun {entry entry'} hM => ?_
  simp only [h.admits_eq hM]
  split
  · exact .some ((hb.via _ _ _ _ _).aim hM)
  · exact .none

theorem descend (h : Matching g g' M) (hb : b.Matches M b') (hM : M id id') :
    ((Cursor.mk g position next).descend b id).Matches M
      ((Cursor.mk g' position next).descend b' id') := by
  obtain ⟨node, node', hn, hn', hmatch⟩ := h.nodes hM
  simp only [Cursor.descend, hn, hn']
  cases hmatch with
  | empty => exact .go hb
  | oneOf | literal => exact .go (hb.push hM _ _)
  | guard set =>
      simp only
      split
      · exact .go hb
      · exact .dead
  | seq hparts =>
      cases hparts with
      | nil => exact .go hb
      | cons hfirst hrest =>
          cases hrest with
          | nil => exact .go (hb.aim hfirst)
          | cons => exact .go ((hb.push hM _ _).aim hfirst)
  | alt hchoices => exact .split (h.choices hb hchoices id id')
  | star hbody => exact .fork (((hb.via _ _ _ _ _).push hM _ _).aim hbody) (hb.via _ _ _ _ _)
  | times count hbody =>
      rcases count with _ | _ | count
      · exact .go hb
      · exact .go (hb.aim hbody)
      · exact .go ((hb.push hM _ _).aim hbody)
  | rule index =>
      rcases h.bodies index with ⟨hnone, hnone'⟩ | ⟨body, body', hbody, hbody', hM⟩
      · simp only [hnone, hnone']
        exact .dead
      · simp only [hbody, hbody']
        exact .go (hb.aim hM)
  | emit yields hbody =>
      cases yields with
      | fixed => exact .go ((hb.push hM _ _).aim hbody)
      | ofSymbols => exact .go (((hb.listen _).push hM _ _).aim hbody)
  | fold merge hbody => exact .go ((hb.push hM _ _).aim hbody)
  | observe observer =>
      simp only
      split
      · refine ⟨rfl, ?_⟩
        simp only
        split
        · exact .cons hb .zero
        · exact .zero
      · exact .go (hb.push hM _ _)
      · exact .fork ((hb.via _ _ _ _ _).push hM _ _) (hb.via _ _ _ _ _)

omit [DecidableEq σ] in
theorem resume (h : Matching g g' M) (hb : b.Matches M b') {frame frame' : Frame}
    (hframe : frame.Matches M frame') :
    ((Cursor.mk g position next).resume b frame).Matches M
      ((Cursor.mk g' position next).resume b' frame') := by
  obtain ⟨node, node', hn, hn', hmatch⟩ := h.nodes hframe.node
  simp only [Cursor.resume, hn, hn', hframe.progress]
  cases hmatch with
  | empty | oneOf | literal | guard | alt | rule | observe => exact .go hb.pop
  | seq hparts =>
      rcases rel_cases (rel_getElem? hparts (frame'.progress + 1)) with
        ⟨hnone, hnone'⟩ | ⟨part, part', hpart, hpart', hM⟩
      · simp only [hnone, hnone']
        exact .dead
      · simp only [hpart, hpart', hparts.length_eq]
        split
        · exact .go (hb.pop.aim hM)
        · exact .go ((hb.reach _).aim hM)
  | star hbody =>
      simp only
      split
      · exact .dead
      · exact .fork (((hb.reach _).via _ _ _ _ _).aim hbody) (hb.pop.via _ _ _ _ _)
  | times count hbody =>
      simp only
      split
      · exact .go (hb.pop.aim hbody)
      · exact .go ((hb.reach _).aim hbody)
  | emit yields hbody =>
      cases yields with
      | fixed token => exact .go (hb.pop.emit token)
      | ofSymbols make =>
          simp only [hframe.symbolsBefore, hb.heardSince_eq]
          exact .go (hb.pop.unlisten.emit _)
  | fold merge hbody =>
      simp only [hframe.tokensBefore]
      exact .go (hb.pop.gather _ merge)

omit [DecidableEq σ] in
theorem waitsAt_eq (h : Matching g g' M) (hM : M id id') :
    (Cursor.mk g position next).waitsAt id = (Cursor.mk g' position next).waitsAt id' := by
  obtain ⟨node, node', hn, hn', hmatch⟩ := h.nodes hM
  simp only [Cursor.waitsAt, hn, hn']
  cases hmatch with
  | empty | oneOf | literal | guard | seq | alt | star | times | rule | emit | fold | observe => rfl

/-- Matching branches both rest, or make matching turns. -/
theorem move (h : Matching g g' M) (hb : b.Matches M b') :
    Option.Rel (Turn.Matches M) ((Cursor.mk g position next).move b)
      ((Cursor.mk g' position next).move b') := by
  obtain ⟨frames, _, target⟩ := b
  obtain ⟨frames', _, target'⟩ := b'
  have hframes : List.Forall₂ (Frame.Matches M) frames frames' := hb.frames
  have htarget : Option.Rel M target target' := hb.target
  cases htarget with
  | some hM => exact .some (h.descend hb.arrived hM)
  | none =>
      cases hframes with
      | nil => exact .none
      | cons hframe _ =>
          simp only [Cursor.move, h.waitsAt_eq hframe.node]
          split
          · exact .none
          · exact .some (h.resume hb hframe)

/-- A symbol fits both of two matching branches or neither. -/
theorem consume (h : Matching g g' M) (symbol : σ) (hb : b.Matches M b') :
    Option.Rel (Branch.Matches M) (g.consume symbol b) (g'.consume symbol b') := by
  have hframes := hb.frames
  simp only [Grammar.consume]
  generalize b.frames = frames, b'.frames = frames' at hframes ⊢
  cases hframes with
  | nil => exact .none
  | cons hframe _ =>
      obtain ⟨node, node', hn, hn', hmatch⟩ := h.nodes hframe.node
      simp only [hn, hn', hframe.progress]
      cases hmatch with
      | empty | guard | seq | alt | star | times | rule | emit | fold => exact .none
      | oneOf set =>
          simp only
          split
          · exact .some (hb.pop.hear symbol)
          · exact .none
      | literal run =>
          simp only
          split
          · refine .some (Branch.Matches.hear ?_ symbol)
            split
            · exact hb.pop
            · exact hb.reach _
          · exact .none
      | observe observer =>
          simp only
          split
          · exact .some (hb.pop.hear symbol)
          · exact .none

end Grammar.Matching

/-! ## Unfolding -/

/-- Two events are the same, or two matching branches come to rest. -/
inductive Event.Matches (M : NodeId → NodeId → Prop) : Event σ τ → Event σ τ → Prop where
  /-- The same report. -/
  | called (call : Call σ) : Matches M (.called call) (.called call)
  /-- Matching branches. -/
  | rested {b b' : Branch σ τ} (h : b.Matches M b') : Matches M (.rested b) (.rested b')
  /-- The same depth. -/
  | overran (depth : Nat) : Matches M (.overran depth) (.overran depth)

theorem Event.Matches.branch? {event event' : Event σ τ} (h : event.Matches M event') :
    Option.Rel (Branch.Matches M) event.branch? event'.branch? := by
  cases h with
  | called | overran => exact .none
  | rested h => exact .some h

variable [DecidableEq σ] {g g' : Grammar σ τ} {position : Nat} {next : Option σ}

/-- The same happens while matching branches unfold, in some order. -/
theorem Grammar.Matching.events (h : Matching g g' M) (hg : g.IsBuilt) (hg' : g'.IsBuilt)
    (maxDepth : Nat) :
    ∀ {fuel : Nat} {b b' : Branch σ τ}, (Cursor.mk g position next).cost b < fuel →
      b.Matches M b' → b.Fits g position → b'.Fits g' position →
      Multiset.Rel (Event.Matches M)
        ((Cursor.mk g position next).events maxDepth b : Multiset (Event σ τ))
        ((Cursor.mk g' position next).events maxDepth b' : Multiset (Event σ τ))
  | 0, _, _, hfuel, _, _, _ => absurd hfuel (Nat.not_lt_zero _)
  | fuel + 1, b, b', hfuel, hb, hfit, hfit' => by
      cases hd : Limits.isExceeded maxDepth b.depth with
      | true =>
          have hd' := hb.depth_eq ▸ hd
          rw [Cursor.events_of_overrun hd, Cursor.events_of_overrun hd', hb.depth_eq]
          exact .cons (.overran _) .zero
      | false =>
          have hd' := hb.depth_eq ▸ hd
          rcases rel_cases (h.move hb) with ⟨hm, hm'⟩ | ⟨turn, turn', hm, hm', hturn⟩
          · rw [Cursor.events_of_rest hd hm, Cursor.events_of_rest hd' hm']
            exact .cons (.rested hb) .zero
          · rw [Cursor.events_of_move hg hfit hd hm, Cursor.events_of_move hg' hfit' hd' hm',
              ← Multiset.coe_add, ← Multiset.coe_add, ← Multiset.coe_bind, ← Multiset.coe_bind,
              hturn.calls]
            refine .add ?_ (Multiset.rel_bind (fun _ _ hevents => hevents) (hturn.branches.mono ?_))
            · refine Multiset.rel_refl_of_refl_on fun event hevent => ?_
              obtain ⟨call, -, rfl⟩ := List.mem_map.mp hevent
              exact .called call
            · intro x hx x' hx' hxx'
              have hmove := Cursor.moves_of_move hfit hm hx
              have hmove' := Cursor.moves_of_move hfit' hm' hx'
              have hcost : (Cursor.mk g position next).cost x < fuel :=
                Nat.lt_of_lt_of_le (hmove.cost_lt hg) (Nat.le_of_lt_succ hfuel)
              exact h.events hg hg' maxDepth hcost hxx' (hmove.fits hg hfit)
                (hmove'.fits hg' hfit')

end Ramify
