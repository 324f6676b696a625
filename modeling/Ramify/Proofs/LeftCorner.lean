import Mathlib.Data.Finset.Card
import Mathlib.Logic.Relation
import Ramify.Grammar.LeftCorner

/-!
# Grammars without left recursion

A grammar that passes `Grammar.rejectLeftRecursion` has well-founded left corners:
no chain of left corners goes on for ever.  The walk closes a node only after it
has met all its left corners without meeting an open one, so all of them were
closed before it.  `LeftRecursion.Walked` holds what such a walk leaves behind.

The walk is given one unit of fuel more than there are nodes.  The nodes on its
path are open, so they differ from the fresh node that comes next, and a path of
different nodes is no longer than the arena (`LeftRecursion.length_le_of_path`).

Well-founded left corners give every node a `rank`, the number of nodes that it
reaches through left corners.  It is at most the number of nodes, and smaller at
each left corner of a node.
-/

namespace Ramify

variable {σ τ : Type}

/-- `a` is a left corner of `b`. -/
def Grammar.LeftCorner (g : Grammar σ τ) (a b : NodeId) : Prop :=
  a ∈ g.leftCorners b

/-- A place outside the arena has no left corners. -/
theorem Grammar.leftCorners_eq_nil {g : Grammar σ τ} {id : NodeId} (h : g.nodes.size ≤ id) :
    g.leftCorners id = [] := by
  unfold Grammar.leftCorners
  rw [Array.getElem?_eq_none h]

theorem Grammar.LeftCorner.lt_size {g : Grammar σ τ} {a b : NodeId} (h : g.LeftCorner a b) :
    b < g.nodes.size := by
  by_contra hb
  have hn := g.leftCorners_eq_nil (Nat.le_of_not_lt hb)
  rw [Grammar.LeftCorner, hn] at h
  cases h

theorem Grammar.mem_of_mem_leadingParts {g : Grammar σ τ} {part : NodeId} {parts : List NodeId}
    (h : part ∈ g.leadingParts parts) : part ∈ parts := by
  induction parts with
  | nil => cases h
  | cons first parts ih =>
      rcases List.mem_cons.mp h with rfl | h
      · exact List.mem_cons_self
      · split at h
        · exact List.mem_cons_of_mem _ (ih h)
        · cases h

theorem Grammar.leadingParts_append (g : Grammar σ τ) (parts more : List NodeId) :
    g.leadingParts (parts ++ more) = g.leadingParts parts ++
      if ∀ part ∈ parts, g.isNullable part = true then g.leadingParts more else [] := by
  induction parts with
  | nil => simp [Grammar.leadingParts]
  | cons first parts ih =>
      simp only [List.cons_append, Grammar.leadingParts, ih, List.forall_mem_cons]
      cases g.isNullable first <;> simp

namespace LeftRecursion

/-! ## Stages -/

/-- The stage of a node.  A place outside the arena counts as closed. -/
def Stages.stageOf (stages : Stages) (id : NodeId) : Stage := stages.getD id .closed

theorem Stages.lt_size {stages : Stages} {id : NodeId} (h : stages.stageOf id ≠ .closed) :
    id < stages.size := by
  by_contra hid
  exact h (by simp [Stages.stageOf, Array.getD, hid])

theorem Stages.stageOf_set {stages : Stages} {id other : NodeId} {stage : Stage}
    (hid : id < stages.size) :
    Stages.stageOf (stages.setIfInBounds id stage) other =
      if id = other then stage else stages.stageOf other := by
  simp only [Stages.stageOf, Array.getD_eq_getD_getElem?, Array.getElem?_setIfInBounds]
  split
  · simp
  · rfl

/-- Stages of the nodes of `g` in which no closed node starts an infinite chain of
left corners. -/
structure Settled (g : Grammar σ τ) (stages : Stages) : Prop where
  /-- Every node has a stage. -/
  size : stages.size = g.nodes.size
  /-- Chains of left corners from a closed node are finite. -/
  acc : ∀ id, stages.stageOf id = .closed → Acc g.LeftCorner id

/-- The nodes of a path are open. -/
def Open (stages : Stages) (path : List NodeId) : Prop :=
  ∀ id ∈ path, stages.stageOf id = .opened

/-- What a walk from `stages` to `stages'` that found no cycle leaves behind. -/
structure Walked (g : Grammar σ τ) (stages stages' : Stages) : Prop where
  /-- The nodes that were open still are. -/
  opened : ∀ id, stages.stageOf id = .opened → stages'.stageOf id = .opened
  /-- The nodes that were closed still are. -/
  closed : ∀ id, stages.stageOf id = .closed → stages'.stageOf id = .closed
  /-- No closed node starts an infinite chain. -/
  settled : Settled g stages'

theorem Walked.refl {g : Grammar σ τ} {stages : Stages} (h : Settled g stages) :
    Walked g stages stages :=
  ⟨fun _ h => h, fun _ h => h, h⟩

theorem Walked.trans {g : Grammar σ τ} {s₁ s₂ s₃ : Stages} (h : Walked g s₁ s₂)
    (h' : Walked g s₂ s₃) : Walked g s₁ s₃ where
  opened id hid := h'.opened id (h.opened id hid)
  closed id hid := h'.closed id (h.closed id hid)
  settled := h'.settled

theorem Walked.open {g : Grammar σ τ} {stages stages' : Stages} {path : List NodeId}
    (h : Walked g stages stages') (hopen : Open stages path) : Open stages' path :=
  fun id hid => h.opened id (hopen id hid)

/-- A path of different open nodes is no longer than the arena. -/
theorem length_le_of_path {stages : Stages} {path : List NodeId} (hnodup : path.Nodup)
    (hopen : Open stages path) : path.length ≤ stages.size := by
  have hsub : path.toFinset ⊆ Finset.range stages.size := by
    intro id hid
    have hid' := hopen id (List.mem_toFinset.mp hid)
    exact Finset.mem_range.mpr (Stages.lt_size (by rw [hid']; decide))
  calc path.length = path.toFinset.card := (List.toFinset_card_of_nodup hnodup).symm
    _ ≤ (Finset.range stages.size).card := Finset.card_le_card hsub
    _ = stages.size := Finset.card_range _

/-! ## One walk -/

/-- A walk into a fresh node leaves it closed. -/
def Closes (g : Grammar σ τ) (path : List NodeId)
    (descend : Stages → NodeId → Except Fault Stages) : Prop :=
  ∀ (stages stages' : Stages) (id : NodeId), Settled g stages → Open stages path →
    stages.stageOf id = .fresh → descend stages id = .ok stages' →
    Walked g stages stages' ∧ stages'.stageOf id = .closed

/-- A node that is met without a fault is closed afterwards. -/
theorem meet_ok {g : Grammar σ τ} {path : List NodeId}
    {descend : Stages → NodeId → Except Fault Stages} (hd : Closes g path descend)
    {stages stages' : Stages} {id : NodeId} (hs : Settled g stages) (hopen : Open stages path)
    (h : meet g path descend stages id = .ok stages') :
    Walked g stages stages' ∧ stages'.stageOf id = .closed := by
  unfold meet at h
  split at h
  next hc =>
    cases h
    exact ⟨.refl hs, hc⟩
  next => cases h
  next hf => exact hd _ _ _ hs hopen hf h

/-- All nodes of a list that is gone through without a fault are closed afterwards. -/
theorem foldlM_meet_ok {g : Grammar σ τ} {path : List NodeId}
    {descend : Stages → NodeId → Except Fault Stages} (hd : Closes g path descend) :
    ∀ (ids : List NodeId) {stages stages' : Stages}, Settled g stages → Open stages path →
      ids.foldlM (meet g path descend) stages = .ok stages' →
      Walked g stages stages' ∧ ∀ id ∈ ids, stages'.stageOf id = .closed
  | [], stages, stages', hs, _, h => by
      cases h
      exact ⟨.refl hs, by simp⟩
  | id :: ids, stages, stages', hs, hopen, h => by
      rw [List.foldlM_cons] at h
      cases hm : meet g path descend stages id with
      | error fault => rw [hm] at h; cases h
      | ok next =>
          rw [hm] at h
          obtain ⟨hw, hid⟩ := meet_ok hd hs hopen hm
          obtain ⟨hw', hids⟩ := foldlM_meet_ok hd ids hw.settled (hw.open hopen) h
          refine ⟨hw.trans hw', ?_⟩
          intro other hother
          rcases List.mem_cons.mp hother with rfl | hother
          · exact hw'.closed _ hid
          · exact hids other hother

/-- A fresh node may be opened. -/
theorem Settled.open {g : Grammar σ τ} {stages : Stages} {id : NodeId} (hs : Settled g stages)
    (hfresh : stages.stageOf id = .fresh) : Settled g (stages.setIfInBounds id .opened) := by
  have hid : id < stages.size := Stages.lt_size (by rw [hfresh]; decide)
  refine ⟨by rw [Array.size_setIfInBounds, hs.size], ?_⟩
  intro other hother
  rw [Stages.stageOf_set hid] at hother
  split at hother
  · cases hother
  · exact hs.acc other hother

theorem Open.cons {stages : Stages} {path : List NodeId} {id : NodeId} (hopen : Open stages path)
    (hfresh : stages.stageOf id = .fresh) : Open (stages.setIfInBounds id .opened) (id :: path) := by
  have hid : id < stages.size := Stages.lt_size (by rw [hfresh]; decide)
  intro other hother
  rw [Stages.stageOf_set hid]
  split
  · rfl
  next hne =>
    rcases List.mem_cons.mp hother with rfl | hother
    · exact absurd rfl hne
    · exact hopen other hother

/-- A node that was fresh and is open now may be closed once its left corners are. -/
theorem Walked.close {g : Grammar σ τ} {stages inner : Stages} {id : NodeId}
    (hfresh : stages.stageOf id = .fresh) (hw : Walked g (stages.setIfInBounds id .opened) inner)
    (hcorners : ∀ corner ∈ g.leftCorners id, inner.stageOf corner = .closed) :
    Walked g stages (inner.setIfInBounds id .closed) := by
  have hid : id < stages.size := Stages.lt_size (by rw [hfresh]; decide)
  have hopened : inner.stageOf id = .opened := hw.opened id (by rw [Stages.stageOf_set hid, if_pos rfl])
  have hid' : id < inner.size := Stages.lt_size (by rw [hopened]; decide)
  refine ⟨?_, ?_, ⟨by rw [Array.size_setIfInBounds, hw.settled.size], ?_⟩⟩
  · intro other hother
    have hne : id ≠ other := by
      rintro rfl
      rw [hfresh] at hother
      cases hother
    rw [Stages.stageOf_set hid', if_neg hne]
    exact hw.opened other (by rw [Stages.stageOf_set hid, if_neg hne]; exact hother)
  · intro other hother
    rw [Stages.stageOf_set hid']
    split
    · rfl
    next hne => exact hw.closed other (by rw [Stages.stageOf_set hid, if_neg hne]; exact hother)
  · intro other hother
    rw [Stages.stageOf_set hid'] at hother
    split at hother
    next heq =>
      subst heq
      exact Acc.intro _ fun corner hcorner => hw.settled.acc corner (hcorners corner hcorner)
    · exact hw.settled.acc other hother

/-- A walk that has fuel for every node off its path closes the node it goes into. -/
theorem explore_closes (g : Grammar σ τ) :
    ∀ (fuel : Nat) (path : List NodeId), path.Nodup → g.nodes.size < fuel + path.length →
      Closes g path (explore g fuel path)
  | 0, path, hnodup, hfuel, stages, _, _, hs, hopen, _, _ => by
      have := length_le_of_path hnodup hopen
      have := hs.size
      omega
  | fuel + 1, path, hnodup, hfuel, stages, stages', id, hs, hopen, hfresh, h => by
      have hid : id < stages.size := Stages.lt_size (by rw [hfresh]; decide)
      have hnot : id ∉ path := by
        intro hmem
        rw [hopen id hmem] at hfresh
        cases hfresh
      have ih := explore_closes g fuel (id :: path) (List.nodup_cons.mpr ⟨hnot, hnodup⟩)
        (by rw [List.length_cons]; omega)
      simp only [explore] at h
      cases hm : (g.leftCorners id).foldlM (meet g (id :: path) (explore g fuel (id :: path)))
          (stages.setIfInBounds id .opened) with
      | error fault => rw [hm] at h; cases h
      | ok inner =>
          rw [hm] at h
          cases h
          obtain ⟨hw, hcorners⟩ := foldlM_meet_ok ih _ (hs.open hfresh) (hopen.cons hfresh) hm
          have hopened : inner.stageOf id = .opened :=
            hw.opened id (by rw [Stages.stageOf_set hid, if_pos rfl])
          refine ⟨hw.close hfresh hcorners, ?_⟩
          rw [Stages.stageOf_set (Stages.lt_size (by rw [hopened]; decide)), if_pos rfl]

end LeftRecursion

/-! ## Accepted grammars -/

/-- The left corners of a grammar that is not refused are well-founded. -/
theorem Grammar.wellFounded_leftCorner {g : Grammar σ τ} (h : g.rejectLeftRecursion = .ok ()) :
    WellFounded g.LeftCorner := by
  unfold Grammar.rejectLeftRecursion at h
  cases hm : (List.range g.nodes.size).foldlM
      (LeftRecursion.meet g [] (LeftRecursion.explore g (g.nodes.size + 1) []))
      (Array.replicate g.nodes.size LeftRecursion.Stage.fresh) with
  | error fault => simp only [hm] at h; cases h
  | ok stages =>
      have hstart : LeftRecursion.Settled g
          (Array.replicate g.nodes.size LeftRecursion.Stage.fresh) := by
        refine ⟨Array.size_replicate, ?_⟩
        intro id hid
        have hge : g.nodes.size ≤ id := by
          by_contra hlt
          simp [LeftRecursion.Stages.stageOf, Array.getD, Nat.lt_of_not_le hlt] at hid
        exact Acc.intro _ fun corner hcorner => absurd hcorner.lt_size (Nat.not_lt.mpr hge)
      have hcloses := LeftRecursion.explore_closes g (g.nodes.size + 1) [] List.nodup_nil
        (by simp)
      obtain ⟨hw, hall⟩ :=
        LeftRecursion.foldlM_meet_ok hcloses _ hstart (by simp [LeftRecursion.Open]) hm
      refine ⟨fun id => ?_⟩
      by_cases hid : id < g.nodes.size
      · exact hw.settled.acc id (hall id (List.mem_range.mpr hid))
      · exact Acc.intro _ fun corner hcorner => absurd hcorner.lt_size hid

/-! ## Walks that find no cycle -/

namespace LeftRecursion

/-- Setting the stage of a node opens no other node. -/
theorem Stages.opened_of_set {stages : Stages} {id other : NodeId} {stage : Stage}
    (h : Stages.stageOf (stages.setIfInBounds id stage) other = .opened) (hne : other ≠ id) :
    stages.stageOf other = .opened := by
  by_cases hid : id < stages.size
  · rwa [Stages.stageOf_set hid, if_neg hne.symm] at h
  · rwa [Array.setIfInBounds, dif_neg hid] at h

/-- A node that is closed is not open. -/
theorem Stages.ne_of_opened {stages : Stages} {id other : NodeId}
    (h : Stages.stageOf (stages.setIfInBounds id .closed) other = .opened) : other ≠ id := by
  rintro rfl
  by_cases hid : other < stages.size
  · rw [Stages.stageOf_set hid, if_pos rfl] at h
    cases h
  · rw [Array.setIfInBounds, dif_neg hid] at h
    exact hid (Stages.lt_size (by rw [h]; decide))

/-- A walk goes well wherever the open nodes rank above what it meets, and opens none
for good. -/
def Passes (rank : NodeId → Nat) (walk : Stages → NodeId → Except Fault Stages) : Prop :=
  ∀ (stages : Stages) (id : NodeId),
    (∀ other, stages.stageOf other = .opened → rank id < rank other) →
    ∃ stages', walk stages id = .ok stages' ∧
      ∀ other, stages'.stageOf other = .opened → stages.stageOf other = .opened

theorem Passes.meet (g : Grammar σ τ) (path : List NodeId) {rank : NodeId → Nat}
    {descend : Stages → NodeId → Except Fault Stages} (hd : Passes rank descend) :
    Passes rank (meet g path descend) := by
  intro stages id hopen
  unfold LeftRecursion.meet
  split
  · exact ⟨stages, rfl, fun _ h => h⟩
  next hid => exact absurd (hopen id hid) (Nat.lt_irrefl _)
  · exact hd stages id hopen

theorem Passes.foldlM {rank : NodeId → Nat} {walk : Stages → NodeId → Except Fault Stages}
    (hwalk : Passes rank walk) :
    ∀ (ids : List NodeId) (stages : Stages),
      (∀ id ∈ ids, ∀ other, stages.stageOf other = .opened → rank id < rank other) →
      ∃ stages', ids.foldlM walk stages = .ok stages' ∧
        ∀ other, stages'.stageOf other = .opened → stages.stageOf other = .opened
  | [], stages, _ => ⟨stages, rfl, fun _ h => h⟩
  | id :: ids, stages, hopen => by
      obtain ⟨inner, hinner, hkept⟩ := hwalk stages id (hopen id List.mem_cons_self)
      obtain ⟨stages', hrest, hkept'⟩ := Passes.foldlM hwalk ids inner fun id' hid' other hother =>
        hopen id' (List.mem_cons_of_mem _ hid') other (hkept other hother)
      refine ⟨stages', ?_, fun other hother => hkept other (hkept' other hother)⟩
      rw [List.foldlM_cons, hinner]
      exact hrest

theorem Passes.explore {g : Grammar σ τ} {rank : NodeId → Nat}
    (hrank : ∀ a b, g.LeftCorner a b → rank a < rank b) :
    ∀ (fuel : Nat) (path : List NodeId), Passes rank (explore g fuel path)
  | 0, _, stages, _, _ => ⟨stages, rfl, fun _ h => h⟩
  | fuel + 1, path, stages, id, hopen => by
      have hinside := Passes.meet g (id :: path) (Passes.explore hrank fuel (id :: path))
      obtain ⟨inner, hinner, hkept⟩ := hinside.foldlM (g.leftCorners id)
        (stages.setIfInBounds id .opened) fun corner hcorner other hother => by
          have hlt := hrank corner id hcorner
          by_cases heq : other = id
          · exact heq ▸ hlt
          · exact hlt.trans (hopen other (Stages.opened_of_set hother heq))
      refine ⟨inner.setIfInBounds id .closed, ?_, fun other hother => ?_⟩
      · simp only [LeftRecursion.explore, hinner]
        rfl
      · have hne := Stages.ne_of_opened hother
        exact Stages.opened_of_set (hkept other (Stages.opened_of_set hother hne)) hne

end LeftRecursion

/-- A grammar whose nodes rank above their left corners is not refused. -/
theorem Grammar.rejectLeftRecursion_of_rank {g : Grammar σ τ} (rank : NodeId → Nat)
    (hrank : ∀ a b, g.LeftCorner a b → rank a < rank b) : g.rejectLeftRecursion = .ok () := by
  have hwalk := LeftRecursion.Passes.meet g []
    (LeftRecursion.Passes.explore hrank (g.nodes.size + 1) [])
  obtain ⟨stages, hstages, -⟩ := hwalk.foldlM (List.range g.nodes.size)
    (Array.replicate g.nodes.size .fresh) fun id _ other hother => by
      simp only [LeftRecursion.Stages.stageOf, Array.getD_eq_getD_getElem?,
        Array.getElem?_replicate] at hother
      split at hother
      · cases hother
      · cases hother
  simp only [Grammar.rejectLeftRecursion, hstages]
  rfl

/-! ## Ranks -/

open Classical in
/-- The number of nodes that a node reaches through left corners, itself included. -/
noncomputable def Grammar.rank (g : Grammar σ τ) (id : NodeId) : Nat :=
  ((Finset.range g.nodes.size).filter fun other =>
    Relation.ReflTransGen g.LeftCorner other id).card

theorem Grammar.rank_le (g : Grammar σ τ) (id : NodeId) : g.rank id ≤ g.nodes.size := by
  classical
  calc g.rank id ≤ (Finset.range g.nodes.size).card := Finset.card_filter_le _ _
    _ = g.nodes.size := Finset.card_range _

/-- A left corner of a node does not reach the node, so it reaches less. -/
theorem Grammar.rank_lt {g : Grammar σ τ} (hwf : WellFounded g.LeftCorner) {a b : NodeId}
    (h : g.LeftCorner a b) : g.rank a < g.rank b := by
  classical
  refine Finset.card_lt_card (Finset.ssubset_iff_of_subset ?_ |>.mpr ⟨b, ?_, ?_⟩)
  · intro other hother
    rw [Finset.mem_filter] at hother ⊢
    exact ⟨hother.1, hother.2.tail h⟩
  · exact Finset.mem_filter.mpr ⟨Finset.mem_range.mpr h.lt_size, .refl⟩
  · intro hb
    have hcycle : Relation.TransGen g.LeftCorner b b :=
      Relation.TransGen.tail' (Finset.mem_filter.mp hb).2 h
    exact hwf.transGen.asymmetric b b hcycle hcycle

end Ramify
