import Mathlib.Data.List.Chain
import Ramify.Proofs.Placement

/-!
# What a refused grammar is blamed for

The walk of `Grammar.rejectLeftRecursion` stops when it meets an open node.  The open nodes
are those of its path, and each node of the path is a left corner of the one before it, so
the node that is met closes a cycle (`LeftRecursion.Loops`).  Hence a grammar is refused
just if its left corners have a cycle.

In an arena whose nodes stand after their parts, a left corner stands before its node unless
the node mentions a rule.  A cycle cannot go down all the way, so there is a mention of a
rule on it, and the rule found first is blamed: its body is the only left corner of the
mention, and reaches itself.
-/

namespace Ramify

variable {σ τ : Type}

namespace LeftRecursion

/-! ## Faults of a walk -/

/-- The path, newest node first, goes from a node down to the newest, which has the node
among its left corners. -/
def Loops (g : Grammar σ τ) (path : List NodeId) (id : NodeId) : Prop :=
  (id :: path).IsChain g.LeftCorner ∧ id ∈ path

/-- No node is open but those of a path. -/
def OpenOnly (stages : Stages) (path : List NodeId) : Prop :=
  ∀ id, stages.stageOf id = .opened → id ∈ path

/-- A walk from below a path opens no node for good, and its fault is the blame for a
cycle. -/
def Blames (g : Grammar σ τ) (path : List NodeId)
    (walk : Stages → NodeId → Except Fault Stages) : Prop :=
  ∀ (stages : Stages) (id : NodeId), OpenOnly stages path →
    (id :: path).IsChain g.LeftCorner →
    (∀ stages', walk stages id = .ok stages' → OpenOnly stages' path) ∧
      ∀ fault, walk stages id = .error fault →
        ∃ path' id', Loops g path' id' ∧ fault = blame g path' id'

theorem Blames.meet {g : Grammar σ τ} {path : List NodeId}
    {descend : Stages → NodeId → Except Fault Stages} (hd : Blames g path descend) :
    Blames g path (meet g path descend) := by
  intro stages id hopen hchain
  unfold LeftRecursion.meet
  split
  · refine ⟨fun stages' h => ?_, fun fault h => ?_⟩
    · cases h
      exact hopen
    · cases h
  next hid =>
    refine ⟨fun stages' h => ?_, fun fault h => ?_⟩
    · cases h
    · cases h
      exact ⟨path, id, ⟨hchain, hopen id hid⟩, rfl⟩
  · exact hd stages id hopen hchain

theorem Blames.foldlM {g : Grammar σ τ} {path : List NodeId}
    {walk : Stages → NodeId → Except Fault Stages} (hwalk : Blames g path walk)
    (ids : List NodeId) (hids : ∀ id ∈ ids, (id :: path).IsChain g.LeftCorner)
    {stages : Stages} (hopen : OpenOnly stages path) :
    (∀ stages', ids.foldlM walk stages = .ok stages' → OpenOnly stages' path) ∧
      ∀ fault, ids.foldlM walk stages = .error fault →
        ∃ path' id', Loops g path' id' ∧ fault = blame g path' id' := by
  induction ids generalizing stages with
  | nil =>
      refine ⟨fun stages' h => ?_, fun fault h => ?_⟩
      · cases h
        exact hopen
      · cases h
  | cons id ids ih =>
      obtain ⟨hok, herror⟩ := hwalk stages id hopen (hids id List.mem_cons_self)
      rw [List.foldlM_cons]
      cases hw : walk stages id with
      | error fault =>
          refine ⟨fun stages' h => ?_, fun fault' h => ?_⟩
          · cases h
          · cases h
            exact herror fault hw
      | ok inner => exact ih (fun id' hid' => hids id' (List.mem_cons_of_mem _ hid')) (hok inner hw)

theorem blames_explore (g : Grammar σ τ) :
    ∀ (fuel : Nat) (path : List NodeId), Blames g path (explore g fuel path)
  | 0, path, stages, id, hopen, _ => by
      refine ⟨fun stages' h => ?_, fun fault h => ?_⟩
      · cases h
        exact hopen
      · cases h
  | fuel + 1, path, stages, id, hopen, hchain => by
      have hinside : OpenOnly (stages.setIfInBounds id .opened) (id :: path) := by
        intro other hother
        by_cases heq : other = id
        · exact heq ▸ List.mem_cons_self
        · exact List.mem_cons_of_mem _ (hopen other (Stages.opened_of_set hother heq))
      have hcorners : ∀ corner ∈ g.leftCorners id, (corner :: id :: path).IsChain g.LeftCorner :=
        fun corner hcorner => List.isChain_cons_cons.mpr ⟨hcorner, hchain⟩
      obtain ⟨hok, herror⟩ :=
        (blames_explore g fuel (id :: path)).meet.foldlM _ hcorners hinside
      simp only [explore]
      cases hw : (g.leftCorners id).foldlM
          (LeftRecursion.meet g (id :: path) (explore g fuel (id :: path)))
          (stages.setIfInBounds id .opened) with
      | error fault =>
          refine ⟨fun stages' h => ?_, fun fault' h => ?_⟩
          · cases h
          · cases h
            exact herror fault hw
      | ok inner =>
          refine ⟨fun stages' h => ?_, fun fault h => ?_⟩
          · cases h
            intro other hother
            have hne := Stages.ne_of_opened hother
            have hmem := hok inner hw other (Stages.opened_of_set hother hne)
            exact (List.mem_cons.mp hmem).resolve_left hne
          · cases h

/-! ## Cycles -/

theorem cycle_eq {newer older : List NodeId} {id : NodeId} (h : id ∉ newer) :
    cycle (newer ++ id :: older) id = id :: newer.reverse := by
  have hall : ∀ other ∈ newer, (decide (other ≠ id)) = true := by
    intro other hother
    exact decide_eq_true fun heq => h (heq ▸ hother)
  unfold cycle
  rw [List.takeWhile_append_of_pos hall, List.dropWhile_append_of_pos hall]
  simp

/-- The cycle that a path closes is closed: it leads from its first node back to it. -/
theorem Loops.exists_chain {g : Grammar σ τ} {path : List NodeId} {id : NodeId}
    (h : Loops g path id) :
    ∃ newer, cycle path id = id :: newer.reverse ∧
      (id :: newer ++ [id]).IsChain g.LeftCorner := by
  obtain ⟨hchain, hmem⟩ := h
  obtain ⟨newer, older, rfl, hnot⟩ := List.eq_append_cons_of_mem hmem
  refine ⟨newer, cycle_eq hnot, hchain.prefix ⟨older, ?_⟩⟩
  simp

/-- Every node on a cycle reaches itself. -/
theorem Loops.transGen {g : Grammar σ τ} {path : List NodeId} {id other : NodeId}
    (h : Loops g path id) (hother : other ∈ cycle path id) :
    Relation.TransGen g.LeftCorner other other := by
  obtain ⟨newer, hcycle, hchain⟩ := h.exists_chain
  have hpairs : (id :: newer ++ [id]).Pairwise (Relation.TransGen g.LeftCorner) :=
    (hchain.imp fun _ _ hlt => .single hlt).pairwise
  obtain ⟨hfirst, hlast⟩ := List.pairwise_cons.mp hpairs
  rw [hcycle] at hother
  rcases List.mem_cons.mp hother with rfl | hother
  · exact hfirst other (by simp)
  · have hmem := List.mem_reverse.mp hother
    have hback := (List.pairwise_append.mp hlast).2.2 other hmem id List.mem_cons_self
    exact hback.trans (hfirst other (List.mem_append_left _ hmem))

end LeftRecursion

namespace Grammar

/-- A grammar is refused for a cycle. -/
theorem exists_loops_of_reject {g : Grammar σ τ} {fault : Fault}
    (h : g.rejectLeftRecursion = .error fault) :
    ∃ path id, LeftRecursion.Loops g path id ∧ fault = LeftRecursion.blame g path id := by
  have hopen : LeftRecursion.OpenOnly
      (Array.replicate g.nodes.size LeftRecursion.Stage.fresh) [] := by
    intro id hid
    simp only [LeftRecursion.Stages.stageOf, Array.getD_eq_getD_getElem?,
      Array.getElem?_replicate] at hid
    split at hid
    · cases hid
    · cases hid
  have hwalk := (LeftRecursion.blames_explore g (g.nodes.size + 1) []).meet.foldlM
    (List.range g.nodes.size) (fun id _ => List.isChain_singleton id) hopen
  unfold Grammar.rejectLeftRecursion at h
  cases hm : (List.range g.nodes.size).foldlM
      (LeftRecursion.meet g [] (LeftRecursion.explore g (g.nodes.size + 1) []))
      (Array.replicate g.nodes.size LeftRecursion.Stage.fresh) with
  | error fault' =>
      simp only [hm] at h
      cases h
      exact hwalk.2 fault hm
  | ok stages =>
      simp only [hm] at h
      cases h

/-- A grammar is accepted just if its left corners have no cycle. -/
theorem rejectLeftRecursion_eq_ok_iff {g : Grammar σ τ} :
    g.rejectLeftRecursion = .ok () ↔ ∀ id, ¬ Relation.TransGen g.LeftCorner id id := by
  constructor
  · intro h id hcycle
    exact (g.wellFounded_leftCorner h).transGen.asymmetric id id hcycle hcycle
  · intro h
    cases hr : g.rejectLeftRecursion with
    | ok => rfl
    | error fault =>
        obtain ⟨path, id, hloops, -⟩ := exists_loops_of_reject hr
        obtain ⟨newer, hcycle, -⟩ := hloops.exists_chain
        have hmem : id ∈ LeftRecursion.cycle path id := hcycle ▸ List.mem_cons_self
        exact absurd (hloops.transGen hmem) (h id)

/-! ## The rule that is blamed -/

/-- A left corner stands before its node, unless that mentions a rule. -/
theorem LeftCorner.lt {g : Grammar σ τ} (hg : Arena.Ordered g.nodes) {a b : NodeId}
    (h : g.LeftCorner a b) (hrule : ∀ index, g.nodes[b]? ≠ some (.rule index)) : a < b := by
  unfold Grammar.LeftCorner Grammar.leftCorners at h
  split at h
  next hn => exact hg hn a (mem_of_mem_leadingParts h)
  next hn => exact hg hn a h
  next hn => exact hg hn a h
  next hn => exact hg hn a h
  next hn => exact hg hn a h
  next hn =>
    split at h
    · cases h
    · exact hg hn a h
  next index hn => exact absurd hn (hrule index)
  · cases h

/-- The only left corner of a mention is the body of its rule. -/
theorem leftCorner_rule_iff {g : Grammar σ τ} {a b : NodeId} {index : RuleId}
    (hn : g.nodes[b]? = some (.rule index)) : g.LeftCorner a b ↔ g.body? index = some a := by
  simp [Grammar.LeftCorner, Grammar.leftCorners, hn]

end Grammar

namespace LeftRecursion

/-- A mention of a rule stands on every cycle. -/
theorem Loops.exists_rule {g : Grammar σ τ} (hg : Arena.Ordered g.nodes) {path : List NodeId}
    {id : NodeId} (h : Loops g path id) :
    ∃ other ∈ cycle path id, ∃ index, g.nodes[other]? = some (.rule index) := by
  obtain ⟨newer, hcycle, hchain⟩ := h.exists_chain
  by_contra hnone
  have hrule : ∀ other ∈ newer ++ [id], ∀ index, g.nodes[other]? ≠ some (.rule index) := by
    intro other hother index hn
    refine hnone ⟨other, ?_, index, hn⟩
    rw [hcycle]
    simpa [or_comm] using hother
  -- Without one the cycle goes down all the way, and ends below where it began.
  have hdown : (id :: newer ++ [id]).IsChain (· < ·) :=
    hchain.imp_of_mem_tail_imp fun a b _ hb hab => hab.lt hg (hrule b hb)
  exact Nat.lt_irrefl id (hdown.rel_cons (by simp))

/-- The blame for a cycle names a rule whose body reaches itself, if all rules that are
mentioned exist. -/
theorem Loops.exists_name {g : Grammar σ τ} (hg : Arena.Ordered g.nodes)
    (hclosed : ∀ (id : NodeId) (index : RuleId), g.nodes[id]? = some (.rule index) →
      index < g.rules.size)
    {path : List NodeId} {id : NodeId} (h : Loops g path id) :
    ∃ name, (cycle path id).findSome? (ruleName? g) = some name ∧
      ∃ (index : RuleId) (body : NodeId), g.rules[index]? = some ⟨name, body⟩ ∧
        Relation.TransGen g.LeftCorner body body := by
  obtain ⟨other, hother, index, hn⟩ := h.exists_rule hg
  have hname : (ruleName? g other).isSome = true := by
    simp [ruleName?, hn, Array.getElem?_eq_getElem (hclosed other index hn)]
  obtain ⟨name, hfound⟩ := Option.isSome_iff_exists.mp
    (List.findSome?_isSome_iff.mpr ⟨other, hother, hname⟩)
  refine ⟨name, hfound, ?_⟩
  obtain ⟨mention, hmention, hfirst⟩ := List.exists_of_findSome?_eq_some hfound
  unfold ruleName? at hfirst
  split at hfirst
  next index' hn' =>
    obtain ⟨rule, hrule, rfl⟩ := Option.map_eq_some_iff.mp hfirst
    obtain ⟨corner, hreach, hcorner⟩ :=
      Relation.TransGen.tail'_iff.mp (h.transGen hmention)
    have hbody : g.body? index' = some rule.body := by
      rw [Grammar.body?, hrule]
      rfl
    cases hbody.symm.trans ((Grammar.leftCorner_rule_iff hn').mp hcorner)
    exact ⟨index', rule.body, hrule, .head' hcorner hreach⟩
  · cases hfirst

end LeftRecursion

end Ramify
