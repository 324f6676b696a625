import Mathlib.Data.Finset.Card
import Ramify.Grammar.Nullable

/-!
# The marks of `Nullable.compute`

The sweeps of `Nullable.compute` end at marks that a further sweep leaves alone.
A sweep only adds marks (`Grows`), so a sweep that changes something adds to the
set of marked places, and there are no more of these than nodes.

Marks that a sweep leaves alone are closed: a node whose equation holds under them
is marked (`holds_compute`), and the equation of no other node does (`holds_of_compute`).  They
are the least such marks (`within_compute`).
-/

namespace Ramify.Nullable

variable {σ τ : Type}

/-! ## Growing marks -/

/-- `marks'` holds every mark of `marks`. -/
structure Grows (marks marks' : Marks) : Prop where
  /-- They are marks of the same places. -/
  size : marks'.size = marks.size
  /-- No mark is lost. -/
  mono : ∀ id, marks.getD id false = true → marks'.getD id false = true

theorem Grows.refl (marks : Marks) : Grows marks marks := ⟨rfl, fun _ h => h⟩

theorem Grows.trans {a b c : Marks} (h : Grows a b) (h' : Grows b c) : Grows a c :=
  ⟨h'.size.trans h.size, fun id hid => h'.mono id (h.mono id hid)⟩

theorem Grows.antisymm {a b : Marks} (h : Grows a b) (h' : Grows b a) : a = b := by
  refine Array.ext h.size.symm fun id ha hb => ?_
  have h₁ := h.mono id
  have h₂ := h'.mono id
  simp only [Array.getD, ha, hb, dif_pos] at h₁ h₂
  exact Bool.eq_iff_iff.mpr ⟨h₁, h₂⟩

/-- The marked places. -/
def marked (marks : Marks) : Finset NodeId :=
  (Finset.range marks.size).filter fun id => marks.getD id false = true

theorem card_marked_le (marks : Marks) : (marked marks).card ≤ marks.size := by
  calc (marked marks).card ≤ (Finset.range marks.size).card := Finset.card_filter_le _ _
    _ = marks.size := Finset.card_range _

theorem Grows.card_lt {a b : Marks} (h : Grows a b) (hne : b ≠ a) :
    (marked a).card < (marked b).card := by
  have hsub : marked a ⊆ marked b := by
    intro id hid
    obtain ⟨hlt, hmark⟩ := Finset.mem_filter.mp hid
    exact Finset.mem_filter.mpr ⟨by rw [h.size]; exact hlt, h.mono id hmark⟩
  refine Finset.card_lt_card ⟨hsub, fun hback => hne ?_⟩
  refine Grows.antisymm ⟨h.size.symm, ?_⟩ h
  intro id hid
  have hlt : id < b.size := by
    by_contra hge
    simp [Array.getD, hge] at hid
  exact (Finset.mem_filter.mp (hback (Finset.mem_filter.mpr
    ⟨Finset.mem_range.mpr hlt, hid⟩))).2

/-! ## Sweeps -/

theorem mark_grows (nodes : Arena σ τ) (rules : Array Rule) (marks : Marks) (id : NodeId) :
    Grows marks (mark nodes rules marks id) := by
  unfold mark
  split
  · refine ⟨Array.size_setIfInBounds, fun other h => ?_⟩
    simp only [Array.getD_eq_getD_getElem?, Array.getElem?_setIfInBounds] at h ⊢
    split
    next heq =>
      subst heq
      split
      · rfl
      next hlt => simp [hlt] at h
    · exact h
  · exact .refl marks

theorem foldl_mark_grows (nodes : Arena σ τ) (rules : Array Rule) (ids : List NodeId)
    (marks : Marks) : Grows marks (ids.foldl (mark nodes rules) marks) := by
  induction ids generalizing marks with
  | nil => exact .refl marks
  | cons id ids ih => exact (mark_grows nodes rules marks id).trans (ih _)

/-- A sweep that changes nothing changes nothing at any place. -/
theorem mark_eq_of_foldl_eq {nodes : Arena σ τ} {rules : Array Rule} {ids : List NodeId}
    {marks : Marks} (h : ids.foldl (mark nodes rules) marks = marks) :
    ∀ id ∈ ids, mark nodes rules marks id = marks := by
  induction ids with
  | nil => simp
  | cons first ids ih =>
      rw [List.foldl_cons] at h
      have hback := foldl_mark_grows nodes rules ids (mark nodes rules marks first)
      rw [h] at hback
      have hfirst : mark nodes rules marks first = marks :=
        hback.antisymm (mark_grows nodes rules marks first)
      rw [hfirst] at h
      intro id hid
      rcases List.mem_cons.mp hid with rfl | hid
      · exact hfirst
      · exact ih h id hid

/-- A node whose equation holds is marked if a sweep changes nothing. -/
theorem holds_of_sweep_eq {nodes : Arena σ τ} {rules : Array Rule} {marks : Marks}
    (hsize : marks.size = nodes.size) (h : sweep nodes rules marks = marks) {id : NodeId}
    {node : Node σ τ} (hnode : nodes[id]? = some node) (hholds : holds rules marks node = true) :
    marks.getD id false = true := by
  obtain ⟨hid, -⟩ := Array.getElem?_eq_some_iff.mp hnode
  have hmark := mark_eq_of_foldl_eq h id (List.mem_range.mpr hid)
  have hset : mark nodes rules marks id = marks.setIfInBounds id true := by
    simp [mark, hnode, hholds]
  rw [← hmark, hset, Array.getD_eq_getD_getElem?, Array.getElem?_setIfInBounds]
  simp [hsize, hid]

/-! ## The end of the sweeps -/

/-- With more rounds than places without a mark, the last sweep changes nothing. -/
theorem sweep_close (nodes : Arena σ τ) (rules : Array Rule) :
    ∀ (rounds : Nat) (marks : Marks), marks.size < (marked marks).card + rounds →
      sweep nodes rules (close nodes rules rounds marks) = close nodes rules rounds marks
  | 0, marks, h => by
      have := card_marked_le marks
      omega
  | rounds + 1, marks, h => by
      have hgrows := foldl_mark_grows nodes rules (List.range nodes.size) marks
      rw [close]
      split
      next heq => exact heq
      next hne =>
        refine sweep_close nodes rules rounds _ ?_
        have hlt := hgrows.card_lt hne
        have hsize : (sweep nodes rules marks).size = marks.size := hgrows.size
        change (marked marks).card < (marked (sweep nodes rules marks)).card at hlt
        omega

theorem size_close (nodes : Arena σ τ) (rules : Array Rule) :
    ∀ (rounds : Nat) (marks : Marks), (close nodes rules rounds marks).size = marks.size
  | 0, _ => rfl
  | rounds + 1, marks => by
      rw [close]
      split
      · rfl
      · rw [size_close nodes rules rounds]
        exact (foldl_mark_grows nodes rules (List.range nodes.size) marks).size

theorem size_compute (nodes : Arena σ τ) (rules : Array Rule) :
    (compute nodes rules).size = nodes.size := by
  rw [compute, size_close, Array.size_replicate]

/-- The computed marks are closed: a node whose equation holds under them is marked. -/
theorem holds_compute {nodes : Arena σ τ} {rules : Array Rule} {id : NodeId} {node : Node σ τ}
    (hnode : nodes[id]? = some node) (h : holds rules (compute nodes rules) node = true) :
    (compute nodes rules).getD id false = true := by
  refine holds_of_sweep_eq (size_compute nodes rules) ?_ hnode h
  refine sweep_close nodes rules _ _ ?_
  rw [Array.size_replicate]
  omega

/-! ## Nothing else is marked -/

/-- Every marked place has a property. -/
def Within (P : NodeId → Prop) (marks : Marks) : Prop :=
  ∀ id, marks.getD id false = true → P id

section Within

variable {P : NodeId → Prop} {nodes : Arena σ τ} {rules : Array Rule}
  (hP : ∀ {marks : Marks} {id : NodeId} {node : Node σ τ}, Within P marks →
    nodes[id]? = some node → holds rules marks node = true → P id)

include hP

theorem Within.mark {marks : Marks} (h : Within P marks) (id : NodeId) :
    Within P (mark nodes rules marks id) := by
  unfold Nullable.mark
  cases hnode : nodes[id]? with
  | none => exact h
  | some node =>
      simp only [Option.any_some]
      split
      next hholds =>
        intro other hother
        by_cases heq : other = id
        · exact heq ▸ hP h hnode hholds
        · refine h other ?_
          rwa [Array.getD_eq_getD_getElem?, Array.getElem?_setIfInBounds_ne (Ne.symm heq),
            ← Array.getD_eq_getD_getElem?] at hother
      · exact h

theorem Within.sweep {marks : Marks} (h : Within P marks) : Within P (sweep nodes rules marks) := by
  unfold Nullable.sweep
  induction List.range nodes.size generalizing marks with
  | nil => exact h
  | cons id ids ih => exact ih (h.mark hP id)

theorem Within.close : ∀ (rounds : Nat) {marks : Marks}, Within P marks →
    Within P (close nodes rules rounds marks)
  | 0, _, h => h
  | rounds + 1, marks, h => by
      rw [Nullable.close]
      split
      · exact h
      · exact Within.close rounds (h.sweep hP)

/-- The computed marks are the least: a property that passes from marked places to every node
whose equation holds is had by all of them. -/
theorem within_compute : Within P (compute nodes rules) := by
  refine Within.close hP _ fun id hid => ?_
  rw [Array.getD_eq_getD_getElem?, Array.getElem?_replicate] at hid
  split at hid
  · cases hid
  · cases hid

end Within

section Earned

variable {nodes : Arena σ τ} {rules : Array Rule}

/-- The equation of the node at a place, if there is one, holds under marks of places that have a
property. -/
def Earned (nodes : Arena σ τ) (rules : Array Rule) (P : NodeId → Prop) (id : NodeId) : Prop :=
  ∀ {node : Node σ τ}, nodes[id]? = some node →
    ∃ marks, Within P marks ∧ holds rules marks node = true

/-- What is shown of a node may rest on the equations of the nodes that are marked before it. -/
theorem within_compute_of_earned {P : NodeId → Prop}
    (hP : ∀ {marks : Marks} {id : NodeId} {node : Node σ τ}, Within P marks →
      Within (Earned nodes rules P) marks → nodes[id]? = some node →
      holds rules marks node = true → P id) : Within P (compute nodes rules) := by
  have hboth : Within (fun id => P id ∧ Earned nodes rules P id) (compute nodes rules) := by
    refine within_compute fun {marks id node} hmarks hnode hholds => ?_
    have hwithin : Within P marks := fun other hother => (hmarks other hother).1
    refine ⟨hP hwithin (fun other hother => (hmarks other hother).2) hnode hholds, ?_⟩
    intro other hother
    cases hnode.symm.trans hother
    exact ⟨marks, hwithin, hholds⟩
  exact fun id hid => (hboth id hid).1

theorem holds_mono {marks marks' : Marks}
    (h : ∀ id, marks.getD id false = true → marks'.getD id false = true) {node : Node σ τ}
    (hholds : holds rules marks node = true) : holds rules marks' node = true := by
  cases node with
  | empty | oneOf | literal | guard | star | observe => exact hholds
  | seq parts =>
      rw [holds, List.all_eq_true] at hholds ⊢
      exact fun part hpart => h part (hholds part hpart)
  | alt choices =>
      rw [holds, List.any_eq_true] at hholds ⊢
      obtain ⟨choice, hchoice, hmark⟩ := hholds
      exact ⟨choice, hchoice, h choice hmark⟩
  | times body count =>
      rw [holds, Bool.or_eq_true] at hholds ⊢
      exact hholds.imp_right (h body)
  | rule index =>
      rw [holds, Option.any_eq_true] at hholds ⊢
      obtain ⟨rule, hrule, hmark⟩ := hholds
      exact ⟨rule, hrule, h rule.body hmark⟩
  | emit body | fold body => exact h body hholds

/-- The equation of a marked node holds under the computed marks. -/
theorem holds_of_compute {id : NodeId} (hid : (compute nodes rules).getD id false = true)
    {node : Node σ τ} (hnode : nodes[id]? = some node) :
    holds rules (compute nodes rules) node = true := by
  have hwithin : Within (fun id => (compute nodes rules).getD id false = true ∧
      ∀ node, nodes[id]? = some node → holds rules (compute nodes rules) node = true)
      (compute nodes rules) := by
    refine within_compute fun {marks id node} hmarks hnode hholds => ?_
    have hcomputed := holds_mono (fun other hother => (hmarks other hother).1) hholds
    refine ⟨holds_compute hnode hcomputed, fun other hother => ?_⟩
    cases hnode.symm.trans hother
    exact hcomputed
  exact (hwithin id hid).2 node hnode

end Earned

end Ramify.Nullable
