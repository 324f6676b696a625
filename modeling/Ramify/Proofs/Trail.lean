import Ramify.Proofs.Unfold

/-!
# Trails tell branches apart

Two branches of a forest have trails that part: where they first differ, both took a way
at the same fork, and not the same way (`Parted`).  Every fork records the way taken on
both sides, so the branches that a move gives are parted, and what is parted stays so,
since trails only grow.

Hence no two branches of a forest are the same, and `Branch.distinct` drops nothing
(`Branch.distinct_eq`).
-/

namespace Ramify

variable {σ τ : Type}

/-! ## Parted trails -/

/-- Two trails, newest choice first, whose oldest difference is the way taken at one fork. -/
def Parted (s t : List Choice) : Prop :=
  ∃ (common newer newer' : List Choice) (c c' : Choice),
    s = newer ++ c :: common ∧ t = newer' ++ c' :: common ∧
      c.node = c'.node ∧ c.position = c'.position ∧ c.way ≠ c'.way

theorem Parted.symm {s t : List Choice} (h : Parted s t) : Parted t s := by
  obtain ⟨common, newer, newer', c, c', hs, ht, hn, hp, hw⟩ := h
  exact ⟨common, newer', newer, c', c, ht, hs, hn.symm, hp.symm, hw.symm⟩

/-- Trails that parted do not meet again. -/
theorem Parted.mono {s t s' t' : List Choice} (h : Parted s t) (hs : s <:+ s') (ht : t <:+ t') :
    Parted s' t' := by
  obtain ⟨common, newer, newer', c, c', rfl, rfl, hc⟩ := h
  obtain ⟨more, rfl⟩ := hs
  obtain ⟨more', rfl⟩ := ht
  exact ⟨common, more ++ newer, more' ++ newer', c, c', by simp, by simp, hc⟩

theorem Parted.ne {s t : List Choice} (h : Parted s t) : s ≠ t := by
  obtain ⟨common, newer, newer', c, c', rfl, rfl, -, -, hw⟩ := h
  intro heq
  have hend := congrArg (fun l => l.reverse.drop common.length) heq
  simp only [List.reverse_append, List.reverse_cons, List.append_assoc] at hend
  rw [List.drop_left' (by simp), List.drop_left' (by simp)] at hend
  have hc : c = c' := by simpa using congrArg List.head? hend
  exact hw (congrArg Choice.way hc)

/-- Different ways at one fork part the trails. -/
theorem parted_via {id : NodeId} {way way' position : Nat} (trail : List Choice)
    (h : way ≠ way') : Parted (⟨id, way, position⟩ :: trail) (⟨id, way', position⟩ :: trail) :=
  ⟨trail, [], [], _, _, rfl, rfl, rfl, rfl, h⟩

namespace Branch

/-- The trails of two branches are parted. -/
def Apart (a b : Branch σ τ) : Prop := Parted a.trail b.trail

end Branch

/-! ## Moves -/

theorem Turn.split_perm (branches : List (Branch σ τ)) :
    (Turn.split branches).branches.Perm branches := by
  cases branches with
  | nil => exact .refl _
  | cons own others => exact (List.reverse_perm others).cons own

theorem Turn.split_apart {branches : List (Branch σ τ)} (h : branches.Pairwise Branch.Apart) :
    (Turn.split branches).branches.Pairwise Branch.Apart :=
  ((Turn.split_perm branches).pairwise_iff fun h => h.symm).mpr h

/-- The two ways at a loop or an observer part. -/
theorem Turn.fork_apart {x y : Branch σ τ} (h : x.Apart y) :
    (Turn.split [x, y]).branches.Pairwise Branch.Apart :=
  Turn.split_apart (by simp [h])

/-- The branches that a return gives are apart. -/
theorem Cursor.resume_apart (here : Cursor σ τ) (b : Branch σ τ) (frame : Frame) :
    (here.resume b frame).branches.Pairwise Branch.Apart := by
  have hgo : ∀ x : Branch σ τ, (Turn.go x).branches.Pairwise Branch.Apart :=
    fun x => List.pairwise_singleton _ x
  unfold Cursor.resume
  split
  · exact .nil
  · split
    · exact .nil
    · exact hgo _
  · exact hgo _
  · split
    · exact .nil
    · exact Turn.fork_apart (parted_via b.trail (by decide))
  · exact hgo _
  · exact hgo _
  · exact hgo _
  · exact hgo _

namespace Cursor

variable [DecidableEq σ] {here : Cursor σ τ} {b b' : Branch σ τ}

/-- A move adds to the trail at most. -/
theorem Moves.trail_suffix (h : here.Moves b b') : b.trail <:+ b'.trail := by
  cases h with
  | pass | wait | skip | only | first | call | openFixed | openFold | closeFixed | closeFold =>
      exact List.suffix_refl _
  | watch | ignore | choose | loop | shun | again | leave => exact List.suffix_cons _ _
  | openMade =>
      exact (Branch.listen_trail b.arrived here.position).symm ▸ List.suffix_refl b.trail
  | next =>
      split
      · exact List.suffix_refl _
      · exact List.suffix_refl _
  | closeMade => exact (Branch.unlisten_trail b.pop).symm ▸ List.suffix_refl b.trail

theorem Visits.trail_suffix (h : here.Visits b b') : b.trail <:+ b'.trail := by
  induction h with
  | refl => exact List.suffix_refl _
  | tail _ hmove ih => exact ih.trans hmove.trail_suffix

/-- The ways of a choice part. -/
theorem choices_apart (here : Cursor σ τ) (b : Branch σ τ) (id : NodeId) (choices : List NodeId) :
    ((choices.zipIdx.filter fun (choice, _) => here.admits choice).map
      fun (choice, index) => (b.via id index here.position).aim choice).Pairwise Branch.Apart := by
  rw [List.pairwise_map]
  refine List.Pairwise.filter _ ?_
  have hidx : (choices.zipIdx.map Prod.snd).Pairwise (· ≠ ·) := by
    rw [List.zipIdx_map_snd]
    exact List.nodup_range'
  exact (List.pairwise_map.mp hidx).imp fun hne => parted_via b.trail hne

/-- The branches that entering a node gives are apart. -/
theorem descend_apart (here : Cursor σ τ) (b : Branch σ τ) (id : NodeId) :
    (here.descend b id).branches.Pairwise Branch.Apart := by
  have hgo : ∀ x : Branch σ τ, (Turn.go x).branches.Pairwise Branch.Apart :=
    fun x => List.pairwise_singleton _ x
  unfold Cursor.descend
  split
  · exact .nil
  · exact hgo _
  · exact hgo _
  · exact hgo _
  · split
    · exact hgo _
    · exact .nil
  · exact hgo _
  · exact hgo _
  · exact hgo _
  · exact Turn.split_apart (choices_apart here b id _)
  · exact Turn.fork_apart (parted_via b.trail (by decide))
  · split
    · exact hgo _
    · exact hgo _
    · exact hgo _
  · split
    · exact hgo _
    · exact .nil
  · exact hgo _
  · exact hgo _
  · exact hgo _
  · split
    · split
      · exact hgo _
      · exact .nil
    · exact hgo _
    · exact Turn.fork_apart (parted_via b.trail (by decide))

/-- The branches that a move gives are apart. -/
theorem move_apart {turn : Turn σ τ} (h : here.move b = some turn) :
    turn.branches.Pairwise Branch.Apart := by
  unfold Cursor.move at h
  split at h
  next id ht =>
    cases h
    exact descend_apart here _ id
  · cases h
  next frame frames ht hf =>
    split at h
    · cases h
    · cases h
      exact resume_apart here b frame

end Cursor

/-! ## Branches at rest -/

/-- Branches that come of branches apart are apart, if those of each one are. -/
theorem Branch.apart_flatMap {branches : List (Branch σ τ)}
    {events : Branch σ τ → List (Event σ τ)} (h : branches.Pairwise Branch.Apart)
    (hown : ∀ b ∈ branches, ((events b).filterMap Event.branch?).Pairwise Branch.Apart)
    (htrail : ∀ b ∈ branches, ∀ r, Event.rested r ∈ events b → b.trail <:+ r.trail) :
    ((branches.flatMap events).filterMap Event.branch?).Pairwise Branch.Apart := by
  have hgrown : ∀ b ∈ branches, ∀ r ∈ (events b).filterMap Event.branch?,
      b.trail <:+ r.trail := by
    intro b hb r hr
    obtain ⟨event, hevent, hr⟩ := List.mem_filterMap.mp hr
    cases event with
    | rested other =>
        cases hr
        exact htrail b hb r hevent
    | called | overran => cases hr
  rw [List.filterMap_flatMap, List.pairwise_flatMap]
  refine ⟨hown, h.imp_of_mem ?_⟩
  intro a b ha hb hab r hr r' hr'
  exact Parted.mono hab (hgrown a ha r hr) (hgrown b hb r' hr')

section

variable [DecidableEq σ]

/-- The branches at rest that come of one branch are apart. -/
theorem Branch.follow_apart {here : Cursor σ τ} {maxDepth : Nat} (hg : here.grammar.IsBuilt) :
    ∀ {fuel : Nat} {b : Branch σ τ}, b.Fits here.grammar here.position →
      ((b.follow here.move maxDepth fuel).filterMap Event.branch?).Pairwise Branch.Apart
  | 0, _, _ => .nil
  | fuel + 1, b, hfit => by
      rw [Branch.follow]
      split
      · exact .nil
      · split
        · exact List.pairwise_singleton _ b
        next turn hm =>
          have hcalls : (turn.calls.map fun call => Event.called call).filterMap
              (Event.branch? : Event σ τ → Option (Branch σ τ)) = [] := by
            rw [List.filterMap_map, List.filterMap_eq_nil_iff]
            exact fun _ _ => rfl
          have hfits : ∀ b' ∈ turn.branches, b'.Fits here.grammar here.position :=
            fun b' hb' => (Cursor.moves_of_move hfit hm hb').fits hg hfit
          rw [List.filterMap_append, hcalls, List.nil_append]
          refine apart_flatMap (Cursor.move_apart hm) ?_ ?_
          · exact fun b' hb' => follow_apart hg (hfits b' hb')
          · exact fun b' hb' r hr => (visits_of_rested hg (hfits b' hb') hr).1.trail_suffix

/-- The branches of a forest that come to rest are apart if its branches are. -/
theorem Forest.Sound.rested_apart {f : Forest σ τ} {next : Option σ} (hf : f.Sound)
    (h : f.branches.Pairwise Branch.Apart) :
    (f.unfold next).rested.Pairwise Branch.Apart := by
  have hg : (f.cursor next).grammar.IsBuilt := hf.built
  refine List.Pairwise.sublist (Unfolded.rested_sublist _) (Branch.apart_flatMap h ?_ ?_)
  · exact fun b hb => Branch.follow_apart hg (hf.fits b hb)
  · exact fun b hb r hr => (Branch.visits_of_rested hg (hf.fits b hb) hr).1.trail_suffix

theorem Grammar.Takes.trail_eq {g : Grammar σ τ} {symbol : σ} {b b' : Branch σ τ}
    (h : g.Takes symbol b b') : b'.trail = b.trail := by
  cases h with
  | member | any => exact Branch.hear_trail b.pop symbol
  | run =>
      rw [Branch.hear_trail]
      split
      · rfl
      · rfl

/-- Taking a symbol keeps branches apart. -/
theorem Grammar.consume_apart (g : Grammar σ τ) (symbol : σ) {branches : List (Branch σ τ)}
    (h : branches.Pairwise Branch.Apart) :
    (branches.filterMap (g.consume symbol)).Pairwise Branch.Apart := by
  refine List.Pairwise.filterMap _ ?_ h
  intro a a' haa' b hb b' hb'
  have htrail := (Grammar.consume_eq_some_iff.mp hb).trail_eq
  have htrail' := (Grammar.consume_eq_some_iff.mp hb').trail_eq
  rw [Branch.Apart, htrail, htrail']
  exact haa'

end

/-! ## Equal branches -/

namespace Branch

theorem Apart.isSame_eq_false {a b : Branch σ τ} (h : a.Apart b) : a.isSame b = false := by
  have hne : a.trail ≠ b.trail := Parted.ne h
  simp [Branch.isSame, hne]

theorem firsts_eq {branches : List (Nat × Branch σ τ)}
    (h : branches.Pairwise fun x y => x.2.Apart y.2) : firsts branches = branches := by
  induction branches with
  | nil => rfl
  | cons entry rest ih =>
      obtain ⟨hentry, hrest⟩ := List.pairwise_cons.mp h
      obtain ⟨n, b⟩ := entry
      rw [firsts, ih hrest, List.filter_eq_self.mpr]
      rintro ⟨m, other⟩ hother
      simp [(hentry _ hother).isSame_eq_false]

/-- No two branches apart are the same, so none is dropped. -/
theorem distinct_eq {branches : List (Branch σ τ)} (h : branches.Pairwise Branch.Apart) :
    distinct branches = branches := by
  rw [distinct, firsts_eq (List.pairwise_map.mpr h), List.map_map]
  exact List.map_id branches

end Branch

end Ramify
