import Mathlib.Data.List.Perm.Subperm
import Mathlib.Logic.Relation
import Ramify.Proofs.TailCalls

/-!
# Trees of a grammar

A grammar has a tree for its start and one for each of its rules (`Grammar.root?`).  Every place
of the arena belongs to exactly one of them.

The reason is a count.  Flattening an expression appends as many nodes as it names places, and
one more, its root; and none of them is named twice.  So the places that nodes name as their
parts, together with the roots, are all the places there are, each once
(`Builder.Reached.perm_range`).  A place that is no root then has a node that it is a part of,
which stands after it, and going up from node to node ends at a root; and there is only one way
up.
-/

namespace Ramify

variable {σ τ : Type}

/-! ## Places are named once -/

namespace Arena

theorem length_links_add (arena arena' : Arena σ τ) {node : Node σ τ} {roots : List NodeId}
    (hnode : node.parts = roots)
    (h : (links arena').length + roots.length + arena.size =
      (links arena).length + arena'.size) :
    (links (add arena' node).1).length + 1 + arena.size =
      (links arena).length + (add arena' node).1.size := by
  rw [links_add, hnode, List.length_append, add, Array.size_push]
  omega

mutual

/-- Flattening an expression names every place that it appends but the root. -/
theorem length_links_place (arena : Arena σ τ) : ∀ (e : Expr σ τ),
    (links (place arena e).1).length + 1 + arena.size =
      (links arena).length + (place arena e).1.size
  | .empty | .oneOf _ | .guard _ | .rule _ | .observe _ => length_links_add arena arena rfl rfl
  | .literal run => by
      refine @length_links_add _ _ arena arena _ [] ?_ rfl
      cases run with
      | nil => rfl
      | cons => rfl
  | .seq parts | .alt parts => length_links_add arena _ rfl (length_links_placeAll arena parts)
  | .star body | .times body _ | .emit body _ | .fold body _ =>
      length_links_add arena _ rfl (length_links_place arena body)

theorem length_links_placeAll (arena : Arena σ τ) : ∀ (es : List (Expr σ τ)),
    (links (placeAll arena es).1).length + (placeAll arena es).2.length + arena.size =
      (links arena).length + (placeAll arena es).1.size
  | [] => by simp [placeAll]
  | e :: es => by
      have hfirst := length_links_place arena e
      have hrest := length_links_placeAll (place arena e).1 es
      simp only [placeAll, List.length_cons]
      omega

end

/-- What flattening an expression appends are the places that it names, and the root. -/
theorem exists_perm_place (arena : Arena σ τ) (e : Expr σ τ) :
    ∃ more, links (place arena e).1 = links arena ++ more ∧
      (more ++ [(place arena e).2]).Perm
        (List.range' arena.size ((place arena e).1.size - arena.size)) := by
  obtain ⟨more, hlinks, hnodup, hbounds⟩ := adds_place arena e
  have hle := (keeps_place arena e).size_le
  refine ⟨more, hlinks, (List.subperm_of_subset hnodup fun id hid => ?_).perm_of_length_le ?_⟩
  · rw [List.mem_range'_1, Nat.add_sub_cancel' hle]
    exact hbounds id hid
  · have hlength := length_links_place arena e
    rw [hlinks, List.length_append] at hlength
    rw [List.length_range', List.length_append, List.length_singleton]
    omega

/-- If the places that are named and some roots are all places, each once, they are so with
the root of an expression that is appended. -/
theorem perm_place {arena : Arena σ τ} {roots : List NodeId}
    (h : (links arena ++ roots).Perm (List.range arena.size)) (e : Expr σ τ) :
    (links (place arena e).1 ++ (place arena e).2 :: roots).Perm
      (List.range (place arena e).1.size) := by
  obtain ⟨more, hlinks, hmore⟩ := exists_perm_place arena e
  have hle := (keeps_place arena e).size_le
  have hswap : (more ++ (place arena e).2 :: roots).Perm
      (roots ++ (more ++ [(place arena e).2])) := by
    have hcons : more ++ (place arena e).2 :: roots = (more ++ [(place arena e).2]) ++ roots := by
      simp
    rw [hcons]
    exact List.perm_append_comm
  have hsplit : List.range (place arena e).1.size =
      List.range arena.size ++ List.range' arena.size ((place arena e).1.size - arena.size) := by
    obtain ⟨added, hsize⟩ := Nat.exists_eq_add_of_le hle
    have hrange : List.range' 0 arena.size ++ List.range' (0 + arena.size) added =
        List.range' 0 (arena.size + added) := List.range'_append_1
    rw [hsize, Nat.add_sub_cancel_left, List.range_eq_range', List.range_eq_range', ← hrange,
      Nat.zero_add]
  rw [hlinks, hsplit, List.append_assoc]
  refine (hswap.append_left _).trans ?_
  rw [← List.append_assoc]
  exact h.append hmore

end Arena

/-! ## Roots -/

namespace Builder

/-- The roots of the bodies that the rules have. -/
def roots (builder : Builder σ τ) : List NodeId :=
  builder.rules.toList.filterMap Declaration.body

/-- A rule that is given a body has one root more. -/
theorem filterMap_set_perm {α β : Type} {f : α → Option β} {a b : α} {y : β} (ha : f a = none)
    (hb : f b = some y) : ∀ {xs : List α} {i : Nat}, xs[i]? = some a →
      ((xs.set i b).filterMap f).Perm (y :: xs.filterMap f)
  | [], _, h => by cases h
  | x :: xs, 0, h => by
      cases h
      simp [ha, hb]
  | x :: xs, i + 1, h => by
      have hrest : ((xs.set i b).filterMap f).Perm _ := filterMap_set_perm ha hb h
      rw [List.set_cons_succ, List.filterMap_cons, List.filterMap_cons]
      cases f x with
      | none => exact hrest
      | some z => exact (hrest.cons z).trans (.swap y z _)

/-- The places that nodes name, and the roots, are all places, each once. -/
theorem Reached.perm_range {builder : Builder σ τ} (h : builder.Reached) :
    (Arena.links builder.nodes ++ builder.roots).Perm (List.range builder.nodes.size) := by
  induction h with
  | new => exact .nil
  | @declare builder name _ ih =>
      have hroots : (builder.declare name).1.roots = builder.roots := by
        simp [roots, Builder.declare]
      rw [hroots]
      exact ih
  | @define builder builder' rule body _ hd ih =>
      obtain ⟨name, hrule, rfl⟩ := define_eq_ok hd
      refine .trans (.append_left _ ?_) (Arena.perm_place ih body)
      simp only [roots, Array.toList_setIfInBounds]
      have hlist : builder.rules.toList[rule]? = some ⟨name, none⟩ := by
        rwa [Array.getElem?_toList]
      exact filterMap_set_perm (f := Declaration.body) rfl rfl hlist

variable {builder : Builder σ τ} {start : Expr σ τ}

theorem draft_bodies (builder : Builder σ τ) (start : Expr σ τ) :
    (builder.draft start).rules.toList.map Rule.body = builder.roots := by
  simp only [draft, roots, List.map_filterMap]
  refine List.filterMap_congr fun declaration _ => ?_
  cases hb : declaration.body with
  | none => simp [Declaration.rule?, hb]
  | some body => simp [Declaration.rule?, hb]

/-- The places that the nodes of a draft name, the start and the roots of the rules are all places,
each once. -/
theorem Reached.perm_draft (h : builder.Reached) (start : Expr σ τ) :
    (Arena.links (builder.draft start).nodes ++ (builder.draft start).start ::
      (builder.draft start).rules.toList.map Rule.body).Perm
        (List.range (builder.draft start).nodes.size) := by
  rw [draft_bodies]
  exact Arena.perm_place h.perm_range start

end Builder

/-! ## Trees -/

namespace Grammar

variable {g : Grammar σ τ}

/-- The root of a tree: that of a rule, or that of the start. -/
def root? (g : Grammar σ τ) : Option RuleId → Option NodeId
  | some index => g.body? index
  | none => some g.start

/-- A place belongs to the tree of a rule, or to that of the start. -/
def Belongs (g : Grammar σ τ) (id : NodeId) (tree : Option RuleId) : Prop :=
  ∃ root, g.root? tree = some root ∧ Relation.ReflTransGen g.PartOf id root

/-- The places that nodes name, the start and the roots of the rules are all places, each once. -/
def Owned (g : Grammar σ τ) : Prop :=
  (Arena.links g.nodes ++ g.start :: g.rules.toList.map Rule.body).Perm (List.range g.nodes.size)

theorem IsBuilt.owned (hg : g.IsBuilt) : g.Owned := by
  obtain ⟨builder, start, hreached, hbuild⟩ := hg
  obtain ⟨-, rfl⟩ := Builder.build_eq_ok_iff.mp hbuild
  exact hreached.perm_draft start

theorem mem_links_iff {part : NodeId} : part ∈ Arena.links g.nodes ↔ ∃ id, g.PartOf part id := by
  simp only [Arena.links, List.mem_flatMap, Array.mem_toList_iff]
  constructor
  · rintro ⟨node, hnode, hpart⟩
    obtain ⟨id, hid⟩ := Array.mem_iff_getElem?.mp hnode
    exact ⟨id, node, hid, hpart⟩
  · rintro ⟨id, node, hn, hpart⟩
    exact ⟨node, Array.mem_of_getElem? hn, hpart⟩

theorem mem_bodies_iff {id : NodeId} :
    id ∈ g.rules.toList.map Rule.body ↔ ∃ index, g.body? index = some id := by
  simp only [List.mem_map, Array.mem_toList_iff, body?, Option.map_eq_some_iff]
  constructor
  · rintro ⟨rule, hrule, hbody⟩
    obtain ⟨index, hindex⟩ := Array.mem_iff_getElem?.mp hrule
    exact ⟨index, rule, hindex, hbody⟩
  · rintro ⟨index, rule, hindex, hbody⟩
    exact ⟨rule, Array.mem_of_getElem? hindex, hbody⟩

namespace Owned

variable (h : g.Owned)

include h

theorem nodup : (Arena.links g.nodes ++ g.start :: g.rules.toList.map Rule.body).Nodup :=
  h.nodup_iff.mpr List.nodup_range

/-- A place is a root, or a part of some node. -/
theorem root_or_part {id : NodeId} (hid : id < g.nodes.size) :
    (∃ tree, g.root? tree = some id) ∨ ∃ above, g.PartOf id above := by
  rcases List.mem_append.mp (h.mem_iff.mpr (List.mem_range.mpr hid)) with hpart | hroot
  · exact .inr (mem_links_iff.mp hpart)
  · rcases List.mem_cons.mp hroot with rfl | hbody
    · exact .inl ⟨none, rfl⟩
    · obtain ⟨index, hindex⟩ := mem_bodies_iff.mp hbody
      exact .inl ⟨some index, hindex⟩

/-- A root is not a part of any node. -/
theorem not_partOf_root {tree : Option RuleId} {root id : NodeId}
    (hroot : g.root? tree = some root) : ¬ g.PartOf root id := by
  intro hpart
  refine (List.nodup_append.mp h.nodup).2.2 root (mem_links_iff.mpr ⟨id, hpart⟩) root ?_ rfl
  cases tree with
  | none =>
      cases hroot
      exact List.mem_cons_self
  | some index => exact List.mem_cons_of_mem _ (mem_bodies_iff.mpr ⟨index, hroot⟩)

/-- Two trees have different roots. -/
theorem root?_inj {tree tree' : Option RuleId} {root : NodeId} (hroot : g.root? tree = some root)
    (hroot' : g.root? tree' = some root) : tree = tree' := by
  obtain ⟨hstart, hbodies⟩ := List.nodup_cons.mp (List.nodup_append.mp h.nodup).2.1
  have hne : ∀ {index : RuleId}, g.body? index ≠ some g.start := fun hindex =>
    hstart (mem_bodies_iff.mpr ⟨_, hindex⟩)
  cases tree with
  | none =>
      cases hroot
      cases tree' with
      | none => rfl
      | some index => exact absurd hroot' hne
  | some index =>
      cases tree' with
      | none =>
          cases hroot'
          exact absurd hroot hne
      | some index' =>
          have hget : ∀ index, (g.rules.toList.map Rule.body)[index]? = g.body? index := by
            simp [body?]
          obtain ⟨rule, hrule, -⟩ := Option.map_eq_some_iff.mp hroot
          have hlt : index < (g.rules.toList.map Rule.body).length := by
            simpa using (Array.getElem?_eq_some_iff.mp hrule).1
          refine congrArg some ((List.getElem?_inj hlt hbodies).mp ?_)
          rw [hget, hget]
          exact hroot.trans hroot'.symm

/-- A node is a part of one node at most. -/
theorem partOf_unique {part a b : NodeId} (ha : g.PartOf part a) (hb : g.PartOf part b) :
    a = b := by
  obtain ⟨node, hn, hpart⟩ := ha
  obtain ⟨node', hn', hpart'⟩ := hb
  exact Arena.eq_of_mem_parts (List.nodup_append.mp h.nodup).1 hn hn' hpart hpart'

/-- The way up from a place ends at one root only. -/
theorem eq_of_parts {id root root' : NodeId} {tree tree' : Option RuleId}
    (hroot : g.root? tree = some root) (hroot' : g.root? tree' = some root')
    (hup : Relation.ReflTransGen g.PartOf id root)
    (hup' : Relation.ReflTransGen g.PartOf id root') : root = root' := by
  have honly : Relator.RightUnique g.PartOf := fun _ _ _ => h.partOf_unique
  rcases Relation.ReflTransGen.total_of_right_unique honly hup hup' with hon | hon
  · rcases hon.cases_head with heq | ⟨above, hpart, -⟩
    · exact heq
    · exact absurd hpart (h.not_partOf_root hroot)
  · rcases hon.cases_head with heq | ⟨above, hpart, -⟩
    · exact heq.symm
    · exact absurd hpart (h.not_partOf_root hroot')

end Owned

/-- Every place belongs to a tree. -/
theorem IsBuilt.exists_belongs (hg : g.IsBuilt) {id : NodeId} (hid : id < g.nodes.size) :
    ∃ tree, g.Belongs id tree := by
  -- Going up leads to greater places, of which there are finitely many.
  obtain ⟨above, habove⟩ : ∃ above, g.nodes.size - id = above := ⟨_, rfl⟩
  induction above using Nat.strong_induction_on generalizing id with
  | h above ih =>
      rcases hg.owned.root_or_part hid with ⟨tree, hroot⟩ | ⟨parent, hpart⟩
      · exact ⟨tree, id, hroot, .refl⟩
      · have hlt := hg.lt_of_partOf hpart
        have hparent : parent < g.nodes.size := by
          obtain ⟨node, hn, -⟩ := hpart
          exact (Array.getElem?_eq_some_iff.mp hn).1
        have hless := Nat.sub_lt_sub_left hid hlt
        obtain ⟨tree, root, hroot, hup⟩ := ih _ (habove ▸ hless) hparent rfl
        exact ⟨tree, root, hroot, .head hpart hup⟩

/-- Every place belongs to one tree and no other. -/
theorem IsBuilt.existsUnique_belongs (hg : g.IsBuilt) {id : NodeId} (hid : id < g.nodes.size) :
    ∃! tree, g.Belongs id tree := by
  obtain ⟨tree, hbelongs⟩ := hg.exists_belongs hid
  refine ⟨tree, hbelongs, fun tree' hbelongs' => ?_⟩
  obtain ⟨root, hroot, hup⟩ := hbelongs
  obtain ⟨root', hroot', hup'⟩ := hbelongs'
  have heq : root' = root := hg.owned.eq_of_parts hroot' hroot hup' hup
  exact hg.owned.root?_inj (heq ▸ hroot') hroot

end Grammar

end Ramify
