import Mathlib.Data.List.Forall2
import Ramify.Proofs.Built

/-!
# What flattening leaves in the arena

Flattening an expression appends nodes and changes none (`Arena.Keeps`), and every node
that it appends stands after its parts (`Arena.Ordered`).  So in the arena of a builder a
chain of parts goes down, and only a mention of a rule leads back up.  No node is a part of two
others, nor twice of one, as the places that nodes name are all different (`Arena.links`).

The expression can be read back from the place of its root (`Arena.Stands`), and the rules that
are mentioned in the arena are those that the expressions mention (`Arena.mem_place_iff`).
-/

namespace Ramify

variable {σ τ : Type}

/-- The places of the parts of a node.  The body of a rule is not a part of its mention. -/
def Node.parts : Node σ τ → List NodeId
  | .seq parts => parts
  | .alt choices => choices
  | .star body | .times body _ | .emit body _ | .fold body _ => [body]
  | _ => []

namespace Arena

/-! ## Nodes are kept -/

/-- Every node of one arena is at the same place in another. -/
def Keeps (arena arena' : Arena σ τ) : Prop :=
  ∀ ⦃id : NodeId⦄ ⦃node : Node σ τ⦄, arena[id]? = some node → arena'[id]? = some node

theorem Keeps.refl (arena : Arena σ τ) : Keeps arena arena :=
  fun _ _ h => h

theorem Keeps.trans {a b c : Arena σ τ} (h : Keeps a b) (h' : Keeps b c) : Keeps a c :=
  fun _ _ hn => h' (h hn)

theorem Keeps.size_le {arena arena' : Arena σ τ} (h : Keeps arena arena') :
    arena.size ≤ arena'.size := by
  by_contra hlt
  have hid : arena'.size < arena.size := Nat.lt_of_not_le hlt
  have hkept := h (Array.getElem?_eq_getElem hid)
  rw [Array.getElem?_eq_none (Nat.le_refl _)] at hkept
  cases hkept

theorem keeps_add (arena : Arena σ τ) (node : Node σ τ) : Keeps arena (add arena node).1 := by
  intro id other hn
  obtain ⟨hid, -⟩ := Array.getElem?_eq_some_iff.mp hn
  rw [add, Array.getElem?_push_lt hid, ← Array.getElem?_eq_getElem hid]
  exact hn

/-- The node that was added last. -/
theorem getElem?_add (arena : Arena σ τ) (node : Node σ τ) :
    (add arena node).1[(add arena node).2]? = some node := by
  rw [add, Array.getElem?_push_size]

theorem snd_add_lt (arena : Arena σ τ) (node : Node σ τ) :
    (add arena node).2 < (add arena node).1.size := by
  rw [add, Array.size_push]
  exact Nat.lt_succ_self _

mutual

theorem keeps_place (arena : Arena σ τ) : ∀ (e : Expr σ τ), Keeps arena (place arena e).1
  | .empty | .oneOf _ | .literal _ | .guard _ | .rule _ | .observe _ => keeps_add arena _
  | .seq parts => (keeps_placeAll arena parts).trans (keeps_add _ _)
  | .alt choices => (keeps_placeAll arena choices).trans (keeps_add _ _)
  | .star body => (keeps_place arena body).trans (keeps_add _ _)
  | .times body _ => (keeps_place arena body).trans (keeps_add _ _)
  | .emit body _ => (keeps_place arena body).trans (keeps_add _ _)
  | .fold body _ => (keeps_place arena body).trans (keeps_add _ _)

theorem keeps_placeAll (arena : Arena σ τ) :
    ∀ (es : List (Expr σ τ)), Keeps arena (placeAll arena es).1
  | [] => .refl arena
  | e :: es => (keeps_place arena e).trans (keeps_placeAll _ es)

end

/-! ## Parts stand before -/

/-- The root of an expression is in the arena. -/
theorem place_lt (arena : Arena σ τ) (e : Expr σ τ) :
    (place arena e).2 < (place arena e).1.size := by
  cases e with
  | empty | oneOf | literal | guard | rule | observe => exact snd_add_lt arena _
  | seq | alt | star | times | emit | fold => exact snd_add_lt _ _

theorem placeAll_lt (arena : Arena σ τ) (es : List (Expr σ τ)) {id : NodeId}
    (h : id ∈ (placeAll arena es).2) : id < (placeAll arena es).1.size := by
  induction es generalizing arena with
  | nil => cases h
  | cons e es ih =>
      rcases List.mem_cons.mp h with rfl | h
      · exact Nat.lt_of_lt_of_le (place_lt arena e) (keeps_placeAll _ es).size_le
      · exact ih _ h

/-- Every node stands after its parts. -/
def Ordered (arena : Arena σ τ) : Prop :=
  ∀ ⦃id : NodeId⦄ ⦃node : Node σ τ⦄, arena[id]? = some node → ∀ part ∈ node.parts, part < id

theorem Ordered.add {arena : Arena σ τ} {node : Node σ τ} (h : Ordered arena)
    (hnode : ∀ part ∈ node.parts, part < arena.size) : Ordered (add arena node).1 := by
  intro id other hn part hpart
  rw [Arena.add, Array.getElem?_push] at hn
  split at hn
  next hid =>
    cases hn
    exact hid ▸ hnode part hpart
  · exact h hn part hpart

mutual

/-- Flattening an expression keeps the order. -/
theorem Ordered.place {arena : Arena σ τ} (h : Ordered arena) :
    ∀ (e : Expr σ τ), Ordered (place arena e).1
  | .empty | .oneOf _ | .guard _ | .rule _ | .observe _ => h.add (by simp [Node.parts])
  | .literal run => by
      refine h.add ?_
      cases run with
      | nil => simp [Node.parts]
      | cons => simp [Node.parts]
  | .seq parts => (h.placeAll parts).add fun _ hpart => placeAll_lt arena parts hpart
  | .alt choices => (h.placeAll choices).add fun _ hpart => placeAll_lt arena choices hpart
  | .star body =>
      (h.place body).add fun _ hpart => List.mem_singleton.mp hpart ▸ place_lt arena body
  | .times body _ =>
      (h.place body).add fun _ hpart => List.mem_singleton.mp hpart ▸ place_lt arena body
  | .emit body _ =>
      (h.place body).add fun _ hpart => List.mem_singleton.mp hpart ▸ place_lt arena body
  | .fold body _ =>
      (h.place body).add fun _ hpart => List.mem_singleton.mp hpart ▸ place_lt arena body

/-- Flattening expressions keeps the order. -/
theorem Ordered.placeAll {arena : Arena σ τ} (h : Ordered arena) :
    ∀ (es : List (Expr σ τ)), Ordered (placeAll arena es).1
  | [] => h
  | e :: es => (h.place e).placeAll es

end

/-! ## Parts belong to one node -/

/-- The places that the nodes of an arena name as their parts, each as often as it is named. -/
def links (arena : Arena σ τ) : List NodeId :=
  arena.toList.flatMap Node.parts

theorem links_add (arena : Arena σ τ) (node : Node σ τ) :
    links (add arena node).1 = links arena ++ node.parts := by
  simp [links, add]

theorem Ordered.lt_of_mem_links {arena : Arena σ τ} (h : Ordered arena) {part : NodeId}
    (hpart : part ∈ links arena) : part < arena.size := by
  obtain ⟨node, hnode, hpart⟩ := List.mem_flatMap.mp hpart
  obtain ⟨id, hid⟩ := List.mem_iff_getElem?.mp hnode
  rw [Array.getElem?_toList] at hid
  exact (h hid part hpart).trans (Array.getElem?_eq_some_iff.mp hid).1

/-- What is appended to an arena names new places only, each once, and none of the given roots. -/
def Adds (arena arena' : Arena σ τ) (roots : List NodeId) : Prop :=
  ∃ more, links arena' = links arena ++ more ∧ (more ++ roots).Nodup ∧
    ∀ id ∈ more ++ roots, arena.size ≤ id ∧ id < arena'.size

theorem Adds.refl (arena : Arena σ τ) : Adds arena arena [] :=
  ⟨[], by simp, by simp, by simp⟩

theorem Adds.add {arena arena' : Arena σ τ} {roots : List NodeId} (h : Adds arena arena' roots)
    (hle : arena.size ≤ arena'.size) {node : Node σ τ} (hnode : node.parts = roots) :
    Adds arena (Arena.add arena' node).1 [(Arena.add arena' node).2] := by
  obtain ⟨more, hlinks, hnodup, hbounds⟩ := h
  refine ⟨more ++ roots, by rw [links_add, hlinks, hnode, List.append_assoc], ?_, ?_⟩
  · refine List.nodup_append.mpr ⟨hnodup, List.nodup_singleton _, fun id hid root hroot => ?_⟩
    cases List.mem_singleton.mp hroot
    exact Nat.ne_of_lt (hbounds id hid).2
  · intro id hid
    rw [Arena.add, Array.size_push]
    rcases List.mem_append.mp hid with hid | hid
    · obtain ⟨hge, hlt⟩ := hbounds id hid
      exact ⟨hge, hlt.trans (Nat.lt_succ_self _)⟩
    · cases List.mem_singleton.mp hid
      exact ⟨hle, Nat.lt_succ_self _⟩

theorem Adds.cons {a b c : Arena σ τ} {root : NodeId} {roots : List NodeId} (h : Adds a b [root])
    (h' : Adds b c roots) (hle : b.size ≤ c.size) : Adds a c (root :: roots) := by
  obtain ⟨more, hlinks, hnodup, hbounds⟩ := h
  obtain ⟨more', hlinks', hnodup', hbounds'⟩ := h'
  have hmiddle : (more' ++ root :: roots).Perm (root :: (more' ++ roots)) := List.perm_middle
  have hperm : (more ++ more' ++ root :: roots).Perm ((more ++ [root]) ++ (more' ++ roots)) := by
    simpa using hmiddle.append_left more
  have hroot := hbounds root (List.mem_append_right _ List.mem_cons_self)
  refine ⟨more ++ more', by rw [hlinks', hlinks, List.append_assoc], hperm.nodup_iff.mpr ?_, ?_⟩
  · refine List.nodup_append.mpr ⟨hnodup, hnodup', fun id hid id' hid' => ?_⟩
    exact Nat.ne_of_lt (Nat.lt_of_lt_of_le (hbounds id hid).2 (hbounds' id' hid').1)
  · intro id hid
    rcases List.mem_append.mp (hperm.mem_iff.mp hid) with hid | hid
    · obtain ⟨hge, hlt⟩ := hbounds id hid
      exact ⟨hge, Nat.lt_of_lt_of_le hlt hle⟩
    · obtain ⟨hge, hlt⟩ := hbounds' id hid
      exact ⟨(Nat.le_trans hroot.1 (Nat.le_of_lt hroot.2)).trans hge, hlt⟩

mutual

/-- Flattening an expression shares no node. -/
theorem adds_place (arena : Arena σ τ) :
    ∀ (e : Expr σ τ), Adds arena (place arena e).1 [(place arena e).2]
  | .empty | .oneOf _ | .guard _ | .rule _ | .observe _ =>
      (Adds.refl arena).add (Nat.le_refl _) rfl
  | .literal run => by
      refine (Adds.refl arena).add (Nat.le_refl _) ?_
      cases run with
      | nil => rfl
      | cons => rfl
  | .seq parts => (adds_placeAll arena parts).add (keeps_placeAll arena parts).size_le rfl
  | .alt choices => (adds_placeAll arena choices).add (keeps_placeAll arena choices).size_le rfl
  | .star body | .times body _ | .emit body _ | .fold body _ =>
      (adds_place arena body).add (keeps_place arena body).size_le rfl

theorem adds_placeAll (arena : Arena σ τ) :
    ∀ (es : List (Expr σ τ)), Adds arena (placeAll arena es).1 (placeAll arena es).2
  | [] => .refl arena
  | e :: es => (adds_place arena e).cons (adds_placeAll _ es) (keeps_placeAll _ es).size_le

end

/-- Flattening an expression names no place twice, if none was. -/
theorem Ordered.nodup_links_place {arena : Arena σ τ} (h : Ordered arena)
    (hnodup : (links arena).Nodup) (e : Expr σ τ) : (links (Arena.place arena e).1).Nodup := by
  obtain ⟨more, hlinks, hmore, hbounds⟩ := adds_place arena e
  rw [hlinks]
  refine List.nodup_append.mpr ⟨hnodup, hmore.of_append_left, fun id hid id' hid' => ?_⟩
  have hge := (hbounds id' (List.mem_append_left _ hid')).1
  exact Nat.ne_of_lt (Nat.lt_of_lt_of_le (h.lt_of_mem_links hid) hge)

section Unshared

variable {arena : Arena σ τ} (h : (links arena).Nodup)

include h

theorem nodup_parts {id : NodeId} {node : Node σ τ} (hn : arena[id]? = some node) :
    node.parts.Nodup :=
  (List.nodup_flatMap.mp h).1 node (Array.mem_toList_iff.mpr (Array.mem_of_getElem? hn))

/-- A place is a part of one node at most. -/
theorem eq_of_mem_parts {a b part : NodeId} {node node' : Node σ τ} (ha : arena[a]? = some node)
    (hb : arena[b]? = some node') (hpart : part ∈ node.parts) (hpart' : part ∈ node'.parts) :
    a = b := by
  have hpairs := (List.nodup_flatMap.mp h).2
  have happart : ∀ {i j : Nat} {first second : Node σ τ}, i < j → arena[i]? = some first →
      arena[j]? = some second → part ∈ first.parts → part ∉ second.parts := by
    intro i j first second hij hi hj hfirst hsecond
    obtain ⟨hlt, rfl⟩ := Array.getElem?_eq_some_iff.mp hi
    obtain ⟨hlt', rfl⟩ := Array.getElem?_eq_some_iff.mp hj
    exact List.pairwise_iff_getElem.mp hpairs i j (Array.length_toList ▸ hlt)
      (Array.length_toList ▸ hlt') hij hfirst hsecond
  rcases Nat.lt_trichotomy a b with hlt | heq | hgt
  · exact absurd hpart' (happart hlt ha hb hpart)
  · exact heq
  · exact absurd hpart (happart hgt hb ha hpart')

end Unshared

/-! ## Expressions in the arena -/

/-- An expression stands at a place, its parts at the places that its node names. -/
inductive Stands (arena : Arena σ τ) : NodeId → Expr σ τ → Prop where
  /-- The empty text. -/
  | empty {id : NodeId} (hn : arena[id]? = some .empty) : Stands arena id .empty
  /-- A set of symbols. -/
  | oneOf {id : NodeId} {set : SymbolSet σ} (hn : arena[id]? = some (.oneOf set)) :
      Stands arena id (.oneOf set)
  /-- A run of symbols, which is the empty text if it is empty. -/
  | literal {id : NodeId} {run : List σ}
      (hn : arena[id]? = some (if run.isEmpty then .empty else .literal run)) :
      Stands arena id (.literal run)
  /-- A guard. -/
  | guard {id : NodeId} {set : SymbolSet σ} (hn : arena[id]? = some (.guard set)) :
      Stands arena id (.guard set)
  /-- A sequence. -/
  | seq {id : NodeId} {ids : List NodeId} {parts : List (Expr σ τ)}
      (hn : arena[id]? = some (.seq ids)) (h : List.Forall₂ (Stands arena) ids parts) :
      Stands arena id (.seq parts)
  /-- A choice. -/
  | alt {id : NodeId} {ids : List NodeId} {choices : List (Expr σ τ)}
      (hn : arena[id]? = some (.alt ids)) (h : List.Forall₂ (Stands arena) ids choices) :
      Stands arena id (.alt choices)
  /-- A loop. -/
  | star {id inner : NodeId} {body : Expr σ τ} (hn : arena[id]? = some (.star inner))
      (h : Stands arena inner body) : Stands arena id (.star body)
  /-- A fixed repetition. -/
  | times {id inner : NodeId} {body : Expr σ τ} {count : Nat}
      (hn : arena[id]? = some (.times inner count)) (h : Stands arena inner body) :
      Stands arena id (.times body count)
  /-- A mention of a rule. -/
  | rule {id : NodeId} {index : RuleId} (hn : arena[id]? = some (.rule index)) :
      Stands arena id (.rule index)
  /-- An emission. -/
  | emit {id inner : NodeId} {body : Expr σ τ} {yields : Yield σ τ}
      (hn : arena[id]? = some (.emit inner yields)) (h : Stands arena inner body) :
      Stands arena id (.emit body yields)
  /-- A fold. -/
  | fold {id inner : NodeId} {body : Expr σ τ} {merge : List τ → τ}
      (hn : arena[id]? = some (.fold inner merge)) (h : Stands arena inner body) :
      Stands arena id (.fold body merge)
  /-- An observer. -/
  | observe {id : NodeId} {observer : Observer} (hn : arena[id]? = some (.observe observer)) :
      Stands arena id (.observe observer)

mutual

/-- An expression that stands in an arena stands in one that keeps its nodes. -/
theorem Stands.kept {arena arena' : Arena σ τ} (hkeeps : Keeps arena arena') :
    ∀ {id : NodeId} {e : Expr σ τ}, Stands arena id e → Stands arena' id e
  | _, .empty, .empty hn => .empty (hkeeps hn)
  | _, .oneOf _, .oneOf hn => .oneOf (hkeeps hn)
  | _, .literal _, .literal hn => .literal (hkeeps hn)
  | _, .guard _, .guard hn => .guard (hkeeps hn)
  | _, .seq _, .seq hn h => .seq (hkeeps hn) (Stands.keptAll hkeeps h)
  | _, .alt _, .alt hn h => .alt (hkeeps hn) (Stands.keptAll hkeeps h)
  | _, .star _, .star hn h => .star (hkeeps hn) (h.kept hkeeps)
  | _, .times _ _, .times hn h => .times (hkeeps hn) (h.kept hkeeps)
  | _, .rule _, .rule hn => .rule (hkeeps hn)
  | _, .emit _ _, .emit hn h => .emit (hkeeps hn) (h.kept hkeeps)
  | _, .fold _ _, .fold hn h => .fold (hkeeps hn) (h.kept hkeeps)
  | _, .observe _, .observe hn => .observe (hkeeps hn)

theorem Stands.keptAll {arena arena' : Arena σ τ} (hkeeps : Keeps arena arena') :
    ∀ {ids : List NodeId} {es : List (Expr σ τ)}, List.Forall₂ (Stands arena) ids es →
      List.Forall₂ (Stands arena') ids es
  | _, [], .nil => .nil
  | _, _ :: _, .cons h hrest => .cons (h.kept hkeeps) (Stands.keptAll hkeeps hrest)

end

mutual

/-- An expression stands where flattening puts its root. -/
theorem stands_place : ∀ {arena : Arena σ τ} (e : Expr σ τ),
    Stands (place arena e).1 (place arena e).2 e
  | arena, .empty => .empty (getElem?_add arena _)
  | arena, .oneOf _ => .oneOf (getElem?_add arena _)
  | arena, .literal _ => .literal (getElem?_add arena _)
  | arena, .guard _ => .guard (getElem?_add arena _)
  | _, .seq parts =>
      .seq (getElem?_add _ _) (Stands.keptAll (keeps_add _ _) (stands_placeAll parts))
  | _, .alt choices =>
      .alt (getElem?_add _ _) (Stands.keptAll (keeps_add _ _) (stands_placeAll choices))
  | _, .star body => .star (getElem?_add _ _) ((stands_place body).kept (keeps_add _ _))
  | _, .times body _ => .times (getElem?_add _ _) ((stands_place body).kept (keeps_add _ _))
  | arena, .rule _ => .rule (getElem?_add arena _)
  | _, .emit body _ => .emit (getElem?_add _ _) ((stands_place body).kept (keeps_add _ _))
  | _, .fold body _ => .fold (getElem?_add _ _) ((stands_place body).kept (keeps_add _ _))
  | arena, .observe _ => .observe (getElem?_add arena _)

theorem stands_placeAll : ∀ {arena : Arena σ τ} (es : List (Expr σ τ)),
    List.Forall₂ (Stands (placeAll arena es).1) (placeAll arena es).2 es
  | _, [] => .nil
  | _, e :: es => .cons ((stands_place e).kept (keeps_placeAll _ es)) (stands_placeAll es)

end

end Arena

/-! ## Mentions -/

namespace Expr

mutual

/-- A rule is mentioned in an expression. -/
def Mentions (index : RuleId) : Expr σ τ → Prop
  | .rule other => index = other
  | .seq parts => MentionsAny index parts
  | .alt choices => MentionsAny index choices
  | .star body | .times body _ | .emit body _ | .fold body _ => Mentions index body
  | .empty | .oneOf _ | .literal _ | .guard _ | .observe _ => False

/-- A rule is mentioned in one of several expressions. -/
def MentionsAny (index : RuleId) : List (Expr σ τ) → Prop
  | [] => False
  | e :: es => Mentions index e ∨ MentionsAny index es

end

theorem mentionsAny_iff {index : RuleId} {es : List (Expr σ τ)} :
    MentionsAny index es ↔ ∃ e ∈ es, Mentions index e := by
  induction es with
  | nil => simp [MentionsAny]
  | cons e es ih => simp [MentionsAny, ih]

end Expr

namespace Arena

theorem mem_add {arena : Arena σ τ} {node other : Node σ τ} :
    other ∈ (add arena node).1 ↔ other ∈ arena ∨ other = node := by
  rw [add, Array.mem_push]

mutual

/-- Flattening an expression adds mentions of the rules that it mentions. -/
theorem mem_place_iff {index : RuleId} :
    ∀ {arena : Arena σ τ} (e : Expr σ τ),
      .rule index ∈ (place arena e).1 ↔ .rule index ∈ arena ∨ e.Mentions index
  | arena, .empty | arena, .oneOf _ | arena, .guard _ | arena, .rule _ | arena, .observe _ => by
      simp [place, mem_add, Expr.Mentions]
  | arena, .literal run => by
      cases run with
      | nil => simp [place, mem_add, Expr.Mentions]
      | cons => simp [place, mem_add, Expr.Mentions]
  | arena, .seq parts => by simp [place, mem_add, Expr.Mentions, mem_placeAll_iff parts]
  | arena, .alt choices => by simp [place, mem_add, Expr.Mentions, mem_placeAll_iff choices]
  | arena, .star body | arena, .times body _ | arena, .emit body _ | arena, .fold body _ => by
      simp [place, mem_add, Expr.Mentions, mem_place_iff body]

theorem mem_placeAll_iff {index : RuleId} :
    ∀ {arena : Arena σ τ} (es : List (Expr σ τ)),
      .rule index ∈ (placeAll arena es).1 ↔ .rule index ∈ arena ∨ Expr.MentionsAny index es
  | arena, [] => by simp [placeAll, Expr.MentionsAny]
  | arena, e :: es => by
      simp [placeAll, Expr.MentionsAny, mem_placeAll_iff es, mem_place_iff e, or_assoc]

end

end Arena

/-! ## Builders -/

/-- What a definition that succeeds does to a builder. -/
theorem Builder.define_eq_ok {builder builder' : Builder σ τ} {rule : RuleId} {body : Expr σ τ}
    (h : builder.define rule body = .ok builder') :
    ∃ name, builder.rules[rule]? = some ⟨name, none⟩ ∧
      builder' = ⟨(Arena.place builder.nodes body).1,
        builder.rules.setIfInBounds rule ⟨name, some (Arena.place builder.nodes body).2⟩⟩ := by
  unfold Builder.define at h
  split at h
  · cases h
  · cases h
  next name hrule =>
    cases h
    exact ⟨name, hrule, rfl⟩

theorem Builder.Reached.ordered {builder : Builder σ τ} (h : builder.Reached) :
    Arena.Ordered builder.nodes := by
  induction h with
  | new =>
      intro id node hn
      simp [Builder.new] at hn
  | declare name _ ih => exact ih
  | define _ hd ih =>
      obtain ⟨name, -, rfl⟩ := Builder.define_eq_ok hd
      exact ih.place _

/-- No node of a builder is a part of two. -/
theorem Builder.Reached.nodup_links {builder : Builder σ τ} (h : builder.Reached) :
    (Arena.links builder.nodes).Nodup := by
  induction h with
  | new => exact List.nodup_nil
  | declare name _ ih => exact ih
  | define hreached hd ih =>
      obtain ⟨name, -, rfl⟩ := Builder.define_eq_ok hd
      exact hreached.ordered.nodup_links_place ih _

namespace Grammar.IsBuilt

variable {g : Grammar σ τ}

theorem ordered (h : g.IsBuilt) : Arena.Ordered g.nodes := by
  obtain ⟨builder, start, hreached, hb⟩ := h
  rw [(Builder.build_eq_ok hb).1]
  exact hreached.ordered.place start

theorem nodup_links (h : g.IsBuilt) : (Arena.links g.nodes).Nodup := by
  obtain ⟨builder, start, hreached, hb⟩ := h
  rw [(Builder.build_eq_ok hb).1]
  exact hreached.ordered.nodup_links_place hreached.nodup_links start

end Grammar.IsBuilt

end Ramify
