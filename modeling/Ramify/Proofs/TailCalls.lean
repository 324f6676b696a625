import Ramify.Proofs.Building
import Ramify.Proofs.Depth
import Ramify.Proofs.Limits

/-!
# Calls in tail position

A branch enters a node from another as a part of it, or as the body of a rule that it mentions.
The frames of a node stay below a part only if the part is not the last, so a cycle of nodes
that are entered from each other piles up frames just if one of its parts is not.

A mention of a rule that leads back to the rule around it stands in tail position if only last
parts lead to it from the root of the body (`Grammar.CallsInTail`).  If all of them do, no cycle
opens a frame (`Grammar.CallsInTail.opens_once`): a cycle leads through a mention, and the node
that opens the frame would stand between the root of a body and a mention that leads back to it.
The path from the root to the mention is the only one, as no node is a part of two.

Then the nodes with frames that a node reaches are a budget for it (`Grammar.room`), and the
depth of all branches keeps to it (`Forest.tail_calls_stay_shallow`).
-/

namespace Ramify

variable {σ τ : Type}

/-- The parts of a node that a branch enters when it is through with all others. -/
def Node.lastParts : Node σ τ → List NodeId
  | .seq parts => parts.getLast?.toList
  | .alt choices => choices
  | .times body 1 => [body]
  | _ => []

namespace Grammar

/-! ## Paths through a grammar -/

/-- `part` is a part of the node at `id`. -/
def PartOf (g : Grammar σ τ) (part id : NodeId) : Prop :=
  ∃ node, g.nodes[id]? = some node ∧ part ∈ node.parts

/-- `part` is a last part of the node at `id`. -/
def LastPartOf (g : Grammar σ τ) (part id : NodeId) : Prop :=
  ∃ node, g.nodes[id]? = some node ∧ part ∈ node.lastParts

/-- The body of one rule mentions another. -/
def Calls (g : Grammar σ τ) (callee caller : RuleId) : Prop :=
  ∃ body id, g.body? caller = some body ∧ Relation.ReflTransGen g.PartOf id body ∧
    g.nodes[id]? = some (.rule callee)

/-- Every mention of a rule from which the rule around it is reached through mentions stands in
tail position: only last parts lead to it. -/
def CallsInTail (g : Grammar σ τ) : Prop :=
  ∀ {caller callee : RuleId} {body id : NodeId}, g.body? caller = some body →
    Relation.ReflTransGen g.PartOf id body → g.nodes[id]? = some (.rule callee) →
    Relation.ReflTransGen g.Calls caller callee → Relation.ReflTransGen g.LastPartOf id body

/-- The node at `part` may be entered from the node at `id`. -/
def Enters (g : Grammar σ τ) (part id : NodeId) : Prop :=
  ∃ node own, g.nodes[id]? = some node ∧ (part, own) ∈ g.opens node

/-- A branch may hold a frame of the node at `id`. -/
def Frames (g : Grammar σ τ) (id : NodeId) : Prop :=
  ∃ node, g.nodes[id]? = some node ∧ (node.consumes = true ∨ ∃ part, (part, 1) ∈ g.opens node)

end Grammar

/-! ## What a node opens -/

theorem mem_of_mem_opensSeries {part : NodeId} {own : Nat} :
    ∀ {parts : List NodeId}, (part, own) ∈ opensSeries parts →
      part ∈ parts ∧ own ≤ 1 ∧ (own = 1 → part ∈ parts.dropLast)
  | [], h => by cases h
  | [last], h => by
      cases List.mem_singleton.mp h
      exact ⟨List.mem_cons_self, Nat.zero_le 1, fun h => by cases h⟩
  | first :: second :: parts, h => by
      rcases List.mem_cons.mp h with heq | h
      · cases heq
        exact ⟨List.mem_cons_self, Nat.le_refl 1, fun _ => List.mem_cons_self⟩
      · obtain ⟨hmem, hown, hlast⟩ := mem_of_mem_opensSeries h
        exact ⟨List.mem_cons_of_mem _ hmem, hown, fun h => List.mem_cons_of_mem _ (hlast h)⟩

theorem notMem_getLast_of_mem_dropLast {parts : List NodeId} (h : parts.Nodup) {part : NodeId}
    (hpart : part ∈ parts.dropLast) : part ∉ parts.getLast?.toList := by
  intro hlast
  have hsplit : parts.dropLast ++ [part] = parts :=
    List.dropLast_append_getLast? part (Option.mem_toList.mp hlast)
  rw [← hsplit] at h
  exact List.disjoint_of_nodup_append h hpart List.mem_cons_self

namespace Grammar

variable {g : Grammar σ τ} {id part : NodeId} {own : Nat} {node : Node σ τ}

/-- What a node opens is a part of it, or the body of the rule that it mentions, and there is one
frame of the node at most. -/
theorem opens_cases (h : (part, own) ∈ g.opens node) :
    own ≤ 1 ∧ (part ∈ node.parts ∨ ∃ index, node = .rule index ∧ g.body? index = some part) := by
  cases node with
  | seq parts =>
      obtain ⟨hmem, hown, -⟩ := mem_of_mem_opensSeries h
      exact ⟨hown, .inl hmem⟩
  | times body count =>
      obtain ⟨hmem, hown, -⟩ := mem_of_mem_opensSeries h
      exact ⟨hown, .inl (List.mem_singleton.mpr (List.mem_replicate.mp hmem).2)⟩
  | alt choices =>
      obtain ⟨choice, hmem, heq⟩ := List.mem_map.mp h
      cases heq
      exact ⟨Nat.zero_le 1, .inl hmem⟩
  | star | emit | fold =>
      cases List.mem_singleton.mp h
      exact ⟨Nat.le_refl 1, .inl List.mem_cons_self⟩
  | rule index =>
      obtain ⟨body, hmem, heq⟩ := List.mem_map.mp h
      cases heq
      exact ⟨Nat.zero_le 1, .inr ⟨index, rfl, Option.mem_toList.mp hmem⟩⟩
  | empty | oneOf | literal | guard | observe => cases h

/-- A part that is entered under a frame is not a last part. -/
theorem notMem_lastParts_of_opens (h : (part, 1) ∈ g.opens node) (hnodup : node.parts.Nodup) :
    part ∉ node.lastParts := by
  cases node with
  | seq parts =>
      exact notMem_getLast_of_mem_dropLast hnodup ((mem_of_mem_opensSeries h).2.2 rfl)
  | times body count =>
      have hmem := (mem_of_mem_opensSeries h).2.2 rfl
      rw [List.dropLast_replicate] at hmem
      have hcount := (List.mem_replicate.mp hmem).1
      match count with
      | 0 => exact List.not_mem_nil
      | 1 => exact absurd rfl hcount
      | _ + 2 => exact List.not_mem_nil
  | alt choices =>
      obtain ⟨choice, -, heq⟩ := List.mem_map.mp h
      cases heq
  | rule index =>
      obtain ⟨body, -, heq⟩ := List.mem_map.mp h
      cases heq
  | star | emit | fold | empty | oneOf | literal | guard | observe => exact List.not_mem_nil

theorem mem_parts_of_lastParts (h : part ∈ node.lastParts) : part ∈ node.parts := by
  cases node with
  | seq parts => exact List.mem_of_getLast? (Option.mem_toList.mp h)
  | alt => exact h
  | times body count =>
      match count with
      | 1 => exact h
  | empty | oneOf | literal | guard | star | rule | emit | fold | observe => cases h

theorem enters_cases (h : g.Enters part id) :
    g.PartOf part id ∨ ∃ index, g.nodes[id]? = some (.rule index) ∧ g.body? index = some part := by
  obtain ⟨node, own, hn, hopens⟩ := h
  rcases (opens_cases hopens).2 with hpart | ⟨index, rfl, hb⟩
  · exact .inl ⟨node, hn, hpart⟩
  · exact .inr ⟨index, hn, hb⟩

/-! ## Paths of parts -/

theorem IsBuilt.lt_of_partOf (hg : g.IsBuilt) (h : g.PartOf part id) : part < id := by
  obtain ⟨node, hn, hpart⟩ := h
  exact hg.ordered hn part hpart

theorem IsBuilt.le_of_parts (hg : g.IsBuilt) (h : Relation.ReflTransGen g.PartOf part id) :
    part ≤ id := by
  induction h with
  | refl => exact Nat.le_refl _
  | tail _ hpart ih => exact ih.trans (Nat.le_of_lt (hg.lt_of_partOf hpart))

/-- If last parts lead from a root to a place, a part on the way is a last part, as there is no
other way. -/
theorem IsBuilt.lastPartOf_between (hg : g.IsBuilt) {root place : NodeId}
    (htail : Relation.ReflTransGen g.LastPartOf place root) (hpart : g.PartOf part id)
    (hplace : Relation.ReflTransGen g.PartOf place part)
    (hroot : Relation.ReflTransGen g.PartOf id root) : g.LastPartOf part id := by
  induction htail using Relation.ReflTransGen.head_induction_on with
  | refl =>
      have hle := hg.le_of_parts hplace
      have hle' := hg.le_of_parts hroot
      exact absurd (hg.lt_of_partOf hpart) (Nat.not_lt.mpr (hle'.trans hle))
  | @head place above hlast _ ih =>
      obtain ⟨node, hn, hmem⟩ := hlast
      have hmem' := mem_parts_of_lastParts hmem
      rcases Relation.ReflTransGen.cases_head hplace with rfl | ⟨above', hfirst, hrest⟩
      · obtain ⟨node', hn', hpart'⟩ := hpart
        cases Arena.eq_of_mem_parts hg.nodup_links hn hn' hmem' hpart'
        exact ⟨node, hn, hmem⟩
      · obtain ⟨node', hn', hpart'⟩ := hfirst
        cases Arena.eq_of_mem_parts hg.nodup_links hn hn' hmem' hpart'
        exact ih hrest

/-! ## Paths of nodes that are entered -/

/-- What is entered from a node stands within it, or there is a mention of a rule within it from
whose body it is entered. -/
theorem parts_or_call {place : NodeId} (h : Relation.ReflTransGen g.Enters place id) :
    Relation.ReflTransGen g.PartOf place id ∨ ∃ mention index body,
      Relation.ReflTransGen g.PartOf mention id ∧ g.nodes[mention]? = some (.rule index) ∧
      g.body? index = some body ∧ Relation.ReflTransGen g.Enters place body := by
  induction h with
  | refl => exact .inl .refl
  | @tail inner id hpath henters ih =>
      rcases enters_cases henters with hpart | ⟨index, hn, hb⟩
      · refine ih.imp (fun hparts => hparts.tail hpart) ?_
        rintro ⟨mention, index, body, hwithin, hn, hb, hrest⟩
        exact ⟨mention, index, body, hwithin.tail hpart, hn, hb, hrest⟩
      · exact .inr ⟨id, index, inner, .refl, hn, hb, hpath⟩

/-- What is entered from the body of a rule stands within the body of one that is reached from it
through mentions. -/
theorem exists_caller {place body : NodeId} {rule : RuleId} (hb : g.body? rule = some body)
    (h : Relation.ReflTransGen g.Enters place body) :
    ∃ caller root, g.body? caller = some root ∧ Relation.ReflTransGen g.PartOf place root ∧
      Relation.ReflTransGen g.Calls caller rule := by
  induction h using Relation.ReflTransGen.head_induction_on with
  | refl => exact ⟨rule, body, hb, .refl, .refl⟩
  | @head place above henters _ ih =>
      obtain ⟨caller, root, hroot, hwithin, hcalls⟩ := ih
      rcases enters_cases henters with hpart | ⟨index, hn, hplace⟩
      · exact ⟨caller, root, hroot, .head hpart hwithin, hcalls⟩
      · exact ⟨index, place, hplace, .refl, .head ⟨root, above, hroot, hwithin, hn⟩ hcalls⟩

/-- If mentions that lead back stand in tail position, a node is not entered again from a part
that it opens a frame for. -/
theorem CallsInTail.opens_once (h : g.CallsInTail) (hg : g.IsBuilt)
    (hn : g.nodes[id]? = some node) (hopens : (part, 1) ∈ g.opens node) :
    ¬ Relation.ReflTransGen g.Enters id part := by
  intro hpath
  have hnodup := Arena.nodup_parts hg.nodup_links hn
  have hpart : g.PartOf part id := by
    rcases (opens_cases hopens).2 with hpart | ⟨index, rfl, -⟩
    · exact ⟨node, hn, hpart⟩
    · obtain ⟨body, -, heq⟩ := List.mem_map.mp hopens
      cases heq
  -- Parts alone lead down, so the way back to `id` begins at a mention below `part`.
  rcases parts_or_call hpath with hparts | ⟨mention, index, body, hwithin, hmention, hb, hrest⟩
  · exact absurd (hg.lt_of_partOf hpart) (Nat.not_lt.mpr (hg.le_of_parts hparts))
  -- The rule whose body `id` stands in is reached from the rule that is mentioned there.
  obtain ⟨caller, root, hroot, hid, hcalls⟩ := exists_caller hb hrest
  have htail := h hroot (hwithin.trans (.head hpart hid)) hmention hcalls
  obtain ⟨node', hn', hlast⟩ := hg.lastPartOf_between htail hpart hwithin hid
  cases hn.symm.trans hn'
  exact notMem_lastParts_of_opens hopens hnodup hlast

/-! ## Room for frames -/

open Classical in
/-- The nodes with frames that are entered from a node, itself included. -/
noncomputable def framed (g : Grammar σ τ) (id : NodeId) : Finset NodeId :=
  (Finset.range g.nodes.size).filter fun other =>
    g.Frames other ∧ Relation.ReflTransGen g.Enters other id

theorem Frames.lt_size (h : g.Frames id) : id < g.nodes.size := by
  obtain ⟨node, hn, -⟩ := h
  exact (Array.getElem?_eq_some_iff.mp hn).1

theorem mem_framed {other : NodeId} :
    other ∈ g.framed id ↔ g.Frames other ∧ Relation.ReflTransGen g.Enters other id := by
  classical
  rw [framed, Finset.mem_filter, Finset.mem_range]
  exact ⟨And.right, fun h => ⟨h.1.lt_size, h⟩⟩

/-- The number of nodes with frames that are entered from a node, itself included. -/
noncomputable def room (g : Grammar σ τ) (id : NodeId) : Nat := (g.framed id).card

theorem room_le (g : Grammar σ τ) (id : NodeId) : g.room id ≤ g.nodes.size := by
  have hsub : g.framed id ⊆ Finset.range g.nodes.size :=
    fun _ hother => Finset.mem_range.mpr (mem_framed.mp hother).1.lt_size
  calc g.room id ≤ (Finset.range g.nodes.size).card := Finset.card_le_card hsub
    _ = g.nodes.size := Finset.card_range _

/-- There is room for all frames if no node is entered again from a part that it opens a frame
for. -/
theorem budget_room (h : ∀ {id part : NodeId} {node : Node σ τ}, g.nodes[id]? = some node →
    (part, 1) ∈ g.opens node → ¬ Relation.ReflTransGen g.Enters id part) : g.Budget g.room where
  waits {id node} hn hc :=
    Finset.card_pos.mpr ⟨id, mem_framed.mpr ⟨⟨node, hn, .inl hc⟩, .refl⟩⟩
  part {id part own node} hn hp := by
    have hsub : g.framed part ⊆ g.framed id := by
      intro other hother
      obtain ⟨hframes, hpath⟩ := mem_framed.mp hother
      exact mem_framed.mpr ⟨hframes, hpath.tail ⟨node, own, hn, hp⟩⟩
    rcases Nat.le_one_iff_eq_zero_or_eq_one.mp (opens_cases hp).1 with rfl | rfl
    · exact Finset.card_le_card hsub
    · have hid : id ∈ g.framed id := mem_framed.mpr ⟨⟨node, hn, .inr ⟨part, hp⟩⟩, .refl⟩
      have hnot : id ∉ g.framed part := fun hid => h hn hp (mem_framed.mp hid).2
      exact Finset.card_lt_card ((Finset.ssubset_iff_of_subset hsub).mpr ⟨id, hid, hnot⟩)

end Grammar

/-! ## A list that calls itself last -/

/-- A list is a symbol and a list, or empty. -/
def Grammar.rightList : Grammar Char Nat where
  nodes := #[.oneOf (.of ['x']), .rule 0, .seq [0, 1], .empty, .alt [2, 3], .rule 0]
  rules := #[⟨"list", 4⟩]
  nullable := #[false, true, false, true, true, true]
  start := 5

theorem Grammar.rightList_isBuilt : Grammar.rightList.IsBuilt := by
  have hdeclared : (Builder.new.declare "list" : Builder Char Nat × RuleId).1.Reached :=
    .declare "list" .new
  have hbuild : ∃ builder, (Builder.new.declare "list").1.define 0
      (.oneOf (.of ['x']) ++ .rule 0 <|> .empty) = .ok builder ∧
      builder.build (.rule 0) = .ok Grammar.rightList :=
    ⟨_, rfl, rfl⟩
  obtain ⟨builder, hdefine, hbuild⟩ := hbuild
  exact ⟨builder, .rule 0, .define hdeclared hdefine, hbuild⟩

/-- The only mention in the body of the rule is the last part of a way. -/
theorem Grammar.rightList_callsInTail : Grammar.rightList.CallsInTail := by
  intro caller callee body id hb hid hn _
  have hbody : body = 4 := by
    cases caller with
    | zero => exact (Option.some.inj hb).symm
    | succ caller => cases hb
  subst hbody
  have hle := Grammar.rightList_isBuilt.le_of_parts hid
  match id, hle with
  | 1, _ =>
      have hway : Grammar.rightList.LastPartOf 2 4 := ⟨_, rfl, List.mem_cons_self⟩
      exact .head ⟨.seq [0, 1], rfl, List.mem_cons_self⟩ (.single hway)
  | 0, _ | 2, _ | 3, _ | 4, _ => cases hn

/-! ## Parses that are never too deep -/

namespace Forest

variable [DecidableEq σ] {g : Grammar σ τ}

/-- Calls in tail position keep recursion shallow.  If every mention of a rule that leads back to
the rule around it stands in tail position, there is a number that depends on the grammar only,
and is no greater than that of its nodes, such that no branch that a parse comes across is ever
deeper, whatever was offered, before a symbol, with it or at the end.  A limit on the depth that
is not lower never stops a parse. -/
theorem tail_calls_stay_shallow (hg : g.IsBuilt) (htail : g.CallsInTail) :
    ∃ bound ≤ g.nodes.size, ∀ (limits : Limits) (f : Forest σ τ), Reachable g limits f →
      (∀ next, ∀ b ∈ f.branches, ∀ b', (f.cursor next).Visits b b' →
        b'.depth ≤ bound ∧
          ∀ symbol b'', g.consume symbol b' = some b'' → b''.depth ≤ bound) ∧
      (bound ≤ limits.depth → ∀ depth limit,
        f.fault ≠ some (.tooDeep depth limit) ∧
        (∀ symbol, (f.take symbol).result ≠ .error (.tooDeep depth limit)) ∧
        f.close.result ≠ .error (.aborted (.tooDeep depth limit))) := by
  have hroom : g.Budget g.room :=
    Grammar.budget_room fun hn hopens => htail.opens_once hg hn hopens
  refine ⟨g.room g.start, g.room_le g.start, fun limits f h => ⟨?_, ?_⟩⟩
  · intro next b hb b' hvisit
    have hdepth := h.depth_le hg hroom hb hvisit
    exact ⟨hdepth, fun symbol b'' htake =>
      (Grammar.consume_eq_some_iff.mp htake).depth_le.trans hdepth⟩
  · intro hmax depth limit
    exact ⟨h.fault_ne_tooDeep hg hroom hmax, h.take_ne_tooDeep hg hroom hmax,
      h.close_ne_tooDeep hg hroom hmax⟩

/-- The depth of a list does not grow with its length. -/
theorem tail_calls_stay_shallow_list :
    Grammar.rightList.IsBuilt ∧ Grammar.rightList.CallsInTail ∧
      ∃ bound, ∀ text : List Char,
        ∀ b ∈ ((Forest.new Grammar.rightList .unlimited).takeAll text).forest.branches,
          b.depth ≤ bound := by
  obtain ⟨bound, -, hall⟩ :=
    tail_calls_stay_shallow Grammar.rightList_isBuilt Grammar.rightList_callsInTail
  refine ⟨Grammar.rightList_isBuilt, Grammar.rightList_callsInTail, bound, fun text b hb => ?_⟩
  exact ((hall .unlimited _ (.takeAll .new text)).1 none b hb b .refl).1

end Forest

end Ramify
