import Ramify.Proofs.Rewriting

/-!
# Flat and nested expressions

The operators that build sequences and choices are flat: an operand that is a sequence is not a
part of the sequence that it goes into, but its parts are (`Expr.append_eq`), and so it is with
choices (`Expr.orElse_eq`).  So they are associative, as lists are.

A sequence that holds sequences may be flattened at any of them (`Expr.Flattened`), and the
operators do no more than that.  The grammar that is told with flat expressions has other places
and other choices than the one that is told with nested ones.  But what is decided about a node
when a grammar is built is decided alike for both (`Grammar.Flattened`), and a tree of the one is
a tree of the other with the trees of a part that was spliced in taken together
(`Grammar.Flattened.trees`).
-/

namespace Ramify

variable {σ τ : Type}

/-! ## Lists with members spliced in -/

/-- A list is another, member by member, but for members of the other that wrap lists, which may
be spliced in. -/
inductive Spliced {α β : Type} (R : α → β → Prop) (Wraps : β → List β → Prop) :
    List α → List β → Prop where
  /-- No members. -/
  | nil : Spliced R Wraps [] []
  /-- The first member is kept. -/
  | keep {x : α} {y : β} {xs : List α} {ys : List β} (h : R x y)
      (hrest : Spliced R Wraps xs ys) : Spliced R Wraps (x :: xs) (y :: ys)
  /-- The first member is spliced in. -/
  | splice {y : β} {inner xs : List α} {inner' ys : List β} (hwraps : Wraps y inner')
      (hinner : List.Forall₂ R inner inner') (hrest : Spliced R Wraps xs ys) :
      Spliced R Wraps (inner ++ xs) (y :: ys)

namespace Spliced

variable {α β : Type} {R : α → β → Prop} {Wraps : β → List β → Prop} {xs xs' : List α}
  {ys ys' : List β}

theorem refl {Wraps : α → List α → Prop} : ∀ (xs : List α), Spliced Eq Wraps xs xs
  | [] => .nil
  | _ :: xs => .keep rfl (refl xs)

theorem append (h : Spliced R Wraps xs ys) (h' : Spliced R Wraps xs' ys') :
    Spliced R Wraps (xs ++ xs') (ys ++ ys') := by
  induction h with
  | nil => exact h'
  | keep h _ ih => exact .keep h ih
  | splice hwraps hinner _ ih =>
      rw [List.append_assoc]
      exact .splice hwraps hinner ih

/-- A member is one of the other list, or stands inside one. -/
theorem exists_of_mem_left (h : Spliced R Wraps xs ys) {x : α} (hx : x ∈ xs) :
    ∃ y ∈ ys, R x y ∨ ∃ inner, Wraps y inner ∧ ∃ p ∈ inner, R x p := by
  induction h with
  | nil => cases hx
  | @keep first y xs ys hfirst _ ih =>
      rcases List.mem_cons.mp hx with rfl | hx
      · exact ⟨y, List.mem_cons_self, .inl hfirst⟩
      · obtain ⟨y, hy, hR⟩ := ih hx
        exact ⟨y, List.mem_cons_of_mem _ hy, hR⟩
  | @splice y inner xs inner' ys hwraps hinner _ ih =>
      rcases List.mem_append.mp hx with hx | hx
      · obtain ⟨p, hp, hR⟩ := Multiset.exists_mem_of_rel_of_mem (rel_coe hinner) hx
        exact ⟨y, List.mem_cons_self, .inr ⟨inner', hwraps, p, hp, hR⟩⟩
      · obtain ⟨y, hy, hR⟩ := ih hx
        exact ⟨y, List.mem_cons_of_mem _ hy, hR⟩

/-- Some member is related to `y`, or for each member of a list that `y` wraps there is one. -/
def Covers (R : α → β → Prop) (Wraps : β → List β → Prop) (xs : List α) (y : β) : Prop :=
  (∃ x ∈ xs, R x y) ∨ ∃ inner, Wraps y inner ∧ ∀ p ∈ inner, ∃ x ∈ xs, R x p

theorem Covers.mono {y : β} (h : Covers R Wraps xs y) (hsub : ∀ x ∈ xs, x ∈ xs') :
    Covers R Wraps xs' y := by
  rcases h with ⟨x, hx, hR⟩ | ⟨inner, hwraps, hall⟩
  · exact .inl ⟨x, hsub x hx, hR⟩
  · refine .inr ⟨inner, hwraps, fun p hp => ?_⟩
    obtain ⟨x, hx, hR⟩ := hall p hp
    exact ⟨x, hsub x hx, hR⟩

/-- A member of the other list is kept, or spliced in. -/
theorem covers (h : Spliced R Wraps xs ys) {y : β} (hy : y ∈ ys) : Covers R Wraps xs y := by
  induction h with
  | nil => cases hy
  | @keep x first xs ys hfirst _ ih =>
      rcases List.mem_cons.mp hy with rfl | hy
      · exact .inl ⟨x, List.mem_cons_self, hfirst⟩
      · exact (ih hy).mono fun _ => List.mem_cons_of_mem x
  | @splice first inner xs inner' ys hwraps hinner _ ih =>
      rcases List.mem_cons.mp hy with rfl | hy
      · refine .inr ⟨inner', hwraps, fun p hp => ?_⟩
        obtain ⟨x, hx, hR⟩ := Multiset.exists_mem_of_rel_of_mem (rel_coe hinner.flip) hp
        exact ⟨x, List.mem_append_left _ hx, hR⟩
      · exact (ih hy).mono fun _ => List.mem_append_right inner

end Spliced

/-! ## Flat operators -/

namespace Expr

/-- The parts of a sequence.  Another expression is the only part of itself. -/
def parts : Expr σ τ → List (Expr σ τ)
  | .seq parts => parts
  | e => [e]

/-- The ways of a choice.  Another expression is the only way of itself. -/
def ways : Expr σ τ → List (Expr σ τ)
  | .alt choices => choices
  | e => [e]

theorem append_eq (a b : Expr σ τ) : a ++ b = .seq (a.parts ++ b.parts) := by
  change a.followedBy b = _
  cases a <;> cases b <;> rfl

theorem orElse_eq (a b : Expr σ τ) : (a <|> b) = .alt (a.ways ++ b.ways) := by
  change a.either b = _
  cases a <;> cases b <;> rfl

theorem append_assoc (a b c : Expr σ τ) : a ++ b ++ c = a ++ (b ++ c) := by
  simp only [append_eq, parts, List.append_assoc]

theorem orElse_assoc (a b c : Expr σ τ) : ((a <|> b) <|> c) = (a <|> (b <|> c)) := by
  simp only [orElse_eq, ways, List.append_assoc]

/-- A sequence with sequences in it spliced in, or a choice with choices in it. -/
inductive Flattened : Expr σ τ → Expr σ τ → Prop where
  /-- Some parts that are sequences are spliced in. -/
  | seq {es es' : List (Expr σ τ)} (h : Spliced Eq (fun e inner => e = .seq inner) es es') :
      Flattened (.seq es) (.seq es')
  /-- Some ways that are choices are spliced in. -/
  | alt {es es' : List (Expr σ τ)} (h : Spliced Eq (fun e inner => e = .alt inner) es es') :
      Flattened (.alt es) (.alt es')

theorem spliced_parts (e : Expr σ τ) :
    Spliced Eq (fun e inner => e = .seq inner) e.parts [e] := by
  cases e with
  | seq es =>
      simpa only [parts, List.append_nil] using Spliced.splice rfl (List.forall₂_refl es) .nil
  | empty | oneOf | literal | guard | alt | star | times | rule | emit | fold | observe =>
      exact .keep rfl .nil

theorem spliced_ways (e : Expr σ τ) :
    Spliced Eq (fun e inner => e = .alt inner) e.ways [e] := by
  cases e with
  | alt es =>
      simpa only [ways, List.append_nil] using Spliced.splice rfl (List.forall₂_refl es) .nil
  | empty | oneOf | literal | guard | seq | star | times | rule | emit | fold | observe =>
      exact .keep rfl .nil

/-- The operator for sequences gives the sequence of its operands, flattened. -/
theorem Flattened.append (a b : Expr σ τ) : (a ++ b).Flattened (.seq [a, b]) := by
  rw [append_eq]
  exact .seq (a.spliced_parts.append b.spliced_parts)

/-- The operator for choices gives the choice between its operands, flattened. -/
theorem Flattened.orElse (a b : Expr σ τ) : (a <|> b).Flattened (.alt [a, b]) := by
  rw [orElse_eq]
  exact .alt (a.spliced_ways.append b.spliced_ways)

theorem mentions_spliced_iff {index : RuleId} {Wraps : Expr σ τ → List (Expr σ τ) → Prop}
    (hwraps : ∀ {e : Expr σ τ} {inner : List (Expr σ τ)}, Wraps e inner →
      (e.Mentions index ↔ MentionsAny index inner)) {es es' : List (Expr σ τ)}
    (h : Spliced Eq Wraps es es') : MentionsAny index es ↔ MentionsAny index es' := by
  simp only [mentionsAny_iff] at hwraps ⊢
  constructor
  · rintro ⟨e, he, hm⟩
    obtain ⟨e', he', rfl | ⟨inner, hinner, _, hp, rfl⟩⟩ := h.exists_of_mem_left he
    · exact ⟨e, he', hm⟩
    · exact ⟨e', he', (hwraps hinner).mpr ⟨e, hp, hm⟩⟩
  · rintro ⟨e', he', hm⟩
    rcases h.covers he' with ⟨e, he, rfl⟩ | ⟨inner, hinner, hall⟩
    · exact ⟨e, he, hm⟩
    · obtain ⟨p, hp, hm⟩ := (hwraps hinner).mp hm
      obtain ⟨e, he, rfl⟩ := hall p hp
      exact ⟨e, he, hm⟩

theorem Flattened.mentions_iff {e e' : Expr σ τ} (h : e.Flattened e') {index : RuleId} :
    e.Mentions index ↔ e'.Mentions index := by
  cases h with
  | seq h | alt h =>
      refine mentions_spliced_iff ?_ h
      rintro _ inner rfl
      exact Iff.rfl

/-! ### Operands -/

/-- A rewritten expression is flattened as a whole, or its parts are rewritten. -/
theorem Rewritten.parts_cases {e e' : Expr σ τ} (h : e.Rewritten Flattened e') :
    Spliced Eq (fun e inner => e = .seq inner) e.parts e'.parts ∨
      List.Forall₂ (Rewritten Flattened) e.parts e'.parts := by
  have hwhole := h
  cases h with
  | here h =>
      cases h with
      | seq h => exact .inl h
      | alt => exact .inr (.cons hwhole .nil)
  | seq h => exact .inr h
  | empty | oneOf | literal | guard | alt | star | times | rule | emit | fold | observe =>
      exact .inr (.cons hwhole .nil)

/-- A rewritten expression is flattened as a whole, or its ways are rewritten. -/
theorem Rewritten.ways_cases {e e' : Expr σ τ} (h : e.Rewritten Flattened e') :
    Spliced Eq (fun e inner => e = .alt inner) e.ways e'.ways ∨
      List.Forall₂ (Rewritten Flattened) e.ways e'.ways := by
  have hwhole := h
  cases h with
  | here h =>
      cases h with
      | seq => exact .inr (.cons hwhole .nil)
      | alt h => exact .inl h
  | alt h => exact .inr h
  | empty | oneOf | literal | guard | seq | star | times | rule | emit | fold | observe =>
      exact .inr (.cons hwhole .nil)

variable {e e' : Expr σ τ}

theorem Rewritten.append_right (h : e.Rewritten Flattened e') (x : Expr σ τ) :
    (e ++ x).Rewritten Flattened (e' ++ x) := by
  rw [append_eq, append_eq]
  rcases h.parts_cases with hspliced | hall
  · exact .here (.seq (hspliced.append (.refl _)))
  · exact .seq (List.rel_append hall (Rewritten.reflAll _))

theorem Rewritten.append_left (h : e.Rewritten Flattened e') (x : Expr σ τ) :
    (x ++ e).Rewritten Flattened (x ++ e') := by
  rw [append_eq, append_eq]
  rcases h.parts_cases with hspliced | hall
  · exact .here (.seq (.append (.refl _) hspliced))
  · exact .seq (List.rel_append (Rewritten.reflAll _) hall)

theorem Rewritten.orElse_right (h : e.Rewritten Flattened e') (x : Expr σ τ) :
    (e <|> x).Rewritten Flattened (e' <|> x) := by
  rw [orElse_eq, orElse_eq]
  rcases h.ways_cases with hspliced | hall
  · exact .here (.alt (hspliced.append (.refl _)))
  · exact .alt (List.rel_append hall (Rewritten.reflAll _))

theorem Rewritten.orElse_left (h : e.Rewritten Flattened e') (x : Expr σ τ) :
    (x <|> e).Rewritten Flattened (x <|> e') := by
  rw [orElse_eq, orElse_eq]
  rcases h.ways_cases with hspliced | hall
  · exact .here (.alt (.append (.refl _) hspliced))
  · exact .alt (List.rel_append (Rewritten.reflAll _) hall)

end Expr

/-! ## Places of flattened expressions -/

/-- The node at one place is the one at the other with nodes of its kind spliced in. -/
inductive Grammar.Flattened (g g' : Grammar σ τ) (M : NodeId → NodeId → Prop) (a a' : NodeId) :
    Prop where
  /-- A sequence. -/
  | seq {ids ids' : List NodeId} (hn : g.nodes[a]? = some (.seq ids))
      (hn' : g'.nodes[a']? = some (.seq ids'))
      (h : Spliced M (fun id inner => g'.nodes[id]? = some (.seq inner)) ids ids')
  /-- A choice. -/
  | alt {ids ids' : List NodeId} (hn : g.nodes[a]? = some (.alt ids))
      (hn' : g'.nodes[a']? = some (.alt ids'))
      (h : Spliced M (fun id inner => g'.nodes[id]? = some (.alt inner)) ids ids')

namespace Arena

variable {arena arena' : Arena σ τ} {M : NodeId → NodeId → Prop}

/-- Where parts are spliced in, places are. -/
theorem spliced_all {wrap : List (Expr σ τ) → Expr σ τ} {node : List NodeId → Node σ τ}
    (hwrap : ∀ {id : NodeId} {inner : List (Expr σ τ)}, Stands arena' id (wrap inner) →
      ∃ ids, arena'[id]? = some (node ids) ∧ List.Forall₂ (Stands arena') ids inner)
    (hM : ∀ {id id' : NodeId} {e : Expr σ τ}, Stands arena id e → Stands arena' id' e → M id id')
    {es es' : List (Expr σ τ)} (h : Spliced Eq (fun e inner => e = wrap inner) es es') :
    ∀ {ids ids' : List NodeId}, List.Forall₂ (Stands arena) ids es →
      List.Forall₂ (Stands arena') ids' es' →
        Spliced M (fun id inner => arena'[id]? = some (node inner)) ids ids' := by
  induction h with
  | nil =>
      intro ids ids' hids hids'
      cases hids
      cases hids'
      exact .nil
  | @keep e _ es es' heq _ ih =>
      intro ids ids' hids hids'
      cases heq
      cases hids with
      | cons hid hids =>
          cases hids' with
          | cons hid' hids' => exact .keep (hM hid hid') (ih hids hids')
  | @splice e inner es inner' es' hwraps hinner _ ih =>
      intro ids ids' hids hids'
      cases List.forall₂_eq_eq_eq ▸ hinner
      cases hwraps
      cases hids' with
      | cons hid' hids' =>
          obtain ⟨ids', hn', hinner'⟩ := hwrap hid'
          rw [← List.take_append_drop inner.length ids]
          exact .splice hn' (stands_same hM (List.forall₂_take_append _ _ _ hids) hinner')
            (ih (List.forall₂_drop_append _ _ _ hids) hids')

/-- Where a flattened expression stands, a node is flattened. -/
theorem Stands.flattened {g g' : Grammar σ τ} {a a' : NodeId} {e e' : Expr σ τ}
    (hstands : Stands g.nodes a e) (hstands' : Stands g'.nodes a' e') (h : e.Flattened e')
    (hM : ∀ {id id' : NodeId} {e : Expr σ τ}, Stands g.nodes id e → Stands g'.nodes id' e →
      M id id') : g.Flattened g' M a a' := by
  cases h with
  | seq h =>
      cases hstands with
      | seq hn hids =>
          cases hstands' with
          | seq hn' hids' =>
              refine .seq hn hn' (spliced_all ?_ hM h hids hids')
              rintro id inner ⟨⟩
              exact ⟨_, ‹_›, ‹_›⟩
  | alt h =>
      cases hstands with
      | alt hn hids =>
          cases hstands' with
          | alt hn' hids' =>
              refine .alt hn hn' (spliced_all ?_ hM h hids hids')
              rintro id inner ⟨⟩
              exact ⟨_, ‹_›, ‹_›⟩

end Arena

/-! ## Building with flattened expressions -/

namespace Grammar.Flattened

variable {g g' : Grammar σ τ} {M : NodeId → NodeId → Prop} {a a' : NodeId}

/-- What can match the empty text flat can match it nested, as far as that is so of the parts. -/
theorem isNullable_nested (h : g.Flattened g' M a a')
    (hmarks' : g'.nullable = Nullable.compute g'.nodes g'.rules) {marks : Nullable.Marks}
    (hwithin : Nullable.Within (fun b => ∀ b', M b b' → g'.isNullable b' = true) marks)
    {node : Node σ τ} (hn : g.nodes[a]? = some node)
    (hholds : Nullable.holds g.rules marks node = true) : g'.isNullable a' = true := by
  cases h with
  | seq hna hn' h =>
      cases hna.symm.trans hn
      rw [Nullable.holds, List.all_eq_true] at hholds
      refine isNullable_of_holds hmarks' hn' (List.all_eq_true.mpr fun id' hid' => ?_)
      rcases h.covers hid' with ⟨id, hid, hM⟩ | ⟨inner, hinner, hall⟩
      · exact hwithin id (hholds id hid) id' hM
      · refine isNullable_of_holds hmarks' hinner (List.all_eq_true.mpr fun p hp => ?_)
        obtain ⟨id, hid, hM⟩ := hall p hp
        exact hwithin id (hholds id hid) p hM
  | alt hna hn' h =>
      cases hna.symm.trans hn
      rw [Nullable.holds, List.any_eq_true] at hholds
      obtain ⟨id, hid, hmark⟩ := hholds
      obtain ⟨id', hid', hM | ⟨inner, hinner, p, hp, hM⟩⟩ := h.exists_of_mem_left hid
      · exact isNullable_of_holds hmarks' hn'
          (List.any_eq_true.mpr ⟨id', hid', hwithin id hmark id' hM⟩)
      · have hnull : g'.isNullable id' = true := isNullable_of_holds hmarks' hinner
          (List.any_eq_true.mpr ⟨p, hp, hwithin id hmark p hM⟩)
        exact isNullable_of_holds hmarks' hn' (List.any_eq_true.mpr ⟨id', hid', hnull⟩)

/-- What can match the empty text nested can match it flat, as far as that is so of the parts and
of the parts of those. -/
theorem isNullable_flat (h : g.Flattened g' M a a')
    (hmarks : g.nullable = Nullable.compute g.nodes g.rules) {marks : Nullable.Marks}
    (hwithin : Nullable.Within (fun b' => ∀ b, M b b' → g.isNullable b = true) marks)
    (hearned : Nullable.Within
      (Nullable.Earned g'.nodes g'.rules fun b' => ∀ b, M b b' → g.isNullable b = true) marks)
    {node' : Node σ τ} (hn' : g'.nodes[a']? = some node')
    (hholds : Nullable.holds g'.rules marks node' = true) : g.isNullable a = true := by
  cases h with
  | seq hn hna' h =>
      cases hna'.symm.trans hn'
      rw [Nullable.holds, List.all_eq_true] at hholds
      refine isNullable_of_holds hmarks hn (List.all_eq_true.mpr fun id hid => ?_)
      obtain ⟨id', hid', hM | ⟨inner, hinner, p, hp, hM⟩⟩ := h.exists_of_mem_left hid
      · exact hwithin id' (hholds id' hid') id hM
      · -- The nested part is no part of the flat grammar: what counts are the marks it rests on.
        obtain ⟨before, hbefore, hin⟩ := hearned id' (hholds id' hid') hinner
        exact hbefore p (List.all_eq_true.mp hin p hp) id hM
  | alt hn hna' h =>
      cases hna'.symm.trans hn'
      rw [Nullable.holds, List.any_eq_true] at hholds
      obtain ⟨id', hid', hmark⟩ := hholds
      refine isNullable_of_holds hmarks hn (List.any_eq_true.mpr ?_)
      rcases h.covers hid' with ⟨id, hid, hM⟩ | ⟨inner, hinner, hall⟩
      · exact ⟨id, hid, hwithin id' hmark id hM⟩
      · obtain ⟨before, hbefore, hin⟩ := hearned id' hmark hinner
        obtain ⟨p, hp, hmark⟩ := List.any_eq_true.mp hin
        obtain ⟨id, hid, hM⟩ := hall p hp
        exact ⟨id, hid, hbefore p hmark id hM⟩

/-- A leading part stands flat where it stands nested, or begins a part that is spliced in. -/
theorem exists_leading_nested (hmarks' : g'.nullable = Nullable.compute g'.nodes g'.rules)
    (hnull : ∀ {b b' : NodeId}, M b b' → g.isNullable b = true → g'.isNullable b' = true)
    {ids ids' : List NodeId}
    (h : Spliced M (fun id inner => g'.nodes[id]? = some (.seq inner)) ids ids') {b : NodeId}
    (hb : b ∈ g.leadingParts ids) :
    ∃ id' ∈ g'.leadingParts ids', M b id' ∨ ∃ b', g'.LeftCorner b' id' ∧ M b b' := by
  induction h with
  | nil => cases hb
  | @keep first first' ids ids' hM _ ih =>
      rcases List.mem_cons.mp hb with rfl | hb
      · exact ⟨first', List.mem_cons_self, .inl hM⟩
      · split at hb
        next hmark =>
          obtain ⟨id', hid', hway⟩ := ih hb
          refine ⟨id', List.mem_cons_of_mem _ ?_, hway⟩
          rwa [if_pos (hnull hM hmark)]
        · cases hb
  | @splice first' inner ids inner' ids' hn hinner _ ih =>
      rw [leadingParts_append] at hb
      rcases List.mem_append.mp hb with hb | hb
      · obtain ⟨b', hb', hM⟩ := MatchingBut.exists_leadingPart hnull hinner hb
        refine ⟨first', List.mem_cons_self, .inr ⟨b', ?_, hM⟩⟩
        rwa [LeftCorner, leftCorners, hn]
      · split at hb
        next hall =>
          have hfirst : g'.isNullable first' = true := by
            refine isNullable_of_holds hmarks' hn (List.all_eq_true.mpr fun p hp => ?_)
            obtain ⟨id, hid, hM⟩ := Multiset.exists_mem_of_rel_of_mem (rel_coe hinner.flip) hp
            exact hnull hM (hall id hid)
          obtain ⟨id', hid', hway⟩ := ih hb
          refine ⟨id', List.mem_cons_of_mem _ ?_, hway⟩
          rwa [if_pos hfirst]
        · cases hb

/-- A leading part of the nested sequence leads in the flat one, or its left corners do. -/
theorem covers_leading (hmarks' : g'.nullable = Nullable.compute g'.nodes g'.rules)
    (hnull : ∀ {b b' : NodeId}, M b b' → g'.isNullable b' = true → g.isNullable b = true)
    {ids ids' : List NodeId}
    (h : Spliced M (fun id inner => g'.nodes[id]? = some (.seq inner)) ids ids') {id' : NodeId}
    (hid' : id' ∈ g'.leadingParts ids') :
    Spliced.Covers M (fun id corners => g'.leftCorners id = corners) (g.leadingParts ids) id' := by
  induction h with
  | nil => cases hid'
  | @keep first first' ids ids' hM _ ih =>
      rcases List.mem_cons.mp hid' with rfl | hid'
      · exact .inl ⟨first, List.mem_cons_self, hM⟩
      · split at hid'
        next hmark =>
          refine (ih hid').mono fun id hid => List.mem_cons_of_mem _ ?_
          rwa [if_pos (hnull hM hmark)]
        · cases hid'
  | @splice first' inner ids inner' ids' hn hinner _ ih =>
      rw [leadingParts_append]
      rcases List.mem_cons.mp hid' with rfl | hid'
      · refine .inr ⟨g'.leadingParts inner', by simp only [leftCorners, hn], fun p hp => ?_⟩
        obtain ⟨id, hid, hM⟩ :=
          MatchingBut.exists_leadingPart (M := flip M) hnull hinner.flip hp
        exact ⟨id, List.mem_append_left _ hid, hM⟩
      · split at hid'
        next hmark =>
          have hall : ∀ id ∈ inner, g.isNullable id = true := by
            intro id hid
            obtain ⟨p, hp, hM⟩ := Multiset.exists_mem_of_rel_of_mem (rel_coe hinner) hid
            have hholds := holds_of_isNullable hmarks' hmark hn
            exact hnull hM (List.all_eq_true.mp hholds p hp)
          rw [if_pos hall]
          exact (ih hid').mono fun _ => List.mem_append_right _
        · cases hid'

/-- A left corner of the flat node is one of the nested node, or of one that was spliced in. -/
theorem exists_corner_nested (h : g.Flattened g' M a a')
    (hmarks' : g'.nullable = Nullable.compute g'.nodes g'.rules)
    (hnull : ∀ {b b' : NodeId}, M b b' → g.isNullable b = true → g'.isNullable b' = true)
    {b : NodeId} (hb : g.LeftCorner b a) :
    ∃ id', g'.LeftCorner id' a' ∧ (M b id' ∨ ∃ b', g'.LeftCorner b' id' ∧ M b b') := by
  cases h with
  | seq hn hn' h =>
      simp only [LeftCorner, leftCorners, hn, hn'] at hb ⊢
      exact exists_leading_nested hmarks' hnull h hb
  | alt hn hn' h =>
      simp only [LeftCorner, leftCorners, hn, hn'] at hb ⊢
      obtain ⟨id', hid', hM | ⟨inner, hinner, p, hp, hM⟩⟩ := h.exists_of_mem_left hb
      · exact ⟨id', hid', .inl hM⟩
      · refine ⟨id', hid', .inr ⟨p, ?_, hM⟩⟩
        simpa only [hinner] using hp

/-- A left corner of the nested node is one of the flat node, or its left corners are. -/
theorem covers_corner (h : g.Flattened g' M a a')
    (hmarks' : g'.nullable = Nullable.compute g'.nodes g'.rules)
    (hnull : ∀ {b b' : NodeId}, M b b' → g'.isNullable b' = true → g.isNullable b = true)
    {id' : NodeId} (hid' : g'.LeftCorner id' a') :
    Spliced.Covers M (fun id corners => g'.leftCorners id = corners) (g.leftCorners a) id' := by
  cases h with
  | seq hn hn' h =>
      simp only [LeftCorner, leftCorners, hn'] at hid'
      rw [leftCorners, hn]
      exact covers_leading hmarks' hnull h hid'
  | alt hn hn' h =>
      simp only [LeftCorner, leftCorners, hn'] at hid'
      rw [leftCorners, hn]
      refine (h.covers hid').imp_right ?_
      rintro ⟨inner, hinner, hall⟩
      exact ⟨inner, by simp only [leftCorners, hinner], hall⟩

/-- Left corners from the flat node come to an end if those from the nested one do. -/
theorem acc_flat (h : g.Flattened g' M a a')
    (hmarks' : g'.nullable = Nullable.compute g'.nodes g'.rules)
    (hnull : ∀ {b b' : NodeId}, M b b' → g.isNullable b = true → g'.isNullable b' = true)
    (hacc : ∀ {b b' : NodeId}, M b b' → Relation.TransGen g'.LeftCorner b' a' →
      Acc g.LeftCorner b) : Acc g.LeftCorner a := by
  refine Acc.intro a fun b hb => ?_
  obtain ⟨id', hid', hM | ⟨b', hb', hM⟩⟩ := h.exists_corner_nested hmarks' hnull hb
  · exact hacc hM (.single hid')
  · exact hacc hM (.tail (.single hb') hid')

/-- Left corners from the nested node come to an end if those from the flat one do. -/
theorem acc_nested (h : g.Flattened g' M a a')
    (hmarks' : g'.nullable = Nullable.compute g'.nodes g'.rules)
    (hnull : ∀ {b b' : NodeId}, M b b' → g'.isNullable b' = true → g.isNullable b = true)
    (hacc : ∀ {b b' : NodeId}, M b b' → Relation.TransGen g.LeftCorner b a →
      Acc g'.LeftCorner b') : Acc g'.LeftCorner a' := by
  refine Acc.intro a' fun id' hid' => ?_
  rcases h.covers_corner hmarks' hnull hid' with ⟨id, hid, hM⟩ | ⟨corners, rfl, hall⟩
  · exact hacc hM (.single hid)
  · refine Acc.intro id' fun p hp => ?_
    obtain ⟨id, hid, hM⟩ := hall p hp
    exact hacc hM (.single hid)

/-! ## Trees of flattened expressions -/

variable [DecidableEq σ] {w : List σ} {i j : Nat}

/-- Trees of flat parts are trees of nested ones, those of a part that was spliced in taken
together. -/
theorem chains (hg : g.IsBuilt) (hin : InsideCorresponds g g' w M a i j) {ids ids' : List NodeId}
    (h : Spliced M (fun id inner => g'.nodes[id]? = some (.seq inner)) ids ids') {k : Nat}
    (hik : i ≤ k) (hlead : k = i → ∀ part ∈ g.leadingParts ids, g.LeftCorner part a) :
    Corresponds (g.chains w ids k j) (g'.chains w ids' k j) := by
  induction h generalizing k with
  | nil => exact chains_nil g'
  | keep hM _ ih => exact chains_cons_of_inside hg hin hM hik hlead ih
  | @splice id' inner ids inner' ids' hn hinner _ ih =>
      rw [leadingParts_append] at hlead
      refine chains_append.trans (.trans (.sigma ?_) chains_cons.symm)
      rintro ⟨l, hkl, hlj⟩
      dsimp only
      have hinside : Corresponds (g.chains w inner k l) (g'.chains w inner' k l) :=
        chains_of_inside hg (hin.shorter hlj) hinner hik fun hki part hpart =>
          hlead hki part (List.mem_append_left _ hpart)
      have hnested : Corresponds (g'.trees w id' k l) (g'.chains w inner' k l) :=
        (trees_forms hn).trans forms_seq
      refine .append (hinside.trans hnested.symm) fun trees =>
        ih (hik.trans hkl) fun hli part hpart => ?_
      have hall : ∀ id ∈ inner, g.isNullable id = true := trees.isNullable hg (by omega)
      rw [if_pos hall] at hlead
      exact hlead (by omega) part (List.mem_append_right _ hpart)

/-- Trees of flat ways are trees of nested ones. -/
theorem forms {ids ids' : List NodeId}
    (h : Spliced M (fun id inner => g'.nodes[id]? = some (.alt inner)) ids ids')
    (hways : ∀ {id id' : NodeId}, M id id' → id ∈ ids →
      Corresponds (g.trees w id i j) (g'.trees w id' i j)) :
    Corresponds (g.forms w (.alt ids) i j) (g'.forms w (.alt ids') i j) := by
  induction h with
  | nil => exact .of_isEmpty isEmpty_forms_alt_nil isEmpty_forms_alt_nil
  | keep hM _ ih =>
      have hrest := ih fun hM hid => hways hM (List.mem_cons_of_mem _ hid)
      have hfirst := hways hM List.mem_cons_self
      exact forms_alt_cons.trans (.trans (.sum hfirst hrest) forms_alt_cons.symm)
  | @splice id' inner ids inner' ids' hn hinner _ ih =>
      have hrest := ih fun hM hid => hways hM (List.mem_append_right _ hid)
      have hinside : Corresponds (g.forms w (.alt inner) i j) (g'.trees w id' i j) := by
        have hall := (List.forall₂_and_left _ _).mpr ⟨fun _ hid => hid, hinner⟩
        refine .trans (forms_alt ?_) (trees_forms hn).symm
        exact hall.imp fun _ _ hway => hways hway.2 (List.mem_append_left _ hway.1)
      exact forms_alt_append.trans (.trans (.sum hinside hrest) forms_alt_cons.symm)

/-- The trees of a flat node are those of the nested one, if the trees inside them are. -/
theorem trees (h : g.Flattened g' M a a') (hg : g.IsBuilt)
    (hin : InsideCorresponds g g' w M a i j) :
    Corresponds (g.trees w a i j) (g'.trees w a' i j) := by
  cases h with
  | seq hn hn' h =>
      refine (trees_forms hn).trans (forms_seq.trans (.trans ?_ (.trans forms_seq.symm
        (trees_forms hn').symm)))
      refine chains hg hin h (Nat.le_refl i) fun _ part hpart => ?_
      rwa [LeftCorner, leftCorners, hn]
  | alt hn hn' h =>
      refine (trees_forms hn).trans (.trans (forms h fun {id id'} hM hid => ?_) (trees_forms hn').symm)
      have hcorner : g.LeftCorner id a := by simpa only [LeftCorner, leftCorners, hn] using hid
      exact hin.corner hM (.single hcorner) (Nat.le_refl i) (Nat.le_refl j)

end Grammar.Flattened

namespace Builder

variable {builder builder' : Builder σ τ} {told told' : List (Option (Expr σ τ))}
  {start start' : Expr σ τ}

/-- A builder is well formed flat if it is so nested. -/
theorem Holds.wellFormed_flat (h : builder.Holds told) (h' : builder'.Holds told')
    (hreached : builder.Reached) (hwell' : builder'.WellFormed start')
    (hrules : RewrittenAll Expr.Flattened told told')
    (hstart : start.Rewritten Expr.Flattened start') : builder.WellFormed start := by
  have hdefined := h.defined_of_rewritten h' hwell'.defined hrules
  have hclosed := h.closed_of_rewritten h' hwell'.closed hrules hstart
    fun hflat => hflat.mentions_iff.mp
  have hbut := h.matchingBut h' start start' hdefined hwell'.defined hrules.exists_body
  have hplaces : ∀ {a a' : NodeId}, Arena.Related Expr.Flattened (builder.draft start).nodes
      (builder'.draft start').nodes a a' → (builder.draft start).Flattened (builder'.draft start')
        (Arena.Related (Expr.Rewritten Expr.Flattened) (builder.draft start).nodes
          (builder'.draft start').nodes) a a' := by
    rintro a a' ⟨e, e', hflat, hstands, hstands'⟩
    exact hstands.flattened hstands' hflat Arena.related_self
  have hnull : ∀ {a a' : NodeId}, Arena.Related (Expr.Rewritten Expr.Flattened)
      (builder.draft start).nodes (builder'.draft start').nodes a a' →
      (builder.draft start).isNullable a = true → (builder'.draft start').isNullable a' = true :=
    hbut.isNullable_of_law fun hlaw hwithin _ hn hholds =>
      (hplaces hlaw).isNullable_nested rfl hwithin hn hholds
  exact hreached.wellFormed_of_matchingBut hdefined hclosed hbut hnull
    (fun hlaw hacc => (hplaces hlaw).acc_flat rfl hnull hacc) hwell'.wellFounded

/-- A builder is well formed nested if it is so flat. -/
theorem Holds.wellFormed_nested (h : builder.Holds told) (h' : builder'.Holds told')
    (hreached' : builder'.Reached) (hwell : builder.WellFormed start)
    (hrules : RewrittenAll Expr.Flattened told told')
    (hstart : start.Rewritten Expr.Flattened start') : builder'.WellFormed start' := by
  have hdefined' := h'.defined_of_rewritten h hwell.defined hrules.back
  have hclosed' := h'.closed_of_rewritten h hwell.closed hrules.back hstart.back
    fun hflat => hflat.mentions_iff.mpr
  have hbut := h'.matchingBut h start' start hdefined' hwell.defined hrules.back.exists_body
  have hplaces : ∀ {a' a : NodeId}, Arena.Related (flip Expr.Flattened)
      (builder'.draft start').nodes (builder.draft start).nodes a' a →
      (builder.draft start).Flattened (builder'.draft start')
        (flip (Arena.Related (Expr.Rewritten (flip Expr.Flattened)) (builder'.draft start').nodes
          (builder.draft start).nodes)) a a' := by
    rintro a' a ⟨e', e, hflat, hstands', hstands⟩
    exact hstands.flattened hstands' hflat fun hid hid' => Arena.related_self hid' hid
  have hnull : ∀ {a' a : NodeId}, Arena.Related (Expr.Rewritten (flip Expr.Flattened))
      (builder'.draft start').nodes (builder.draft start).nodes a' a →
      (builder'.draft start').isNullable a' = true → (builder.draft start).isNullable a = true :=
    hbut.isNullable_of_law fun hlaw hwithin hearned hn hholds =>
      (hplaces hlaw).isNullable_flat rfl hwithin hearned hn hholds
  exact hreached'.wellFormed_of_matchingBut hdefined' hclosed' hbut hnull
    (fun hlaw hacc => (hplaces hlaw).acc_nested rfl hnull hacc) hwell.wellFounded

/-- Parses come to the same flat and nested. -/
theorem Holds.answer_flattened [DecidableEq σ] (h : builder.Holds told) (h' : builder'.Holds told')
    (hreached : builder.Reached) (hreached' : builder'.Reached)
    (hwell : builder.WellFormed start) (hwell' : builder'.WellFormed start')
    (hrules : RewrittenAll Expr.Flattened told told')
    (hstart : start.Rewritten Expr.Flattened start') (w : List σ) :
    (builder.draft start).answer w = (builder'.draft start').answer w := by
  have hg : (builder.draft start).IsBuilt :=
    ⟨builder, start, hreached, build_eq_ok_iff.mpr ⟨hwell, rfl⟩⟩
  refine h.answer_eq h' hreached hreached' hwell hwell' hrules.exists_body hstart w ?_
  rintro a a' i j ⟨e, e', hflat, hstands, hstands'⟩ hin
  exact (hstands.flattened hstands' hflat Arena.related_self).trees hg hin

/-- The operators for sequences and choices keep the meaning of what they flatten.  Flat and
nested expressions differ by flattening, in any place, also where that is an operand.  If two
descriptions of a grammar differ so, both make a grammar or neither does, and parses without
limits come to the same on every input.  The operators are associative. -/
theorem flattening_keeps_meaning [DecidableEq σ] :
    (∀ a b : Expr σ τ, (a ++ b).Rewritten Expr.Flattened (.seq [a, b]) ∧
      (a <|> b).Rewritten Expr.Flattened (.alt [a, b])) ∧
    (∀ e e' x : Expr σ τ, e.Rewritten Expr.Flattened e' →
      (e ++ x).Rewritten Expr.Flattened (e' ++ x) ∧ (x ++ e).Rewritten Expr.Flattened (x ++ e') ∧
      (e <|> x).Rewritten Expr.Flattened (e' <|> x) ∧
      (x <|> e).Rewritten Expr.Flattened (x <|> e')) ∧
    (∀ (steps steps' : List (Step σ τ)) (start start' : Expr σ τ),
      RewrittenAll Expr.Flattened (bodies steps) (bodies steps') →
      start.Rewritten Expr.Flattened start' →
      ((∃ g, (Builder.new.run steps).1.build start = .ok g) ↔
        ∃ g', (Builder.new.run steps').1.build start' = .ok g') ∧
      ∀ g g', (Builder.new.run steps).1.build start = .ok g →
        (Builder.new.run steps').1.build start' = .ok g' → ∀ w, g.answer w = g'.answer w) ∧
    ∀ a b c : Expr σ τ, a ++ b ++ c = a ++ (b ++ c) ∧ ((a <|> b) <|> c) = (a <|> (b <|> c)) := by
  refine ⟨fun a b => ⟨.here (.append a b), .here (.orElse a b)⟩, fun e e' x h =>
    ⟨h.append_right x, h.append_left x, h.orElse_right x, h.orElse_left x⟩, ?_,
    fun a b c => ⟨a.append_assoc b c, a.orElse_assoc b c⟩⟩
  intro steps steps' start start' hrules hstart
  have hholds : (Builder.new.run steps).1.Holds (bodies steps) := Holds.new.run steps
  have hholds' : (Builder.new.run steps').1.Holds (bodies steps') := Holds.new.run steps'
  have hreached : (Builder.new.run steps).1.Reached := Reached.new.run steps
  have hreached' : (Builder.new.run steps').1.Reached := Reached.new.run steps'
  constructor
  · simp only [build_eq_ok_iff, exists_and_left, exists_eq, and_true]
    exact ⟨fun hwell => hholds.wellFormed_nested hholds' hreached' hwell hrules hstart,
      fun hwell' => hholds.wellFormed_flat hholds' hreached hwell' hrules hstart⟩
  · intro g g' hbuild hbuild' w
    obtain ⟨hwell, rfl⟩ := build_eq_ok_iff.mp hbuild
    obtain ⟨hwell', rfl⟩ := build_eq_ok_iff.mp hbuild'
    exact hholds.answer_flattened hholds' hreached hreached' hwell hwell' hrules hstart w

/-- A sequence in a rule, and a choice that is an operand in the start. -/
theorem flattening_keeps_meaning_letters :
    let a : Expr Char Nat := .emit (.literal ['a']) (.fixed 1)
    let b : Expr Char Nat := .literal ['b']
    (b <|> (a <|> .rule 0)).Rewritten Expr.Flattened (b <|> .alt [a, .rule 0]) ∧
    ∃ g g', (Builder.new.run [.declare "letters", .define 0 (a ++ (b ++ a))]).1.build
        (b <|> (a <|> .rule 0)) = .ok g ∧
      (Builder.new.run [.declare "letters", .define 0 (.seq [a, b ++ a])]).1.build
        (b <|> .alt [a, .rule 0]) = .ok g' ∧
      ∀ w, g.answer w = g'.answer w := by
  intro a b
  obtain ⟨hlaws, hoperands, hsame, -⟩ := flattening_keeps_meaning (σ := Char) (τ := Nat)
  have hrules : RewrittenAll Expr.Flattened [some (a ++ (b ++ a))] [some (.seq [a, b ++ a])] :=
    .cons (.some (hlaws a (b ++ a)).1) .nil
  have hstart : (b <|> (a <|> .rule 0)).Rewritten Expr.Flattened (b <|> .alt [a, .rule 0]) :=
    (hoperands (a <|> .rule 0) (.alt [a, .rule 0]) b (hlaws a (.rule 0)).2).2.2.2
  obtain ⟨hbuilds, hanswer⟩ := hsame [.declare "letters", .define 0 (a ++ (b ++ a))]
    [.declare "letters", .define 0 (.seq [a, b ++ a])] (b <|> (a <|> .rule 0))
    (b <|> .alt [a, .rule 0]) hrules hstart
  have hflat : ((Builder.new.run [.declare "letters", .define 0 (a ++ (b ++ a))]).1.build
      (b <|> (a <|> .rule 0))).toOption.isSome = true := by
    decide +kernel
  obtain ⟨g, hg⟩ := exists_build hflat
  obtain ⟨g', hg'⟩ := hbuilds.mp ⟨g, hg⟩
  exact ⟨hstart, g, g', hg, hg', hanswer g g' hg hg'⟩

end Builder

end Ramify
