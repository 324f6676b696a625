import Ramify.Proofs.Cycle

/-!
# What building a grammar comes to

`Builder.draft` is the grammar that closing a builder would hand out.  It is handed out just
if it is well formed: every declared rule has a body, every rule that is mentioned is
declared, and the left corners have no cycle (`Builder.WellFormed`).

Otherwise the mistakes are looked for in that order, and the first one is reported.  For a
cycle that is the name of a rule on it, which there always is: the name that stands for an
undeclared rule is a fallback that is never used.
-/

namespace Ramify

variable {σ τ : Type}

/-- The rule of a declaration that has a body. -/
def Declaration.rule? (declaration : Declaration) : Option Rule :=
  declaration.body.map (Rule.mk declaration.name)

/-- The declaration of a rule that has its body. -/
def Rule.declaration (rule : Rule) : Declaration := ⟨rule.name, some rule.body⟩

namespace Builder

/-- The grammar that closing a builder hands out if nothing is wrong with it. -/
def draft (builder : Builder σ τ) (start : Expr σ τ) : Grammar σ τ :=
  let (nodes, id) := Arena.place builder.nodes start
  let rules := (builder.rules.toList.filterMap Declaration.rule?).toArray
  { nodes, rules, nullable := Nullable.compute nodes rules, start := id }

/-- Every declared rule has a body. -/
def Defined (builder : Builder σ τ) : Prop :=
  ∀ declaration ∈ builder.rules.toList, declaration.body ≠ none

/-- Every rule that is mentioned, in a body or at the start, is declared. -/
def Closed (builder : Builder σ τ) (start : Expr σ τ) : Prop :=
  ∀ index, .rule index ∈ (builder.draft start).nodes.toList → index < builder.rules.size

/-- No node reaches itself through left corners. -/
def Acyclic (builder : Builder σ τ) (start : Expr σ τ) : Prop :=
  ∀ id, ¬ Relation.TransGen (builder.draft start).LeftCorner id id

/-- A builder that hands out a grammar. -/
structure WellFormed (builder : Builder σ τ) (start : Expr σ τ) : Prop where
  /-- Every declared rule has a body. -/
  defined : builder.Defined
  /-- Every rule that is mentioned is declared. -/
  closed : builder.Closed start
  /-- The left corners have no cycle. -/
  acyclic : builder.Acyclic start

/-! ## Bodies -/

/-- Declarations that have bodies are the declarations of their rules. -/
theorem map_declaration_filterMap_rule? {declarations : List Declaration}
    (h : ∀ declaration ∈ declarations, declaration.body ≠ none) :
    (declarations.filterMap Declaration.rule?).map Rule.declaration = declarations := by
  induction declarations with
  | nil => rfl
  | cons declaration declarations ih =>
      have hrest := ih fun other hother => h other (List.mem_cons_of_mem _ hother)
      obtain ⟨name, body⟩ := declaration
      cases body with
      | none => exact absurd rfl (h _ List.mem_cons_self)
      | some body => exact congrArg (List.cons _) hrest

theorem mapM_close {declarations : List Declaration}
    (h : ∀ declaration ∈ declarations, declaration.body ≠ none) :
    declarations.mapM Declaration.close = .ok (declarations.filterMap Declaration.rule?) := by
  conv_lhs => rw [← map_declaration_filterMap_rule? h, List.mapM_map]
  exact List.mapM_pure.trans (congrArg Except.ok (List.map_id' _))

/-- The first declaration without a body is the one that is reported. -/
theorem mapM_close_of_first {before after : List Declaration} {declaration : Declaration}
    (hbefore : ∀ other ∈ before, other.body ≠ none) (h : declaration.body = none) :
    (before ++ declaration :: after).mapM Declaration.close =
      .error (.undefinedRule declaration.name) := by
  rw [List.mapM_append, mapM_close hbefore, List.mapM_cons, Declaration.close, h]
  rfl

theorem size_draft_rules {builder : Builder σ τ} (h : builder.Defined) (start : Expr σ τ) :
    (builder.draft start).rules.size = builder.rules.size := by
  have hlength := congrArg List.length (map_declaration_filterMap_rule? h)
  rwa [List.length_map] at hlength

/-- The rules of the draft are the declarations, if all of these have a body. -/
theorem getElem?_draft_rules {builder : Builder σ τ} (h : builder.Defined) (start : Expr σ τ)
    {index : RuleId} {name : String} {body : NodeId} :
    (builder.draft start).rules[index]? = some ⟨name, body⟩ ↔
      builder.rules[index]? = some ⟨name, some body⟩ := by
  rw [← @Array.getElem?_toList _ builder.rules, ← map_declaration_filterMap_rule? h,
    List.getElem?_map, Option.map_eq_some_iff, draft, List.getElem?_toArray]
  constructor
  · exact fun hrule => ⟨_, hrule, rfl⟩
  · rintro ⟨rule, hrule, heq⟩
    cases heq
    exact hrule

/-! ## Mentions -/

theorem dangling?_eq_none_iff {nodes : Arena σ τ} {rules : Array Rule} :
    dangling? nodes rules = none ↔ ∀ index, .rule index ∈ nodes.toList → index < rules.size := by
  rw [dangling?, List.findSome?_eq_none_iff]
  constructor
  · intro h index hmem
    have hnone := h _ hmem
    simpa using hnone
  · intro h node hmem
    cases node with
    | rule index => simpa using h index hmem
    | empty | oneOf | literal | guard | seq | alt | star | times | emit | fold | observe => rfl

/-- The first mention of an undeclared rule is the one that is reported. -/
theorem dangling?_of_first {nodes : Arena σ τ} {rules : Array Rule} {before after : List (Node σ τ)}
    {index : RuleId} (hnodes : nodes.toList = before ++ .rule index :: after)
    (hbefore : ∀ other, .rule other ∈ before → other < rules.size) (h : rules.size ≤ index) :
    dangling? nodes rules = some index := by
  have hnone : dangling? before.toArray rules = none := dangling?_eq_none_iff.mpr hbefore
  rw [dangling?, List.toList_toArray] at hnone
  rw [dangling?, hnodes, List.findSome?_append, hnone]
  simp [Nat.not_lt.mpr h]

/-! ## The outcomes of building -/

variable {builder : Builder σ τ} {start : Expr σ τ}

theorem build_of_defined (h : builder.Defined) :
    builder.build start =
      match dangling? (builder.draft start).nodes (builder.draft start).rules with
      | some index => .error (.undefinedRule (placeholderName index))
      | none => (builder.draft start).rejectLeftRecursion.map fun _ => builder.draft start := by
  cases hd : dangling? (builder.draft start).nodes (builder.draft start).rules with
  | some index =>
      simp only [draft] at hd
      simp only [build, mapM_close h, bind, Except.bind, hd]
      rfl
  | none =>
      cases hr : (builder.draft start).rejectLeftRecursion with
      | error fault =>
          simp only [draft] at hd hr
          simp only [build, mapM_close h, bind, Except.bind, hd, hr]
          rfl
      | ok =>
          simp only [draft] at hd hr
          simp only [build, mapM_close h, bind, Except.bind, pure, Except.pure, hd, hr]
          rfl

theorem build_of_undefined {before after : List Declaration} {declaration : Declaration}
    (hrules : builder.rules.toList = before ++ declaration :: after)
    (hbefore : ∀ other ∈ before, other.body ≠ none) (h : declaration.body = none) :
    builder.build start = .error (.undefinedRule declaration.name) := by
  unfold build
  rw [hrules, mapM_close_of_first hbefore h]
  rfl

theorem build_of_dangling (hdefined : builder.Defined) {before after : List (Node σ τ)}
    {index : RuleId} (hnodes : (builder.draft start).nodes.toList = before ++ .rule index :: after)
    (hbefore : ∀ other, .rule other ∈ before → other < builder.rules.size)
    (h : builder.rules.size ≤ index) :
    builder.build start = .error (.undefinedRule (placeholderName index)) := by
  rw [← size_draft_rules hdefined start] at hbefore h
  rw [build_of_defined hdefined, dangling?_of_first hnodes hbefore h]

theorem Reached.draft_ordered (h : builder.Reached) (start : Expr σ τ) :
    Arena.Ordered (builder.draft start).nodes :=
  h.ordered.place start

theorem closed_iff_dangling? (h : builder.Defined) :
    builder.Closed start ↔
      dangling? (builder.draft start).nodes (builder.draft start).rules = none := by
  rw [dangling?_eq_none_iff, size_draft_rules h start, Closed]

theorem acyclic_iff_accepted :
    builder.Acyclic start ↔ (builder.draft start).rejectLeftRecursion = .ok () :=
  Grammar.rejectLeftRecursion_eq_ok_iff.symm

/-- Only a builder whose declarations all have a body hands out a grammar. -/
theorem defined_of_build {g : Grammar σ τ} (h : builder.build start = .ok g) : builder.Defined := by
  by_contra hnot
  obtain ⟨declaration, hmem, hbody⟩ :
      ∃ declaration ∈ builder.rules.toList, declaration.body.isNone = true := by
    simpa [Defined] using hnot
  obtain ⟨first, hfirst⟩ := Option.isSome_iff_exists.mp
    (List.find?_isSome (p := fun other => other.body.isNone).mpr ⟨declaration, hmem, hbody⟩)
  obtain ⟨hnone, before, after, hrules, hbefore⟩ := List.find?_eq_some_iff_append.mp hfirst
  have herror : builder.build start = .error (.undefinedRule first.name) := by
    refine build_of_undefined hrules (fun other hother => ?_) (Option.isNone_iff_eq_none.mp hnone)
    simpa [Option.isSome_iff_ne_none] using hbefore other hother
  cases herror.symm.trans h

/-- A builder hands out its draft, just if that is well formed. -/
theorem build_eq_ok_iff {g : Grammar σ τ} :
    builder.build start = .ok g ↔ builder.WellFormed start ∧ g = builder.draft start := by
  constructor
  · intro h
    have hdefined := defined_of_build h
    rw [build_of_defined hdefined] at h
    split at h
    · cases h
    next hnone =>
      cases hr : (builder.draft start).rejectLeftRecursion with
      | error fault =>
          rw [hr] at h
          cases h
      | ok =>
          rw [hr] at h
          cases h
          exact ⟨⟨hdefined, (closed_iff_dangling? hdefined).mpr hnone,
            acyclic_iff_accepted.mpr hr⟩, rfl⟩
  · rintro ⟨⟨hdefined, hclosed, hacyclic⟩, rfl⟩
    rw [build_of_defined hdefined, (closed_iff_dangling? hdefined).mp hclosed,
      acyclic_iff_accepted.mp hacyclic]
    rfl

/-- Where only a cycle is wrong, the blame is for a cycle, and names a rule whose body reaches
itself. -/
theorem Reached.build_of_cycle (h : builder.Reached) (hdefined : builder.Defined)
    (hclosed : builder.Closed start) (hcycle : ¬ builder.Acyclic start) :
    ∃ path id name,
      builder.build start = .error (LeftRecursion.blame (builder.draft start) path id) ∧
      (LeftRecursion.cycle path id).findSome? (LeftRecursion.ruleName? (builder.draft start)) =
        some name ∧
      ∃ (index : RuleId) (body : NodeId), builder.rules[index]? = some ⟨name, some body⟩ ∧
        Relation.TransGen (builder.draft start).LeftCorner body body := by
  cases hr : (builder.draft start).rejectLeftRecursion with
  | ok => exact absurd (acyclic_iff_accepted.mpr hr) hcycle
  | error fault =>
      obtain ⟨path, id, hloops, hfault⟩ := Grammar.exists_loops_of_reject hr
      have hmentions : ∀ (id : NodeId) (index : RuleId),
          (builder.draft start).nodes[id]? = some (.rule index) →
            index < (builder.draft start).rules.size := by
        intro id index hn
        rw [size_draft_rules hdefined]
        exact hclosed index (Array.mem_toList_iff.mpr (Array.mem_of_getElem? hn))
      obtain ⟨name, hname, index, body, hrule, hreach⟩ :=
        hloops.exists_name (h.draft_ordered start) hmentions
      refine ⟨path, id, name, ?_, hname, index, body,
        (getElem?_draft_rules hdefined start).mp hrule, hreach⟩
      rw [build_of_defined hdefined, (closed_iff_dangling? hdefined).mp hclosed, hr, hfault]
      rfl

/-- A builder hands out a grammar just if every declared rule has a body, every rule that is
mentioned is declared, and the left corners have no cycle.  Otherwise it reports the first
declaration without a body; or else the first mention, in the order of the arena, of an
undeclared rule; or else a rule whose body reaches itself, by the name it was declared
under. -/
theorem Reached.build_accepts_or_blames (h : builder.Reached) (start : Expr σ τ) :
    ((∃ g, builder.build start = .ok g) ↔ builder.WellFormed start) ∧
    (∀ before declaration after, builder.rules.toList = before ++ declaration :: after →
      (∀ other ∈ before, other.body ≠ none) → declaration.body = none →
        builder.build start = .error (.undefinedRule declaration.name)) ∧
    (builder.Defined → ∀ before index after,
      (builder.draft start).nodes.toList = before ++ .rule index :: after →
      (∀ other, .rule other ∈ before → other < builder.rules.size) →
      builder.rules.size ≤ index →
        builder.build start = .error (.undefinedRule s!"#{index}")) ∧
    (builder.Defined → builder.Closed start → ¬ builder.Acyclic start →
      ∃ path id name,
        builder.build start = .error (LeftRecursion.blame (builder.draft start) path id) ∧
        (LeftRecursion.cycle path id).findSome? (LeftRecursion.ruleName? (builder.draft start)) =
          some name ∧
        builder.build start = .error (.leftRecursion name) ∧
        ∃ (index : RuleId) (body : NodeId), builder.rules[index]? = some ⟨name, some body⟩ ∧
          Relation.TransGen (builder.draft start).LeftCorner body body) := by
  refine ⟨⟨?_, fun hwell => ⟨_, build_eq_ok_iff.mpr ⟨hwell, rfl⟩⟩⟩, ?_, ?_, ?_⟩
  · intro ⟨g, hok⟩
    exact (build_eq_ok_iff.mp hok).1
  · intro before declaration after hrules hbefore hnone
    exact build_of_undefined hrules hbefore hnone
  · intro hdefined before index after hnodes hbefore hindex
    exact build_of_dangling hdefined hnodes hbefore hindex
  · intro hdefined hclosed hcycle
    obtain ⟨path, id, name, herror, hname, hrule⟩ := h.build_of_cycle hdefined hclosed hcycle
    refine ⟨path, id, name, herror, hname, ?_, hrule⟩
    rw [herror, LeftRecursion.blame, hname]
    rfl

/-- A builder that passes a test once a rule is defined has been reached. -/
theorem Reached.exists_define {test : Builder σ τ → Bool} {rule : RuleId} {body : Expr σ τ}
    (h : builder.Reached) (hok : (builder.define rule body).toOption.any test = true) :
    ∃ builder' : Builder σ τ, builder'.Reached ∧ test builder' = true := by
  cases hd : builder.define rule body with
  | error fault =>
      rw [hd] at hok
      cases hok
  | ok builder' =>
      rw [hd] at hok
      exact ⟨builder', .define h hd, hok⟩

/-- Two rules that mention each other behind what can be empty are refused. -/
theorem Reached.build_accepts_or_blames_circle :
    ∃ builder : Builder Char Nat, builder.Reached ∧ ¬ builder.WellFormed (.rule 0) := by
  have hnew : (Builder.new : Builder Char Nat).Reached := .new
  have hdeclared := (hnew.declare "a").declare "b"
  have hrun : (((Builder.new.declare "a").1.declare "b").1.define 0 (.rule 1)).toOption.any
      (fun builder => (builder.define 1 (.seq [.star (.oneOf (.of ['x'])), .rule 0])).toOption.any
        fun builder : Builder Char Nat => (builder.build (.rule 0)).toOption.isNone) = true := by
    decide +kernel
  obtain ⟨first, hfirst, hrun⟩ := hdeclared.exists_define hrun
  obtain ⟨second, hsecond, hrun⟩ := hfirst.exists_define hrun
  refine ⟨second, hsecond, fun hwell => ?_⟩
  obtain ⟨g, hok⟩ := (hsecond.build_accepts_or_blames (.rule 0)).1.mpr hwell
  rw [hok] at hrun
  cases hrun

end Builder

end Ramify
