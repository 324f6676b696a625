import Ramify.Proofs.Ownership

/-!
# Reading an arena back

Following parts, and not mentions of rules, an expression is read back from the place of its root
(`Arena.expr?`).  An empty run of symbols is read as the empty text, which is what flattening
makes of it (`Expr.plain`).

A builder is asked to declare rules and to define them, in any order, and not everything that it
is asked succeeds.  The definitions that do succeed give a body to every declared rule, once
each, if a grammar is made in the end (`Record.Kept`); and these bodies are what is read back from
the grammar.
-/

namespace Ramify

variable {σ τ : Type}

/-! ## Empty runs -/

namespace Expr

mutual

/-- The expression with the empty text for every empty run of symbols. -/
def plain : Expr σ τ → Expr σ τ
  | .empty => .empty
  | .oneOf set => .oneOf set
  | .literal run => if run.isEmpty then .empty else .literal run
  | .guard set => .guard set
  | .seq parts => .seq (plainAll parts)
  | .alt choices => .alt (plainAll choices)
  | .star body => .star (plain body)
  | .times body count => .times (plain body) count
  | .rule index => .rule index
  | .emit body yields => .emit (plain body) yields
  | .fold body merge => .fold (plain body) merge
  | .observe observer => .observe observer

/-- The expressions with the empty text for every empty run of symbols. -/
def plainAll : List (Expr σ τ) → List (Expr σ τ)
  | [] => []
  | e :: es => plain e :: plainAll es

end

end Expr

/-! ## Reading -/

namespace Arena

/-- The expression at a place, if it is at most `depth` nodes deep. -/
def read (arena : Arena σ τ) : (depth : Nat) → NodeId → Option (Expr σ τ)
  | 0, _ => none
  | depth + 1, id =>
    match arena[id]? with
    | none => none
    | some .empty => some .empty
    | some (.oneOf set) => some (.oneOf set)
    | some (.literal run) => some (.literal run)
    | some (.guard set) => some (.guard set)
    | some (.seq parts) => (parts.mapM (read arena depth)).map .seq
    | some (.alt choices) => (choices.mapM (read arena depth)).map .alt
    | some (.star body) => (read arena depth body).map .star
    | some (.times body count) => (read arena depth body).map (.times · count)
    | some (.rule index) => some (.rule index)
    | some (.emit body yields) => (read arena depth body).map (.emit · yields)
    | some (.fold body merge) => (read arena depth body).map (.fold · merge)
    | some (.observe observer) => some (.observe observer)

/-- The expression at a place.  As parts stand before the node they belong to, it is no deeper
than there are places up to its root. -/
def expr? (arena : Arena σ τ) (id : NodeId) : Option (Expr σ τ) :=
  arena.read (id + 1) id

mutual

/-- What stands at a place is read from it. -/
theorem Stands.read_eq {arena : Arena σ τ} (ho : Ordered arena) :
    ∀ {depth : Nat} {id : NodeId} {e : Expr σ τ}, Stands arena id e → id < depth →
      arena.read depth id = some e.plain
  | 0, _, _, _, hlt => absurd hlt (Nat.not_lt_zero _)
  | _ + 1, _, .empty, .empty hn, _ => by rw [read, hn]; rfl
  | _ + 1, _, .oneOf _, .oneOf hn, _ => by rw [read, hn]; rfl
  | _ + 1, _, .literal run, .literal hn, _ => by
      rw [read, hn]
      cases run with
      | nil => rfl
      | cons => rfl
  | _ + 1, _, .guard _, .guard hn, _ => by rw [read, hn]; rfl
  | _ + 1, _, .seq _, .seq hn h, hlt => by
      have hparts := Stands.readAll_eq ho h fun part hpart =>
        Nat.lt_of_lt_of_le (ho hn part hpart) (Nat.le_of_lt_succ hlt)
      simp only [read, hn, hparts, Expr.plain, Option.map_some]
  | _ + 1, _, .alt _, .alt hn h, hlt => by
      have hways := Stands.readAll_eq ho h fun way hway =>
        Nat.lt_of_lt_of_le (ho hn way hway) (Nat.le_of_lt_succ hlt)
      simp only [read, hn, hways, Expr.plain, Option.map_some]
  | _ + 1, _, .star _, .star hn h, hlt
  | _ + 1, _, .times _ _, .times hn h, hlt
  | _ + 1, _, .emit _ _, .emit hn h, hlt
  | _ + 1, _, .fold _ _, .fold hn h, hlt => by
      have hbody := h.read_eq ho
        (Nat.lt_of_lt_of_le (ho hn _ List.mem_cons_self) (Nat.le_of_lt_succ hlt))
      simp only [read, hn, hbody, Expr.plain, Option.map_some]
  | _ + 1, _, .rule _, .rule hn, _ => by rw [read, hn]; rfl
  | _ + 1, _, .observe _, .observe hn, _ => by rw [read, hn]; rfl

theorem Stands.readAll_eq {arena : Arena σ τ} (ho : Ordered arena) {depth : Nat} :
    ∀ {ids : List NodeId} {es : List (Expr σ τ)}, List.Forall₂ (Stands arena) ids es →
      (∀ id ∈ ids, id < depth) → ids.mapM (arena.read depth) = some (Expr.plainAll es)
  | _, [], .nil, _ => rfl
  | _, _ :: _, .cons h hrest, hlt => by
      obtain ⟨hfirst, hothers⟩ := List.forall_mem_cons.mp hlt
      rw [List.mapM_cons, h.read_eq ho hfirst, Stands.readAll_eq ho hrest hothers]
      rfl

end

theorem Stands.expr?_eq {arena : Arena σ τ} (ho : Ordered arena) {id : NodeId} {e : Expr σ τ}
    (h : Stands arena id e) : arena.expr? id = some e.plain :=
  h.read_eq ho (Nat.lt_succ_self id)

end Arena

/-! ## What a builder is asked -/

namespace Builder

/-- What a builder can be asked to do. -/
inductive Command (σ τ : Type) where
  /-- To declare a rule. -/
  | declare (name : String)
  /-- To give a declared rule its body. -/
  | define (rule : RuleId) (body : Expr σ τ)
  /-- To declare a rule and define it. -/
  | addRule (name : String) (body : Expr σ τ)

/-- The name of the rule that a command declares, if it declares one. -/
def Command.name? : Command σ τ → Option String
  | .declare name | .addRule name _ => some name
  | .define _ _ => none

/-- A builder, and the definitions that it has been given with success, in their order. -/
structure Record (σ τ : Type) where
  /-- The builder. -/
  builder : Builder σ τ := .new
  /-- The rules that were defined, with their bodies. -/
  definitions : List (RuleId × Expr σ τ) := []

namespace Record

/-- What a command makes of a builder.  A definition that fails makes nothing of it. -/
def obey (r : Record σ τ) : Command σ τ → Record σ τ
  | .declare name => { r with builder := (r.builder.declare name).1 }
  | .define rule body =>
    match r.builder.define rule body with
    | .ok next => ⟨next, r.definitions ++ [(rule, body)]⟩
    | .error _ => r
  | .addRule name body =>
    match r.builder.addRule name body with
    | .ok (next, rule) => ⟨next, r.definitions ++ [(rule, body)]⟩
    | .error _ => { r with builder := (r.builder.declare name).1 }

/-- What commands make of an empty builder. -/
def of (commands : List (Command σ τ)) : Record σ τ :=
  commands.foldl obey {}

end Record

variable {builder : Builder σ τ}

/-! ## Definitions that fail -/

/-- A rule that has just been declared can be defined. -/
theorem define_declare (builder : Builder σ τ) (name : String) (body : Expr σ τ) :
    (builder.declare name).1.define (builder.declare name).2 body =
      .ok ⟨(Arena.place builder.nodes body).1, (builder.rules.push { name }).setIfInBounds
        builder.rules.size ⟨name, some (Arena.place builder.nodes body).2⟩⟩ := by
  simp [Builder.declare, Builder.define]

/-- To declare a rule and define it never fails. -/
theorem addRule_eq_ok (builder : Builder σ τ) (name : String) (body : Expr σ τ) :
    ∃ next, builder.addRule name body = .ok (next, builder.rules.size) ∧
      (builder.declare name).1.define builder.rules.size body = .ok next := by
  refine ⟨_, ?_, define_declare builder name body⟩
  have h := define_declare builder name body
  simp only [Builder.addRule, h]
  rfl

/-- What is wrong with a definition that fails. -/
theorem define_eq_error {rule : RuleId} {body : Expr σ τ} {fault : Fault}
    (h : builder.define rule body = .error fault) :
    (builder.rules[rule]? = none ∧ fault = .undefinedRule (placeholderName rule)) ∨
      ∃ name root, builder.rules[rule]? = some ⟨name, some root⟩ ∧
        fault = .redefinedRule name := by
  unfold Builder.define at h
  split at h
  next hnone =>
    cases h
    exact .inl ⟨hnone, rfl⟩
  next name root hrule =>
    cases h
    exact .inr ⟨name, root, hrule, rfl⟩
  · cases h

namespace Record

theorem obey_define_of_error {r : Record σ τ} {rule : RuleId} {body : Expr σ τ} {fault : Fault}
    (h : r.builder.define rule body = .error fault) : r.obey (.define rule body) = r := by
  simp only [obey, h]

theorem obey_define_of_ok {r : Record σ τ} {rule : RuleId} {body : Expr σ τ}
    {next : Builder σ τ} (h : r.builder.define rule body = .ok next) :
    r.obey (.define rule body) = ⟨next, r.definitions ++ [(rule, body)]⟩ := by
  simp only [obey, h]

/-- To declare a rule and define it is to do the one and then the other. -/
theorem obey_addRule (r : Record σ τ) (name : String) (body : Expr σ τ) :
    r.obey (.addRule name body) =
      (r.obey (.declare name)).obey (.define r.builder.rules.size body) := by
  obtain ⟨next, hadd, hdefine⟩ := r.builder.addRule_eq_ok name body
  have hlater : (r.obey (.declare name)).obey (.define r.builder.rules.size body) =
      ⟨next, r.definitions ++ [(r.builder.rules.size, body)]⟩ := obey_define_of_ok hdefine
  rw [hlater]
  simp only [obey, hadd]

/-! ## What a record holds -/

/-- The definitions of a record are the bodies of the rules that have one. -/
structure Kept (r : Record σ τ) (names : List String) : Prop where
  /-- The builder was made of an empty one. -/
  reached : r.builder.Reached
  /-- The rules have the names that were declared. -/
  names_eq : r.builder.rules.toList.map Declaration.name = names
  /-- No rule is defined twice. -/
  nodup : (r.definitions.map Prod.fst).Nodup
  /-- A body stands where its rule says. -/
  stands : ∀ {rule : RuleId} {body : Expr σ τ}, (rule, body) ∈ r.definitions →
    ∃ name root, r.builder.rules[rule]? = some ⟨name, some root⟩ ∧
      Arena.Stands r.builder.nodes root body
  /-- A rule that has a body was defined. -/
  defined : ∀ {rule : RuleId} {name : String} {root : NodeId},
    r.builder.rules[rule]? = some ⟨name, some root⟩ → rule ∈ r.definitions.map Prod.fst

variable {r : Record σ τ} {names : List String}

theorem Kept.new : (({} : Record σ τ)).Kept [] where
  reached := .new
  names_eq := rfl
  nodup := List.nodup_nil
  stands h := by cases h
  defined h := by simp [Builder.new] at h

theorem Kept.declare (h : r.Kept names) (name : String) :
    (r.obey (.declare name)).Kept (names ++ [name]) where
  reached := h.reached.declare name
  names_eq := by simp [obey, Builder.declare, h.names_eq]
  nodup := h.nodup
  stands {rule body} hmem := by
    obtain ⟨other, root, hrule, hstands⟩ := h.stands hmem
    refine ⟨other, root, ?_, hstands⟩
    have hlt := (Array.getElem?_eq_some_iff.mp hrule).1
    simpa [obey, Builder.declare, Array.getElem?_push, Nat.ne_of_lt hlt] using hrule
  defined {rule other root} hrule := by
    simp only [obey, Builder.declare, Array.getElem?_push] at hrule
    split at hrule
    · cases hrule
    · exact h.defined hrule

/-- A rule that was defined is none that has no body yet. -/
theorem Kept.ne_of_mem (h : r.Kept names) {rule other : RuleId} {name : String} {e : Expr σ τ}
    (hrule : r.builder.rules[rule]? = some ⟨name, none⟩) (hmem : (other, e) ∈ r.definitions) :
    rule ≠ other := by
  rintro rfl
  obtain ⟨_, _, hother, -⟩ := h.stands hmem
  cases hrule.symm.trans hother

/-- To give a rule its body keeps the names. -/
theorem map_name_setIfInBounds {rules : Array Declaration} {rule : RuleId} {name : String}
    (hrule : rules[rule]? = some ⟨name, none⟩) (root : Option NodeId) :
    (rules.setIfInBounds rule ⟨name, root⟩).toList.map Declaration.name =
      rules.toList.map Declaration.name := by
  obtain ⟨hlt, hget⟩ := Array.getElem?_eq_some_iff.mp hrule
  have hbound : rule < (rules.toList.map Declaration.name).length := by simpa using hlt
  have hname : (rules.toList.map Declaration.name)[rule] = name := by simp [hget]
  rw [Array.toList_setIfInBounds, List.map_set, ← hname, List.set_getElem_self]

theorem Kept.define (h : r.Kept names) (rule : RuleId) (body : Expr σ τ) :
    (r.obey (.define rule body)).Kept names := by
  cases hd : r.builder.define rule body with
  | error fault =>
      rw [obey_define_of_error hd]
      exact h
  | ok next =>
      rw [obey_define_of_ok hd]
      obtain ⟨name, hrule, rfl⟩ := define_eq_ok hd
      have hlt := (Array.getElem?_eq_some_iff.mp hrule).1
      refine ⟨.define h.reached hd, (map_name_setIfInBounds hrule _).trans h.names_eq, ?_, ?_, ?_⟩
      · simpa [List.nodup_append, h.nodup] using fun other e hmem => (h.ne_of_mem hrule hmem).symm
      · intro other e hmem
        rcases List.mem_append.mp hmem with hmem | hlast
        · obtain ⟨otherName, root, hother, hstands⟩ := h.stands hmem
          refine ⟨otherName, root, ?_, hstands.kept (Arena.keeps_place _ body)⟩
          rw [Array.getElem?_setIfInBounds_ne (h.ne_of_mem hrule hmem)]
          exact hother
        · cases List.mem_singleton.mp hlast
          refine ⟨name, _, ?_, Arena.stands_place body⟩
          rw [Array.getElem?_setIfInBounds_self_of_lt hlt]
      · intro other otherName root hother
        rw [List.map_append, List.mem_append]
        by_cases heq : rule = other
        · exact .inr (List.mem_singleton.mpr heq.symm)
        · rw [Array.getElem?_setIfInBounds_ne heq] at hother
          exact .inl (h.defined hother)

theorem Kept.obey (h : r.Kept names) (command : Command σ τ) :
    (r.obey command).Kept (names ++ command.name?.toList) := by
  cases command with
  | declare name => exact h.declare name
  | define rule body =>
      rw [Command.name?, Option.toList_none, List.append_nil]
      exact h.define rule body
  | addRule name body =>
      rw [obey_addRule]
      exact (h.declare name).define _ body

theorem Kept.foldl (h : r.Kept names) (commands : List (Command σ τ)) :
    (commands.foldl Record.obey r).Kept (names ++ commands.filterMap Command.name?) := by
  induction commands generalizing r names with
  | nil => simpa using h
  | cons command commands ih =>
      have hrest := ih (h.obey command)
      have hnames : (command :: commands).filterMap Command.name? =
          command.name?.toList ++ commands.filterMap Command.name? := by
        rw [List.filterMap_cons]
        cases command.name? with
        | none => rfl
        | some name => rfl
      rw [List.append_assoc, ← hnames] at hrest
      exact hrest

/-- Whatever a builder is asked, its record holds what it was given. -/
theorem kept_of (commands : List (Command σ τ)) :
    (of commands).Kept (commands.filterMap Command.name?) :=
  Kept.new.foldl commands

end Record

/-! ## What a grammar keeps -/

variable {start : Expr σ τ}

theorem map_name_filterMap_rule? {declarations : List Declaration}
    (h : ∀ declaration ∈ declarations, declaration.body ≠ none) :
    (declarations.filterMap Declaration.rule?).map Rule.name =
      declarations.map Declaration.name := by
  conv_rhs => rw [← map_declaration_filterMap_rule? h, List.map_map]
  rfl

/-- Every declared rule was defined once, if all have a body. -/
theorem Record.Kept.perm_range {r : Record σ τ} {names : List String} (h : r.Kept names)
    (hdefined : r.builder.Defined) :
    (r.definitions.map Prod.fst).Perm (List.range r.builder.rules.size) := by
  refine (List.perm_ext_iff_of_nodup h.nodup List.nodup_range).mpr fun rule => ?_
  rw [List.mem_range]
  constructor
  · intro hmem
    obtain ⟨⟨_, body⟩, hgiven, rfl⟩ := List.mem_map.mp hmem
    obtain ⟨name, root, hrule, -⟩ := h.stands hgiven
    exact (Array.getElem?_eq_some_iff.mp hrule).1
  · intro hlt
    cases hrule : r.builder.rules[rule] with
    | mk name body =>
        have hget : r.builder.rules[rule]? = some ⟨name, body⟩ :=
          Array.getElem?_eq_some_iff.mpr ⟨hlt, hrule⟩
        cases body with
        | none =>
            have hmem := Array.mem_toList_iff.mpr (Array.mem_of_getElem? hget)
            exact absurd rfl (hdefined _ hmem)
        | some root => exact h.defined hget

/-- Building a grammar loses nothing and shares nothing.  Let a builder be asked any commands, and
let a grammar be made of it in the end.

Then the rules of the grammar have the names that were declared, in that order.  Every rule was
defined with success once, and the body that it was given then is read back from its root; and
the start is read back from the start.  Every node stands after its parts; every place
belongs to the tree of one rule, or to that of the start, and to no other; and no place is a
part of two nodes, nor twice of one.

Whatever was asked before, a definition fails only of a rule that is not declared or has a body,
and then leaves the builder as it was; and to declare a rule and define it at once never fails. -/
theorem built_as_described (commands : List (Command σ τ)) (start : Expr σ τ) (g : Grammar σ τ)
    (h : (Record.of commands).builder.build start = .ok g) :
    (g.rules.toList.map Rule.name = commands.filterMap Command.name? ∧
      ((Record.of commands).definitions.map Prod.fst).Perm (List.range g.rules.size) ∧
      (∀ rule body, (rule, body) ∈ (Record.of commands).definitions →
        ∃ root, g.body? rule = some root ∧ g.nodes.expr? root = some body.plain) ∧
      g.nodes.expr? g.start = some start.plain) ∧
    ((∀ part id, g.PartOf part id → part < id) ∧
      (∀ id < g.nodes.size, ∃! tree, g.Belongs id tree) ∧
      (∀ (a b : NodeId) (node node' : Node σ τ) (i j : Nat) (part : NodeId),
        g.nodes[a]? = some node → g.nodes[b]? = some node' → node.parts[i]? = some part →
        node'.parts[j]? = some part → a = b ∧ i = j)) ∧
    ∀ before : List (Command σ τ),
      (∀ rule body fault, (Record.of before).builder.define rule body = .error fault →
        Record.of (before ++ [.define rule body]) = Record.of before ∧
        (((Record.of before).builder.rules[rule]? = none ∧
            fault = .undefinedRule (placeholderName rule)) ∨
          ∃ name root, (Record.of before).builder.rules[rule]? = some ⟨name, some root⟩ ∧
            fault = .redefinedRule name)) ∧
      ∀ name body, ∃ next, (Record.of before).builder.addRule name body =
        .ok (next, (Record.of before).builder.rules.size) := by
  have hkept := Record.kept_of commands
  have hg : g.IsBuilt := ⟨_, start, hkept.reached, h⟩
  obtain ⟨hwell, rfl⟩ := build_eq_ok_iff.mp h
  refine ⟨⟨?_, ?_, ?_, ?_⟩, ⟨fun _ _ => hg.lt_of_partOf, fun _ => hg.existsUnique_belongs, ?_⟩, ?_⟩
  · rw [← hkept.names_eq, ← map_name_filterMap_rule? hwell.defined, draft, List.toList_toArray]
  · rw [size_draft_rules hwell.defined]
    exact hkept.perm_range hwell.defined
  · intro rule body hmem
    obtain ⟨name, root, hrule, hstands⟩ := hkept.stands hmem
    have hdraft := (getElem?_draft_rules hwell.defined start).mpr hrule
    refine ⟨root, by rw [Grammar.body?, hdraft]; rfl, ?_⟩
    exact (hstands.kept (Arena.keeps_place _ start)).expr?_eq hg.ordered
  · exact (Arena.stands_place start).expr?_eq hg.ordered
  · intro a b node node' i j part ha hb hi hj
    obtain rfl : a = b := Arena.eq_of_mem_parts hg.nodup_links ha hb (List.mem_of_getElem? hi)
      (List.mem_of_getElem? hj)
    cases ha.symm.trans hb
    have hlt := (List.getElem?_eq_some_iff.mp hi).1
    exact ⟨rfl, (List.getElem?_inj hlt (Arena.nodup_parts hg.nodup_links ha)).mp (hi.trans hj.symm)⟩
  · intro before
    refine ⟨fun rule body fault hfault => ⟨?_, define_eq_error hfault⟩, fun name body => ?_⟩
    · rw [Record.of, List.foldl_append]
      exact Record.obey_define_of_error hfault
    · obtain ⟨next, hadd, -⟩ := (Record.of before).builder.addRule_eq_ok name body
      exact ⟨next, hadd⟩

/-- A rule that is declared and defined later, one that is added at once, and two definitions that
fail. -/
theorem built_as_described_list :
    let item : Expr Char Nat := .alt [.literal ['a'], .literal []]
    let list : Expr Char Nat := .seq [.rule 1, .emit (.oneOf (.of [','])) (.fixed 0), .rule 0]
    let commands : List (Command Char Nat) := [.declare "list", .addRule "item" item,
      .define 0 list, .define 0 item, .define 7 item]
    ∃ g, (Record.of commands).builder.build (.star (.rule 0)) = .ok g ∧
      g.rules.toList.map Rule.name = ["list", "item"] ∧
      ∃ root, g.body? 1 = some root ∧
        g.nodes.expr? root = some (.alt [.literal ['a'], .empty]) := by
  intro item list commands
  have hrun : ((Record.of commands).builder.build (.star (.rule 0))).toOption.isSome = true := by
    decide +kernel
  cases hg : (Record.of commands).builder.build (.star (.rule 0)) with
  | error fault =>
      rw [hg] at hrun
      cases hrun
  | ok g =>
      obtain ⟨⟨hnames, -, hbodies, -⟩, -, -⟩ := built_as_described commands _ g hg
      have hitem : (1, item) ∈ (Record.of commands).definitions := List.mem_cons_self
      exact ⟨g, rfl, hnames, hbodies 1 item hitem⟩

end Builder

end Ramify
