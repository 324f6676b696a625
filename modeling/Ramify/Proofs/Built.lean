import Ramify.Grammar.Builder
import Ramify.Proofs.LeftCorner
import Ramify.Proofs.Nullable

/-!
# Built grammars

The grammars that a parse runs are those handed out by a `Builder` that was begun
empty and given rules (`Grammar.IsBuilt`).  Here is what building promises to a
parse: left corners are well-founded, the marks of empty matches are closed, and no
run of symbols is empty.
-/

namespace Ramify

variable {σ τ : Type}

namespace Builder

/-- The builders that steps make of an empty one.  A step that fails leaves the
builder as it was. -/
inductive Reached : Builder σ τ → Prop where
  /-- The builder that holds nothing. -/
  | new : Reached .new
  /-- A rule is declared. -/
  | declare {builder : Builder σ τ} (name : String) :
      Reached builder → Reached (builder.declare name).1
  /-- A rule is given its body. -/
  | define {builder builder' : Builder σ τ} {rule : RuleId} {body : Expr σ τ} :
      Reached builder → builder.define rule body = .ok builder' → Reached builder'

/-- Declaring and defining a rule at once is two steps. -/
theorem Reached.addRule {builder builder' : Builder σ τ} {name : String} {body : Expr σ τ}
    {rule : RuleId} (h : Reached builder) (hadd : builder.addRule name body = .ok (builder', rule)) :
    Reached builder' := by
  simp only [Builder.addRule] at hadd
  cases hd : (builder.declare name).1.define (builder.declare name).2 body with
  | error fault => rw [hd] at hadd; cases hadd
  | ok next =>
      rw [hd] at hadd
      cases hadd
      exact .define (.declare name h) hd

end Builder

/-- A grammar that a builder hands out. -/
def Grammar.IsBuilt (g : Grammar σ τ) : Prop :=
  ∃ (builder : Builder σ τ) (start : Expr σ τ), builder.Reached ∧ builder.build start = .ok g

namespace Builder

/-- A builder whose grammar passes a test has handed out a built grammar. -/
theorem Reached.exists_build {builder : Builder σ τ} (h : builder.Reached) {start : Expr σ τ}
    {test : Grammar σ τ → Bool} (hok : (builder.build start).toOption.any test = true) :
    ∃ g, g.IsBuilt ∧ test g = true := by
  cases hb : builder.build start with
  | error fault =>
      rw [hb] at hok
      cases hok
  | ok g =>
      rw [hb] at hok
      exact ⟨g, ⟨builder, start, h, hb⟩, hok⟩

/-- What `build` needs to succeed. -/
theorem build_of_accepted {builder : Builder σ τ} {start : Expr σ τ} {nodes : Arena σ τ}
    {id : NodeId} {rules : List Rule} (hplace : Arena.place builder.nodes start = (nodes, id))
    (hrules : builder.rules.toList.mapM Declaration.close = .ok rules)
    (hdangling : dangling? nodes rules.toArray = none)
    (haccept : Grammar.rejectLeftRecursion
      ⟨nodes, rules.toArray, Nullable.compute nodes rules.toArray, id⟩ = .ok ()) :
    builder.build start = .ok ⟨nodes, rules.toArray, Nullable.compute nodes rules.toArray, id⟩ := by
  simp only [Builder.build, hplace, hrules, bind, Except.bind, hdangling, haccept, pure,
    Except.pure]

/-- What `build` does when it succeeds. -/
theorem build_eq_ok {builder : Builder σ τ} {start : Expr σ τ} {g : Grammar σ τ}
    (h : builder.build start = .ok g) :
    g.nodes = (Arena.place builder.nodes start).1 ∧
      g.nullable = Nullable.compute g.nodes g.rules ∧ g.rejectLeftRecursion = .ok () := by
  simp only [Builder.build] at h
  cases hm : builder.rules.toList.mapM Declaration.close with
  | error fault => rw [hm] at h; cases h
  | ok rules =>
      rw [hm] at h
      simp only [bind, Except.bind, pure, Except.pure] at h
      cases hd : dangling? (Arena.place builder.nodes start).1 rules.toArray with
      | some index => rw [hd] at h; cases h
      | none =>
          rw [hd] at h
          simp only at h
          split at h
          · cases h
          next hr =>
            cases h
            exact ⟨rfl, rfl, hr⟩

end Builder

/-! ## Runs of symbols -/

namespace Arena

/-- No node is an empty run of symbols. -/
def Plain (arena : Arena σ τ) : Prop :=
  ∀ node ∈ arena, node ≠ .literal []

theorem Plain.add {arena : Arena σ τ} {node : Node σ τ} (h : Plain arena)
    (hnode : node ≠ .literal []) : Plain (add arena node).1 := by
  intro other hother
  rcases Array.mem_push.mp hother with hother | rfl
  · exact h other hother
  · exact hnode

mutual

/-- Flattening an expression adds no empty run. -/
theorem Plain.place {arena : Arena σ τ} (h : Plain arena) :
    ∀ (e : Expr σ τ), Plain (place arena e).1
  | .empty | .oneOf _ | .guard _ | .rule _ | .observe _ => h.add (by intro h; cases h)
  | .literal run => by
      refine h.add ?_
      cases run with
      | nil => intro h; cases h
      | cons symbol run => intro h; cases h
  | .seq parts => (h.placeAll parts).add (by intro h; cases h)
  | .alt choices => (h.placeAll choices).add (by intro h; cases h)
  | .star body => (h.place body).add (by intro h; cases h)
  | .times body _ => (h.place body).add (by intro h; cases h)
  | .emit body _ => (h.place body).add (by intro h; cases h)
  | .fold body _ => (h.place body).add (by intro h; cases h)

/-- Flattening expressions adds no empty run. -/
theorem Plain.placeAll {arena : Arena σ τ} (h : Plain arena) :
    ∀ (es : List (Expr σ τ)), Plain (placeAll arena es).1
  | [] => h
  | e :: es => (h.place e).placeAll es

end

end Arena

theorem Builder.Reached.plain {builder : Builder σ τ} (h : builder.Reached) :
    Arena.Plain builder.nodes := by
  induction h with
  | new => intro node hnode; cases Array.not_mem_empty node hnode
  | declare name _ ih => exact ih
  | @define builder builder' rule body _ hd ih =>
      unfold Builder.define at hd
      split at hd
      · cases hd
      · cases hd
      · cases hd
        exact ih.place body

/-! ## What building promises -/

/-- A node whose equation holds under the marks that are computed can match the empty text. -/
theorem Grammar.isNullable_of_holds {g : Grammar σ τ}
    (hmarks : g.nullable = Nullable.compute g.nodes g.rules) {id : NodeId} {node : Node σ τ}
    (hnode : g.nodes[id]? = some node) (hholds : Nullable.holds g.rules g.nullable node = true) :
    g.isNullable id = true := by
  rw [hmarks] at hholds
  rw [Grammar.isNullable, hmarks]
  exact Nullable.holds_compute hnode hholds

/-- The equation of a node that can match the empty text holds under the marks. -/
theorem Grammar.holds_of_isNullable {g : Grammar σ τ}
    (hmarks : g.nullable = Nullable.compute g.nodes g.rules) {id : NodeId}
    (hid : g.isNullable id = true) {node : Node σ τ} (hnode : g.nodes[id]? = some node) :
    Nullable.holds g.rules g.nullable node = true := by
  rw [Grammar.isNullable, hmarks] at hid
  rw [hmarks]
  exact Nullable.holds_of_compute hid hnode

namespace Grammar.IsBuilt

variable {g : Grammar σ τ}

theorem wellFounded_leftCorner (h : g.IsBuilt) : WellFounded g.LeftCorner := by
  obtain ⟨builder, start, -, hb⟩ := h
  exact Grammar.wellFounded_leftCorner (Builder.build_eq_ok hb).2.2

/-- A node whose equation holds under the marks can match the empty text. -/
theorem isNullable (h : g.IsBuilt) {id : NodeId} {node : Node σ τ}
    (hnode : g.nodes[id]? = some node) (hholds : Nullable.holds g.rules g.nullable node = true) :
    g.isNullable id = true := by
  obtain ⟨builder, start, -, hb⟩ := h
  obtain ⟨-, hmarks, -⟩ := Builder.build_eq_ok hb
  exact isNullable_of_holds hmarks hnode hholds

theorem literal_ne_nil (h : g.IsBuilt) {id : NodeId} {run : List σ}
    (hnode : g.nodes[id]? = some (.literal run)) : run ≠ [] := by
  obtain ⟨builder, start, hreached, hb⟩ := h
  rintro rfl
  have hplain : Arena.Plain g.nodes := by
    rw [(Builder.build_eq_ok hb).1]
    exact hreached.plain.place start
  exact hplain _ (Array.mem_of_getElem? hnode) rfl

end Grammar.IsBuilt

end Ramify
