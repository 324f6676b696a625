import Ramify.Proofs.Derivation
import Ramify.Proofs.Resting
import Ramify.Proofs.Stack.Nesting
import Ramify.Proofs.Stack.Table

/-!
# The only branch of a program

A parse of a program holds one branch.  Under the loop of the innermost quotation that is
open, its stack has three frames for every quotation around it: the parts of the quotation,
the fold that counts the tokens before it, and the loop in which it stands (`Around`).

Between two words that branch either begins a round of the innermost loop or leaves it
(`Comes`).  A round can begin with every word but a closing bracket, and then in one way
only, as no two of the ways to match an instruction begin with the same word.  Leaving the
loop of a quotation takes a closing bracket, and leaving the loop of the program takes
none.  So the next word leaves one branch or none, and one just if the word can be read.
-/

namespace Ramify

variable {σ τ : Type}

/-! ## Emissions of one symbol -/

/-- The branch that has opened an emission. -/
def Branch.openEmission (b : Branch σ τ) (position : Nat) (id : NodeId) : Yield σ τ → Branch σ τ
  | .fixed _ => b.push id 0 position
  | .ofSymbols _ => (b.listen position).push id 0 position

theorem Branch.openEmission_frames (b : Branch σ τ) (position : Nat) (id : NodeId)
    (yields : Yield σ τ) :
    (b.openEmission position id yields).frames =
      ⟨id, 0, position, b.tokens.length⟩ :: b.frames := by
  cases yields with
  | fixed => rfl
  | ofSymbols => simp [Branch.openEmission, Branch.push]

variable [DecidableEq σ]

namespace Cursor

variable {here : Cursor σ τ} {b : Branch σ τ} {id : NodeId}

/-- A branch that enters the emission of a symbol comes to wait for the symbol. -/
theorem rests_emission (hg : here.grammar.IsBuilt) (hfit : b.Fits here.grammar here.position)
    {body : NodeId} {yields : Yield σ τ} {set : SymbolSet σ} (ht : b.target = some id)
    (hn : here.grammar.nodes[id]? = some (.emit body yields))
    (hbody : here.grammar.nodes[body]? = some (.oneOf set)) :
    here.rests b = [((b.arrived.openEmission here.position id yields).aim body).arrived.push body 0
      here.position] := by
  have hopen : here.move b =
      some (.go ((b.arrived.openEmission here.position id yields).aim body)) := by
    cases yields with
    | fixed => simp [Cursor.move_of_target ht, Cursor.descend, hn, Branch.openEmission]
    | ofSymbols => simp [Cursor.move_of_target ht, Cursor.descend, hn, Branch.openEmission]
  rw [rests_of_go hg hfit hopen, rests_oneOf hg (fits_of_go hg hfit hopen) rfl hbody]

end Cursor

namespace Stack.Program

/-! ## The shape of the stack -/

/-- The loop of a quotation, or of the program if there is nothing around it. -/
def loopOf : List (List Instruction) → NodeId
  | [] => 36
  | _ :: _ => 30

/-- The body of the loop. -/
def roundOf : List (List Instruction) → NodeId
  | [] => 35
  | _ :: _ => 29

theorem nodes_loopOf (outers : List (List Instruction)) :
    table.nodes[loopOf outers]? = some (.star (roundOf outers)) := by
  cases outers with
  | nil => rfl
  | cons => rfl

theorem nodes_roundOf (outers : List (List Instruction)) :
    table.nodes[roundOf outers]? = some (.rule 0) := by
  cases outers with
  | nil => rfl
  | cons => rfl

/-- The frames below the loop of a quotation that has others around it. -/
inductive Around (position : Nat) : List (List Instruction) → List Frame → Prop where
  /-- Nothing is below the loop of the program. -/
  | top : Around position [] []
  /-- Below the loop of a quotation are its parts, its fold and the loop around it. -/
  | inside {level : List Instruction} {outers : List (List Instruction)}
      {parts quotation loop : Frame} {frames : List Frame} (hframes : Around position outers frames)
      (hparts : parts.node = 32 ∧ parts.progress = 1)
      (hquotation : quotation.node = 33 ∧
        quotation.tokensBefore = (Nesting.mk level outers).spread.length)
      (hloop : loop.node = loopOf outers ∧ loop.progress < position) :
      Around position (level :: outers) (parts :: quotation :: loop :: frames)

theorem Around.later {position later : Nat} {outers : List (List Instruction)}
    {frames : List Frame} (h : Around position outers frames) (hle : position ≤ later) :
    Around later outers frames := by
  induction h with
  | top => exact .top
  | inside _ hparts hquotation hloop ih =>
      exact .inside ih hparts hquotation ⟨hloop.1, Nat.lt_of_lt_of_le hloop.2 hle⟩

/-- Where a branch stands that listens to nothing, and the tokens it has. -/
structure Quiet (target : Option NodeId) (frames : List Frame) (tokens : List Instruction)
    (b : Branch Word Instruction) : Prop where
  /-- The node that it enters next. -/
  target_eq : b.target = target
  /-- The open constructs. -/
  frames_eq : b.frames = frames
  /-- The tokens. -/
  tokens_eq : b.tokens = tokens
  /-- No emission listens. -/
  silent : b.listeners = 0

/-- The place between two words. -/
def between (position : Nat) (next : Option Word) : Cursor Word Instruction :=
  ⟨table, position, next⟩

/-- A branch begins a round of the innermost loop or leaves it. -/
def Comes (position : Nat) (n : Nesting) (b : Branch Word Instruction) : Prop :=
  ∀ next, ∃ (own out : Branch Word Instruction) (loop : Frame) (frames : List Frame),
    Around position n.outers frames ∧ loop.node = loopOf n.outers ∧ loop.progress = position ∧
    Quiet (some (roundOf n.outers)) (loop :: frames) n.spread own ∧ own.Fits table position ∧
    Quiet none frames n.spread out ∧ out.Fits table position ∧
    ((between position next).rests b).Perm
      ((between position next).rests own ++ (between position next).rests out)

variable {position : Nat} {n : Nesting} {b : Branch Word Instruction} {frames : List Frame}

/-- A branch that is about to enter the innermost loop comes to it. -/
theorem Comes.enter (hfit : b.Fits table position) (hframes : Around position n.outers frames)
    (hb : Quiet (some (loopOf n.outers)) frames n.spread b) : Comes position n b := by
  intro next
  obtain ⟨hfitown, hfitout, hrests⟩ := Cursor.rests_star (between position next) table_isBuilt hfit
    hb.target_eq (nodes_loopOf n.outers)
  have hown : Quiet (some (roundOf n.outers))
      (⟨loopOf n.outers, position, position, b.tokens.length⟩ :: frames) n.spread
      (((b.arrived.via (loopOf n.outers) 1 position).push (loopOf n.outers) position position).aim
        (roundOf n.outers)) :=
    ⟨rfl, congrArg _ hb.frames_eq, hb.tokens_eq, hb.silent⟩
  have hout : Quiet none frames n.spread (b.arrived.via (loopOf n.outers) 0 position) :=
    ⟨rfl, hb.frames_eq, hb.tokens_eq, hb.silent⟩
  exact ⟨_, _, _, frames, hframes, rfl, rfl, hown, hfitown, hout, hfitout, hrests⟩

/-- A branch that is back in the innermost loop after some words comes to it. -/
theorem Comes.resume {loop : Frame} (hfit : b.Fits table position)
    (hframes : Around position n.outers frames)
    (hloop : loop.node = loopOf n.outers ∧ loop.progress < position)
    (hb : Quiet none (loop :: frames) n.spread b) : Comes position n b := by
  intro next
  have hnode : table.nodes[loop.node]? = some (.star (roundOf n.outers)) := by
    rw [hloop.1, nodes_loopOf]
  obtain ⟨hfitown, hfitout, hrests⟩ := Cursor.rests_round (between position next) table_isBuilt hfit
    hb.target_eq hb.frames_eq hnode (Nat.ne_of_lt hloop.2)
  have hown : Quiet (some (roundOf n.outers)) ({ loop with progress := position } :: frames)
      n.spread (((b.reach position).via loop.node 1 position).aim (roundOf n.outers)) :=
    ⟨rfl, Branch.reach_frames hb.frames_eq position, hb.tokens_eq, hb.silent⟩
  have hout : Quiet none frames n.spread (b.pop.via loop.node 0 position) :=
    ⟨hb.target_eq, congrArg List.tail hb.frames_eq, hb.tokens_eq, hb.silent⟩
  exact ⟨_, _, { loop with progress := position }, frames, hframes, hloop.1, rfl, hown, hfitown,
    hout, hfitout, hrests⟩

/-- A branch that goes on to one that comes to the loop comes to it. -/
theorem Comes.of_go (hfit : b.Fits table position) (b' : Branch Word Instruction)
    (hm : ∀ next, (between position next).move b = some (.go b'))
    (h : b'.Fits table position → Comes position n b') : Comes position n b := by
  intro next
  have hg : (between position next).grammar.IsBuilt := table_isBuilt
  rw [Cursor.rests_of_go hg hfit (hm next)]
  exact h (Cursor.fits_of_go hg hfit (hm next)) next

/-! ## Rounds -/

/-- The ways that the branch at a loop takes into an instruction. -/
def wayInto (b : Branch Word Instruction) (position : Nat) (way : NodeId × Nat) :
    Branch Word Instruction :=
  ((b.arrived.aim 34).arrived.via 34 way.2 position).aim way.1

/-- A branch that begins a round comes to rest in the ways into an instruction. -/
theorem rests_round {outers : List (List Instruction)} (next : Option Word)
    (hfit : b.Fits table position) (ht : b.target = some (roundOf outers)) :
    (∀ way, way ∈ ways.zipIdx → (wayInto b position way).Fits table position) ∧
      ((between position next).rests b).Perm
        (ways.zipIdx.flatMap fun way => (between position next).rests (wayInto b position way)) := by
  have hg : (between position next).grammar.IsBuilt := table_isBuilt
  have hrule : (between position next).move b = some (.go (b.arrived.aim 34)) := by
    rw [Cursor.move_of_target ht, Cursor.descend]
    simp only [between, nodes_roundOf]
    rfl
  have hways : (between position next).move (b.arrived.aim 34) =
      some (.split (ways.zipIdx.map (wayInto b position))) := by
    rfl
  have hfit' := Cursor.fits_of_go hg hfit hrule
  refine ⟨fun way hway => ?_, ?_⟩
  · exact Cursor.fits_of_split hg hfit' hways (List.mem_map_of_mem hway)
  · rw [Cursor.rests_of_go hg hfit hrule]
    simpa [List.flatMap_map] using Cursor.rests_of_split hg hfit' hways

/-- The number of an operation. -/
def indexOf (o : Op) : Nat := Op.all.idxOf o

theorem nodes_operation (o : Op) :
    table.nodes[2 * indexOf o + 1]? = some (.emit (2 * indexOf o) (.fixed (.op o))) ∧
      table.nodes[2 * indexOf o]? = some (.oneOf (.of [.op o])) := by
  cases o <;> exact ⟨rfl, rfl⟩

theorem zipIdx_ways : ways.zipIdx =
    Op.all.map (fun o => (2 * indexOf o + 1, indexOf o)) ++ [(27, 13), (33, 14)] :=
  rfl

/-- The next move of a branch closes an instruction. -/
def Adds (position : Nat) (b : Branch Word Instruction) (instruction : Instruction)
    (x : Branch Word Instruction) : Prop :=
  ∃ x', (∀ next, (between (position + 1) next).move x = some (.go x')) ∧
    Quiet none b.frames (b.tokens ++ [instruction]) x'

/-- A branch has opened a quotation. -/
def Opens (position : Nat) (b x : Branch Word Instruction) : Prop :=
  Quiet none (⟨32, 0, position, b.tokens.length⟩ :: ⟨33, 0, position, b.tokens.length⟩ :: b.frames)
    b.tokens x

variable (next : Option Word)

/-- The branch that has taken the only word of an emission. -/
def heardIn (b : Branch Word Instruction) (position : Nat) (id body : NodeId)
    (yields : Yield Word Instruction) (word : Word) : Branch Word Instruction :=
  ((b.openEmission position id yields).aim body).arrived.hear word

/-- The emission of one word adds its instruction. -/
theorem adds_heardIn {id body : NodeId} {yields : Yield Word Instruction} {word : Word}
    (hn : table.nodes[id]? = some (.emit body yields)) (hsilent : b.listeners = 0) :
    Adds position b (yields.token [word]) (heardIn b position id body yields word) := by
  have hf : (heardIn b position id body yields word).frames =
      ⟨id, 0, position, b.tokens.length⟩ :: b.frames := by
    rw [heardIn, Branch.hear_frames]
    exact Branch.openEmission_frames b position id yields
  have ht : (heardIn b position id body yields word).target = none := by
    rw [heardIn, Branch.hear_target]
    rfl
  cases yields with
  | fixed token =>
      refine ⟨(heardIn b position id body (.fixed token) word).pop.emit token, fun next => ?_, ?_⟩
      · have hn' : (between (position + 1) next).grammar.nodes[id]? =
            some (.emit body (.fixed token)) := hn
        rw [Cursor.move_of_frame ht hf hn' rfl, Cursor.resume]
        simp only [hn']
      · refine ⟨ht, congrArg List.tail hf, ?_, ?_⟩
        · simp [heardIn, Branch.openEmission, Branch.emit, Branch.pop, Branch.arrived, Branch.aim,
            Branch.push, Yield.token]
        · simp [heardIn, Branch.openEmission, Branch.emit, Branch.pop, Branch.arrived, Branch.aim,
            Branch.push, hsilent]
  | ofSymbols make =>
      refine ⟨(heardIn b position id body (.ofSymbols make) word).pop.unlisten.emit
        (make ((heardIn b position id body (.ofSymbols make) word).heardSince position)),
        fun next => ?_, ?_⟩
      · have hn' : (between (position + 1) next).grammar.nodes[id]? =
            some (.emit body (.ofSymbols make)) := hn
        rw [Cursor.move_of_frame ht hf hn' rfl, Cursor.resume]
        simp only [hn']
      · refine ⟨?_, ?_, ?_, ?_⟩
        · exact (Branch.unlisten_target _).trans ht
        · exact (Branch.unlisten_frames _).trans (congrArg List.tail hf)
        · simp [heardIn, Branch.openEmission, Branch.emit, Branch.pop, Branch.arrived, Branch.aim,
            Branch.push, Branch.listen, Branch.hear, Branch.heardSince, Yield.token, hsilent]
        · simp [heardIn, Branch.openEmission, Branch.emit, Branch.pop, Branch.arrived, Branch.aim,
            Branch.push, hsilent]

/-- A branch that waits at a set takes a word of it. -/
theorem consume_waiting {id : NodeId} {set : SymbolSet Word}
    (hset : table.nodes[id]? = some (.oneOf set)) (x : Branch Word Instruction) (word : Word) :
    [x.push id 0 position].filterMap (table.consume word) =
      if set.contains word then [x.hear word] else [] := by
  rw [List.filterMap_cons, List.filterMap_nil, Grammar.consume_oneOf hset]
  cases set.contains word with
  | true => rfl
  | false => rfl

theorem after_emission {way : NodeId × Nat} (body : NodeId) {yields : Yield Word Instruction}
    {set : SymbolSet Word} (hfit : (wayInto b position way).Fits table position)
    (hsilent : b.listeners = 0) (hn : table.nodes[way.1]? = some (.emit body yields))
    (hbody : table.nodes[body]? = some (.oneOf set)) (word : Word) :
    ∃ x, Adds position b (yields.token [word]) x ∧
      ((between position next).rests (wayInto b position way)).filterMap (table.consume word) =
        if set.contains word then [x] else [] := by
  have hg : (between position next).grammar.IsBuilt := table_isBuilt
  refine ⟨_, adds_heardIn (b := (wayInto b position way).arrived) hn hsilent, ?_⟩
  rw [Cursor.rests_emission hg hfit rfl hn hbody]
  exact consume_waiting hbody _ word

theorem Quiet.hear {target : Option NodeId} {tokens : List Instruction}
    (h : Quiet target frames tokens b) (word : Word) :
    Quiet target frames tokens (b.hear word) := by
  rw [Branch.hear, if_pos h.silent]
  exact h

theorem rests_quotation (hfit : (wayInto b position (33, 14)).Fits table position)
    (hsilent : b.listeners = 0) :
    ∃ x, Opens position b x ∧
      (between position next).rests (wayInto b position (33, 14)) = [x.push 28 0 position] := by
  have hg : (between position next).grammar.IsBuilt := table_isBuilt
  have hfold : (between position next).move (wayInto b position (33, 14)) =
      some (.go (((wayInto b position (33, 14)).arrived.push 33 0 position).aim 32)) := rfl
  have hfit' := Cursor.fits_of_go hg hfit hfold
  have hparts : (between position next).move
      (((wayInto b position (33, 14)).arrived.push 33 0 position).aim 32) =
      some (.go (((((wayInto b position (33, 14)).arrived.push 33 0 position).aim 32).arrived.push 32
        0 position).aim 28)) := rfl
  have hset : (between position next).grammar.nodes[28]? = some (.oneOf (.of [.opening])) := rfl
  refine ⟨(((((wayInto b position (33, 14)).arrived.push 33 0 position).aim 32).arrived.push 32 0
    position).aim 28).arrived, ⟨rfl, rfl, rfl, hsilent⟩, ?_⟩
  rw [Cursor.rests_of_go hg hfit hfold, Cursor.rests_of_go hg hfit' hparts]
  exact Cursor.rests_oneOf hg (Cursor.fits_of_go hg hfit' hparts) rfl hset

theorem after_quotation (hfit : (wayInto b position (33, 14)).Fits table position)
    (hsilent : b.listeners = 0) (word : Word) :
    ∃ x, Opens position b x ∧
      ((between position next).rests (wayInto b position (33, 14))).filterMap
        (table.consume word) = if word = .opening then [x] else [] := by
  have hset : table.nodes[28]? = some (.oneOf (.of [.opening])) := rfl
  obtain ⟨x, hx, hrests⟩ := rests_quotation next hfit hsilent
  refine ⟨x.hear word, Quiet.hear hx word, ?_⟩
  rw [hrests, consume_waiting hset]
  simp only [SymbolSet.contains_of, List.mem_singleton]

theorem mem_all (o : Op) : o ∈ Op.all := by
  cases o <;> decide

/-- Of all operations a word is one at most. -/
theorem flatMap_operation {α : Type} (x : Op → α) (o : Op) :
    Op.all.flatMap (fun other => if Word.op o = .op other then [x other] else []) = [x o] := by
  cases o <;> rfl

/-- What all the ways into an instruction lead to with a word, one after the other. -/
theorem after_ways {outers : List (List Instruction)} (hfit : b.Fits table position)
    (ht : b.target = some (roundOf outers)) (hsilent : b.listeners = 0) (word : Word) :
    ∃ (operation : Op → Branch Word Instruction) (literal quotation : Branch Word Instruction),
      (∀ o, Adds position b (.op o) (operation o)) ∧
      Adds position b (.ofWords [word]) literal ∧ Opens position b quotation ∧
      (((between position next).rests b).filterMap (table.consume word)).Perm
        ((Op.all.flatMap fun o => if word = .op o then [operation o] else []) ++
          ((if (SymbolSet.except (Op.all.map Word.op ++ [.opening, .closing])).contains word then
            [literal] else []) ++ if word = .opening then [quotation] else [])) := by
  obtain ⟨hfits, hperm⟩ := rests_round next hfit ht
  have hmem : ∀ o, (2 * indexOf o + 1, indexOf o) ∈ ways.zipIdx := by
    intro o
    cases o <;> decide
  have hoperation := fun o => after_emission next _ (hfits _ (hmem o)) hsilent
    (nodes_operation o).1 (nodes_operation o).2 word
  choose operation hadds hafter using hoperation
  obtain ⟨literal, hliteral, hafter'⟩ := after_emission next 26
    (hfits (27, 13) (by decide)) hsilent rfl rfl word
  obtain ⟨quotation, hquotation, hafter''⟩ :=
    after_quotation next (hfits (33, 14) (by decide)) hsilent word
  refine ⟨operation, literal, quotation, hadds, hliteral, hquotation,
    (hperm.filterMap _).trans (List.Perm.of_eq ?_)⟩
  rw [List.filterMap_flatMap, zipIdx_ways, List.flatMap_append, List.flatMap_map]
  simp only [List.flatMap_cons, List.flatMap_nil, List.append_nil, hafter, hafter', hafter'',
    SymbolSet.contains_of, List.mem_singleton]

/-- The branches that a round of the loop leads to with a word: one that closes an instruction,
or one that has opened a quotation, or none. -/
theorem after_round {outers : List (List Instruction)} (hfit : b.Fits table position)
    (ht : b.target = some (roundOf outers)) (hsilent : b.listeners = 0) (word : Word) :
    (∀ instruction, word.instruction? = some instruction → ∃ x, Adds position b instruction x ∧
      ((between position next).rests b).filterMap (table.consume word) = [x]) ∧
    (word = .opening → ∃ x, Opens position b x ∧
      ((between position next).rests b).filterMap (table.consume word) = [x]) ∧
    (word = .closing → ((between position next).rests b).filterMap (table.consume word) = []) := by
  obtain ⟨operation, literal, quotation, hadds, hliteral, hquotation, hways⟩ :=
    after_ways next hfit ht hsilent word
  have hnone : Op.all.flatMap (fun _ => ([] : List (Branch Word Instruction))) = [] := rfl
  cases word with
  | op o =>
      have hone : ((between position next).rests b).filterMap (table.consume (.op o)) =
          [operation o] := by
        rw [flatMap_operation operation o] at hways
        simpa [mem_all] using hways
      refine ⟨fun instruction hi => ?_, fun h => (by cases h), fun h => (by cases h)⟩
      cases hi
      exact ⟨operation o, hadds o, hone⟩
  | int value =>
      have hone : ((between position next).rests b).filterMap (table.consume (.int value)) =
          [literal] := by simpa [hnone] using hways
      refine ⟨fun instruction hi => ?_, fun h => (by cases h), fun h => (by cases h)⟩
      cases hi
      exact ⟨literal, hliteral, hone⟩
  | name text =>
      have hone : ((between position next).rests b).filterMap (table.consume (.name text)) =
          [literal] := by simpa [hnone] using hways
      refine ⟨fun instruction hi => ?_, fun h => (by cases h), fun h => (by cases h)⟩
      cases hi
      exact ⟨literal, hliteral, hone⟩
  | opening =>
      have hone : ((between position next).rests b).filterMap (table.consume .opening) =
          [quotation] := by simpa [hnone] using hways
      exact ⟨fun _ hi => (by cases hi), fun _ => ⟨quotation, hquotation, hone⟩,
        fun h => (by cases h)⟩
  | closing =>
      have hzero : ((between position next).rests b).filterMap (table.consume .closing) = [] := by
        simpa [hnone] using hways
      exact ⟨fun _ hi => (by cases hi), fun h => (by cases h), fun _ => hzero⟩

/-- No branch that begins a round has nothing left to match. -/
theorem not_isDone_round {outers : List (List Instruction)} (hfit : b.Fits table position)
    (ht : b.target = some (roundOf outers)) (hsilent : b.listeners = 0) :
    ((between position next).rests b).filter Branch.isDone = [] := by
  have hg : (between position next).grammar.IsBuilt := table_isBuilt
  obtain ⟨hfits, hperm⟩ := rests_round next hfit ht
  have hway : ∀ way ∈ ways.zipIdx, ∃ (x : Branch Word Instruction) (id : NodeId),
      (between position next).rests (wayInto b position way) = [x.push id 0 position] := by
    intro way hway
    have hfit' := hfits way hway
    rw [zipIdx_ways] at hway
    rcases List.mem_append.mp hway with hway | hway
    · obtain ⟨o, -, rfl⟩ := List.mem_map.mp hway
      obtain ⟨hemit, hset⟩ := nodes_operation o
      exact ⟨_, _, Cursor.rests_emission hg hfit' rfl hemit hset⟩
    · rcases List.mem_cons.mp hway with rfl | hway
      · have hemit : table.nodes[27]? = some (.emit 26 (.ofSymbols Instruction.ofWords)) := rfl
        exact ⟨_, _, Cursor.rests_emission hg hfit' rfl hemit rfl⟩
      · cases List.mem_singleton.mp hway
        obtain ⟨x, -, hrests⟩ := rests_quotation next hfit' hsilent
        exact ⟨x, 28, hrests⟩
  refine List.filter_eq_nil_iff.mpr fun r hr => ?_
  obtain ⟨way, hmem, hr⟩ := List.mem_flatMap.mp (hperm.mem_iff.mp hr)
  obtain ⟨x, id, hrests⟩ := hway way hmem
  rw [hrests] at hr
  cases List.mem_singleton.mp hr
  simp [Branch.isDone, Branch.push]

/-! ## Leaving the loop -/

/-- A branch that has left the loop of the program has nothing left to match. -/
theorem rests_leave_top {tokens : List Instruction} (hb : Quiet none [] tokens b) :
    (between position next).rests b = [b] := by
  refine Cursor.rests_of_rest ?_
  simp [Cursor.move, hb.target_eq, hb.frames_eq]

/-- A branch that has left the loop of a quotation waits for a closing bracket. -/
theorem rests_leave_inside {parts : Frame} {base : List Frame} {tokens : List Instruction}
    (hfit : b.Fits table position) (hparts : parts.node = 32 ∧ parts.progress = 1)
    (hb : Quiet none (parts :: base) tokens b) :
    ∃ x, Quiet none base tokens x ∧
      (between position next).rests b = [x.push 31 0 position] := by
  have hg : (between position next).grammar.IsBuilt := table_isBuilt
  have hn : (between position next).grammar.nodes[parts.node]? = some (.seq [28, 30, 31]) := by
    rw [hparts.1]
    rfl
  have hlast : (between position next).move b = some (.go (b.pop.aim 31)) := by
    rw [Cursor.move_of_frame hb.target_eq hb.frames_eq hn rfl, Cursor.resume]
    simp only [hn, hparts.2]
    rfl
  have hset : (between position next).grammar.nodes[31]? = some (.oneOf (.of [.closing])) := rfl
  refine ⟨(b.pop.aim 31).arrived, ⟨rfl, ?_, hb.tokens_eq, hb.silent⟩, ?_⟩
  · exact congrArg List.tail hb.frames_eq
  · rw [Cursor.rests_of_go hg hfit hlast]
    exact Cursor.rests_oneOf hg (Cursor.fits_of_go hg hfit hlast) rfl hset

/-- A branch that has taken the closing bracket of a quotation folds it, and comes to the loop
around it. -/
theorem Comes.close {level inner : List Instruction} {outers : List (List Instruction)}
    {quotation loop : Frame} (hfit : b.Fits table position)
    (hframes : Around position outers frames)
    (hquotation : quotation.node = 33 ∧
      quotation.tokensBefore = (Nesting.mk level outers).spread.length)
    (hloop : loop.node = loopOf outers ∧ loop.progress < position)
    (hb : Quiet none (quotation :: loop :: frames) (Nesting.mk inner (level :: outers)).spread b) :
    Comes position ((Nesting.mk level outers).add (.quote inner)) b := by
  refine .of_go hfit (b.pop.gather quotation.tokensBefore .quote) (fun next => ?_) fun hfit' => ?_
  · have hn : (between position next).grammar.nodes[quotation.node]? = some (.fold 32 .quote) := by
      rw [hquotation.1]
      rfl
    rw [Cursor.move_of_frame hb.target_eq hb.frames_eq hn rfl, Cursor.resume]
    simp only [hn]
  · refine .resume hfit' hframes hloop
      ⟨hb.target_eq, congrArg List.tail hb.frames_eq, ?_, hb.silent⟩
    show b.tokens.take _ ++ [Instruction.quote (b.tokens.drop _)] = _
    rw [hb.tokens_eq, hquotation.2, Nesting.spread_inside, List.take_left, List.drop_left,
      Nesting.spread_add]

/-- The branches that leaving the loop leads to with a word: none, unless a closing bracket
closes a quotation. -/
theorem after_leave (hfit : b.Fits table position) (hframes : Around position n.outers frames)
    (hb : Quiet none frames n.spread b) (word : Word) :
    (n.read word = none ∨ word ≠ .closing →
      ((between position next).rests b).filterMap (table.consume word) = []) ∧
    (word = .closing → ∀ n', n.read word = some n' →
      ∃ x, ((between position next).rests b).filterMap (table.consume word) = [x] ∧
        (x.Fits table (position + 1) → Comes (position + 1) n' x)) := by
  obtain ⟨level, outers⟩ := n
  cases hframes with
  | top =>
      have hnone : ((between position next).rests b).filterMap (table.consume word) = [] := by
        simp [rests_leave_top next hb, Grammar.consume, hb.frames_eq]
      refine ⟨fun _ => hnone, fun hword n' hread => ?_⟩
      subst hword
      cases hread
  | @inside outer outers parts quotation loop frames hframes hparts hquotation hloop =>
      have hset : table.nodes[31]? = some (.oneOf (.of [.closing])) := rfl
      obtain ⟨x, hx, hrests⟩ := rests_leave_inside next hfit hparts hb
      have hafter : ((between position next).rests b).filterMap (table.consume word) =
          if word = .closing then [x.hear word] else [] := by
        rw [hrests, consume_waiting hset]
        simp only [SymbolSet.contains_of, List.mem_singleton]
      refine ⟨fun hnone => ?_, fun hword n' hread => ⟨x.hear word, ?_, fun hfit' => ?_⟩⟩
      · rcases hnone with hnone | hne
        · cases (Nesting.read_eq_none_iff.mp hnone).2
        · rw [hafter, if_neg hne]
      · rw [hafter, if_pos hword]
      · subst hword
        cases hread
        exact .close hfit' (hframes.later (Nat.le_succ _)) hquotation
          ⟨hloop.1, Nat.lt_succ_of_lt hloop.2⟩ (hx.hear .closing)

/-! ## A word -/

theorem Comes.add {instruction : Instruction} {own x : Branch Word Instruction} {loop : Frame}
    (hframes : Around position n.outers frames) (hnode : loop.node = loopOf n.outers)
    (hprogress : loop.progress = position)
    (hown : Quiet (some (roundOf n.outers)) (loop :: frames) n.spread own)
    (hx : Adds position own instruction x) (hfit : x.Fits table (position + 1)) :
    Comes (position + 1) (n.add instruction) x := by
  obtain ⟨x', hm, hx'⟩ := hx
  refine .of_go hfit x' hm fun hfit' => ?_
  rw [hown.frames_eq, hown.tokens_eq, ← Nesting.spread_add] at hx'
  have hframes' : Around (position + 1) (n.add instruction).outers frames :=
    hframes.later (Nat.le_succ _)
  exact .resume hfit' hframes' ⟨hnode, by omega⟩ hx'

theorem Comes.open {own x : Branch Word Instruction} {loop : Frame}
    (hframes : Around position n.outers frames) (hnode : loop.node = loopOf n.outers)
    (hprogress : loop.progress = position)
    (hown : Quiet (some (roundOf n.outers)) (loop :: frames) n.spread own)
    (hx : Opens position own x) (hfit : x.Fits table (position + 1)) :
    Comes (position + 1) n.enter x := by
  refine .of_go hfit ((x.reach 1).aim 30) (fun next => ?_) fun hfit' => ?_
  · have hn : (between (position + 1) next).grammar.nodes[32]? = some (.seq [28, 30, 31]) := rfl
    rw [Cursor.move_of_frame hx.target_eq hx.frames_eq hn rfl, Cursor.resume]
    simp only [hn]
    rfl
  · have hquotation : own.tokens.length = (Nesting.mk n.level n.outers).spread.length := by
      rw [hown.tokens_eq]
    have hframes' : Around (position + 1) n.enter.outers (⟨32, 1, position, own.tokens.length⟩ ::
        ⟨33, 0, position, own.tokens.length⟩ :: loop :: frames) :=
      .inside (hframes.later (Nat.le_succ position)) ⟨rfl, rfl⟩ ⟨rfl, hquotation⟩
        ⟨hnode, by omega⟩
    refine .enter hfit' hframes' ⟨rfl, ?_, ?_, hx.silent⟩
    · rw [← hown.frames_eq]
      exact Branch.reach_frames hx.frames_eq 1
    · show x.tokens = _
      rw [hx.tokens_eq, hown.tokens_eq, Nesting.spread_enter]

/-- A word leaves one branch if it can be read, and none otherwise. -/
theorem Comes.step (h : Comes position n b) (word : Word) :
    (n.read word = none →
      ((between position (some word)).rests b).filterMap (table.consume word) = []) ∧
    ∀ n', n.read word = some n' →
      ∃ x, ((between position (some word)).rests b).filterMap (table.consume word) = [x] ∧
        (x.Fits table (position + 1) → Comes (position + 1) n' x) := by
  obtain ⟨own, out, loop, frames, hframes, hnode, hprogress, hown, hfit, hout, hfit', hperm⟩ :=
    h (some word)
  obtain ⟨hinstruction, hopening, hclosing⟩ :=
    after_round (some word) hfit hown.target_eq hown.silent word
  obtain ⟨hstay, hleave⟩ := after_leave (some word) hfit' hframes hout word
  have hafter := hperm.filterMap (table.consume word)
  rw [List.filterMap_append] at hafter
  cases word with
  | opening =>
      obtain ⟨x, hx, hone⟩ := hopening rfl
      rw [hone, hstay (.inr (by simp))] at hafter
      refine ⟨fun hnone => (by cases hnone), fun n' hread => ?_⟩
      cases hread
      exact ⟨x, List.perm_singleton.mp hafter, .open hframes hnode hprogress hown hx⟩
  | closing =>
      rw [hclosing rfl, List.nil_append] at hafter
      refine ⟨fun hnone => ?_, fun n' hread => ?_⟩
      · rw [hstay (.inl hnone)] at hafter
        exact List.perm_nil.mp hafter
      · obtain ⟨x, hone, hcomes⟩ := hleave rfl n' hread
        rw [hone] at hafter
        exact ⟨x, List.perm_singleton.mp hafter, hcomes⟩
  | op | int | name =>
      obtain ⟨x, hx, hone⟩ := hinstruction _ rfl
      rw [hone, hstay (.inr (by simp))] at hafter
      refine ⟨fun hnone => (by cases hnone), fun n' hread => ?_⟩
      cases hread
      exact ⟨x, List.perm_singleton.mp hafter, .add hframes hnode hprogress hown hx⟩

/-- At the end of the input a branch matches everything just if no quotation is open. -/
theorem Comes.finish (h : Comes position n b) :
    (n.outers ≠ [] → ((between position none).rests b).filter Branch.isDone = []) ∧
    (n.outers = [] → ∃ x, ((between position none).rests b).filter Branch.isDone = [x] ∧
      x.tokens = n.level) := by
  obtain ⟨own, out, loop, frames, hframes, -, -, hown, hfit, hout, hfit', hperm⟩ := h none
  have hdone := hperm.filter Branch.isDone
  rw [List.filter_append, not_isDone_round none hfit hown.target_eq hown.silent,
    List.nil_append] at hdone
  obtain ⟨level, outers⟩ := n
  cases hframes with
  | top =>
      refine ⟨fun hne => absurd rfl hne, fun _ => ⟨out, ?_, ?_⟩⟩
      · rw [rests_leave_top none hout] at hdone
        have hmatched : out.isDone = true := by
          simp [Branch.isDone, hout.frames_eq, hout.target_eq]
        rw [List.filter_cons_of_pos hmatched] at hdone
        exact List.perm_singleton.mp hdone
      · exact hout.tokens_eq
  | inside hframes hparts hquotation hloop =>
      refine ⟨fun _ => ?_, fun hnil => (by cases hnil)⟩
      obtain ⟨x, -, hrests⟩ := rests_leave_inside none hfit' hparts hout
      rw [hrests] at hdone
      exact List.perm_nil.mp hdone

end Stack.Program

end Ramify
