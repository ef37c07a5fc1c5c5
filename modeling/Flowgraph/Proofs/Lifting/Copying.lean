import Flowgraph.Lifting
import Flowgraph.Proofs.Graph.Nesting
import Flowgraph.Proofs.Lowering.Build

/-!
# Runs of a copy

What copying a block does, step by step: `Copying.CopiesBlock` for the nodes of a block and
`Copying.Extracts` for the body of a closure.  They are read off the runs that succeed, and what is
said of copies is shown by induction over them.
-/

namespace Flowgraph

open Flowgraph.Graph List Option

variable {vs olds ws news captured : List ValueId} {answer : Unit}
  {add : Graph → Ty → Option (ValueId × Graph)}

namespace Graph

/-- Set the name of a value. -/
def label (g : Graph) (v : ValueId) (name : Option String) : Graph :=
  g.mapValue v fun value => { value with name }

theorem mapNode_withNode (g : Graph) (node : Node) (types : List Ty)
    (attrs : List (String × Literal)) (subgraph : Option Graph) :
    ((g.withNode node types).mapNode g.freshNode fun fresh => { fresh with attrs, subgraph }) =
      g.withNode { node with attrs, subgraph } types :=
  congrArg (mk _ · _) (modify_append_singleton _ _ _)

/-- Place a node at the end of a block. -/
def append (g : Graph) (b : BlockId) (n : NodeId) : Graph :=
  (g.mapNode n fun node => { node with owner := some b }).mapBlock b fun block =>
    { block with nodes := block.nodes ++ [n] }

theorem appendNode_eq_some {g g' : Graph} {b : BlockId} {n : NodeId}
    (h : g.appendNode b n = some g') : g' = g.append b n := by
  obtain ⟨middle, hmid, h⟩ := bind_eq_some_iff.mp h
  rw [modifyBlock_eq_some h, modifyNode_eq_some hmid, append]

end Graph

/-- One step after the other, each with an answer. -/
inductive Chain {α β σ : Type} (step : α → β → σ → σ → Prop) : List α → List β → σ → σ → Prop
  | nil (s : σ) : Chain step [] [] s s
  | cons {a : α} {b : β} {as : List α} {bs : List β} {s t u : σ} :
      step a b s t → Chain step as bs t u → Chain step (a :: as) (b :: bs) s u

namespace Copying

/-! ## Steps -/

def bind (copying : Copying) (old new : ValueId) : Copying :=
  { copying with renamed := (old, new) :: copying.renamed.filter fun entry => entry.1 ≠ old }

theorem lookup_bind (copying : Copying) (old new v : ValueId) :
    (copying.bind old new).renamed.lookup v =
      if v = old then some new else copying.renamed.lookup v := by
  have hfilter : ∀ entries : Renaming, v ≠ old →
      (entries.filter fun entry => entry.1 ≠ old).lookup v = entries.lookup v := by
    intro entries hne
    induction entries with
    | nil => rfl
    | cons entry rest ih =>
      by_cases heq : entry.1 = old
      · have hmiss : (v == entry.1) = false := beq_eq_false_iff_ne.mpr (heq ▸ hne)
        rw [filter_cons_of_neg (by simpa using heq), ih, lookup_cons, hmiss]
      · rw [filter_cons_of_pos (by simpa using heq), lookup_cons, lookup_cons, ih]
  by_cases heq : v = old
  · simp [bind, heq]
  · have hmiss : (v == old) = false := beq_eq_false_iff_ne.mpr heq
    rw [bind, lookup_cons, hmiss, if_neg heq]
    exact hfilter _ heq

/-- Give `new` the name that a value has, and call `old` by `new` from now on. -/
def labelled (copying : Copying) (old : ValueId) (value : Value) (new : ValueId) : Copying :=
  ({ copying with target := copying.target.label new value.name }).bind old new

/-- A new parameter stands for a value. -/
def withParam (copying : Copying) (b : BlockId) (old : ValueId) (value : Value) : Copying :=
  ({ copying with target := copying.target.withParam b value.ty }).labelled old value
    copying.target.freshValue

/-- A new input of the copy stands for a value from outside. -/
def withCapture (copying : Copying) (v : ValueId) (value : Value) : Copying :=
  { copying.withParam root v value with captured := copying.captured ++ [v] }

def withTarget (copying : Copying) (target : Graph) : Copying := { copying with target }

/-- A copy of the node, without its blocks. -/
def create (copying : Copying) (node : Node) (inputs : List ValueId) (types : List Ty) : Copying :=
  copying.withTarget (copying.target.withNode
    { op := node.op, inputs, attrs := node.attrs, span := node.span,
      subgraph := node.subgraph } types)

/-! ## Runs -/

section Runs

variable (source : Graph)

/-- Parameters of a block stand for values. -/
inductive Params (b : BlockId) : List ValueId → Copying → Copying → Prop
  | nil (c : Copying) : Params b [] c c
  | cons {old : ValueId} {value : Value} {rest : List ValueId} {c c' : Copying}
      (hvalue : source.value? old = some value)
      (hrest : Params b rest (c.withParam b old value) c') :
      Params b (old :: rest) c c'

/-- New values stand for old ones. -/
inductive Introduces : List ValueId → List ValueId → Copying → Copying → Prop
  | nil (c : Copying) : Introduces [] [] c c
  | cons {old new : ValueId} {value : Value} {olds news : List ValueId} {c c' : Copying}
      (hvalue : source.value? old = some value)
      (hrest : Introduces olds news (c.labelled old value new) c') :
      Introduces (old :: olds) (new :: news) c c'

/-- What stands for values is looked up, or an input for it is made; `emit` is done after each. -/
inductive Translates (emit : Copying → ValueId → Copying) :
    List ValueId → List ValueId → Copying → Copying → Prop
  | nil (c : Copying) : Translates emit [] [] c c
  | known {v w : ValueId} {vs ws : List ValueId} {c c' : Copying}
      (hlookup : c.renamed.lookup v = some w) (hrest : Translates emit vs ws (emit c w) c') :
      Translates emit (v :: vs) (w :: ws) c c'
  | new {v : ValueId} {value : Value} {vs ws : List ValueId} {c c' : Copying}
      (hlookup : c.renamed.lookup v = none) (hvalue : source.value? v = some value)
      (hrest : Translates emit vs ws (emit (c.withCapture v value) c.target.freshValue) c') :
      Translates emit (v :: vs) (c.target.freshValue :: ws) c c'

/-- Inputs of a node are only translated. -/
abbrev Inputs : List ValueId → List ValueId → Copying → Copying → Prop :=
  Translates source fun c _ => c

/-- Results of a block are translated and returned from its copy. -/
abbrev Results (b : BlockId) : List ValueId → List ValueId → Copying → Copying → Prop :=
  Translates source fun c w => c.withTarget (c.target.withResult b w)

variable (inner : BlockId → BlockId → List NodeId → Copying → Copying → Prop)

/-- A nested block is copied to a new block of the copied node. -/
inductive CopiesNested (copy : NodeId) (nested : BlockId) : BlockId → Copying → Copying → Prop
  | intro {block : Block} {ns : List NodeId} {ws : List ValueId} {c c₁ c₂ c' : Copying}
      (hblock : source.block? nested = some block)
      (hparams : Params source c.target.freshBlock block.params
        (c.withTarget (c.target.withBlock copy)) c₁)
      (hnodes : inner nested c.target.freshBlock ns c₁ c₂)
      (hresults : Results source c.target.freshBlock block.results ws c₂ c') :
      CopiesNested copy nested c.target.freshBlock c c'

/-- A node is copied to the end of the block `into`. -/
inductive CopiesNode (into : BlockId) (n : NodeId) : NodeId → Copying → Copying → Prop
  | intro {node : Node} {inputs : List ValueId} {types : List Ty} {bs : List BlockId}
      {c c₁ c₂ c₃ : Copying} (hnode : source.node? n = some node)
      (hinputs : Inputs source node.inputs inputs c c₁)
      (htypes : node.outputs.mapM source.typeOf? = some types)
      (houtputs : Introduces source node.outputs (c₁.target.freshValues types.length)
        (c₁.create node inputs types) c₂)
      (hblocks : Chain (CopiesNested source inner c₁.target.freshNode) node.blocks bs c₂ c₃) :
      CopiesNode into n c₁.target.freshNode c
        (c₃.withTarget (c₃.target.append into c₁.target.freshNode))

/-- The nodes of a block are copied to the end of the block `into`. -/
def CopiesBlock : Nat → BlockId → BlockId → List NodeId → Copying → Copying → Prop
  | 0, _, _, _, _, _ => False
  | depth + 1, b, into, ns, c, c' => ∃ block, source.block? b = some block ∧
      Chain (CopiesNode source (CopiesBlock depth) into) block.nodes ns c c'

/-- The body is copied to the root of a new graph. -/
inductive Extracts (body : BlockId) : Graph → List ValueId → Prop
  | intro {block : Block} {ns : List NodeId} {ws : List ValueId} {depth : Nat} {c₁ c₂ c₃ : Copying}
      (hblock : source.block? body = some block)
      (hparams : Params source root block.params { target := .empty } c₁)
      (hnodes : CopiesBlock source depth body root ns c₁ c₂)
      (hresults : Results source root block.results ws c₂ c₃) : Extracts body c₃.target c₃.captured

end Runs

/-! ## The steps are run -/

section Steps

variable {α β γ : Type} {source extracted : Graph} {c c' : Copying} {b into nested body : BlockId}
  {n copy : NodeId}

theorem bind_some {step : Step α} {f : α → Step β} {answer : β} :
    (step >>= f) c = some (answer, c') ↔
      ∃ a c₁, step c = some (a, c₁) ∧ f a c₁ = some (answer, c') :=
  bind_eq_some_iff.trans Prod.exists

theorem pure_some {a answer : α} : (pure a : Step α) c = some (answer, c') ↔ a = answer ∧
    c = c' := by
  show some (a, c) = _ ↔ _
  rw [some_inj, Prod.mk.injEq]

theorem lift_some {question : Option α} {answer : α} :
    (liftM question : Step α) c = some (answer, c') ↔ question = some answer ∧ c = c' := by
  show Option.bind question (fun a => some (a, c)) = _ ↔ _
  rw [bind_eq_some_iff]
  constructor
  · rintro ⟨_, rfl, heq⟩
    cases heq
    exact ⟨rfl, rfl⟩
  · rintro ⟨rfl, rfl⟩
    exact ⟨answer, rfl, rfl⟩

theorem onTarget_some {change : Graph → Option (α × Graph)} {answer : α}
    (h : onTarget change c = some (answer, c')) :
    ∃ target, change c.target = some (answer, target) ∧ c' = c.withTarget target := by
  obtain ⟨⟨_, target⟩, hch, heq⟩ := bind_eq_some_iff.mp h
  obtain ⟨rfl, rfl⟩ := Prod.mk.inj (Option.some.inj heq)
  exact ⟨target, hch, rfl⟩

theorem updateTarget_some {change : Graph → Option Graph}
    (h : updateTarget change c = some (answer, c')) :
    ∃ target, change c.target = some target ∧ c' = c.withTarget target := by
  obtain ⟨target, hch, heq⟩ := bind_eq_some_iff.mp h
  exact ⟨target, hch, (Prod.mk.inj (Option.some.inj heq)).2.symm⟩

theorem introduce_some {old new : ValueId} (h : introduce source old new c = some (answer, c')) :
    ∃ value, source.value? old = some value ∧ c' = c.labelled old value new := by
  obtain ⟨value, c₁, hask, h⟩ := bind_some.mp h
  obtain ⟨hv, rfl⟩ := lift_some.mp hask
  obtain ⟨_, c₂, hupdate, h⟩ := bind_some.mp h
  obtain ⟨target, hlabel, rfl⟩ := updateTarget_some hupdate
  obtain rfl := modifyValue_eq_some hlabel
  cases h
  exact ⟨value, hv, rfl⟩

theorem param_some {old : ValueId}
    (hadd : ∀ target ty, add target ty = target.addParam b ty) (h : (do
      let ty ← source.typeOf? old
      let new ← onTarget fun target => add target ty
      introduce source old new : Step Unit) c = some (answer, c')) :
    ∃ value, source.value? old = some value ∧ c' = c.withParam b old value := by
  obtain ⟨ty, c₁, hask, h⟩ := bind_some.mp h
  obtain ⟨hty, rfl⟩ := lift_some.mp hask
  obtain ⟨new, c₂, hch, h⟩ := bind_some.mp h
  obtain ⟨target, hp, rfl⟩ := onTarget_some hch
  rw [hadd] at hp
  obtain ⟨rfl, rfl⟩ := addParam_eq_some hp
  obtain ⟨value, hv, rfl⟩ := introduce_some h
  obtain rfl : value.ty = ty := by simpa [typeOf?, hv] using hty
  exact ⟨value, hv, rfl⟩

theorem params_run (hadd : ∀ target ty, add target ty = target.addParam b ty)
    (h : (olds.forM fun old => do
      let ty ← source.typeOf? old
      let new ← onTarget fun target => add target ty
      introduce source old new : Step Unit) c = some (answer, c')) : Params source b olds c c' := by
  induction olds generalizing c with
  | nil =>
    obtain ⟨-, rfl⟩ := pure_some.mp h
    exact .nil c
  | cons old rest ih =>
    obtain ⟨_, c₁, hold, hr⟩ := bind_some.mp h
    obtain ⟨value, hv, rfl⟩ := param_some hadd hold
    exact .cons hv (ih hr)

theorem introduces_run (hlen : olds.length = news.length)
    (h : ((olds.zip news).forM fun (old, new) => introduce source old new : Step Unit) c =
      some (answer, c')) : Introduces source olds news c c' := by
  induction olds generalizing news c with
  | nil =>
    obtain rfl := length_eq_zero_iff.mp hlen.symm
    obtain ⟨-, rfl⟩ := pure_some.mp h
    exact .nil c
  | cons old olds ih =>
    obtain ⟨new, news, rfl⟩ := exists_cons_of_length_eq_add_one hlen.symm
    obtain ⟨_, c₁, hold, hr⟩ := bind_some.mp h
    obtain ⟨value, hv, rfl⟩ := introduce_some hold
    exact .cons hv (ih (Nat.succ.inj hlen) hr)

theorem targetValue_some {v w : ValueId}
    (h : targetValue (Lift.captureFrom source) v c = some (w, c')) :
    (c.renamed.lookup v = some w ∧ c' = c) ∨ (c.renamed.lookup v = none ∧ w = c.target.freshValue ∧
        ∃ value, source.value? v = some value ∧ c' = c.withCapture v value) := by
  obtain ⟨_, _, hget, h⟩ := bind_some.mp h
  cases hget
  cases hlook : c.renamed.lookup v with simp only [hlook] at h
  | some known =>
    obtain ⟨rfl, rfl⟩ := pure_some.mp h
    exact Or.inl ⟨rfl, rfl⟩
  | none =>
    obtain ⟨new, c₁, hch, h⟩ := bind_some.mp h
    obtain ⟨target, hcap, rfl⟩ := onTarget_some hch
    obtain ⟨value, hv, hcap⟩ := bind_eq_some_iff.mp hcap
    obtain ⟨⟨_, _⟩, hinput, hcap⟩ := bind_eq_some_iff.mp hcap
    obtain ⟨rfl, rfl⟩ := addParam_eq_some hinput
    obtain ⟨_, hlabel, hcap⟩ := bind_eq_some_iff.mp hcap
    obtain rfl := modifyValue_eq_some hlabel
    cases hcap
    cases h
    exact Or.inr ⟨rfl, rfl, value, hv, rfl⟩

theorem inputs_run (h : vs.mapM (targetValue (Lift.captureFrom source)) c = some (ws, c')) :
    Inputs source vs ws c c' := by
  induction vs generalizing ws c with
  | nil =>
    obtain ⟨rfl, rfl⟩ := pure_some.mp h
    exact .nil c
  | cons v vs ih =>
    rw [mapM_cons] at h
    obtain ⟨w, c₁, hv, h⟩ := bind_some.mp h
    obtain ⟨ws, c₂, hvs, h⟩ := bind_some.mp h
    obtain ⟨rfl, rfl⟩ := pure_some.mp h
    rcases targetValue_some hv with ⟨hlook, rfl⟩ | ⟨hlook, rfl, value, hvalue, rfl⟩
    · exact .known hlook (ih hvs)
    · exact .new hlook hvalue (ih hvs)

theorem results_run (h : copyResults (Lift.captureFrom source) vs b c = some (answer, c')) :
    ∃ ws, Results source b vs ws c c' := by
  induction vs generalizing c with
  | nil =>
    obtain ⟨-, rfl⟩ := pure_some.mp h
    exact ⟨[], .nil c⟩
  | cons v vs ih =>
    obtain ⟨_, c₁, hv, hvs⟩ := bind_some.mp h
    obtain ⟨ws, hr⟩ := ih hvs
    obtain ⟨w, c₂, hask, hupdate⟩ := bind_some.mp hv
    obtain ⟨target, hreturn, rfl⟩ := updateTarget_some hupdate
    obtain rfl := addResult_eq_some hreturn
    rcases targetValue_some hask with ⟨hlook, rfl⟩ | ⟨hlook, rfl, value, hvalue, rfl⟩
    · exact ⟨w :: ws, .known hlook hr⟩
    · exact ⟨_ :: ws, .new hlook hvalue hr⟩

theorem chain_run {step : α → Step PUnit} {relation : α → γ → Copying → Copying → Prop}
    {items : List α} {answer : PUnit} (h : items.forM step c = some (answer, c'))
    (hstep : ∀ a answer c c', step a c = some (answer, c') → ∃ made, relation a made c c') :
    ∃ made, Chain relation items made c c' := by
  induction items generalizing c with
  | nil =>
    obtain ⟨-, rfl⟩ := pure_some.mp h
    exact ⟨[], .nil c⟩
  | cons a rest ih =>
    obtain ⟨_, c₁, ha, hr⟩ := bind_some.mp h
    obtain ⟨made, hfirst⟩ := hstep a _ _ _ ha
    obtain ⟨more, hmore⟩ := ih hr
    exact ⟨made :: more, .cons hfirst hmore⟩

/-- One nested block of a copied node. -/
def copyNested (source : Graph) (capture : Capture) (copyInner : BlockId → BlockId → Step Unit)
    (copy : NodeId) (nested : BlockId) : Step Unit := do
  let inner ← source.block? nested
  let copied ← onTarget fun target => target.addBlock copy
  inner.params.forM fun old => do
    let ty ← source.typeOf? old
    let new ← onTarget fun target => target.addParam copied ty
    introduce source old new
  copyInner nested copied
  copyResults capture inner.results copied

/-- One node of a copied block. -/
def copyNode (source : Graph) (capture : Capture) (copyInner : BlockId → BlockId → Step Unit)
    (into : BlockId) (n : NodeId) : Step Unit := do
  let node ← source.node? n
  let inputs ← node.inputs.mapM (targetValue capture)
  let types ← (node.outputs.mapM source.typeOf? : Option (List Ty))
  let copy ← onTarget fun target => some (target.createNode node.op inputs types node.span)
  updateTarget fun target => target.modifyNode copy fun fresh =>
    { fresh with attrs := node.attrs, subgraph := node.subgraph }
  let fresh ← (← get).target.node? copy
  (node.outputs.zip fresh.outputs).forM fun (old, new) => introduce source old new
  node.blocks.forM (copyNested source capture copyInner copy)
  updateTarget fun target => target.appendNode into copy

theorem copyBlockWithin_succ (source : Graph) (capture : Capture) (depth : Nat) (b into : BlockId) :
    copyBlockWithin source capture (depth + 1) b into = (do
      let block ← source.block? b
      block.nodes.forM (copyNode source capture (copyBlockWithin source capture depth) into)) :=
  rfl

section Node

variable (copyInner : BlockId → BlockId → Step Unit)
  {inner : BlockId → BlockId → List NodeId → Copying → Copying → Prop}
  (hinner : ∀ nested copied answer c c', copyInner nested copied c = some (answer, c') →
    ∃ ns, inner nested copied ns c c')

include hinner

theorem copyNested_run
    (h : copyNested source (Lift.captureFrom source) copyInner copy nested c = some (answer, c')) :
    ∃ made, CopiesNested source inner copy nested made c c' := by
  obtain ⟨block, c₁, hask, h⟩ := bind_some.mp h
  obtain ⟨hb, rfl⟩ := lift_some.mp hask
  obtain ⟨copied, c₂, hch, h⟩ := bind_some.mp h
  obtain ⟨target, hadd, rfl⟩ := onTarget_some hch
  obtain ⟨rfl, rfl⟩ := addBlock_eq_some hadd
  obtain ⟨_, c₃, hps, h⟩ := bind_some.mp h
  obtain ⟨_, c₄, hns, hres⟩ := bind_some.mp h
  obtain ⟨ns, hns⟩ := hinner _ _ _ _ _ hns
  obtain ⟨ws, hres⟩ := results_run hres
  exact ⟨_, .intro hb (params_run (fun _ _ => rfl) hps) hns hres⟩

theorem copyNode_run
    (h : copyNode source (Lift.captureFrom source) copyInner into n c = some (answer, c')) :
    ∃ made, CopiesNode source inner into n made c c' := by
  obtain ⟨node, c₁, hask, h⟩ := bind_some.mp h
  obtain ⟨hn, rfl⟩ := lift_some.mp hask
  obtain ⟨inputs, c₁, hins, h⟩ := bind_some.mp h
  obtain ⟨types, c₂, hask, h⟩ := bind_some.mp h
  obtain ⟨htys, rfl⟩ := lift_some.mp hask
  obtain ⟨copy, c₂, hch, h⟩ := bind_some.mp h
  obtain ⟨created, hcreate, rfl⟩ := onTarget_some hch
  rw [createNode_eq] at hcreate
  obtain ⟨rfl, rfl⟩ := Prod.mk.inj (Option.some.inj hcreate)
  obtain ⟨_, c₂, hupdate, h⟩ := bind_some.mp h
  obtain ⟨target, hattrs, rfl⟩ := updateTarget_some hupdate
  obtain rfl := (modifyNode_eq_some hattrs).trans (mapNode_withNode ..)
  obtain ⟨_, _, hget, h⟩ := bind_some.mp h
  cases hget
  obtain ⟨fresh, c₂, hask, h⟩ := bind_some.mp h
  obtain ⟨hfresh, rfl⟩ := lift_some.mp hask
  obtain rfl := Option.some.inj (((node?_withNode ..).trans (if_pos rfl)).symm.trans hfresh)
  obtain ⟨_, c₂, houts, h⟩ := bind_some.mp h
  obtain ⟨_, c₃, hbs, hplace⟩ := bind_some.mp h
  obtain ⟨target, happend, rfl⟩ := updateTarget_some hplace
  obtain rfl := appendNode_eq_some happend
  obtain ⟨bs, hbs⟩ := chain_run hbs fun _ _ _ _ hnest => copyNested_run copyInner hinner hnest
  have hlen : node.outputs.length = (c₁.target.freshValues types.length).length :=
    (forall₂_of_mapM htys).length_eq.trans (by simp [freshValues])
  exact ⟨_, .intro hn (inputs_run hins) htys (introduces_run hlen houts) hbs⟩

end Node

theorem copyBlockWithin_run (depth : Nat) {b into : BlockId} {c c' : Copying}
    (h : copyBlockWithin source (Lift.captureFrom source) depth b into c = some (answer, c')) :
    ∃ ns, CopiesBlock source depth b into ns c c' := by
  induction depth generalizing b into c c' answer with
  | zero => cases h
  | succ depth ih =>
    rw [copyBlockWithin_succ] at h
    obtain ⟨block, c₁, hask, h⟩ := bind_some.mp h
    obtain ⟨hb, rfl⟩ := lift_some.mp hask
    obtain ⟨ns, hns⟩ := chain_run h fun _ _ _ _ hn =>
      copyNode_run (copyBlockWithin source (Lift.captureFrom source) depth)
        (fun _ _ _ _ _ hinner => ih hinner) hn
    exact ⟨ns, block, hb, hns⟩

theorem extractBody_run (h : Lift.extractBody source body = some (extracted, captured)) :
    Extracts source body extracted captured := by
  obtain ⟨block, hb, hrun⟩ := bind_eq_some_iff.mp h
  obtain ⟨⟨_, c₃⟩, hsteps, hanswer⟩ := bind_eq_some_iff.mp hrun
  cases hanswer
  obtain ⟨_, c₁, hps, hcopy⟩ := bind_some.mp hsteps
  obtain ⟨again, _, hask, hinside⟩ := bind_some.mp hcopy
  obtain ⟨hagain, rfl⟩ := lift_some.mp hask
  cases hagain.symm.trans hb
  obtain ⟨_, c₂, hns, hres⟩ := bind_some.mp hinside
  obtain ⟨ns, hns⟩ := copyBlockWithin_run _ hns
  obtain ⟨ws, hres⟩ := results_run hres
  exact .intro hb (params_run (fun _ _ => rfl) hps) hns hres

end Steps

end Copying

end Flowgraph
