import Flowgraph.Proofs.Graph.WellScoped
import Mathlib.Data.List.Forall2
import Mathlib.Logic.Relation

/-!
# Scopes by descent

`Graph.InScope` reads a block with what is visible around it: node by node, what a node uses is
visible before it, and its outputs are visible after it.  Unlike `Graph.WellScoped` it follows the
nesting of the blocks, so that a change of the graph can be carried along the tree.  It also asks
that no value is defined a second time inside a block nested where the first one is visible, which
is what lets values be renamed one at a time.

For the graphs that lowering writes both agree: `Graph.inScope_of_wellScoped` and
`Graph.InScope.wellScoped`.
-/

namespace Flowgraph.Graph

open List Option

/-! ## Definitions inside a block -/

/-- The value is defined in the block or in a block nested there. -/
inductive Defines (g : Graph) : BlockId → ValueId → Prop
  | param {b : BlockId} {block : Block} {v : ValueId} :
      g.block? b = some block → v ∈ block.params → Defines g b v
  | output {b : BlockId} {block : Block} {n : NodeId} {node : Node} {v : ValueId} :
      g.block? b = some block → n ∈ block.nodes → g.node? n = some node →
      v ∈ node.outputs → Defines g b v
  | nested {b inner : BlockId} {block : Block} {n : NodeId} {node : Node} {v : ValueId} :
      g.block? b = some block → n ∈ block.nodes → g.node? n = some node →
      inner ∈ node.blocks → Defines g inner v → Defines g b v

/-- A block, or nodes of a block that are yet to run, with what the block returns. -/
inductive Item where
  | block (b : BlockId)
  | nodes (ns : List NodeId) (results : List ValueId)

/-- All uses refer to what is visible, where `env` is visible at the start. -/
inductive InScope (g : Graph) : (ValueId → Prop) → Item → Prop
  | block {env : ValueId → Prop} {b : BlockId} {block : Block} (hblock : g.block? b = some block)
      (hnodes : InScope g (fun v => env v ∨ v ∈ block.params) (.nodes block.nodes block.results)) :
      InScope g env (.block b)
  | done {env : ValueId → Prop} {results : List ValueId} (hresults : ∀ v ∈ results, env v) :
      InScope g env (.nodes [] results)
  | node {env : ValueId → Prop} {n : NodeId} {node : Node} {ns : List NodeId}
      {results : List ValueId} (hnode : g.node? n = some node) (hinputs : ∀ v ∈ node.inputs, env v)
      (hblocks : ∀ b ∈ node.blocks, InScope g env (.block b)) (hnew : ∀ v ∈ node.outputs, ¬ env v)
      (hfresh : ∀ b ∈ node.blocks, ∀ v, g.Defines b v → ¬ env v ∧ v ∉ node.outputs)
      (hrest : InScope g (fun v => env v ∨ v ∈ node.outputs) (.nodes ns results)) :
      InScope g env (.nodes (n :: ns) results)

/-! ## Back to visibility -/

section Visible

variable {g : Graph} {env : ValueId → Prop} {ns : List NodeId} {results : List ValueId} {n : NodeId}
  {v : ValueId} {block : Block} {b : BlockId}

/-- The value is an output of one of the nodes. -/
def OutputIn (g : Graph) (ns : List NodeId) (v : ValueId) : Prop :=
  ∃ n ∈ ns, ∃ node, g.node? n = some node ∧ v ∈ node.outputs

theorem outputIn_cons (hn : g.node? n = some node) :
    g.OutputIn (n :: ns) v ↔ v ∈ node.outputs ∨ g.OutputIn ns v := by
  simp [OutputIn, hn]

theorem InScope.before (h : g.InScope env (.nodes ns results)) (hn : n ∈ ns) :
    ∃ node inside, g.node? n = some node ∧ (∀ v ∈ node.inputs, inside v) ∧
      (∀ b ∈ node.blocks, g.InScope inside (.block b)) ∧
      ∀ v, inside v → env v ∨ g.OutputIn (ns.takeWhile (· ≠ n)) v := by
  induction ns generalizing env with
  | nil => cases hn
  | cons first rest ih =>
    cases h with
    | @node _ _ firstNode _ _ hnode hinputs hblocks hnew hfresh hr =>
    by_cases heq : first = n
    · subst heq
      exact ⟨firstNode, env, hnode, hinputs, hblocks, fun v hv => Or.inl hv⟩
    · have hlater := (mem_cons.mp hn).resolve_left (Ne.symm heq)
      obtain ⟨node, inside, hn', hins, hbs, hbound⟩ := ih hr hlater
      refine ⟨node, inside, hn', hins, hbs, fun v hv => ?_⟩
      rw [takeWhile_cons_of_pos (by simpa using heq), outputIn_cons hnode]
      exact or_assoc.mp (hbound v hv)

theorem InScope.returned (h : g.InScope env (.nodes ns results)) (hv : v ∈ results) :
    env v ∨ g.OutputIn ns v := by
  induction ns generalizing env with
  | nil =>
    cases h with
    | done hres => exact Or.inl (hres v hv)
  | cons first rest ih =>
    cases h with
    | @node _ _ firstNode _ _ hn _ _ _ _ hr =>
    rw [outputIn_cons hn]
    exact or_assoc.mp (ih hr)

/-- The value is visible around the block. -/
def Outside (g : Graph) (b : BlockId) (v : ValueId) : Prop :=
  ∃ outer, g.Encloses outer b ∧ g.Visible outer v

theorem before_node (hb : g.block? b = some block) :
    g.before ⟨b, some n⟩ = block.nodes.takeWhile (· ≠ n) := by
  simp [Graph.before, hb]

theorem before_end (hb : g.block? b = some block) : g.before ⟨b, none⟩ = block.nodes := by
  simp [Graph.before, hb]

/-- What is visible in a block comes from around it, from its parameters, or from the nodes before
the point. -/
theorem visible_iff {before : Option NodeId} (hb : g.block? b = some block) :
    g.Visible ⟨b, before⟩ v ↔
      g.Outside b v ∨ v ∈ block.params ∨ g.OutputIn (g.before ⟨b, before⟩) v := by
  constructor
  · rintro ⟨outer, hwi, hhere⟩
    cases hwi with
    | here =>
      cases hhere with
      | param hagain hv =>
        cases hb.symm.trans hagain
        exact Or.inr (Or.inl hv)
      | output hn hnode hv => exact Or.inr (Or.inr ⟨_, hn, _, hnode, hv⟩)
    | outward henc hr => exact Or.inl ⟨_, henc, _, hr, hhere⟩
  · rintro (⟨outer, henc, outermost, hwi, hhere⟩ | hp | ⟨n, hn, node, hnode, hv⟩)
    · exact ⟨outermost, .outward henc hwi, hhere⟩
    · exact ⟨_, .here _, .param hb hp⟩
    · exact ⟨_, .here _, .output hn hnode hv⟩

theorem InScope.reachable (h : g.InScope (fun _ => False) (.block root)) (hb : g.Reachable b) :
    ∃ env, g.InScope env (.block b) ∧ ∀ v, env v → g.Outside b v := by
  induction hb with
  | root => exact ⟨_, h, fun _ hfalse => hfalse.elim⟩
  | @nested b inner block n node _ hblock hn hnode hin ih =>
    obtain ⟨env, hsc, houtside⟩ := ih
    cases hsc with
    | block hagain hns =>
    cases hblock.symm.trans hagain
    obtain ⟨node', inside, hn', -, hbs, hbound⟩ := hns.before hn
    cases hnode.symm.trans hn'
    refine ⟨inside, hbs inner hin, fun v hv => ?_⟩
    refine ⟨⟨b, some n⟩, ⟨n, node, block, rfl, hblock, hn, hnode, hin⟩, ?_⟩
    rw [visible_iff hblock, before_node hblock]
    rcases hbound v hv with (henv | hp) | hout
    · exact Or.inl (houtside v henv)
    · exact Or.inr (Or.inl hp)
    · exact Or.inr (Or.inr hout)

theorem InScope.wellScoped (h : g.InScope (fun _ => False) (.block root)) : g.WellScoped := by
  intro point v huse
  cases huse with
  | @input b block n node _ hreach hb hn hnode hv =>
    obtain ⟨env, hsc, houtside⟩ := h.reachable hreach
    cases hsc with
    | block hagain hns =>
    cases hb.symm.trans hagain
    obtain ⟨node', inside, hn', hins, -, hbound⟩ := hns.before hn
    cases hnode.symm.trans hn'
    rw [visible_iff hb, before_node hb]
    rcases hbound v (hins v hv) with (henv | hp) | hout
    · exact Or.inl (houtside v henv)
    · exact Or.inr (Or.inl hp)
    · exact Or.inr (Or.inr hout)
  | @result b block _ hreach hb hv =>
    obtain ⟨env, hsc, houtside⟩ := h.reachable hreach
    cases hsc with
    | block hagain hns =>
    cases hb.symm.trans hagain
    rw [visible_iff hb, before_end hb]
    rcases hns.returned hv with (henv | hp) | hout
    · exact Or.inl (houtside v henv)
    · exact Or.inr (Or.inl hp)
    · exact Or.inr (Or.inr hout)

end Visible

/-! ## Graphs that can be walked -/

section Walk

variable {g : Graph} {b inner : BlockId} {depth more : Nat} {v : ValueId}

/-- The block is nested directly in the other one. -/
def Nests (g : Graph) (inner b : BlockId) : Prop :=
  ∃ block n node, g.block? b = some block ∧ n ∈ block.nodes ∧ g.node? n = some node ∧
    inner ∈ node.blocks

/-- Everything in the block is there, and blocks nest at most so deep. -/
def Walkable (g : Graph) (depth : Nat) (b : BlockId) : Prop :=
  ∃ nodes, g.walkWithin depth b = some nodes

section

variable {α β : Type} {question : α → Option β} {as : List α} {bs : List β}

theorem forall₂_of_mapM (h : as.mapM question = some bs) :
    Forall₂ (fun a b => question a = some b) as bs := by
  induction as generalizing bs with
  | nil =>
    cases h
    exact .nil
  | cons a as ih =>
    rw [mapM_cons] at h
    obtain ⟨b, hb, h⟩ := bind_eq_some_iff.mp h
    obtain ⟨rest, hr, h⟩ := bind_eq_some_iff.mp h
    cases h
    exact .cons hb (ih hr)

theorem exists_left_of_forall₂ {R : α → β → Prop} {b : β} (h : Forall₂ R as bs) (hb : b ∈ bs) :
    ∃ a ∈ as, R a b := by
  induction h with
  | nil => cases hb
  | cons hab _ ih =>
    rcases mem_cons.mp hb with rfl | hb
    · exact ⟨_, (.head _), hab⟩
    · obtain ⟨a, ha, hr⟩ := ih hb
      exact ⟨a, mem_cons_of_mem _ ha, hr⟩

theorem mapM_of_forall₂ (h : Forall₂ (fun a b => question a = some b) as bs) :
    as.mapM question = some bs := by
  induction h with
  | nil => rfl
  | cons hb _ ih =>
    rw [mapM_cons, hb, ih]
    rfl

theorem exists_mapM (h : ∀ a ∈ as, ∃ b, question a = some b) :
    ∃ bs, as.mapM question = some bs := by
  induction as with
  | nil => exact ⟨[], rfl⟩
  | cons a as ih =>
    obtain ⟨b, hb⟩ := h a (.head _)
    obtain ⟨bs, hbs⟩ := ih fun c hc => h c (.tail _ hc)
    exact ⟨b :: bs, mapM_of_forall₂ (.cons hb (forall₂_of_mapM hbs))⟩

theorem exists_of_mapM {a : α} (h : as.mapM question = some bs) (ha : a ∈ as) :
    ∃ b ∈ bs, question a = some b := by
  induction as generalizing bs with
  | nil => cases ha
  | cons first rest ih =>
    rw [mapM_cons] at h
    obtain ⟨b, hb, h⟩ := bind_eq_some_iff.mp h
    obtain ⟨more, hmore, h⟩ := bind_eq_some_iff.mp h
    cases h
    rcases mem_cons.mp ha with rfl | hlater
    · exact ⟨b, (.head _), hb⟩
    · obtain ⟨answer, hanswer, heq⟩ := ih hmore hlater
      exact ⟨answer, mem_cons_of_mem _ hanswer, heq⟩

end

theorem Walkable.block (h : g.Walkable depth b) : ∃ inside block, depth = inside + 1 ∧
    g.block? b = some block ∧ ∀ n ∈ block.nodes, ∃ node, g.node? n = some node ∧
      ∀ inner ∈ node.blocks, g.Walkable inside inner := by
  obtain ⟨nodes, h⟩ := h
  cases depth with
  | zero => cases h
  | succ inside =>
    obtain ⟨block, hb, h⟩ := bind_eq_some_iff.mp h
    obtain ⟨runs, hruns, -⟩ := bind_eq_some_iff.mp h
    refine ⟨inside, block, rfl, hb, fun n hn => ?_⟩
    obtain ⟨run, -, hrun⟩ := exists_of_mapM hruns hn
    obtain ⟨node, hnode, hrun⟩ := bind_eq_some_iff.mp hrun
    obtain ⟨nested, hnest, -⟩ := bind_eq_some_iff.mp hrun
    refine ⟨node, hnode, fun inner hin => ?_⟩
    obtain ⟨inside, -, hinside⟩ := exists_of_mapM hnest hin
    exact ⟨inside, hinside⟩

theorem walkable_succ {block : Block} (hb : g.block? b = some block)
    (h : ∀ n ∈ block.nodes, ∃ node, g.node? n = some node ∧
      ∀ inner ∈ node.blocks, g.Walkable depth inner) : g.Walkable (depth + 1) b := by
  have hruns : ∃ runs, (block.nodes.mapM fun n => do
      let node ← g.node? n
      let nested ← node.blocks.mapM (walkWithin g depth)
      some (n :: nested.flatten)) = some runs := by
    refine exists_mapM fun n hn => ?_
    obtain ⟨node, hnode, hnest⟩ := h n hn
    obtain ⟨runs, hruns⟩ := exists_mapM hnest
    exact ⟨_, bind_eq_some_iff.mpr ⟨node, hnode, bind_eq_some_iff.mpr ⟨runs, hruns, rfl⟩⟩⟩
  obtain ⟨runs, hruns⟩ := hruns
  exact ⟨runs.flatten, bind_eq_some_iff.mpr ⟨block, hb, bind_eq_some_iff.mpr ⟨runs, hruns, rfl⟩⟩⟩

theorem Walkable.mono (h : g.Walkable depth b) (hle : depth ≤ more) : g.Walkable more b := by
  induction depth generalizing b more with
  | zero =>
    obtain ⟨_, _, hdepth, -⟩ := h.block
    cases hdepth
  | succ depth ih =>
    obtain ⟨_, block, hdepth, hb, hns⟩ := h.block
    obtain rfl := Nat.succ.inj hdepth
    obtain ⟨more, rfl⟩ : ∃ inside, more = inside + 1 := ⟨more - 1, by omega⟩
    refine walkable_succ hb fun n hn => ?_
    obtain ⟨node, hnode, hnest⟩ := hns n hn
    exact ⟨node, hnode, fun inner hin => ih (hnest inner hin) (by omega)⟩

theorem Walkable.nested (h : g.Walkable depth b) (hnests : g.Nests inner b) :
    ∃ inside < depth, g.Walkable inside inner := by
  obtain ⟨inside, block, rfl, hb, hns⟩ := h.block
  obtain ⟨block', n, node, hb', hn, hnode, hin⟩ := hnests
  cases hb.symm.trans hb'
  obtain ⟨node', hn', hwalk⟩ := hns n hn
  cases hnode.symm.trans hn'
  exact ⟨inside, Nat.lt_succ_self inside, hwalk inner hin⟩

theorem Walkable.within (h : g.Walkable depth b) (hnests : Relation.TransGen g.Nests inner b) :
    ∃ inside < depth, g.Walkable inside inner := by
  induction hnests using Relation.TransGen.head_induction_on with
  | single hnests => exact h.nested hnests
  | head hnests _ ih =>
    obtain ⟨middle, hlt, hmid⟩ := ih
    obtain ⟨inside, hlt', hinside⟩ := hmid.nested hnests
    exact ⟨inside, Nat.lt_trans hlt' hlt, hinside⟩

theorem Walkable.acyclic (h : g.Walkable depth b) : ¬ Relation.TransGen g.Nests b b := by
  intro hcycle
  induction depth using Nat.strong_induction_on with
  | _ depth ih =>
    obtain ⟨inside, hlt, hinside⟩ := h.within hcycle
    exact ih inside hlt hinside

/-! ### Each value is defined once -/

theorem Coherent.defines_param (hc : g.Coherent) {block : Block} (hdefs : g.Defines inner v)
    (hb : g.block? b = some block) (hv : v ∈ block.params) :
    Relation.ReflTransGen g.Nests b inner := by
  have hp : g.ParamOf v b := hc.param b block v hb hv
  induction hdefs with
  | param hb' hv' =>
    obtain rfl := hp.unique (hc.param _ _ _ hb' hv')
    exact .refl
  | output _ _ hnode' hv' => exact absurd hp (OutputOf.not_paramOf (hc.output _ _ _ hnode' hv'))
  | nested hb' hn' hnode' hinner' _ ih => exact (ih hv hp).tail ⟨_, _, _, hb', hn', hnode', hinner'⟩

theorem Coherent.defines_output (hc : g.Coherent) {block : Block} {n : NodeId} {node : Node}
    (hdefs : g.Defines inner v) (hb : g.block? b = some block) (hn : n ∈ block.nodes)
    (hnode : g.node? n = some node) (hv : v ∈ node.outputs) :
    Relation.ReflTransGen g.Nests b inner := by
  have hout : g.OutputOf v n := hc.output n node v hnode hv
  induction hdefs with
  | param hb' hv' => exact absurd (hc.param _ _ _ hb' hv') hout.not_paramOf
  | output hb' hn' hnode' hv' =>
    obtain rfl := hout.unique (hc.output _ _ _ hnode' hv')
    obtain rfl := owner_unique (hc.placed _ _ _ hb hn) (hc.placed _ _ _ hb' hn')
    exact .refl
  | nested hb' hn' hnode' hinner' _ ih =>
    exact (ih hv hout).tail ⟨_, _, _, hb', hn', hnode', hinner'⟩

/-! ### From visibility -/

section Descent

variable (hc : g.Coherent) (hdistinct : ∀ b block, g.block? b = some block → block.nodes.Nodup)
  (hscoped : g.WellScoped)

include hc hdistinct hscoped

theorem inScope_block (hwalk : g.Walkable depth b) (hreach : g.Reachable b)
    {env : ValueId → Prop} (houtside : ∀ v, g.Outside b v → env v)
    (hnew : ∀ v, g.Defines b v → ¬ env v) : g.InScope env (.block b) := by
  induction depth generalizing b env with
  | zero =>
    obtain ⟨_, _, hdepth, -⟩ := hwalk.block
    cases hdepth
  | succ depth ih =>
    obtain ⟨_, block, hdepth, hb, hns⟩ := hwalk.block
    obtain rfl := Nat.succ.inj hdepth
    refine .block hb ?_
    -- The nodes of the block one after the other, with what is visible before each.
    suffices hsuffix : ∀ (later done : List NodeId) (inside : ValueId → Prop),
        block.nodes = done ++ later →
        (∀ v, inside v ↔ env v ∨ v ∈ block.params ∨ g.OutputIn done v) →
        g.InScope inside (.nodes later block.results) by
      exact hsuffix block.nodes [] _ rfl fun v => by simp [OutputIn]
    intro later
    induction later with
    | nil =>
      intro done inside hsplit hinside
      refine .done fun v hv => (hinside v).mpr ?_
      have hvis := hscoped _ _ (.result hreach hb hv)
      rw [visible_iff hb, before_end hb] at hvis
      rw [append_nil] at hsplit
      exact (hsplit ▸ hvis).imp_left (houtside v)
    | cons n later ihlater =>
      intro done inside hsplit hinside
      have hn : n ∈ block.nodes := hsplit ▸ mem_append_right _ (.head _)
      obtain ⟨node, hnode, hwalks⟩ := hns n hn
      have hnotDone : n ∉ done := by
        have hnodup := hsplit ▸ hdistinct b block hb
        exact fun hmem => (nodup_append.mp hnodup).2.2 n hmem n (.head _) rfl
      have hbef : block.nodes.takeWhile (· ≠ n) = done := by
        rw [hsplit, takeWhile_append_of_pos]
        · simp
        · intro m hm
          have hne : m ≠ n := fun heq => hnotDone (heq ▸ hm)
          simpa using hne
      have hvis : ∀ v, g.Visible ⟨b, some n⟩ v → inside v := by
        intro v hv
        rw [visible_iff hb, before_node hb, hbef] at hv
        exact (hinside v).mpr (hv.imp_left (houtside v))
      -- Something defined in a nested block is not defined in this one too.
      have hfresh : ∀ inner ∈ node.blocks, ∀ v, g.Defines inner v →
          ¬ inside v ∧ v ∉ node.outputs := by
        intro inner hin v hv
        have hnests : g.Nests inner b := ⟨block, n, node, hb, hn, hnode, hin⟩
        have hacyc := hwalk.acyclic
        refine ⟨fun hseen => ?_, fun hout => ?_⟩
        · rcases (hinside v).mp hseen with henv | hp | ⟨m, hm, placed, hpl, hout⟩
          · exact hnew v (.nested hb hn hnode hin hv) henv
          · exact hacyc (.tail' (hc.defines_param hv hb hp) hnests)
          · exact hacyc (.tail' (hc.defines_output hv hb
              (hsplit ▸ mem_append_left _ hm) hpl hout) hnests)
        · exact hacyc (.tail' (hc.defines_output hv hb hn hnode hout) hnests)
      refine .node hnode (fun v hv => hvis v (hscoped _ _ (.input hreach hb hn hnode hv)))
        (fun inner hin => ?_) (fun v hv hseen => ?_) hfresh ?_
      · refine ih (hwalks inner hin) (.nested hreach hb hn hnode hin) (fun v hv => ?_)
          (fun v hv => (hfresh inner hin v hv).1)
        obtain ⟨outer, henc, hv⟩ := hv
        have hhere : g.Encloses ⟨b, some n⟩ inner :=
          ⟨n, node, block, rfl, hb, hn, hnode, hin⟩
        obtain rfl := hc.encloses_unique henc hhere
        exact hvis v hv
      · have houtput : g.OutputOf v n := hc.output n node v hnode hv
        rcases (hinside v).mp hseen with henv | hp | ⟨m, hm, placed, hpl, hout⟩
        · exact hnew v (.output hb hn hnode hv) henv
        · exact houtput.not_paramOf (hc.param b block v hb hp)
        · obtain rfl := houtput.unique (hc.output m placed v hpl hout)
          exact hnotDone hm
      · refine ihlater (done ++ [n]) _ (by simp [hsplit]) fun v => ?_
        have happend : g.OutputIn (done ++ [n]) v ↔ g.OutputIn done v ∨ v ∈ node.outputs := by
          simp [OutputIn, or_and_right, exists_or, hnode]
        rw [happend, hinside]
        tauto

theorem inScope_of_wellScoped (hroot : ∀ n node, g.node? n = some node → root ∉ node.blocks)
    (hwalk : g.Walkable depth root) : g.InScope (fun _ => False) (.block root) := by
  refine inScope_block hc hdistinct hscoped hwalk .root ?_ (fun _ _ => id)
  rintro v ⟨outer, ⟨n, node, block, -, -, -, hn, hnest⟩, -⟩
  exact hroot n node hn hnest

end Descent

end Walk

end Flowgraph.Graph
