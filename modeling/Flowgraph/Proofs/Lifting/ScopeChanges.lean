import Flowgraph.Proofs.Lifting.CopyScope
import Flowgraph.Proofs.Lifting.Runs

/-!
# Changes of a graph in scope

What lifting does to a node keeps a graph in scope: a node may take other inputs, as long as they
were visible wherever it stands (`Graph.InScope.mapNode`), and a node may be taken out whose only
output nothing uses (`Graph.InScope.removed`).
-/

namespace Flowgraph

open List Option

namespace Graph

variable {n m : NodeId} {b inner : BlockId} {v : ValueId} {block block' : Block} {node node' : Node}
  {f : Node → Node}
variable {g : Graph} {env env' : ValueId → Prop} {item item' : Item}

/-- What a visible value was computed from is visible. -/
def Closed (g : Graph) (env : ValueId → Prop) : Prop :=
  ∀ v n, env v → g.OutputOf v n → ∀ node, g.node? n = some node → ∀ u ∈ node.inputs, env u

/-- Values come from where their origins say. -/
structure Traced (g : Graph) : Prop where
  output : ∀ n node v, g.node? n = some node → v ∈ node.outputs → g.OutputOf v n
  param : ∀ b block v, g.block? b = some block → v ∈ block.params → g.ParamOf v b

theorem Coherent.traced (h : g.Coherent) : g.Traced := ⟨h.output, h.param⟩

theorem Closed.params (h : g.Closed env) (htraced : g.Traced)
    (hb : g.block? b = some block) : g.Closed (fun v => env v ∨ v ∈ block.params) := by
  rintro v n (henv | hp) hout node hn u hu
  · exact Or.inl (h v n henv hout node hn u hu)
  · exact absurd (htraced.param b block v hb hp) hout.not_paramOf

theorem Closed.outputs (h : g.Closed env) (htraced : g.Traced)
    (hn : g.node? n = some node) (hins : ∀ v ∈ node.inputs, env v) :
    g.Closed (fun v => env v ∨ v ∈ node.outputs) := by
  rintro v m (henv | hv) hout placed hpl u hu
  · exact Or.inl (h v m henv hout placed hpl u hu)
  · obtain rfl := hout.unique (htraced.output n node v hn hv)
    cases hn.symm.trans hpl
    exact Or.inl (hins u hu)

theorem Defines.mapNode (houts : ∀ node, (f node).outputs = node.outputs)
    (hbs : ∀ node, ∀ b ∈ (f node).blocks, b ∈ node.blocks)
    (h : (g.mapNode n f).Defines b v) : g.Defines b v := by
  have hlook : ∀ {m made}, (g.mapNode n f).node? m = some made → ∃ node,
      g.node? m = some node ∧ made.outputs = node.outputs ∧ ∀ b ∈ made.blocks, b ∈ node.blocks := by
    intro m made hmade
    obtain ⟨node, hn, rfl | ⟨-, rfl⟩⟩ := exists_of_mapNode hmade
    · exact ⟨made, hn, rfl, fun _ => id⟩
    · exact ⟨node, hn, houts node, hbs node⟩
  induction h with
  | param hb hv => exact .param hb hv
  | output hb hm hmade hv =>
    obtain ⟨node, hn, heq, -⟩ := hlook hmade
    exact .output hb hm hn (heq ▸ hv)
  | nested hb hm hmade hin _ ih =>
    obtain ⟨node, hn, -, hsub⟩ := hlook hmade
    exact .nested hb hm hn (hsub _ hin) ih

/-- A node is changed: it keeps its outputs, and what it takes now was visible where it stands. -/
theorem InScope.mapNode (h : g.InScope env item) (hclosed : g.Closed env)
    (htraced : g.Traced) (houts : ∀ node, (f node).outputs = node.outputs)
    (hbs : ∀ node, ∀ b ∈ (f node).blocks, b ∈ node.blocks) (hins : ∀ env node, g.node?
      n = some node → g.Closed env → (∀ v ∈ node.inputs, env v) → (∀ b ∈ node.blocks,
      g.InScope env (.block b)) → ∀ v ∈ (f node).inputs, env v) :
    (g.mapNode n f).InScope env item := by
  induction h with
  | block hblock _ ih => exact .block hblock (ih (hclosed.params htraced hblock))
  | done hres => exact .done hres
  | @node env m node ns results hn huses hin hnew hfresh _ ihinner ihrest =>
    have hlater := ihrest (hclosed.outputs htraced hn huses)
    have hdefs : ∀ {b v}, (g.mapNode n f).Defines b v → g.Defines b v :=
      fun hdef => hdef.mapNode houts hbs
    by_cases heq : n = m
    · subst heq
      have hchanged : (g.mapNode n f).node? n = some (f node) := by simp [hn]
      refine .node hchanged (hins env node hn hclosed huses hin)
        (fun b hb => ihinner b (hbs node b hb) hclosed) ?_ ?_ ?_
      · rw [houts]
        exact hnew
      · intro b hb v hv
        rw [houts]
        exact hfresh b (hbs node b hb) v (hdefs hv)
      · rw [houts]
        exact hlater
    · have hs : (g.mapNode n f).node? m = some node := by simp [heq, hn]
      exact .node hs huses (fun b hb => ihinner b hb hclosed) hnew
        (fun b hb v hv => hfresh b hb v (hdefs hv)) hlater

/-- The nodes of a block with or without one of them. -/
def Without (n : NodeId) (ns ns' : List NodeId) : Prop :=
  ns' = ns ∨ ns' = ns.filter (· ≠ n)

theorem block?_removed (h : g.block? b = some block) :
    ∃ block', (g.removed n).block? b = some block' ∧
      block'.params = block.params ∧ block'.results = block.results ∧
      Without n block.nodes block'.nodes := by
  unfold removed
  cases (g.node? n).bind NodeOf.owner with
  | none => exact ⟨block, h, rfl, rfl, Or.inl rfl⟩
  | some owner =>
    by_cases heq : owner = b
    · refine ⟨{ block with nodes := block.nodes.filter (· ≠ n) }, ?_, rfl, rfl, Or.inr rfl⟩
      simp [heq, h]
    · exact ⟨block, by simp [heq, h], rfl, rfl, Or.inl rfl⟩

theorem Without.subset {ns ns' : List NodeId} (h : Without n ns ns') : ns' ⊆ ns := by
  rcases h with rfl | rfl
  · exact fun _ => id
  · exact filter_subset_self _

theorem exists_block?_of_removed (h : (g.removed n).block? b = some block') :
    ∃ block, g.block? b = some block ∧
      block'.params = block.params ∧ block'.results = block.results ∧
      Without n block.nodes block'.nodes := by
  have hlen : (g.removed n).blocks.length = g.blocks.length := by
    unfold removed
    cases (g.node? n).bind NodeOf.owner <;> simp
  obtain ⟨block, hb⟩ := (exists_block?_iff g b).mpr (hlen ▸ index_lt_of_block? h)
  obtain ⟨again, hagain, hs⟩ := block?_removed (n := n) hb
  cases h.symm.trans hagain
  exact ⟨block, hb, hs⟩

theorem exists_node?_of_removed (h : (g.removed n).node? m = some node') :
    ∃ node, g.node? m = some node ∧ ∃ owner, node' = { node with owner } := by
  rw [node?_removed] at h
  split at h
  next =>
    obtain ⟨node, hn, rfl⟩ := map_eq_some_iff.mp h
    exact ⟨node, hn, none, rfl⟩
  next => exact ⟨node', h, node'.owner, rfl⟩

theorem node?_removed_of_some (h : g.node? m = some node) :
    ∃ owner, (g.removed n).node? m = some { node with owner } := by
  rw [node?_removed, h]
  split
  · exact ⟨none, rfl⟩
  · exact ⟨node.owner, rfl⟩

theorem Defines.of_removed (h : (g.removed n).Defines b v) : g.Defines b v := by
  induction h with
  | param hb hv =>
    obtain ⟨block, hb', hps, -⟩ := exists_block?_of_removed hb
    exact .param hb' (hps ▸ hv)
  | output hb hm hmade hv =>
    obtain ⟨block, hb', -, -, hns⟩ := exists_block?_of_removed hb
    obtain ⟨node, hn, owner, rfl⟩ := exists_node?_of_removed hmade
    exact .output hb' (hns.subset hm) hn hv
  | nested hb hm hmade hin _ ih =>
    obtain ⟨block, hb', -, -, hns⟩ := exists_block?_of_removed hb
    obtain ⟨node, hn, owner, rfl⟩ := exists_node?_of_removed hmade
    exact .nested hb' (hns.subset hm) hn hin ih

/-- Every node that is read stands in a block that can be reached. -/
def Item.Reached (g : Graph) : Item → Prop
  | .block b => g.Reachable b
  | .nodes ns results => ∃ b block, g.Reachable b ∧ g.block? b = some block ∧
      ns ⊆ block.nodes ∧ results = block.results

/-- What remains of the item when the node is taken out. -/
def Item.Drops (n : NodeId) : Item → Item → Prop
  | .block b, item' => item' = .block b
  | .nodes ns results, item' => ∃ ns', Without n ns ns' ∧ item' = .nodes ns' results

theorem InScope.removed (h : g.InScope env item) (hreached : item.Reached g)
    (houts : ∀ node, g.node? n = some node → ∀ w ∈ node.outputs, w = v)
    (hins : ∀ m node, g.Placed m → g.node? m = some node → v ∉ node.inputs)
    (hres : ∀ b block, g.block? b = some block → v ∉ block.results)
    (hlower : ∀ w, env w → w = v ∨ env' w) (hupper : ∀ w, env' w → env w)
    (hit : item.Drops n item') : (g.removed n).InScope env' item' := by
  have hkept : ∀ {env env' : ValueId → Prop}, (∀ w, env w → w = v ∨ env' w) →
      ∀ {ws : List ValueId}, v ∉ ws → (∀ w ∈ ws, env w) → ∀ w ∈ ws, env' w := by
    intro env env' hlower ws hv hws w hw
    exact (hlower w (hws w hw)).resolve_left fun heq => hv (heq ▸ hw)
  induction h generalizing env' item' with
  | @block env b block hblock _ ih =>
    obtain rfl := hit
    obtain ⟨block', hb', hps, hres', hwithout⟩ := block?_removed (n := n) hblock
    refine .block hb' ?_
    rw [hps, hres']
    refine ih ⟨b, block, hreached, hblock, Subset.refl _, rfl⟩ (fun w hw => ?_) (fun w hw => ?_)
      ⟨_, hwithout, rfl⟩
    · rcases hw with henv | hp
      · exact (hlower w henv).imp_right Or.inl
      · exact Or.inr (Or.inr hp)
    · exact hw.imp_left (hupper w)
  | done hdone =>
    obtain ⟨ns', hwithout, rfl⟩ := hit
    obtain ⟨b, block, -, hblock, -, rfl⟩ := hreached
    obtain rfl : ns' = [] := hwithout.elim id fun heq => heq
    exact .done (hkept hlower (hres b block hblock) hdone)
  | @node env m node ns results hn huses hin hnew hfresh _ ihinner ihrest =>
    obtain ⟨ns', hwithout, rfl⟩ := hit
    obtain ⟨b, block, hreach, hblock, hsub, rfl⟩ := hreached
    have hm : m ∈ block.nodes := hsub (.head _)
    have hlater : Item.Reached g (.nodes ns block.results) :=
      ⟨b, block, hreach, hblock, fun x hx => hsub (mem_cons_of_mem m hx), rfl⟩
    -- The node stays, and so do those after it, or some of them.
    have hstays : ∀ {rest}, Without n ns rest →
        (g.removed n).InScope env' (.nodes (m :: rest) block.results) := by
      intro rest hr
      obtain ⟨owner, hn'⟩ := node?_removed_of_some (n := n) hn
      refine .node hn' (hkept hlower (hins m node ⟨b, block, hreach, hblock, hm⟩ hn) huses)
        (fun inner hb => ihinner inner hb (.nested hreach hblock hm hn hb) hlower hupper rfl)
        (fun w hw henv' => hnew w hw (hupper w henv'))
        (fun inner hb w hw => ?_) (ihrest hlater (fun w hw => ?_) (fun w hw => ?_) ⟨rest, hr, rfl⟩)
      · obtain ⟨hout, hown⟩ := hfresh inner hb w hw.of_removed
        exact ⟨fun henv' => hout (hupper w henv'), hown⟩
      · rcases hw with henv | hout
        · exact (hlower w henv).imp_right Or.inl
        · exact Or.inr (Or.inr hout)
      · exact hw.imp_left (hupper w)
    rcases hwithout with rfl | rfl
    · exact hstays (Or.inl rfl)
    · by_cases heq : m = n
      · subst heq
        rw [filter_cons_of_neg (by simp)]
        refine ihrest hlater (fun w hw => ?_) (fun w hw => Or.inl (hupper w hw))
          ⟨_, Or.inr rfl, rfl⟩
        exact hw.elim (hlower w) fun hout => Or.inl (houts node hn w hout)
      · rw [filter_cons_of_pos (by simpa using heq)]
        exact hstays (Or.inr rfl)

/-! ## Uses -/

theorem mem_walkWithin {depth : Nat} {nodes : List NodeId} (h : g.walkWithin depth b = some nodes)
    (hnest : Relation.ReflTransGen g.Nests inner b) (hb : g.block? inner = some block)
    (hn : n ∈ block.nodes) : n ∈ nodes := by
  induction depth generalizing b nodes with
  | zero => cases h
  | succ depth ih =>
    obtain ⟨start, hstart, hwalk⟩ := bind_eq_some_iff.mp h
    obtain ⟨runs, hruns, heq⟩ := bind_eq_some_iff.mp hwalk
    cases heq
    rcases Relation.ReflTransGen.cases_tail hnest with rfl | ⟨middle, hinside, hnests⟩
    · cases hstart.symm.trans hb
      obtain ⟨run, hrun, hanswer⟩ := exists_of_mapM hruns hn
      obtain ⟨node, -, hanswer⟩ := bind_eq_some_iff.mp hanswer
      obtain ⟨nested, -, hanswer⟩ := bind_eq_some_iff.mp hanswer
      cases hanswer
      exact mem_flatten.mpr ⟨_, hrun, (.head _)⟩
    · obtain ⟨again, m, node, hagain, hm, hnode, hmid⟩ := hnests
      cases hstart.symm.trans hagain
      obtain ⟨run, hrun, hanswer⟩ := exists_of_mapM hruns hm
      obtain ⟨node', hn', hanswer⟩ := bind_eq_some_iff.mp hanswer
      cases hnode.symm.trans hn'
      obtain ⟨nested, hnestedRuns, hanswer⟩ := bind_eq_some_iff.mp hanswer
      cases hanswer
      obtain ⟨inside, hmem, hinsideRun⟩ := exists_of_mapM hnestedRuns hmid
      exact mem_flatten.mpr ⟨_, hrun, mem_cons_of_mem _
        (mem_flatten.mpr ⟨inside, hmem, ih hinsideRun hinside⟩)⟩

theorem Reachable.nests (h : g.Reachable b) : Relation.ReflTransGen g.Nests b Graph.root := by
  induction h with
  | root => exact .refl
  | nested _ hb hn hnode hin ih => exact .head ⟨_, _, _, hb, hn, hnode, hin⟩ ih

theorem mem_of_filterAuxM {α : Type} {test : α → Option Bool} {entries kept answer : List α}
    (h : entries.filterAuxM test kept = some answer) :
    (∀ a ∈ kept, a ∈ answer) ∧ ∀ a ∈ entries, ∃ passed, test a = some passed ∧
      (passed = true → a ∈ answer) := by
  induction entries generalizing kept with
  | nil =>
    cases h
    exact ⟨fun _ => id, by simp⟩
  | cons first rest ih =>
    obtain ⟨passed, htest, hr⟩ := bind_eq_some_iff.mp h
    obtain ⟨hkept, hothers⟩ := ih hr
    refine ⟨fun a ha => hkept a ?_, fun a ha => ?_⟩
    · cases passed
      · exact ha
      · exact .tail _ ha
    · rcases mem_cons.mp ha with rfl | hlater
      · refine ⟨passed, htest, fun hpassed => hkept a ?_⟩
        rw [hpassed]
        exact .head _
      · exact hothers a hlater

theorem not_mem_inputs_of_uses (h : g.uses v = some []) (hpl : g.Placed n)
    (hnode : g.node? n = some node) : v ∉ node.inputs := by
  obtain ⟨b, block, hreach, hb, hn⟩ := hpl
  obtain ⟨nodes, hwalk, hfilter⟩ := bind_eq_some_iff.mp h
  have hmem : n ∈ nodes := mem_walkWithin hwalk hreach.nests hb hn
  obtain ⟨kept, hkept, hreverse⟩ := bind_eq_some_iff.mp hfilter
  obtain rfl := reverse_eq_nil_iff.mp (Option.some.inj hreverse)
  obtain ⟨passed, htest, hpassed⟩ := (mem_of_filterAuxM hkept).2 n hmem
  obtain ⟨node', hn', hcontains⟩ := bind_eq_some_iff.mp htest
  cases hnode.symm.trans hn'
  intro hv
  have htrue : passed = true := by
    rw [← Option.some.inj hcontains]
    exact contains_iff_mem.mpr hv
  cases hpassed htrue

end Graph

end Flowgraph
