import Flowgraph.Proofs.Emission.Building
import Flowgraph.Proofs.Lifting.Scoping
import Flowgraph.Proofs.Lifting.Throughout

/-!
# The arenas of compiled graphs

However a definition compiles, the arenas of its graph and of the bodies in it fit together
(`Def.compile_structured`).  What building does to a graph keeps them in order (`Graph.Builds`), and
so do the single steps of lifting (`Lifting.Respects`).
-/

namespace Flowgraph

open Flowgraph.Graph

namespace Graph

variable {g : Graph}

/-- Nodes, blocks and values are where their back pointers say, and numbers grow on the way in. -/
structure Structured (g : Graph) : Prop where
  /-- A node that can be reached is listed once, in one block that can be reached. -/
  listed : ∀ n, g.Placed n → ∃ node b block, g.node? n = some node ∧ node.owner = some b ∧
    g.Reachable b ∧ g.block? b = some block ∧ block.nodes.count n = 1 ∧
      ∀ c other, g.Reachable c → g.block? c = some other → n ∈ other.nodes → c = b
  nested : ∀ b, g.Reachable b → b ≠ root → ∃ block n node, g.block? b = some block ∧
    block.owner = some n ∧ g.Placed n ∧ g.node? n = some node ∧ node.blocks.count b = 1
  origin : g.Homed
  later : ∀ b block n, g.block? b = some block → block.owner = some n →
    ∀ m, g.Inside b m → n.index < m.index
  walk : ∃ nodes, g.walk root = some nodes ∧ nodes.Nodup ∧ ∀ n, n ∈ nodes ↔ g.Placed n

theorem block?_removed_eq (g : Graph) (n : NodeId) (b : BlockId) : (g.removed n).block? b =
    if (g.node? n).bind NodeOf.owner = some b then
      (g.block? b).map fun block =>
        { block with nodes := block.nodes.filter fun placed => placed ≠ n }
    else g.block? b := by
  rw [removed, block?_mapNode]
  split
  next hnone => rw [if_neg (by simp [hnone])]
  next c hc => simp only [hc, block?_mapBlock, Option.some.injEq]

theorem Treelike.removed (h : g.Treelike) (n : NodeId) : (g.removed n).Treelike := by
  have hbs : ∀ b made, (g.removed n).block? b = some made → (∃ old,
      g.block? b = some old ∧ made.owner = old.owner ∧ made.nodes.Sublist old.nodes) ∧
        n ∉ made.nodes := by
    intro b made hmade
    rw [block?_removed_eq] at hmade
    split at hmade
    next =>
      obtain ⟨old, hold, rfl⟩ := Option.map_eq_some_iff.mp hmade
      exact ⟨⟨old, hold, rfl, List.filter_sublist⟩, by simp⟩
    next hother =>
      refine ⟨⟨made, hmade, rfl, .refl _⟩, fun hn => hother ?_⟩
      obtain ⟨node, hnode, hown⟩ := h.placed b made n hmade hn
      rw [hnode, Option.bind_some, hown]
  refine h.trim ⟨fun m node hm => ?_, fun m made hmade => ?_, fun b old hold => ?_,
    fun b made hmade => (hbs b made hmade).1⟩
  · by_cases hne : n = m
    · subst hne
      obtain ⟨owner, hn⟩ := node?_removed_of_some (n := n) hm
      exact ⟨_, hn, fun b block hblock hin => absurd hin (hbs b block hblock).2⟩
    · exact ⟨node, by rw [node?_removed, if_neg hne, hm], fun _ _ _ _ => rfl⟩
  · obtain ⟨old, hold, _, rfl⟩ := exists_node?_of_removed hmade
    exact Or.inr ⟨old, hold, .refl _⟩
  · rw [block?_removed_eq, hold]
    split
    · exact ⟨_, rfl, rfl⟩
    · exact ⟨old, rfl, rfl⟩

theorem Homed.removed (h : g.Homed) (n : NodeId) : (g.removed n).Homed := by
  unfold Graph.removed
  split
  · exact h.mapNode n fun _ => rfl
  · refine Homed.mapNode (h.mapBlock _ ?_) n ?_ <;> exact fun _ => rfl

theorem Orderly.structured (h : g.Orderly) : g.Structured where
  listed n hpl := by
    obtain ⟨b, block, hreach, hblock, hn⟩ := hpl
    obtain ⟨node, hnode, hown⟩ := h.tree.placed b block n hblock hn
    refine ⟨node, b, block, hnode, hown, hreach, hblock,
      List.count_eq_one_of_mem (h.tree.distinct b block hblock) hn, fun c other _ hother hin => ?_⟩
    exact owner_unique (h.tree.placed c other n hother hin) ⟨node, hnode, hown⟩
  nested b hreach hb := by
    cases hreach with
    | root => exact absurd rfl hb
    | @nested outer _ block n node hreach hblock hn hnode hinner =>
      obtain ⟨found, hfd, hown⟩ := h.tree.nested n node b hnode hinner
      exact ⟨found, n, node, hfd, hown, ⟨outer, block, hreach, hblock, hn⟩, hnode,
        List.count_eq_one_of_mem (h.tree.single n node hnode) hinner⟩
  origin := h.homed
  later b block n hblock hn m hm := h.tree.index_lt_of_inside hblock hn hm
  walk := by
    obtain ⟨block, hblock, -⟩ := h.tree.root
    obtain ⟨nodes, hwalk⟩ := h.tree.walkable (index_lt_of_block? hblock) (Nat.sub_le _ _)
    refine ⟨nodes, hwalk, h.tree.walk_nodup hwalk, fun n => ⟨fun hn => ?_, fun hn => ?_⟩⟩
    · exact Lift.exists_of_mem_walkWithin hwalk .root hn
    · obtain ⟨b, block, hreach, hblock, hn⟩ := hn
      exact mem_walkWithin hwalk hreach.nests hblock hn

end Graph

theorem orderly_respects : Lifting.Respects Orderly Orderly where
  lowered h _ :=
    ⟨h.homed.mapNode _ fun _ => rfl, h.tree.mapNode _ (fun _ => rfl) fun _ => .refl _⟩
  removed h _ _ := ⟨h.homed.removed _, h.tree.removed _⟩
  extracted _ _ _ _ h := h
  lifted h _ _ _ _ :=
    ⟨h.homed.mapNode _ fun _ => rfl, h.tree.mapNode _ (fun _ => rfl) fun _ => List.nil_sublist _⟩

/-! ## Compiled graphs -/

variable {definition : Def} {host : Host} {settings : Settings} {compiled : Compiled} {g : Graph}

theorem Def.toGraph_builds {signature : Signature}
    (h : definition.toGraph host settings = .ok (signature, g)) :
    ∃ pool, Builds (empty, []) (g, pool) ∧ Pooled [] g pool := by
  obtain ⟨body, decls, t, output, hready, hemit, -, -, -, rfl⟩ :=
    Def.toGraph_ok (A := False) False.elim h
  have hdecl : Builds (empty, []) ((LowerState.start body).declareAll root decls).stock :=
    LowerState.builds_declareAll (s := .start body) Nat.zero_lt_one decls
  have hpool := (hemit.sound hready.toWellFormed).1.pool
  exact ⟨_, (hdecl.trans (hemit.builds hready.toWellFormed)).trans
    (.result ..), hpool.of_same ((Grows.refl _).withResult ..) (WellFormed.nodes_withResult ..)⟩

theorem Graph.Unlifted.emptied (h : g.Unlifted) : g.Emptied :=
  fun n node hn _ hsome => by simp [(h n node hn).1] at hsome

theorem unlifted_empty : empty.Unlifted := fun n node hn => by
  simp [node?, empty] at hn

/-- What every step of lifting keeps and lowered graphs have, compiled graphs have, and what is
extracted has, their bodies have throughout. -/
theorem Def.compile_layered {P Q : Graph → Prop} (hP : Lifting.Respects P Q)
    (hQ : Lifting.Respects Q Q) (h : definition.compile host settings = .ok compiled)
    (hlow : ∀ signature g, definition.toGraph host settings = .ok (signature, g) → P g) :
    P compiled.graph ∧ compiled.graph.Carries Q := by
  obtain ⟨g, hg, hcases⟩ := Def.compile_ok h
  obtain ⟨_, hbuilds, -⟩ := Def.toGraph_builds hg
  have hunl := hbuilds.unlifted unlifted_empty
  have hcarries : g.Carries Q := fun n node _ hn hsome => by
    simp [(hunl n node hn).1] at hsome
  rcases hcases with ⟨-, heq⟩ | ⟨-, hlifted⟩
  · exact heq ▸ ⟨hlow _ g hg, hcarries⟩
  · exact (liftClosures_run hunl.emptied hlifted).1.layered hQ hP (hlow _ g hg) hcarries

theorem Def.compile_throughout {P : Graph → Prop} (hP : Lifting.Respects P P)
    (h : definition.compile host settings = .ok compiled)
    (hlow : ∀ signature g, definition.toGraph host settings = .ok (signature, g) → P g) :
    compiled.graph.Throughout P :=
  have ⟨hg, hcarries⟩ := Def.compile_layered hP hP h hlow
  .intro hg hcarries

theorem Def.compile_orderly (h : definition.compile host settings = .ok compiled) :
    compiled.graph.Throughout Orderly :=
  Def.compile_throughout orderly_respects h fun _ _ hg =>
    have ⟨_, hbuilds, _⟩ := Def.toGraph_builds hg
    ⟨hbuilds.homed homed_empty, hbuilds.treelike treelike_empty⟩

/-- The arenas of a compiled graph, and of the bodies in it, fit together. -/
theorem Def.compile_structured {compiled : Compiled}
    (h : definition.compile host settings = .ok compiled) : compiled.graph.Throughout Structured :=
  (Def.compile_orderly h).imp fun _ => Orderly.structured

/-- Closures are lifted, dropped and forked in another closure. -/
theorem forkedTwice_structured : ∃ compiled, forkedTwice.compile Host.empty {} = .ok compiled ∧
    (∃ node ∈ compiled.graph.nodes, node.subgraph.isSome) ∧
      compiled.graph.Throughout Structured := by
  obtain ⟨compiled, hcompiled, hbody⟩ : ∃ compiled,
    forkedTwice.compile Host.empty {} = .ok compiled ∧
      ∃ node ∈ compiled.graph.nodes, node.subgraph.isSome := by
    decide +kernel
  exact ⟨compiled, hcompiled, hbody, Def.compile_structured hcompiled⟩

end Flowgraph
