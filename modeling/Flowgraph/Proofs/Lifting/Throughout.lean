import Flowgraph.Proofs.Lifting.Arena
import Flowgraph.Proofs.Lifting.ScopeChanges

/-!
# Properties of a graph and of the bodies in it

A lifted graph carries graphs of its own.  `Graph.Throughout` says that a property holds of a graph,
of the bodies that its nodes carry, and so on down.  What lifting makes of a graph has a property
throughout if the single steps keep it, and what is extracted may have another one:
`Lifting.layered`.
-/

namespace Flowgraph

open Flowgraph.Graph

/-- The graph and the bodies that its nodes carry have the property, and so on down. -/
inductive Graph.Throughout (P : Graph → Prop) : Graph → Prop
  | intro {g : Graph} (holds : P g)
      (bodies : ∀ n node subgraph, g.node? n = some node → node.subgraph = some subgraph →
        Throughout P subgraph) : Throughout P g

namespace Graph.Throughout

variable {P Q : Graph → Prop} {g : Graph}

theorem imp (h : g.Throughout P) (hpq : ∀ g, P g → Q g) : g.Throughout Q := by
  induction h with
  | intro holds _ ih => exact .intro (hpq _ holds) ih

end Graph.Throughout

/-- What the nodes carry has the property throughout. -/
def Graph.Carries (P : Graph → Prop) (g : Graph) : Prop :=
  ∀ n node subgraph, g.node? n = some node → node.subgraph = some subgraph → subgraph.Throughout P

theorem Graph.Carries.of_bodies {P : Graph → Prop} {g g' : Graph} (h : g.Carries P)
    (hbodies : ∀ n node' subgraph, g'.node? n = some node' → node'.subgraph = some subgraph →
      (∃ m node, g.node? m = some node ∧ node.subgraph = some subgraph) ∨
        subgraph.Throughout P) : g'.Carries P := by
  intro n node' subgraph hn' hsub
  rcases hbodies n node' subgraph hn' hsub with ⟨m, node, hn, hs⟩ | hnew
  · exact h m node subgraph hn hs
  · exact hnew

/-- A property of graphs is kept by each step of lifting, and gives bodies another one when they are
extracted. -/
structure Lifting.Respects (P Q : Graph → Prop) : Prop where
  lowered : ∀ {g subgraph : Graph} {n producer : NodeId} {fork node : Node} {closure : ValueId}
    {args : List ValueId}, P g → g.ForkOf n fork closure args producer node subgraph →
    P (g.lowered n (args ++ node.inputs) subgraph)
  removed : ∀ {g : Graph} {n : NodeId} {node : Node}, P g → g.node? n = some node →
    node.op = .closure → P (g.removed n)
  extracted : ∀ {g extracted : Graph} {n : NodeId} {node : Node} {body : BlockId} {l : Ledger},
    P g → g.node? n = some node → body ∈ node.blocks → MirrorsBody g extracted body l →
    extracted.Orderly → Q extracted
  lifted : ∀ {g extracted : Graph} {n : NodeId} {node : Node} {body : BlockId} {l : Ledger},
    P g → g.node? n = some node → node.op = .closure → MirrorsBody g extracted body l →
    ∀ subgraph, P (g.lifted n l.captured subgraph)

/-- Lifting keeps a property of the graph, and the bodies that it extracts have another one. -/
theorem Lifting.layered {P Q : Graph → Prop} (hQ : Lifting.Respects Q Q) {g g' : Graph}
    (h : Lifting g g') (hP : Lifting.Respects P Q) (hg : P g) (hcarries : g.Carries Q) :
    P g' ∧ g'.Carries Q := by
  induction h generalizing P with
  | refl => exact ⟨hg, hcarries⟩
  | @lower g dropped g' subgraph n producer fork node closure args _ hforks hdrop _ ih =>
      have hlow := hP.lowered hg hforks
      have hbodies : (g.lowered n (args ++ node.inputs) subgraph).Carries Q := by
        refine hcarries.of_bodies fun m made body hm hbody => Or.inl ?_
        obtain ⟨old, hold, rfl | ⟨-, rfl⟩⟩ := exists_of_mapNode hm
        · exact ⟨m, made, hold, hbody⟩
        · cases hbody
          exact ⟨producer, node, hforks.there, hforks.carries⟩
      rcases hdrop with rfl | ⟨-, rfl⟩
      · exact ih hP hlow hbodies
      · refine ih hP (hP.removed hlow (hforks.node?_lowered _) hforks.made)
          (hbodies.of_bodies fun m made body hm hbody => Or.inl ?_)
        obtain ⟨found, hfd, _, rfl⟩ := exists_node?_of_removed hm
        exact ⟨m, found, hfd, hbody⟩
  | @lift g extracted subgraph g' n node body others captured _ hn hop hbs hextract _ _ _
      ihInner ihRest =>
      obtain ⟨l, rfl, hmir⟩ := hextract.mirrorsBody
      have hin : body ∈ node.blocks := by simp [hbs]
      have hbody : subgraph.Throughout Q := by
        have hinner := ihInner hQ (hP.extracted hg hn hin hmir hextract.orderly)
          (hcarries.of_bodies fun m made body hm hbody => Or.inl ?_)
        · exact .intro hinner.1 hinner.2
        · obtain ⟨source, old, -, hold, hcopy⟩ := hmir.copied.node m made hm
          exact ⟨source, old, hold, hcopy.subgraph ▸ hbody⟩
      refine ihRest hP (hP.lifted hg hn hop hmir subgraph)
        (hcarries.of_bodies fun m made body hm hsub => ?_)
      obtain ⟨old, hold, rfl | ⟨-, rfl⟩⟩ := exists_of_mapNode hm
      · exact Or.inl ⟨m, made, hold, hsub⟩
      · exact Or.inr (Option.some.inj hsub ▸ hbody)

end Flowgraph
