import Flowgraph.Proofs.Arenas
import Flowgraph.Proofs.Locations.Policy

/-!
# Diagnostics and nodes stand inside the program

A definition is lowered under the policy that every node and every fault has its place in it.  What
is lifted keeps the places of the nodes, and lifting reports nothing but internal errors.  Hence
`Def.compile_located`.
-/

namespace Flowgraph

open Lower

/-- Nodes stand in the definition or nowhere, and faults stand in it or are internal. -/
def DefOf.policy (definition : DefOf Stmt) (ctx : LowerContext) : Policy where
  ctx
  span span := span = .null ∨ span ∈ definition.spans
  fault fault := (∃ cause, fault = .internal cause) ∨
    ∃ span ∈ definition.spans, fault.span? = some span
  null := Or.inl rfl
  internal cause := Or.inl ⟨cause, rfl⟩

theorem Def.lower_located (definition : Def) (ctx : LowerContext) :
    Keeps (definition.policy ctx).law definition.lower := by
  refine Def.lower_obeys definition ⟨fun span hspan => ?_⟩ fun nested _ hplace hstatements => ?_
  · exact ⟨Or.inr hspan, fun hplace _ _ _ => Or.inr ⟨span, hspan, hplace⟩⟩
  · refine hstatements.bind fun _ => .bodyResult fun name ctx s hctx hs => ?_
    have hother : (definition.policy _).fault (.name nested.span (.undefined name)) :=
      hplace.fault rfl rfl hctx hs
    exact hother.imp (fun ⟨_, h⟩ => nomatch h) id

/-! ## Lifting -/

namespace Lift

variable {α β : Type} {n : NodeId}

/-- A fault of the action is an internal error. -/
def Guarded (action : Lift α) : Prop :=
  ∀ g fault, action g = .error (.fault fault) → ∃ cause, fault = .internal cause

namespace Guarded

theorem pure {a : α} : Guarded (Pure.pure a : Lift α) := fun _ _ h => nomatch h

theorem bind {action : Lift α} {f : α → Lift β} (h : Guarded action)
    (hf : ∀ a, Guarded (f a)) : Guarded (action >>= f) := by
  intro g fault hrun
  replace hrun : Except.bind (action g) (fun answer => f answer.1 answer.2) = _ := hrun
  cases hfirst : action g with rw [hfirst] at hrun
  | error failure =>
    cases hrun
    exact h g fault hfirst
  | ok answer => exact hf answer.1 answer.2 fault hrun

theorem forM {f : α → Lift PUnit} {items : List α} (h : ∀ a ∈ items, Guarded (f a)) :
    Guarded (items.forM f) := by
  induction items with
  | nil => exact pure
  | cons item rest ih =>
    exact (h item List.mem_cons_self).bind fun _ => ih fun a ha =>
      h a (List.mem_cons_of_mem item ha)

theorem query {question : Graph → Option α} : Guarded (query question) := by
  unfold Lift.query
  refine bind (fun _ _ hget => by cases hget) fun g => ?_
  cases question g with
  | some => exact pure
  | none => exact fun _ _ hrun => by cases hrun

theorem update {change : Graph → Option Graph} : Guarded (update change) :=
  query.bind fun _ _ _ h => nomatch h

theorem fail {cause : InternalCause} : Guarded (fail cause : Lift α) := by
  intro g fault hrun
  cases hrun
  exact ⟨cause, rfl⟩

theorem lowerFork : Guarded (lowerFork n) := by
  unfold Lift.lowerFork
  refine query.bind fun fork => ?_
  split
  · exact fail
  · refine query.bind fun closure => ?_
    split
    · exact query.bind fun _ => fail
    · refine query.bind fun node => ?_
      split
      · exact fail
      · refine update.bind fun _ => query.bind fun remaining => ?_
        split
        · exact update
        · exact pure

theorem lowerOuterForks {body : BlockId} : Guarded (lowerOuterForks body) := by
  refine query.bind fun nodes => forM fun n _ => query.bind fun forks => ?_
  split
  · exact lowerFork
  · exact pure

theorem liftClosure {liftRoot : Lift Unit} (h : Guarded liftRoot) :
    Guarded (liftClosure liftRoot n) := by
  have hroot : ∀ subgraph, Guarded (liftM (liftRoot subgraph) : Lift (Unit × Graph)) := by
    intro subgraph g fault hrun
    refine h subgraph fault ?_
    cases hlifted : liftRoot subgraph with rw [hlifted] at hrun
    | error failure =>
      cases hrun
      rfl
    | ok answer => cases hrun
  unfold Lift.liftClosure
  refine query.bind fun node => ?_
  split
  · exact fail
  · exact lowerOuterForks.bind fun _ => query.bind fun extracted => (hroot _).bind fun _ => update

theorem liftBlock (depth : Nat) (b : BlockId) : Guarded (liftBlock depth b) := by
  induction depth generalizing b with
  | zero => exact fun _ _ h => nomatch h
  | succ depth ih =>
    refine query.bind fun block => forM fun n _ => query.bind fun node => ?_
    split
    · exact liftClosure (ih _)
    · exact lowerFork
    · exact forM fun nested _ => ih nested

end Guarded

end Lift

theorem Graph.liftClosures_guarded {g : Graph} {fault : Fault}
    (h : g.liftClosures = .error (.fault fault)) : ∃ cause, fault = .internal cause := by
  unfold Graph.liftClosures at h
  cases hrun : Lift.liftBlock g.blocks.length root g with rw [hrun] at h
  | ok answer => cases h
  | error failure =>
    cases h
    exact Lift.Guarded.liftBlock _ _ g fault hrun

namespace Graph.Located

variable {g : Graph} {P : Span → Prop}

theorem iff_node? : g.Located P ↔ ∀ n node, g.node? n = some node → P node.span := by
  refine ⟨fun h n node hn => h node (List.mem_of_getElem? hn), fun h node hn => ?_⟩
  obtain ⟨index, hindex⟩ := List.mem_iff_getElem?.mp hn
  exact h ⟨index⟩ node hindex

theorem mapNode (h : g.Located P) (n : NodeId) {f : Node → Node}
    (hf : ∀ node, (f node).span = node.span) : (g.mapNode n f).Located P := by
  rw [iff_node?] at h ⊢
  intro m made hm
  obtain ⟨node, hn, rfl | ⟨-, rfl⟩⟩ := exists_of_mapNode hm
  · exact h m made hn
  · exact (hf node).symm ▸ h m node hn

end Graph.Located

theorem located_respects (P : Span → Prop) :
    Lifting.Respects (Graph.Located P) (Graph.Located P) where
  lowered h _ := h.mapNode _ fun _ => rfl
  removed h _ _ := by
    rw [Graph.Located.iff_node?] at h ⊢
    intro m made hm
    obtain ⟨node, hn, _, rfl⟩ := Graph.exists_node?_of_removed hm
    exact h m node hn
  extracted h _ _ hmir _ := by
    rw [Graph.Located.iff_node?] at h ⊢
    intro m made hm
    obtain ⟨n, node, -, hn, hcopy⟩ := hmir.copied.node m made hm
    exact hcopy.span ▸ h n node hn
  lifted h _ _ _ _ := h.mapNode _ fun _ => rfl

/-! ## Compiling -/

variable {definition : Def} {host : Host} {settings : Settings}

theorem Def.compile_error {failure : Failure}
    (h : definition.compile host settings = .error failure) :
    definition.lower { host, settings } {} = .error failure ∨
      ∃ g : Graph, g.liftClosures = .error failure := by
  cases hlower : definition.lower { host, settings } {} with
  | error found =>
    rw [Def.compile, Def.toGraph, hlower] at h
    cases h
    exact Or.inl rfl
  | ok answer =>
    rw [Def.compile, Def.toGraph, hlower] at h
    refine Or.inr ⟨answer.2.builder.graph, ?_⟩
    cases hlift : settings.liftClosures with simp only [hlift] at h
    | false => cases h
    | true =>
      replace h : Except.bind answer.2.builder.graph.liftClosures _ = _ := h
      cases hlifted : answer.2.builder.graph.liftClosures with rw [hlifted] at h
      | ok g => cases h
      | error found =>
        cases h
        rfl

/-- An error has its place in the definition, unless it is internal, and so have all nodes of the
graph and of the bodies in it, unless they have none. -/
theorem Def.compile_located (definition : Def) (host : Host) (settings : Settings) :
    match definition.compile host settings with
    | .ok compiled => compiled.graph.Throughout
        (Graph.Located fun span => span = .null ∨ span ∈ definition.spans)
    | .error (.fault fault) => (∃ cause, fault = .internal cause) ∨
        ∃ span ∈ definition.spans, fault.span? = some span
    | .error .dangling => True := by
  have hlower := definition.lower_located { host, settings } { host, settings } {} rfl
    ⟨(fun _ h => nomatch h), fun _ h => nomatch h⟩
  cases hcompile : definition.compile host settings with
  | error failure =>
    cases failure with
    | dangling => trivial
    | fault fault =>
      rcases Def.compile_error hcompile with hrun | ⟨graph, hlift⟩
      · rwa [hrun] at hlower
      · exact Or.inl (Graph.liftClosures_guarded hlift)
  | ok compiled =>
    refine Def.compile_throughout (located_respects _) hcompile fun signature graph hgraph => ?_
    obtain ⟨⟨_, t⟩, hrun, hanswer⟩ := Except.bind_eq_ok hgraph
    cases hanswer
    rw [hrun] at hlower
    exact hlower.nodes

end Flowgraph
