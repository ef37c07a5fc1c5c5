import Flowgraph.Proofs.Arenas
import Flowgraph.Proofs.Emission.Lawfulness
import Flowgraph.Proofs.Lifting.Types

/-!
# The operations of compiled graphs

In a compiled graph, and in the bodies in it, every primitive accepts the types of its inputs and
gives the type of its output (`Def.compile_primitivesCheck`), and all branches and loops have the
same form (`Def.compile_controlled`).  Lowering establishes both (`Emission.lawful`); lifting keeps
them because it only changes closures and forks, and copies whatever else it touches.
-/

namespace Flowgraph

open Flowgraph.Graph List

variable {A : Prop} {ty : NodeType} {node fork : Node}

/-- What lifting keeps of the law of a node. -/
structure NodeType.Fits (A : Prop) (ty : NodeType) : Prop where
  primitive : ∀ primitive, ty.op = .primitive primitive → ty.Checks primitive
  unwrap : ty.op = .unwrap → ty.Unwraps
  branch : A → ty.op = .branch → ty.IsBranch
  loop : A → ty.op = .loop → ty.IsLoop

theorem NodeType.Lawful.fits (h : ty.Lawful A) : ty.Fits A := by
  unfold NodeType.Lawful at h
  refine ⟨fun primitive hop => ?_, fun hop => ?_, fun hA hop => ?_, fun hA hop => ?_⟩
  · simpa only [hop] using h
  · simpa only [hop] using h
  · simp only [hop] at h
    exact h hA
  · simp only [hop] at h
    exact h hA

theorem NodeType.fits_of_op (h : ty.op = .closure ∨ ty.op = .fork) : ty.Fits A := by
  rcases h with h | h <;> exact ⟨by simp [h], by simp [h], by simp [h], by simp [h]⟩

/-- The nodes have types that fit their operations. -/
def Graph.WellTyped (A : Prop) (g : Graph) : Prop :=
  ∀ n node, g.node? n = some node → ∃ ty, g.HasNodeType [] node ty ∧ ty.Fits A

namespace Graph.WellTyped

variable {A : Prop} {g subgraph copy : Graph} {n : NodeId}

section

variable (h : g.WellTyped A)
include h

theorem mapNode {f : Node → Node}
    (hf : ∀ node, g.node? n = some node → ((f node).op = .closure ∨ (f node).op = .fork) ∧
      ∃ ty, g.HasNodeType [] (f node) ty) : (g.mapNode n f).WellTyped A := by
  intro m made hm
  obtain ⟨node, hn, rfl | ⟨rfl, rfl⟩⟩ := exists_of_mapNode hm
  · obtain ⟨ty, hty, hfits⟩ := h m made hn
    exact ⟨ty, hty.mapNode n f, hfits⟩
  · obtain ⟨hop, ty, hty⟩ := hf node hn
    exact ⟨ty, hty.mapNode n f, NodeType.fits_of_op (hty.op ▸ hop)⟩

theorem lowered {producer} {closure : ValueId} {args : List ValueId}
    (hforks : g.ForkOf n fork closure args producer node subgraph) :
    (g.lowered n (args ++ node.inputs) subgraph).WellTyped A := by
  refine h.mapNode fun found hfd => ⟨.inr rfl, ?_⟩
  cases hforks.here.symm.trans hfd
  obtain ⟨ty, hty, -⟩ := h n fork hforks.here
  obtain ⟨captured, hcapt, -⟩ := h producer node hforks.there
  have hset := hty.inputs
  rw [hforks.inputs] at hset
  obtain ⟨_, argTys, -, hargs, -⟩ := forall₂_cons_left_iff.mp hset
  exact ⟨⟨.fork, argTys ++ captured.inputs, ty.outputs, ty.blocks⟩, rfl,
    rel_append hargs hcapt.inputs, hty.outputs, hty.blocks⟩

theorem removed (n : NodeId) : (g.removed n).WellTyped A := by
  intro m made hm
  obtain ⟨node, hn, owner, rfl⟩ := exists_node?_of_removed hm
  obtain ⟨ty, hty, hfits⟩ := h m node hn
  obtain ⟨hop, hins, houts, hbs⟩ := hty.removed n
  exact ⟨ty, ⟨hop, hins, houts, hbs⟩, hfits⟩

theorem extracted {body : BlockId} {l}
    (hmir : MirrorsBody g copy body l) (hcopy : copy.Treelike) : copy.WellTyped A := by
  intro m made hm
  obtain ⟨source, node, -, hn, hmade'⟩ := hmir.copied.node m made hm
  obtain ⟨ty, hty, hfits⟩ := h source node hn
  exact ⟨ty, hmir.hasNodeType hcopy hm hmade' hty, hfits⟩

theorem lifted (hn : g.node? n = some node) (hop : node.op = .closure) {captured}
    (hcapt : ∃ types, g.Settled [] captured types) (subgraph : Graph) :
    (g.lifted n captured subgraph).WellTyped A := by
  refine h.mapNode fun found hfd => ?_
  cases hn.symm.trans hfd
  obtain ⟨ty, hty, -⟩ := h n node hn
  obtain ⟨types, htys⟩ := hcapt
  exact ⟨.inl hop, ⟨.closure, types, ty.outputs, []⟩, hop.symm, htys, hty.outputs, .nil⟩

end

end Graph.WellTyped

theorem wellTyped_respects (A : Prop) : Lifting.Respects (WellTyped A) (WellTyped A) where
  lowered h hforks := h.lowered hforks
  removed h _ _ := h.removed _
  extracted h _ _ hmir horderly := h.extracted hmir horderly.tree
  lifted h hn hop hmir subgraph := h.lifted hn hop hmir.captured_settled subgraph

/-! ## Lowered graphs -/

theorem lawfulBut_empty (A : Prop) : LawfulBut A [] [] empty [] where
  known := by simp
  root := ⟨{}, rfl, rfl⟩
  node n node _ hn := by simp [node?, empty] at hn
  signed := by simp

theorem unfinished_root {H pending}
    {g : Graph} {signatures : List (ValueId × Signature)} (h : LawfulBut A H pending g signatures) :
    g.Unfinished pending root := fun block n hb hown => by
  simp [h.owner_root block hb] at hown

section

variable {definition : Def} {host : Host} {settings : Settings} {A : Prop} {g : Graph}

theorem Def.toGraph_lawful (hctx : A → LowerContext.Regular ⟨host, settings⟩)
    {signature} (h : definition.toGraph host settings = .ok (signature, g)) :
    ∃ signatures, LawfulBut A [] [] g signatures := by
  obtain ⟨body, decls, t, output, hready, hemit, -, -, -, rfl⟩ :=
    Def.toGraph_ok hctx h
  have hstart : LawfulBut A [] [] (LowerState.start body).graph
      (LowerState.start body).signatures := lawfulBut_empty A
  have hdecl := lawful_declareAll (wellFormed_start body) rfl hstart
    (unfinished_root hstart) decls
  have hlow := hemit.lawful hready.toWellFormed hready.regular hdecl
  exact ⟨t.signatures, hlow.withResult (hemit.sound hready.toWellFormed).1.coherent
    (unfinished_root hlow) output⟩

theorem Def.compile_wellTyped (A : Prop)
    (hctx : A → LowerContext.Regular ⟨host, settings⟩) {compiled : Compiled}
    (h : definition.compile host settings = .ok compiled) :
    compiled.graph.Throughout (WellTyped A) := by
  refine Def.compile_throughout (wellTyped_respects A) h fun signature g hg n node hn =>
    ?_
  obtain ⟨_, hlawful⟩ := Def.toGraph_lawful hctx hg
  obtain ⟨ty, hty, hlaw, -⟩ := hlawful.node n node not_mem_nil hn
  exact ⟨ty, hty, hlaw.fits⟩

/-! ## Primitives -/

/-- Each primitive accepts the types of its inputs, and its only output has the type it gives. -/
def Graph.PrimitivesCheck (g : Graph) : Prop :=
  ∀ n node primitive, g.node? n = some node → node.op = .primitive primitive →
    ∃ args output result, Forall₂ (fun v ty => g.typeOf? v = some ty) node.inputs args ∧
      node.outputs = [output] ∧ g.typeOf? output = some result ∧
        ∀ span, primitive.check args span = .ok result

theorem Graph.Settled.of_single {values types} {ty : Ty}
    (h : g.Settled [] values types) (heq : types = [ty]) :
    ∃ v, values = [v] ∧ g.typeOf? v = some ty := by
  subst heq
  obtain ⟨v, _, ⟨-, hty⟩, hnil, rfl⟩ := forall₂_cons_right_iff.mp h
  exact ⟨v, by rw [forall₂_nil_right_iff.mp hnil], hty⟩

theorem Graph.WellTyped.primitivesCheck (h : g.WellTyped A) : g.PrimitivesCheck := by
  intro n node primitive hn hop
  obtain ⟨ty, hty, hfits⟩ := h n node hn
  obtain ⟨result, heq, hcheck⟩ := hfits.primitive primitive (hty.op.trans hop)
  obtain ⟨output, hout, hret⟩ := hty.outputs.of_single heq
  exact ⟨ty.inputs, output, result, hty.inputs.imp fun _ _ hv => hv.2, hout, hret, hcheck⟩

/-- The primitives of a compiled graph, and of the bodies in it, check. -/
theorem Def.compile_primitivesCheck {compiled : Compiled}
    (h : definition.compile host settings = .ok compiled) :
    compiled.graph.Throughout PrimitivesCheck :=
  (Def.compile_wellTyped False False.elim h).imp fun _ =>
    Graph.WellTyped.primitivesCheck

/-! ## Branches and loops -/

/-- All branches have one form, and all loops. -/
def Graph.Controlled (g : Graph) : Prop :=
  ∀ n node, g.node? n = some node → ∃ ty, g.HasNodeType [] node ty ∧
    (node.op = .branch → ty.IsBranch) ∧ (node.op = .loop → ty.IsLoop)

/-- If the types of the host are regular, branches and loops have their form. -/
theorem Def.compile_controlled (hctx : LowerContext.Regular ⟨host, settings⟩) {compiled : Compiled}
    (h : definition.compile host settings = .ok compiled) :
    compiled.graph.Throughout Controlled := by
  refine (Def.compile_wellTyped True (fun _ => hctx) h).imp fun graph hgraph n node hnode => ?_
  obtain ⟨ty, hty, hfits⟩ := hgraph n node hnode
  exact ⟨ty, hty, fun hop => hfits.branch trivial (hty.op.trans hop), fun hop =>
    hfits.loop trivial (hty.op.trans hop)⟩

/-! ## Unwrapped optionals -/

/-- What is unwrapped is an optional, and the output is what it holds. -/
def Graph.UnwrapsOptionals (g : Graph) : Prop :=
  ∀ n node, g.node? n = some node → node.op = .unwrap → ∃ input output inner,
    node.inputs = [input] ∧ g.typeOf? input = some (.optional inner) ∧
      node.outputs = [output] ∧ g.typeOf? output = some inner

theorem Graph.WellTyped.unwrapsOptionals (h : g.WellTyped A) : g.UnwrapsOptionals := by
  intro n node hn hop
  obtain ⟨ty, hty, hfits⟩ := h n node hn
  obtain ⟨inner, hins, houts⟩ := hfits.unwrap (hty.op.trans hop)
  obtain ⟨input, hinput, hopt⟩ := hty.inputs.of_single hins
  obtain ⟨output, hout, hin⟩ := hty.outputs.of_single houts
  exact ⟨input, output, inner, hinput, hopt, hout, hin⟩

/-- Tests narrow optionals: to `None`, to what they hold or not at all.  So what two tests say about
a name is never dropped, `and` and `or` are associative, and only optionals are unwrapped. -/
theorem refinements_narrow_optionals (typeOf : String → Option Ty) (a b c : Expr) :
    (∀ map ∈ (a.refinements typeOf).maps, ∀ entry ∈ map.entries, ∃ inner,
      typeOf entry.1 = some (.optional inner) ∧
        (entry.2.ty = .nothing ∨ entry.2.ty = inner ∨ entry.2.ty = .optional inner)) ∧
    (∀ map ∈ (a.refinements typeOf).maps, ∀ map' ∈ (b.refinements typeOf).maps, ∀ name,
      map.contains name = true → map'.contains name = true →
        (map.intersect map').contains name = true ∧ (map.union map').contains name = true) ∧
    ((a.refinements typeOf).and (b.refinements typeOf)).and (c.refinements typeOf) =
      (a.refinements typeOf).and ((b.refinements typeOf).and (c.refinements typeOf)) ∧
    ((a.refinements typeOf).or (b.refinements typeOf)).or (c.refinements typeOf) =
      (a.refinements typeOf).or ((b.refinements typeOf).or (c.refinements typeOf)) ∧
    ∀ compiled, definition.compile host settings = .ok compiled →
      compiled.graph.Throughout UnwrapsOptionals := by
  have ha := a.refinements_narrows typeOf
  have hb := b.refinements_narrows typeOf
  have hc := c.refinements_narrows typeOf
  refine ⟨fun map hmap entry hentry => ?_, fun map hmap map' hmap' name => ?_, ?_, ?_,
    fun compiled h => ?_⟩
  · obtain ⟨inner, hoptional, hnarrows⟩ := (ha.of_mem hmap).types entry hentry
    exact ⟨inner, hoptional, hnarrows.cases_eq⟩
  · exact (ha.of_mem hmap).keeps (hb.of_mem hmap')
  · exact congrArg₂ Refinements.mk (ha.onTrue.intersect_assoc hb.onTrue hc.onTrue)
      (ha.onFalse.union_assoc hb.onFalse hc.onFalse)
  · exact congrArg₂ Refinements.mk (ha.onTrue.union_assoc hb.onTrue hc.onTrue)
      (ha.onFalse.intersect_assoc hb.onFalse hc.onFalse)
  · exact (Def.compile_wellTyped False False.elim h).imp fun _ =>
      Graph.WellTyped.unwrapsOptionals

end

/-- `def g(y: int): return [i if y < i else x for i in range(y)]`, `while x < 3: x = x + 1`, then
`return fork(g, x)`. -/
def forkedLoop : Def where
  name := ⟨"f", .null⟩
  params := [⟨⟨"x", .null⟩, some (.var .null "int")⟩]
  body :=
    [.define .null
      { name := ⟨"g", .null⟩
        params := [⟨⟨"y", .null⟩, some (.var .null "int")⟩]
        body := [.ret .null (some (.listComp .null
          (.ternary .null (.binary .null .lt (.var .null "y") (.var .null "i")) (.var .null "i")
            (.var .null "x"))
          (.var .null "i") (.call .null (.var .null "range") [.var .null "y"] [])))] },
    .whileLoop .null (some (.binary .null .lt (.var .null "x") (.const .null (.int 3))))
      [.assign .null (.var .null "x") none
        (some (.binary .null .add (.var .null "x") (.const .null (.int 1))))],
    .ret .null (some (.call .null (.var .null "fork") [.var .null "g", .var .null "x"] []))]

theorem forkedLoop_primitivesCheck : ∃ compiled, forkedLoop.compile Host.empty {} = .ok compiled ∧
      (∃ node ∈ compiled.graph.nodes, ∃ body ∈ node.subgraph, ∃ inner ∈ body.nodes,
        inner.op = .primitive .lt) ∧ compiled.graph.Throughout PrimitivesCheck := by
  obtain ⟨compiled, hcompiled, hinner⟩ : ∃ compiled,
      forkedLoop.compile Host.empty {} = .ok compiled ∧ ∃ node ∈ compiled.graph.nodes,
        ∃ body ∈ node.subgraph, ∃ inner ∈ body.nodes, inner.op = .primitive .lt := by
    decide +kernel
  exact ⟨compiled, hcompiled, hinner, Def.compile_primitivesCheck hcompiled⟩

theorem forkedLoop_controlled : ∃ compiled, forkedLoop.compile Host.empty {} = .ok compiled ∧
    (∃ node ∈ compiled.graph.nodes, ∃ body ∈ node.subgraph,
      (∃ inner ∈ body.nodes, inner.op = .branch) ∧ ∃ inner ∈ body.nodes, inner.op = .loop) ∧
      compiled.graph.Throughout Controlled := by
  obtain ⟨compiled, hcompiled, hinner⟩ : ∃ compiled,
      forkedLoop.compile Host.empty {} = .ok compiled ∧ ∃ node ∈ compiled.graph.nodes,
        ∃ body ∈ node.subgraph, (∃ inner ∈ body.nodes, inner.op = .branch) ∧
          ∃ inner ∈ body.nodes, inner.op = .loop := by
    decide +kernel
  exact ⟨compiled, hcompiled, hinner,
    Def.compile_controlled ⟨Host.regular_empty, .tensor⟩ hcompiled⟩

/-- `x is not None` -/
def isSomething : Expr := .binary .null .isNot (.var .null "x") (.const .null .nothing)

/-- `def f(x: Optional[int]): return x if x is not None else 0`. -/
def defaulted : Def where
  name := ⟨"f", .null⟩
  params := [⟨⟨"x", .null⟩, some (.subscript .null (.var .null "Optional") [.var .null "int"])⟩]
  body := [.ret .null (some (.ternary .null isSomething (.var .null "x") (.const .null (.int 0))))]

theorem defaulted_narrows :
    (∀ said, said = isSomething.refinements (fun _ => some (.optional .int)) →
      (said.onTrue.union said.onFalse).contains "x" = true) ∧
    ∃ compiled, defaulted.compile Host.empty {} = .ok compiled ∧
      (∃ node ∈ compiled.graph.nodes, node.op = .unwrap) ∧
        compiled.graph.Throughout UnwrapsOptionals := by
  obtain ⟨compiled, hcompiled, hunwrap⟩ : ∃ compiled,
      defaulted.compile Host.empty {} = .ok compiled ∧
        ∃ node ∈ compiled.graph.nodes, node.op = .unwrap := by
    decide +kernel
  obtain ⟨-, hkept, -, -, hunwraps⟩ := refinements_narrow_optionals (fun _ => some (.optional .int))
    isSomething isSomething isSomething
  have hx := hkept _ (.head _) _ (.tail _ (.head _)) "x" (by decide) (by decide)
  exact ⟨fun _ hsaid => hsaid ▸ hx.2, compiled, hcompiled, hunwrap, hunwraps compiled hcompiled⟩

end Flowgraph
