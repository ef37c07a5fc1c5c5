import Flowgraph.Proofs.Emission.WellFormed

/-!
# Nodes under construction

A branch, a loop or a closure is placed first and completed afterwards: its blocks are entered one
after the other, and its inputs and outputs are added on the way.  `Between` describes the state
between two of these parts.
-/

namespace Flowgraph

open BodyContext Flowgraph.Graph List

variable {node : Node} {g : Graph} {p q : InsertPoint} {c b : BlockId} {s : LowerState} {g' : Graph}

namespace Graph

theorem PastConstants.mono (h : Grows g g')
    (hp : g.HasAnchor p) (hpast : g.PastConstants p) : g'.PastConstants p := by
  intro n node' hn hn'
  obtain ⟨node, hnode⟩ := hp n hn
  obtain ⟨_, heq, hgrows⟩ := h.node n node hnode
  cases hn'.symm.trans heq
  rw [hgrows.op]
  exact hpast n node hn hnode

theorem Around.of_block (hb : p.block = q.block) (h : g.Around p c) : g.Around q c := by
  obtain ⟨outer, hwi, rfl⟩ := h
  cases hwi with
  | here => exact ⟨q, .here q, hb.symm⟩
  | outward henc hwi => exact ⟨outer, .outward (hb ▸ henc) hwi, rfl⟩

/-- Of the blocks around a new block, the old ones were around the point where it is nested. -/
theorem Around.of_nested {n : NodeId} (hgrows : Grows g g') (hcoh : g'.Coherent) (hp : g.Anchored p)
    (henc : g'.Encloses ⟨p.block, some n⟩ b) (hb : g.blocks.length ≤ b.index)
    (hc : c.index < g.blocks.length) (h : g'.Around ⟨b, none⟩ c) : g.Around p c := by
  obtain ⟨outer, hwi, rfl⟩ := h
  cases hwi with
  | here => exact absurd hc hb.not_gt
  | outward hencloses' hwi =>
    obtain rfl := hcoh.encloses_unique hencloses' henc
    obtain ⟨block, hblock, -⟩ := hp
    have hold := hwi.of_grows hgrows (index_lt_of_block? hblock)
    exact Around.of_block (p := ⟨p.block, some n⟩) rfl ⟨outer, hold, rfl⟩

end Graph

/-! ## Inside a block -/

/-- Something leads from a well-formed state to a well-formed state that advances it. -/
structure Runs (H : List ValueId) (s t : LowerState) : Prop where
  start : WellFormed H s
  stop : WellFormed H t
  advances : Advances H s t

/-- Where the first state is well-formed, something leads from it to the second one. -/
def Leads (H : List ValueId) (s t : LowerState) : Prop :=
  WellFormed H s → WellFormed H t ∧ Advances H s t

/-- The blocks of a branch that is opened next. -/
abbrev LowerState.sideBlocks (s : LowerState) : List BlockId :=
  [⟨s.graph.blocks.length⟩, ⟨s.graph.blocks.length + 1⟩]

/-- The blocks are those of a branch that is opened next, in one order or the other. -/
abbrev LowerState.Sides (s : LowerState) (first second : BlockId) : Prop :=
  (first = ⟨s.graph.blocks.length⟩ ∧ second = ⟨s.graph.blocks.length + 1⟩) ∨
    (first = ⟨s.graph.blocks.length + 1⟩ ∧ second = ⟨s.graph.blocks.length⟩)

namespace LowerState.Sides

variable {s : LowerState} {first second : BlockId} (h : s.Sides first second)
include h

theorem swap : s.Sides second first := h.symm.imp And.symm And.symm

theorem mem : first ∈ s.sideBlocks := by
  rcases h with h | h <;> simp [h]

theorem new : s.graph.blocks.length ≤ first.index := by
  rcases h with h | h <;> simp [h]

end LowerState.Sides

theorem LowerState.grows_declare (h : s.graph.Coherent) (b : BlockId)
    (param : ParamDecl) : Grows s.graph (s.declare b param).graph :=
  (((Grows.refl s.graph).withParam b param.ty).named s.graph.freshValue param.label).trans
    (.place ((h.withParam b param.ty).named _ _) rfl _ [])

theorem WellFormed.declare {H : List ValueId}
    (h : WellFormed H s) (hpoint : s.point.block = b) (param : ParamDecl) :
    WellFormed H (s.declare b param) := by
  subst hpoint
  obtain ⟨block, hb, -⟩ := h.anchored
  have hp := h.withParam s.point.block param.ty
  have hnamed := hp.named s.graph.freshValue param.label
  refine WellFormed.recordPlain (hnamed.place rfl (fun v hv => ?_) (by simp [storeNode])) _ _
  obtain rfl := mem_singleton.mp hv
  exact ((definedHere_withParam hb s.point.before param.ty).mono
    ((Grows.refl _).named _ param.label) hp.hasAnchor).defined

/-- The block `b`, new since `base`, was entered at `entry` and is being filled. -/
structure Inside (H : List ValueId) (base : LowerState) (b : BlockId) (entry s : LowerState) :
    Prop where
  wellFormed : WellFormed H s
  graph : Since H (base.graph.Around base.point) base.graph s.graph
  grows : Grows entry.graph s.graph
  point : s.point = ⟨b, none⟩
  scope : entry.scope.Kept s.scope
  bodies : s.bodies.map shell = entry.bodies.map shell
  signatures : entry.signatures <:+ s.signatures

namespace Inside

variable {H : List ValueId} {base entry s t : LowerState} {n : NodeId} {b : BlockId}

section

variable (h : Inside H base b entry s)
include h

theorem advance (henc : s.graph.Encloses ⟨base.point.block, some n⟩ b)
    (hb : base.graph.blocks.length ≤ b.index) (hbase : base.graph.Anchored base.point)
    (ht : WellFormed H t) (hadv : Advances H s t) : Inside H base b entry t where
  wellFormed := ht
  graph := h.graph.trans hadv.graph fun c hc haround => by
    rw [h.point] at haround
    exact haround.of_nested h.graph.grows h.wellFormed.coherent hbase henc hb hc
  grows := h.grows.trans hadv.grows
  point := hadv.point.trans h.point
  scope := h.scope.trans hadv.scope
  bodies := hadv.bodies.trans h.bodies
  signatures := h.signatures.trans hadv.signatures

theorem declare (hb : base.graph.blocks.length ≤ b.index)
    (param : ParamDecl) : Inside H base b entry (s.declare b param) := by
  have hpoint : s.point.block = b := congrArg InsertPoint.block h.point
  have hp := (h.wellFormed.withParam b param.ty).named s.graph.freshValue param.label
  refine ⟨h.wellFormed.declare hpoint param, ?_,
    h.grows.trans (LowerState.grows_declare h.wellFormed.coherent b param), h.point,
    h.scope.trans (Scope.kept_recordPlain _ _ _), h.bodies, h.signatures⟩
  exact ((h.graph.withParam (.inr hb) param.ty).named _ param.label).place hp.coherent
    (.inr (hpoint ▸ hb)) rfl []

theorem declareAll (hb : base.graph.blocks.length ≤ b.index)
    (params : List ParamDecl) : Inside H base b entry (s.declareAll b params) :=
  List.foldlRecOn params _ h fun _ h param _ => h.declare hb param

end

end Inside

/-! ## Between two parts of a node -/

/-- The node `n` was placed at the insertion point of `base` and is still being completed. -/
structure Between (H : List ValueId) (base : LowerState) (n : NodeId) (s : LowerState) : Prop where
  wellFormed : WellFormed H (s.moveTo ⟨base.point.block, some n⟩)
  graph : Since H (base.graph.Around base.point) base.graph s.graph
  scope : base.scope.Kept s.scope
  bodies : s.bodies.map shell = base.bodies.map shell
  signatures : base.signatures <:+ s.signatures
  anchored : base.graph.Anchored base.point
  newNode : base.graph.nodes.length ≤ n.index
  placed : n ∈ s.graph.before base.point
  structural : ∀ node, s.graph.node? n = some node → node.op ≠ .constant ∧ node.op ≠ .tupleConstruct
  visible : ∀ v, base.graph.Defined base.point v → s.graph.Defined ⟨base.point.block, some n⟩ v

namespace Between

variable {H : List ValueId} {base s t : LowerState} {n : NodeId} {b : BlockId} {v : ValueId}

theorem start (h : WellFormed H base) {types} (hbs : node.blocks = [])
    (hins : ∀ v ∈ node.inputs, Held H base v) (hconstant : node.op ≠ .constant)
    (htuple : node.op ≠ .tupleConstruct) :
    Between H base base.graph.freshNode (base.place node types) where
  __ := h
  wellFormed := h.place_before hbs (fun v hv => (hins v hv).2) (fun heq => absurd heq htuple)
    hconstant
  graph := (Since.refl H _ base.graph).place h.coherent (.inl ⟨_, .here _, rfl⟩) hbs types
  scope := .refl _
  bodies := rfl
  signatures := suffix_refl _
  newNode := le_rfl
  placed := by
    show _ ∈ (base.graph.place base.point node types).before base.point
    rw [before_place h.coherent h.anchored]
    simp
  structural made hm := by
    obtain rfl := Option.some.inj ((node?_place_fresh base.point).symm.trans hm)
    exact ⟨hconstant, htuple⟩
  visible _ hv := hv.place_fresh h.coherent h.anchored hbs

section

variable (h : Between H base n s)
include h

theorem hasAnchor : s.graph.HasAnchor base.point :=
  (h.anchored.mono h.graph.grows).hasAnchor h.wellFormed.coherent

theorem exists_node : ∃ node, s.graph.node? n = some node := by
  obtain ⟨block, hb, hn⟩ := mem_nodes_of_mem_before h.placed
  obtain ⟨node, hnode, -⟩ := h.wellFormed.coherent.placed _ block n hb hn
  exact ⟨node, hnode⟩

theorem encloses (hn : s.graph.node? n = some node) (hb : b ∈ node.blocks) :
    s.graph.Encloses ⟨base.point.block, some n⟩ b :=
  encloses_of_mem_before h.placed hn hb

theorem withGraph (hwf : WellFormed H ((s.moveTo ⟨base.point.block, some n⟩).withGraph g))
    (hgrows : Grows s.graph g)
    (hsince : Since H (base.graph.Around base.point) base.graph g) :
    Between H base n (s.withGraph g) where
  __ := h
  wellFormed := hwf
  graph := hsince
  placed := hgrows.mem_before h.hasAnchor h.placed
  structural node' hn' := by
    obtain ⟨node, hn⟩ := h.exists_node
    obtain ⟨_, heq, hnodeGrows⟩ := hgrows.node n node hn
    cases heq.symm.trans hn'
    rw [hnodeGrows.op]
    exact h.structural node hn
  visible v hv := (h.visible v hv).mono hgrows h.wellFormed.hasAnchor

theorem withBlock : Between H base n (s.withBlock n) :=
  h.withGraph (h.wellFormed.withBlock fun node hn => (h.structural node hn).1)
    ((Grows.refl s.graph).withBlock n) (h.graph.withBlock h.newNode)

theorem withInput (hv : s.graph.Defined ⟨base.point.block, some n⟩ v) :
    Between H base n (s.withGraph (s.graph.withInput n v)) := by
  have hc := h.wellFormed.coherent
  refine h.withGraph (h.wellFormed.withInput (fun node hnode => (h.structural node hnode).2)
    (hv.index_lt hc) fun b block hb hn => ?_)
    ((Grows.refl s.graph).withInput n v) (h.graph.mapNode h.newNode (h.graph.grows.withInput n v))
  obtain ⟨block', hb', hn'⟩ := mem_nodes_of_mem_before h.placed
  obtain rfl := owner_unique (hc.placed b block n hb hn) (hc.placed _ block' n hb' hn')
  exact hv

section

variable (hb : base.graph.blocks.length ≤ b.index)
include hb

theorem withParam (ty : Ty) : Between H base n (s.withGraph (s.graph.withParam b ty)) :=
  h.withGraph (h.wellFormed.withParam b ty) ((Grows.refl s.graph).withParam b ty)
    (h.graph.withParam (.inr hb) ty)

omit hb in
theorem outside (p : InsertPoint)
    (ht : WellFormed H t) (hadv : Advances H (s.moveTo ⟨base.point.block, some n⟩) t) :
    Between H base n (t.moveTo p) where
  __ := h
  wellFormed := by
    have hpoint : t.point = ⟨base.point.block, some n⟩ := hadv.point
    obtain ⟨⟨g, point, pool⟩, scope, bodies, signatures⟩ := t
    subst hpoint
    exact ht
  graph := by
    obtain ⟨block, hb, -⟩ := h.anchored
    refine h.graph.trans hadv.graph fun c _ haround => ?_
    obtain ⟨q, hwi, hq⟩ : s.graph.Around base.point c :=
      .of_block (p := ⟨base.point.block, some n⟩) rfl haround
    exact ⟨q, hwi.of_grows h.graph.grows (index_lt_of_block? hb), hq⟩
  scope := h.scope.trans hadv.scope
  bodies := hadv.bodies.trans h.bodies
  signatures := h.signatures.trans hadv.signatures
  placed := hadv.grows.mem_before h.hasAnchor h.placed
  structural node' hn' := by
    obtain ⟨node, hn⟩ := h.exists_node
    obtain ⟨_, heq, hnodeGrows⟩ := hadv.grows.node n node hn
    cases heq.symm.trans hn'
    rw [hnodeGrows.op]
    exact h.structural node hn
  visible v hv := (h.visible v hv).mono hadv.grows h.wellFormed.hasAnchor

theorem withResults (results : List ValueId) (hres : ∀ v ∈ results, s.graph.Defined ⟨b, none⟩ v) :
    Between H base n (s.withResults b results) := by
  induction results generalizing s with
  | nil => exact h
  | cons v rest ih =>
    refine ih (h.withGraph (h.wellFormed.withResult (hres v (.head _)))
      ((Grows.refl s.graph).withResult b v) (h.graph.withResult hb v)) fun w hw => ?_
    exact (hres w (mem_cons_of_mem v hw)).mono ((Grows.refl s.graph).withResult b v)
      (hasAnchor_end _ _)

end

theorem inside {entry u : LowerState}
    (hin : Inside H base b entry t) (he : entry.graph = s.graph) (hu : u.graph = t.graph)
    (hpool : u.builder.pool = t.builder.pool) (hsc : s.scope.SameBindings u.scope)
    (hbodies : u.bodies.map shell = s.bodies.map shell)
    (hsigs : s.signatures <:+ u.signatures) : Between H base n u := by
  have hgrows : Grows s.graph t.graph := he ▸ hin.grows
  refine ⟨h.wellFormed.back hin.wellFormed hgrows hu hpool rfl hsc, hu ▸ hin.graph,
    h.scope.trans hsc.kept, hbodies.trans h.bodies, h.signatures.trans hsigs, h.anchored,
    h.newNode, hu ▸ hgrows.mem_before h.hasAnchor h.placed, ?_,
    fun v hv => hu ▸ (h.visible v hv).mono hgrows h.wellFormed.hasAnchor⟩
  intro node' hn'
  obtain ⟨node, hn⟩ := h.exists_node
  obtain ⟨_, heq, hnodeGrows⟩ := hgrows.node n node hn
  obtain rfl := Option.some.inj (heq.symm.trans (hu ▸ hn'))
  rw [hnodeGrows.op]
  exact h.structural node hn

theorem enter (henc : s.graph.Encloses ⟨base.point.block, some n⟩ b) :
    Inside H base b (s.enter b) (s.enter b) :=
  ⟨h.wellFormed.enter henc, h.graph, .refl _, rfl, .refl _, rfl, suffix_refl _⟩

theorem leave (hin : Inside H base b (s.enter b) t)
    (p : InsertPoint) : Between H base n (t.leave p) :=
  h.inside hin rfl rfl rfl hin.scope.pop hin.bodies hin.signatures

theorem enterBody (henc : s.graph.Encloses ⟨base.point.block, some n⟩ b) (body : BodyContext) :
    Inside H base b (s.enterBody b (some n) body) (s.enterBody b (some n) body) :=
  ⟨h.wellFormed.enterBody henc rfl body, h.graph, .refl _, rfl, .refl _, rfl, suffix_refl _⟩

theorem leaveBody {body : BodyContext}
    (hin : Inside H base b (s.enterBody b (some n) body) t) (p : InsertPoint) :
    Between H base n (t.leaveBody p) := by
  refine h.inside hin rfl rfl rfl hin.scope.pop ?_ hin.signatures
  have hbodies : t.bodies.map shell = body.shell :: s.bodies.map shell :=
    hin.bodies
  show t.bodies.tail.map _ = _
  rw [map_tail, hbodies, tail_cons]

theorem finish (hwf : WellFormed H base)
    (hpoint : s.point = base.point) : WellFormed H s ∧ Advances H base s := by
  have hstate : s = s.moveTo base.point := by
    obtain ⟨⟨g, point, pool⟩, scope, bodies, signatures⟩ := s
    rw [← hpoint]
    rfl
  refine ⟨?_, h.graph, hpoint, h.scope, h.bodies, h.signatures⟩
  rw [hstate]
  exact h.wellFormed.after h.placed (hwf.anchored.mono h.graph.grows)
    (hwf.past.mono h.graph.grows hwf.hasAnchor)

end

end Between

end Flowgraph
