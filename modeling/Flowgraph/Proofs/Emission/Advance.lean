import Flowgraph.Proofs.Emission.Basic

/-!
# What an emission leaves alone

Whatever is emitted, what was there before stays as it is.  `Graph.Since` says this of graphs
and `Advances` of states; both are preorders.

The rules for graphs compare with a graph `base` further back.  What was added since then may still
change: a branch node gets its outputs long after it was placed, but before the emission that
placed it is over.
-/

namespace Flowgraph

open Flowgraph.Frame Flowgraph.Graph List

variable {v : ValueId} {g next : Graph} {ty : Ty}

/-! ## Graphs -/

/-- The graph grew from `base`, and what `base` had is as it was; only the open blocks got nodes. -/
structure Graph.Since (H : List ValueId) (isOpen : BlockId → Prop) (base g : Graph) : Prop where
  grows : Grows base g
  closed : ∀ b, b.index < base.blocks.length → ¬isOpen b → g.block? b = base.block? b
  node : ∀ n, n.index < base.nodes.length → g.node? n = base.node? n
  type : ∀ v, v ∉ H → v.index < base.values.length → g.typeOf? v = base.typeOf? v
  results : ∀ b, b.index < base.blocks.length →
    (g.block? b).map Block.results = (base.block? b).map Block.results
  params : ∀ b, b ≠ root → b.index < base.blocks.length →
    (g.block? b).map Block.params = (base.block? b).map Block.params

namespace Graph.Since

variable {H : List ValueId} {isOpen isOpen' : BlockId → Prop} {base g : Graph} {b : BlockId}
  {n : NodeId} {node : Node}

theorem refl (H : List ValueId) (isOpen : BlockId → Prop) (g : Graph) : Since H isOpen g g :=
  ⟨.refl g, fun _ _ _ => rfl, fun _ _ => rfl, fun _ _ _ => rfl, fun _ _ => rfl, fun _ _ _ => rfl⟩

theorem trans (h : Since H isOpen base g) (h' : Since H isOpen' g next)
    (hopen : ∀ b, b.index < base.blocks.length → isOpen' b → isOpen b) :
    Since H isOpen base next where
  grows := h.grows.trans h'.grows
  closed b hb hclosed :=
    (h'.closed b (hb.trans_le h.grows.blocks_le) fun hisOpen =>
      hclosed (hopen b hb hisOpen)).trans (h.closed b hb hclosed)
  node n hn := (h'.node n (hn.trans_le h.grows.nodes_le)).trans (h.node n hn)
  type v hv hlt := (h'.type v hv (hlt.trans_le h.grows.values_le)).trans (h.type v hv hlt)
  results b hb := (h'.results b (hb.trans_le h.grows.blocks_le)).trans (h.results b hb)
  params b hroot hb :=
    (h'.params b hroot (hb.trans_le h.grows.blocks_le)).trans (h.params b hroot hb)

theorem hide (h : Since H isOpen base g) (v : ValueId) : Since (v :: H) isOpen base g :=
  ⟨h.grows, h.closed, h.node, fun w hw => h.type w fun hin => hw (mem_cons_of_mem v hin),
    h.results, h.params⟩

theorem unhide (h : Since (v :: H) isOpen base g) (hv : base.values.length ≤ v.index) :
    Since H isOpen base g where
  __ := h
  type w hw hlt := by
    refine h.type w ?_ hlt
    intro hmem
    rcases mem_cons.mp hmem with rfl | hmem
    · exact absurd hlt hv.not_gt
    · exact hw hmem

section

variable (h : Since H isOpen base g)
include h

theorem attach (hc : g.Coherent) (hb : isOpen b ∨ base.blocks.length ≤ b.index) {arrange}
    (harr : Arranges g.freshNode arrange) (hbs : node.blocks = []) (types : List Ty) :
    Since H isOpen base (g.attach b arrange node types) where
  grows := h.grows.attach harr hbs (hc.freshNode_not_mem b) types
  closed c hc hclosed := by
    have hne : b ≠ c := by
      rintro rfl
      exact hb.elim hclosed hc.not_ge
    rw [block?_attach, if_neg hne, h.closed c hc hclosed]
  node n hn := by
    have hlt := hn.trans_le h.grows.nodes_le
    have hne : n ≠ g.freshNode := by
      rintro rfl
      exact lt_irrefl _ hlt
    rw [node?_attach, if_neg hne, h.node n hn]
  type v hv hlt := by
    have hold : (g.attach b arrange node types).value? v = g.value? v :=
      getElem?_append_left (hlt.trans_le h.grows.values_le)
    rw [← h.type v hv hlt, typeOf?, typeOf?, hold]
  results c hc := by
    rw [← h.results c hc, block?_attach]
    split <;> simp [Function.comp_def]
  params c hroot hc := by
    rw [← h.params c hroot hc, block?_attach]
    split <;> simp [Function.comp_def]

theorem place (hc : g.Coherent) {p : InsertPoint}
    (hp : isOpen p.block ∨ base.blocks.length ≤ p.block.index) (hbs : node.blocks = [])
    (types : List Ty) : Since H isOpen base (g.place p node types) :=
  h.attach hc hp (arranges_placeIn _ _) hbs types

theorem mapNode {f : Node → Node}
    (hn : base.nodes.length ≤ n.index) (hgrows : Grows base (g.mapNode n f)) :
    Since H isOpen base (g.mapNode n f) where
  __ := h
  grows := hgrows
  node m hm := by
    have hne : n ≠ m := by
      rintro rfl
      exact absurd hm hn.not_gt
    rw [node?_mapNode, if_neg hne, h.node m hm]

theorem pushValue (value : Value) : Since H isOpen base (g.pushValue value) where
  __ := h
  grows := h.grows.pushValues [value]
  type v hv hlt := by
    have hlt' := hlt.trans_le h.grows.values_le
    have hne : v ≠ g.freshValue := by
      rintro rfl
      exact lt_irrefl _ hlt'
    rw [← h.type v hv hlt, typeOf?, typeOf?, value?_pushValue, if_neg hne]

section

variable (hn : base.nodes.length ≤ n.index)
include hn

theorem withOutput (ty : Ty) : Since H isOpen base (g.withOutput n ty) :=
  (h.pushValue _).mapNode hn (h.grows.withOutput n ty)

theorem withBlock : Since H isOpen base (g.withBlock n) := by
  have hblock : ∀ b : BlockId, b.index < base.blocks.length →
      (g.withBlock n).block? b = g.block? b := by
    intro b hb
    have hne : b ≠ g.freshBlock := by
      rintro rfl
      exact lt_irrefl _ (hb.trans_le h.grows.blocks_le)
    rw [Graph.withBlock, block?_mapNode, block?_pushBlock, if_neg hne]
  refine ⟨h.grows.withBlock n, ?_, ?_, h.type, ?_, ?_⟩
  · exact fun b hb hclosed => (hblock b hb).trans (h.closed b hb hclosed)
  · intro m hm
    have hne : n ≠ m := by
      rintro rfl
      exact absurd hm hn.not_gt
    rw [Graph.withBlock, node?_mapNode, if_neg hne]
    exact h.node m hm
  · exact fun b hb => by rw [hblock b hb, h.results b hb]
  · exact fun b hroot hb => by rw [hblock b hb, h.params b hroot hb]

end

theorem withResult (hb : base.blocks.length ≤ b.index) (v : ValueId) :
    Since H isOpen base (g.withResult b v) := by
  have hblock : ∀ c : BlockId, c.index < base.blocks.length →
      (g.withResult b v).block? c = g.block? c := by
    intro c hc
    have hne : b ≠ c := by
      rintro rfl
      exact absurd hc hb.not_gt
    rw [Graph.withResult, block?_mapBlock, if_neg hne]
  refine ⟨h.grows.withResult b v, ?_, h.node, h.type, ?_, ?_⟩
  · exact fun c hc hclosed => (hblock c hc).trans (h.closed c hc hclosed)
  · exact fun c hc => by rw [hblock c hc, h.results c hc]
  · exact fun c hroot hc => by rw [hblock c hc, h.params c hroot hc]

theorem withParam (hb : b = root ∧ isOpen b ∨ base.blocks.length ≤ b.index) (ty : Ty) :
    Since H isOpen base (g.withParam b ty) := by
  refine ⟨h.grows.withParam b ty, ?_, h.node, (h.pushValue _).type, ?_, ?_⟩
  · intro c hc hclosed
    have hne : b ≠ c := by
      rintro rfl
      exact hb.elim (fun hroot => hclosed hroot.2) hc.not_ge
    rw [← h.closed c hc hclosed, Graph.withParam, block?_mapBlock, if_neg hne]
    rfl
  · intro c hc
    rw [← h.results c hc, Graph.withParam, block?_mapBlock]
    split <;> simp [Function.comp_def]
  · intro c hroot hc
    have hne : b ≠ c := by
      rintro rfl
      exact hb.elim (fun h => hroot h.1) hc.not_ge
    rw [← h.params c hroot hc, Graph.withParam, block?_mapBlock, if_neg hne]
    rfl

theorem named (v : ValueId) (label : Option String) : Since H isOpen base (g.named v label) where
  __ := h
  grows := h.grows.named v label
  type w hw hlt := by
    rw [← h.type w hw hlt, typeOf?, typeOf?, Graph.named, value?_mapValue]
    split <;> simp [Function.comp_def]

theorem retype (hv : v ∈ H) (ty : Ty) : Since H isOpen base (g.retype v ty) where
  __ := h
  grows := h.grows.retype v ty
  type w hw hlt := by
    have hne : v ≠ w := by
      rintro rfl
      exact hw hv
    rw [← h.type w hw hlt, typeOf?, typeOf?, Graph.retype, value?_mapValue, if_neg hne]

end

end Graph.Since

/-! ## Scopes -/

/-- A frame without its deferred faults. -/
def Frame.core (frame : Frame) : Frame := { frame with deferred := .empty }

/-- A frame without anything that it binds. -/
def Frame.shell (frame : Frame) : Frame := { frame with slots := .empty, deferred := .empty }

/-- The frames are the same, and they bind the same. -/
def Scope.SameBindings (scope scope' : Scope) : Prop :=
  scope'.frames.map core = scope.frames.map core

/-- The frames are the same, and those outside the innermost one bind the same. -/
structure Scope.Kept (scope scope' : Scope) : Prop where
  outer : scope'.frames.tail.map core = scope.frames.tail.map core
  shells : scope'.frames.map Frame.shell = scope.frames.map Frame.shell

namespace Scope

variable {scope scope' scope'' : Scope}

theorem SameBindings.refl (scope : Scope) : scope.SameBindings scope := rfl

theorem SameBindings.trans (h : scope.SameBindings scope') (h' : scope'.SameBindings scope'') :
    scope.SameBindings scope'' :=
  Eq.trans h' h

theorem SameBindings.kept (h : scope.SameBindings scope') : scope.Kept scope' where
  outer := by
    rw [map_tail, map_tail]
    exact congrArg tail h
  shells := by
    have hshell : shell = shell ∘ core := rfl
    rw [hshell, ← map_map, ← map_map]
    exact congrArg (map shell) h

theorem Kept.refl (scope : Scope) : scope.Kept scope := ⟨rfl, rfl⟩

theorem Kept.trans (h : scope.Kept scope') (h' : scope'.Kept scope'') : scope.Kept scope'' :=
  ⟨h'.outer.trans h.outer, h'.shells.trans h.shells⟩

theorem Kept.pop {b : BlockId} {startsBody} {closure : Option NodeId}
    (h : (scope.push b startsBody closure).Kept scope') : scope.SameBindings scope'.pop :=
  h.outer

theorem sameBindings_modifyBodyFrame {change : Frame → Frame}
    (hch : ∀ frame, (change frame).core = frame.core) (frames : List Frame) :
    (modifyBodyFrame change frames).map core = frames.map core := by
  induction frames with
  | nil => rfl
  | cons frame outer ih =>
    rw [modifyBodyFrame]
    split
    · simp [hch]
    · simp [ih]

section

variable (scope : Scope) (name : String)

theorem sameBindings_clearDeferred : scope.SameBindings (scope.clearDeferred name) :=
  sameBindings_modifyBodyFrame (by intro _; rfl) _

theorem sameBindings_defer (fault : Fault) : scope.SameBindings (scope.defer name fault) :=
  sameBindings_modifyBodyFrame (by intro _; rfl) _

theorem kept_bindCurrent (slot : Slot) : scope.Kept (scope.bindCurrent name slot) := by
  obtain ⟨_ | ⟨frame, outer⟩⟩ := scope
  · exact .refl _
  · exact ⟨rfl, rfl⟩

theorem kept_recordPlain (ty : Ty) : scope.Kept (scope.recordPlain name ty) :=
  (scope.sameBindings_clearDeferred name).kept.trans (kept_bindCurrent _ _ _)

theorem kept_recordRefined (ty : Ty) : scope.Kept (scope.recordRefined name ty) :=
  kept_bindCurrent _ _ _

end

end Scope

/-! ## States -/

theorem Graph.lt_of_typeOf? (h : g.typeOf? v = some ty) : v.index < g.values.length := by
  obtain ⟨value, hv, -⟩ := Option.map_eq_some_iff.mp h
  exact index_lt_of_value? hv

/-- A body without what was returned from it so far. -/
def BodyContext.shell (body : BodyContext) : BodyContext := { body with merged := none }

/-- The state goes on from where it was, at the same insertion point. -/
structure Advances (H : List ValueId) (s t : LowerState) : Prop where
  graph : Since H (s.graph.Around s.point) s.graph t.graph
  point : t.point = s.point
  scope : s.scope.Kept t.scope
  bodies : t.bodies.map BodyContext.shell = s.bodies.map BodyContext.shell
  signatures : s.signatures <:+ t.signatures

namespace Advances

variable {H : List ValueId} {s t u : LowerState}

theorem refl (H : List ValueId) (s : LowerState) : Advances H s s :=
  ⟨.refl H _ _, rfl, .refl _, rfl, suffix_refl _⟩

section

variable (h : Advances H s t)
include h

theorem grows : Grows s.graph t.graph := h.graph.grows

theorem trans (h' : Advances H t u) (hp : s.graph.Anchored s.point) : Advances H s u where
  graph := by
    refine h.graph.trans h'.graph fun b _ haround => ?_
    obtain ⟨block, hb, -⟩ := hp
    obtain ⟨q, hwi, hq⟩ := h.point ▸ haround
    exact ⟨q, hwi.of_grows h.grows (index_lt_of_block? hb), hq⟩
  point := h'.point.trans h.point
  scope := h.scope.trans h'.scope
  bodies := h'.bodies.trans h.bodies
  signatures := h.signatures.trans h'.signatures

theorem typeOf? (hv : v ∉ H) (hty : s.graph.typeOf? v = some ty) : t.graph.typeOf? v = some ty :=
  (h.graph.type v hv (lt_of_typeOf? hty)).trans hty

theorem hide (v : ValueId) : Advances (v :: H) s t :=
  { h with graph := h.graph.hide v }

end

theorem unhide (h : Advances (v :: H) s t) (hv : s.graph.values.length ≤ v.index) :
    Advances H s t :=
  { h with graph := h.graph.unhide hv }

theorem of_graph (h : Since H (s.graph.Around s.point) s.graph g) : Advances H s (s.withGraph g) :=
  ⟨h, rfl, .refl _, rfl, suffix_refl _⟩

theorem of_scope {change : Scope → Scope} (h : s.scope.Kept (change s.scope)) :
    Advances H s (s.mapScope change) :=
  ⟨.refl H _ _, rfl, h, rfl, suffix_refl _⟩

theorem recordPlain (s : LowerState) (name : String) (ty : Ty) :
    Advances H s (s.recordPlain name ty) :=
  of_scope (Scope.kept_recordPlain _ _ _)

theorem recordEntity (s : LowerState) (name : String) (entity : Entity) :
    Advances H s (s.recordEntity name entity) :=
  of_scope ((s.scope.sameBindings_clearDeferred name).kept.trans (Scope.kept_bindCurrent _ _ _))

theorem recordBinding (s : LowerState) (name : String) (binding : Binding) :
    Advances H s (s.recordBinding name binding) := by
  cases binding with
  | plain ty => exact recordPlain s name ty
  | entity denoted => exact recordEntity s name denoted

theorem defer (s : LowerState) (name : String) (fault : Fault) :
    Advances H s (s.defer name fault) :=
  of_scope (Scope.sameBindings_defer _ _ _).kept

theorem setMerged (s : LowerState) (ty : Ty) : Advances H s (s.setMerged ty) := by
  refine ⟨.refl H _ _, rfl, .refl _, ?_, suffix_refl _⟩
  show (modifyHead _ s.bodies).map _ = _
  cases s.bodies <;> rfl

theorem pop (h : Advances H s.narrowing t) : Advances H s t.pop :=
  { h with scope := h.scope.pop.kept }

theorem leaveLoop {kind : LoopKind} (h : Advances H (s.enterLoop kind) t) :
    Advances H s t.leaveLoop := by
  refine { h with bodies := ?_ }
  have hbodies := h.bodies
  simp only [LowerState.enterLoop, LowerState.leaveLoop, LowerState.mapBodies] at hbodies ⊢
  cases hs : s.bodies with rw [hs] at hbodies
  | nil => simp [map_eq_nil_iff.mp hbodies]
  | cons body outer =>
    obtain ⟨body', outer', ht, hbody, houter⟩ := map_eq_cons_iff.mp hbodies
    rw [ht]
    simp only [modifyHead_cons, map_cons, houter]
    simp only [BodyContext.shell, BodyContext.mk.injEq] at hbody ⊢
    simp [hbody]

end Advances

end Flowgraph
