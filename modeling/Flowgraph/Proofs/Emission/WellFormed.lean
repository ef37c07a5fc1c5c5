import Flowgraph.Proofs.Emission.Invariant

/-!
# Well-formed states

The invariant of lowering and the changes of the state that keep it, one theorem for each change.
The proofs about emissions use these and do not open the invariant again.
-/

namespace Flowgraph

open Flowgraph.Graph List

variable {v : ValueId} {b : BlockId} {node : Node} {n c : NodeId} {p : InsertPoint}
  {types : List Ty} {g : Graph}

/-- Inputs are in the arena, constants own no blocks, and no tuple is made of a list that is still
being filled. -/
structure Graph.Tidy (H : List ValueId) (g : Graph) : Prop where
  known : ∀ n node, g.node? n = some node → ∀ v ∈ node.inputs, v.index < g.values.length
  bare : ∀ n node, g.node? n = some node → node.op = .constant → node.blocks = []
  settled : ∀ n node, g.node? n = some node → node.op = .tupleConstruct → ∀ v ∈ node.inputs, v ∉ H

namespace Graph.Tidy

variable {H : List ValueId} {g g' : Graph}

section

variable (h : g.Tidy H)
include h

theorem of_nodes (hle : g.values.length ≤ g'.values.length)
    (hns : ∀ n node', g'.node? n = some node' → ∃ node, g.node? n = some node ∧
      node'.op = node.op ∧ (node.op = .constant → node'.blocks = node.blocks) ∧
      (∀ v ∈ node'.inputs, v ∈ node.inputs ∨
        node.op ≠ .tupleConstruct ∧ v.index < g'.values.length)) : g'.Tidy H where
  known n node' hn' v hv := by
    obtain ⟨node, hn, -, -, hins⟩ := hns n node' hn'
    rcases hins v hv with hv | ⟨-, hlt⟩
    · exact lt_of_lt_of_le (h.known n node hn v hv) hle
    · exact hlt
  bare n node' hn' hop := by
    obtain ⟨node, hn, heq, hbs, -⟩ := hns n node' hn'
    rw [hbs (heq ▸ hop)]
    exact h.bare n node hn (heq ▸ hop)
  settled n node' hn' hop v hv := by
    obtain ⟨node, hn, heq, -, hins⟩ := hns n node' hn'
    rcases hins v hv with hv | ⟨hne, -⟩
    · exact h.settled n node hn (heq ▸ hop) v hv
    · exact absurd (heq ▸ hop) hne

theorem of_same_nodes (hle : g.values.length ≤ g'.values.length)
    (hns : g'.nodes = g.nodes) : g'.Tidy H :=
  h.of_nodes hle fun n node hn =>
    ⟨node, by rwa [node?, ← hns], rfl, fun _ => rfl, fun _ hv => .inl hv⟩

theorem attach (hbs : node.blocks = []) (hknown : ∀ v ∈ node.inputs, v.index < g.values.length)
    (hins : node.op = .tupleConstruct → ∀ v ∈ node.inputs, v ∉ H) (b : BlockId)
    (arrange : List NodeId → List NodeId) (types : List Ty) :
    (g.attach b arrange node types).Tidy H where
  known n made hm v hv := by
    rw [node?_attach] at hm
    refine lt_of_lt_of_le ?_ (by simp [Graph.attach] : g.values.length ≤ _)
    split at hm
    · cases hm
      exact hknown v hv
    · exact h.known n made hm v hv
  bare n made hm hop := by
    rw [node?_attach] at hm
    split at hm
    · cases hm
      exact hbs
    · exact h.bare n made hm hop
  settled n made hm hop := by
    rw [node?_attach] at hm
    split at hm
    · cases hm
      exact hins hop
    · exact h.settled n made hm hop

theorem mapNode {f : Node → Node} (hf : ∀ node, g.node? n = some node
      → (f node).op = node.op ∧ (node.op = .constant → (f node).blocks = node.blocks) ∧ (∀ v ∈ (f
      node).inputs, v ∈ node.inputs ∨ node.op ≠ .tupleConstruct ∧ v.index < g.values.length)) :
    (g.mapNode n f).Tidy H := by
  refine h.of_nodes le_rfl fun m made hm => ?_
  obtain ⟨node, hn, rfl | ⟨rfl, rfl⟩⟩ := exists_of_mapNode hm
  · exact ⟨made, hn, rfl, fun _ => rfl, fun _ hv => .inl hv⟩
  · exact ⟨node, hn, hf node hn⟩

theorem hide (hv : g.values.length ≤ v.index) : g.Tidy (v :: H) := by
  refine ⟨h.known, h.bare, fun n node hn hop w hw hin => ?_⟩
  rcases mem_cons.mp hin with rfl | hin
  · exact absurd (h.known n node hn w hw) hv.not_gt
  · exact h.settled n node hn hop w hw hin

end

theorem unhide (h : g.Tidy (v :: H)) : g.Tidy H :=
  ⟨h.known, h.bare, fun n node hn hop w hw hin =>
    h.settled n node hn hop w hw (mem_cons_of_mem v hin)⟩

end Graph.Tidy

/-- What holds between any two steps of lowering. -/
structure WellFormed (H : List ValueId) (s : LowerState) : Prop where
  uses : s.graph.Scoped
  tidy : s.graph.Tidy H
  known : ∀ v ∈ H, v.index < s.graph.values.length
  pool : Pooled H s.graph s.builder.pool
  anchored : s.graph.Anchored s.point
  past : s.graph.PastConstants s.point
  rooted : ∃ q, s.graph.Within s.point q ∧ q.block = root
  frames : FramesOk H s.graph s.point s.scope.frames

namespace WellFormed

variable {H : List ValueId} {s t u : LowerState}

section

variable (h : WellFormed H s)
include h

theorem coherent : s.graph.Coherent := h.uses.coherent

theorem hasAnchor : s.graph.HasAnchor s.point :=
  h.anchored.hasAnchor h.coherent

omit h in
theorem past_of_encloses (htidy : s.graph.Tidy H) (h : s.graph.Encloses p b) :
    s.graph.PastConstants p := by
  obtain ⟨n, node, block, hbef, -, -, hn, hb⟩ := h
  intro m made hm hmade hop
  cases hbef.symm.trans hm
  cases hn.symm.trans hmade
  simp [htidy.bare n node hn hop] at hb

omit h in
theorem past_of_within (htidy : s.graph.Tidy H) {q} (h : s.graph.Within p q)
    (hp : s.graph.PastConstants p) : s.graph.PastConstants q := by
  induction h with
  | here => exact hp
  | outward henc _ ih => exact ih (past_of_encloses htidy henc)

theorem held_pooled {entry : Literal × ValueId} (he : entry ∈ s.builder.pool) :
    Held H s entry.2 := by
  obtain ⟨q, hwi, hroot⟩ := h.rooted
  have hpast := past_of_within h.tidy hwi h.past
  obtain ⟨_, _, _, _, _, _, _, hpool⟩ := h.pool
  exact ⟨(hpool entry he).1, h.pool.defined hwi hroot hpast he⟩

theorem blocks_pos : 0 < s.graph.blocks.length := by
  obtain ⟨block, hb, -⟩ := h.anchored
  exact Nat.zero_lt_of_lt (index_lt_of_block? hb)

theorem withBuilder {pool : List (Literal × ValueId)}
    (hgrows : Grows s.graph g) (hscop : g.Scoped) (htidy : g.Tidy H) (hpool : Pooled H g pool) :
    WellFormed H { s with builder := { s.builder with graph := g, pool } } where
  uses := hscop
  tidy := htidy
  known v hv := lt_of_lt_of_le (h.known v hv) hgrows.values_le
  pool := hpool
  anchored := h.anchored.mono hgrows
  past n node hn hnode := by
    obtain ⟨old, hold⟩ := h.hasAnchor n hn
    obtain ⟨node', hn', hnodeGrows⟩ := hgrows.node n old hold
    cases hnode.symm.trans hn'
    rw [hnodeGrows.op]
    exact h.past n old hn hold
  rooted := by
    obtain ⟨q, hwi, hroot⟩ := h.rooted
    exact ⟨q, hwi.mono hgrows, hroot⟩
  frames := h.frames.mono hgrows h.hasAnchor

theorem withGraph (hgrows : Grows s.graph g) (hscop : g.Scoped) (htidy : g.Tidy H)
    (hpool : Pooled H g s.builder.pool) : WellFormed H (s.withGraph g) :=
  h.withBuilder hgrows hscop htidy hpool

/-! ## Changes of the graph -/

theorem placeAt (hp : s.graph.Anchored p) (hpast : s.graph.PastConstants p) (hbs : node.blocks = [])
    (hins : ∀ v ∈ node.inputs, s.graph.Defined p v)
    (hset : node.op = .tupleConstruct → ∀ v ∈ node.inputs, v ∉ H) :
    WellFormed H (s.withGraph (s.graph.place p node types)) :=
  h.withGraph (.place h.coherent hbs p types)
    (h.uses.attach (arranges_placeIn _ _) hbs fun v hv => (hins v hv).place_fresh h.coherent hp hbs)
    (h.tidy.attach hbs (fun v hv => (hins v hv).index_lt h.coherent) hset _ _ types)
    (h.pool.place h.coherent hpast hbs types)

theorem place (hbs : node.blocks = []) (hins : ∀ v ∈ node.inputs, s.graph.Defined s.point v)
    (hset : node.op = .tupleConstruct → ∀ v ∈ node.inputs, v ∉ H) :
    WellFormed H (s.place node types) :=
  h.placeAt h.anchored h.past hbs hins hset

theorem withOutput (n : NodeId) (ty : Ty) :
    WellFormed H (s.withGraph (s.graph.withOutput n ty)) := by
  have hgrows := (Grows.refl s.graph).withOutput n ty
  refine h.withGraph hgrows (h.uses.withOutput n ty) ?_ (h.pool.of_same hgrows rfl)
  refine Tidy.mapNode ?_ ?_
  · exact h.tidy.of_same_nodes (by simp [pushValue]) rfl
  · exact fun node _ => ⟨rfl, fun _ => rfl, fun _ hv => .inl hv⟩

theorem withInput (hop : ∀ node, s.graph.node? n = some node → node.op ≠ .tupleConstruct)
    (hlt : v.index < s.graph.values.length) (hv : ∀ b block, s.graph.block? b = some block → n ∈
      block.nodes → s.graph.Defined ⟨b, some n⟩ v) :
    WellFormed H (s.withGraph (s.graph.withInput n v)) := by
  have hgrows := (Grows.refl s.graph).withInput n v
  refine h.withGraph hgrows (h.uses.withInput hv) ?_ (h.pool.of_same hgrows rfl)
  refine h.tidy.mapNode fun node hn => ⟨rfl, fun _ => rfl, fun w hw => ?_⟩
  rcases mem_append.mp hw with hw | hw
  · exact .inl hw
  · obtain rfl := mem_singleton.mp hw
    exact .inr ⟨hop node hn, hlt⟩

theorem withBlock (hop : ∀ node, s.graph.node? n = some node → node.op ≠ .constant) :
    WellFormed H (s.withBlock n) := by
  have hgrows := (Grows.refl s.graph).withBlock n
  refine h.withGraph hgrows (h.uses.withBlock n) ?_ (h.pool.of_same hgrows ?_)
  · refine Tidy.mapNode (Tidy.of_same_nodes h.tidy ?_ ?_) ?_
    · exact le_rfl
    · rfl
    exact fun node hn =>
      ⟨rfl, fun hconst => absurd hconst (hop node hn), fun _ hv => .inl hv⟩
  · obtain ⟨block, _, _, hb, _⟩ := h.pool
    have hne : root ≠ s.graph.freshBlock := by
      intro heq
      have hlt := index_lt_of_block? hb
      rw [heq] at hlt
      exact lt_irrefl _ hlt
    rw [Graph.withBlock, block?_mapNode, block?_pushBlock, if_neg hne]

omit h in
omit h in
theorem nodes_withResult (g : Graph) (b c : BlockId) (v : ValueId) :
    ((g.withResult b v).block? c).map Block.nodes = (g.block? c).map Block.nodes := by
  rw [withResult, block?_mapBlock]
  split <;> simp [Function.comp_def]

theorem withParam (b : BlockId) (ty : Ty) :
    WellFormed H (s.withGraph (s.graph.withParam b ty)) := by
  have hgrows := (Grows.refl s.graph).withParam b ty
  refine h.withGraph hgrows (h.uses.withParam b ty) (h.tidy.of_same_nodes hgrows.values_le rfl)
    (h.pool.of_same hgrows ?_)
  rw [Graph.withParam, block?_mapBlock]
  split <;> simp [Function.comp_def]

theorem withResult (hv : s.graph.Defined ⟨b, none⟩ v) :
    WellFormed H (s.withGraph (s.graph.withResult b v)) := by
  have hgrows := (Grows.refl s.graph).withResult b v
  refine h.withGraph hgrows (h.uses.withResult hv) ?_
    (h.pool.of_same hgrows (nodes_withResult s.graph b _ v))
  exact h.tidy.of_same_nodes hgrows.values_le rfl

theorem mapValue {f : Value → Value}
    (hgrows : Grows s.graph (s.graph.mapValue v f)) (hcoh : (s.graph.mapValue v f).Coherent) :
    WellFormed H (s.withGraph (s.graph.mapValue v f)) :=
  h.withGraph hgrows (h.uses.of_same hgrows hcoh (fun _ node hn => ⟨node, hn, rfl⟩)
    fun _ block hb => Or.inl ⟨block, hb, rfl, rfl⟩)
    (h.tidy.of_same_nodes hgrows.values_le rfl) (h.pool.of_same hgrows rfl)

theorem named (v : ValueId) (label : Option String) :
    WellFormed H (s.withGraph (s.graph.named v label)) :=
  h.mapValue ((Grows.refl s.graph).named v label) (h.coherent.named v label)

theorem retype (v : ValueId) (ty : Ty) : WellFormed H (s.withGraph (s.graph.retype v ty)) :=
  h.mapValue ((Grows.refl s.graph).retype v ty) (h.coherent.retype v ty)

theorem freshValue_not_mem : s.graph.freshValue ∉ H := fun hin => lt_irrefl _ (h.known _ hin)

theorem pooled (value : Literal) (ty : Ty) : WellFormed H (s.pooled value ty) := by
  have harr := arranges_atPosition s.builder.pool.length s.graph.freshNode
  have hgrows : Grows s.graph (s.pooled value ty).graph :=
    (Grows.refl s.graph).attach harr rfl (h.coherent.freshNode_not_mem root) [ty]
  exact h.withBuilder hgrows (h.uses.attach harr rfl (by simp))
    (h.tidy.attach rfl (by simp) (by simp) _ _ [ty])
    (h.pool.push h.coherent h.freshValue_not_mem rfl rfl value
      ty)

/-! ## Changes of the scope -/

theorem of_same (hbuilder : t.builder = s.builder)
    (hsc : s.scope.SameBindings t.scope) : WellFormed H t := by
  obtain ⟨builder, scope, bodies, signatures⟩ := t
  subst hbuilder
  exact { h with frames := h.frames.of_core hsc }

section

variable (name : String)

theorem bindCurrent (slot : Slot)
    (hent : ∀ entity, slot.binding = .entity entity → ∀ v ∈ entity.values, Held H s v) :
    WellFormed H (s.mapScope fun scope => scope.bindCurrent name slot) := by
  refine { h with frames := ?_ }
  have hfs := h.frames
  simp only [LowerState.mapScope, Scope.bindCurrent]
  split
  next hnil => exact hfs
  next frame outer hcons => exact .bind hent (hcons ▸ hfs)

theorem clearDeferred : WellFormed H (s.mapScope fun scope => scope.clearDeferred name) :=
  h.of_same rfl (Scope.sameBindings_clearDeferred _ _)

theorem recordPlain (ty : Ty) : WellFormed H (s.recordPlain name ty) :=
  (h.clearDeferred name).bindCurrent name (.assigned (.plain ty)) (by simp [Slot.binding])

theorem recordEntity {entity : Entity} (hheld : ∀ v ∈ entity.values, Held H s v) (name : String) :
    WellFormed H (s.recordEntity name entity) := by
  refine (h.clearDeferred name).bindCurrent name (.assigned (.entity entity)) ?_
  intro other hother v hv
  obtain rfl := Binding.entity.inj hother
  exact hheld v hv

theorem recordBinding {binding}
    (hheld : ∀ entity, binding = .entity entity → ∀ v ∈ entity.values, Held H s v)
    (name : String) : WellFormed H (s.recordBinding name binding) := by
  cases binding with
  | plain ty => exact h.recordPlain name ty
  | entity denoted => exact h.recordEntity (hheld denoted rfl) name

theorem defer (fault : Fault) : WellFormed H (s.defer name fault) :=
  h.of_same rfl (Scope.sameBindings_defer _ _ _)

end

theorem narrowing : WellFormed H s.narrowing :=
  { h with frames := ⟨rfl, by simp [Frame.get?], by simp, s.point, .here _, h.frames⟩ }

/-! ## Moving the insertion point -/

theorem back (ht : WellFormed H t) (hgrows : Grows s.graph t.graph) (hg : u.graph = t.graph)
    (hpool : u.builder.pool = t.builder.pool) (hpoint : u.point = s.point)
    (hsc : s.scope.SameBindings u.scope) : WellFormed H u := by
  obtain ⟨⟨g, point, pool⟩, scope, bodies, signatures⟩ := u
  simp only at hg hpool hpoint
  subst hg hpool hpoint
  have hs := h.withBuilder hgrows ht.uses ht.tidy ht.pool
  exact ⟨ht.uses, ht.tidy, ht.known, ht.pool, hs.anchored, hs.past, hs.rooted,
    hs.frames.of_core hsc⟩

theorem pop (ht : WellFormed H t) (hadv : Advances H s.narrowing t) : WellFormed H t.pop :=
  h.back ht hadv.grows rfl rfl hadv.point hadv.scope.pop

theorem enter (hb : s.graph.Encloses s.point b) : WellFormed H (s.enter b) := by
  obtain ⟨n, node, -, -, -, -, hn, hin⟩ := id hb
  obtain ⟨block, hblock, -⟩ := h.coherent.nested n node b hn hin
  obtain ⟨q, hwi, hroot⟩ := h.rooted
  refine ⟨h.uses, h.tidy, h.known, h.pool, ⟨block, hblock, ?_⟩, ?_, ⟨q, .outward hb hwi, hroot⟩,
    rfl, ?_, ?_, s.point, .outward hb (.here _), h.frames⟩
  · intro _ hnone
    cases hnone
  · intro _ _ hnone
    cases hnone
  · intro _ _ hget
    cases hget
  · intro _ hnone
    cases hnone

theorem enterBody (hb : s.graph.Encloses s.point b)
    (hc : s.point.before = some c) (body : BodyContext) :
    WellFormed H (s.enterBody b (some c) body) := by
  obtain ⟨uses, tidy, known, pool, anchored, past, rooted, hblock, hents, -, houter⟩ :=
    h.enter hb
  refine ⟨uses, tidy, known, pool, anchored, past, rooted, hblock, hents, ?_, houter⟩
  intro closure hcl
  cases hcl
  refine ⟨s.point.block, ?_⟩
  rw [← hc]
  exact hb

omit h in
theorem after (h : WellFormed H (s.moveTo ⟨p.block, some n⟩)) (hn : n ∈ s.graph.before p)
    (hp : s.graph.Anchored p) (hpast : s.graph.PastConstants p) : WellFormed H (s.moveTo p) := by
  refine ⟨h.uses, h.tidy, h.known, h.pool, hp, hpast, ?_, h.frames.after hn⟩
  obtain ⟨q, hwi, hroot⟩ := h.rooted
  cases hwi with
  | here => exact ⟨p, .here p, hroot⟩
  | outward henc hwi => exact ⟨q, .outward henc hwi, hroot⟩

theorem place_before (hbs : node.blocks = []) (hins : ∀ v ∈ node.inputs, s.graph.Defined s.point v)
    (hset : node.op = .tupleConstruct → ∀ v ∈ node.inputs, v ∉ H) (hop : node.op ≠ .constant) :
    WellFormed H ((s.place node types).moveTo ⟨s.point.block, some s.graph.freshNode⟩) := by
  have hpl : WellFormed H (s.place node types) := h.place hbs hins hset
  refine ⟨hpl.uses, hpl.tidy, hpl.known, hpl.pool, h.anchored.place_fresh, ?_, ?_,
    h.frames.place_fresh h.coherent h.anchored hbs⟩
  · intro n made hn hm
    cases hn
    obtain rfl := Option.some.inj ((node?_place_fresh s.point).symm.trans hm)
    exact hop
  · obtain ⟨q, hwi, hroot⟩ := h.rooted
    have hgrows : Grows s.graph (s.place node types).graph :=
      .place h.coherent hbs s.point types
    have hb : InsertPoint.block ⟨s.point.block, some s.graph.freshNode⟩ = s.point.block := rfl
    rcases hwi.move hgrows hb with rfl | hmoved
    · exact ⟨_, .here _, hroot⟩
    · exact ⟨q, hmoved, hroot⟩

/-! ## Lists that are being filled -/

theorem hide (ty : Ty) (span : Span) : WellFormed (s.graph.freshValue :: H)
      (s.place { op := .listConstruct, inputs := [], span } [ty]) := by
  have hgrows : Grows s.graph (s.place { op := .listConstruct, inputs := [], span } [ty]).graph :=
    .place h.coherent rfl s.point [ty]
  have hpl : WellFormed H (s.place { op := .listConstruct, inputs := [], span } [ty]) :=
    h.place rfl (by simp) (by simp)
  have hnew : s.graph.values.length ≤ s.graph.freshValue.index := le_rfl
  refine ⟨hpl.uses, (h.tidy.hide hnew).attach rfl (by simp) (by simp) _ _ [ty], ?_,
    (h.pool.hide h.coherent hnew).place h.coherent h.past rfl [ty], hpl.anchored, hpl.past,
    hpl.rooted, (h.frames.hide h.coherent hnew).mono hgrows h.hasAnchor⟩
  intro v hv
  rcases mem_cons.mp hv with rfl | hv
  · simp [LowerState.place, LowerState.withGraph, Graph.place, Graph.attach, freshValue]
  · exact hpl.known v hv

omit h in
theorem unhide (h : WellFormed (v :: H) s) : WellFormed H s :=
  ⟨h.uses, h.tidy.unhide, fun w hw => h.known w (mem_cons_of_mem v hw), h.pool.unhide,
    h.anchored, h.past, h.rooted, h.frames.unhide⟩

/-! ## Where variables are read -/

theorem readPoint (frame : Nat) (here : InsertPoint) :
    s.readPoint frame here = here ∨ ∃ b c inner, s.readPoint frame here = ⟨b, some c⟩ ∧
      s.graph.Encloses ⟨b, some c⟩ inner ∧
        ∀ p, p.block = s.point.block → s.graph.Within p ⟨b, some c⟩ := by
  rw [LowerState.readPoint]
  split
  next c hc =>
    right
    have hmem := mem_of_getLast? hc
    obtain ⟨found, hfd, hcl⟩ := mem_filterMap.mp hmem
    have hin := mem_of_mem_take (mem_of_mem_filter hfd)
    obtain ⟨b, henc, hwi⟩ := h.frames.closure hin hcl
    obtain ⟨n, node, block, hbef, hb, hn, hnode, -⟩ := id henc
    cases hbef
    obtain ⟨_, heq, hown⟩ := h.coherent.placed b block c hb hn
    cases hnode.symm.trans heq
    exact ⟨b, c, found.block, by simp [hnode, hown], henc, hwi⟩
  next => exact .inl rfl

theorem anchored_readPoint (frame : Nat) : s.graph.Anchored (s.readPoint frame s.point) := by
  rcases h.readPoint frame s.point with heq | ⟨b, c, inner, heq, henc, -⟩ <;> rw [heq]
  · exact h.anchored
  · exact henc.anchored

theorem past_readPoint (frame : Nat) : s.graph.PastConstants (s.readPoint frame s.point) := by
  rcases h.readPoint frame s.point with heq | ⟨b, c, inner, heq, henc, -⟩ <;> rw [heq]
  · exact h.past
  · exact past_of_encloses h.tidy henc

theorem within_readPoint (frame : Nat) : s.graph.Within s.point (s.readPoint frame s.point) := by
  rcases h.readPoint frame s.point with heq | ⟨b, c, inner, heq, -, hwi⟩ <;> rw [heq]
  · exact .here _
  · exact hwi s.point rfl

end

end WellFormed

end Flowgraph
