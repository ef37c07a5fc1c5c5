import Flowgraph.Proofs.Emission.Bracket

/-!
# Emissions keep states well-formed

Every emission leads from a well-formed state to a well-formed state that advances the first one
(`Emission.sound`), by induction over the emission.

What a branch, a loop, a closure or a comprehension does is cut into parts, and a structure says
what holds between them (`BranchParts`, `LoopParts`, `ClosureParts`, `ComprehensionParts`).  It is
made from what the induction knows of the blocks, and the inductions for types and laws use it
again.  While the sides of a branch are merged, name by name, `Merging` is the invariant.
-/

namespace Flowgraph

open Entity Flowgraph.Graph List Lower LowerState Option

variable {name : String} {entity other : Entity} {frame : Frame} {c : BlockId} {g : Graph}
  {node : Node} {p : InsertPoint} {result list : ValueId} {params : List ParamDecl}
  {body : BodyContext} {A : Prop} {H results : List ValueId} {s t : LowerState}
  {base s₁ : LowerState} {n : NodeId} {span : Span} {v : ValueId} {side : BranchSide}

mutual

theorem Entity.values_of_same : (a : Entity) → ∀ {b : Entity}, a.same b = true → a.values = b.values
  | .value _, b, h | .builtin _, b, h | .function _, b, h | .method _ _ _, b, h
  | .primitiveMethod _ _, b, h | .cls _, b, h | .range _ _ _, b, h | .closure _, b, h
  | .fork, b, h | .module _, b, h => by
      cases b <;> simp_all [same, values]
  | .zip items, b, h => by
      cases b <;> simp only [same, Bool.false_eq_true] at h
      exact valuesAll_of_sameAll items h
  | .enumerate inner, b, h => by
      cases b <;> simp only [same, Bool.false_eq_true] at h
      simpa only [values] using values_of_same inner h

theorem Entity.valuesAll_of_sameAll : (as : List Entity) → ∀ {bs : List Entity},
    sameAll as bs = true → valuesAll as = valuesAll bs
  | [], bs, h => by
      cases bs <;> simp_all [sameAll, valuesAll]
  | a :: as, bs, h => by
      cases bs with
      | nil => simp [sameAll] at h
      | cons b bs =>
        simp only [sameAll, Bool.and_eq_true] at h
        rw [valuesAll, valuesAll, values_of_same a h.1, valuesAll_of_sameAll as h.2]

end

theorem Frame.get?_of_assigned? {binding : Binding} (h : frame.assigned? name = some binding) :
    frame.get? name = some binding := by
  obtain ⟨slot, hslot, hasgn⟩ := bind_eq_some_iff.mp h
  cases slot with
  | assigned bound =>
    rw [Frame.get?, hslot]
    exact hasgn
  | refined ty => cases hasgn

/-! ## Merging the sides of a branch -/

/-- A side of a branch that starts at `base`, once it was lowered. -/
structure SideKept (H : List ValueId) (base : LowerState) (side : BranchSide) (s : LowerState) :
    Prop where
  new : base.graph.blocks.length ≤ side.block.index
  entities : ∀ name entity, side.frame.assigned? name = some (.entity entity) →
    ∀ v ∈ entity.values, v ∉ H ∧ s.graph.Defined ⟨side.block, none⟩ v
  raises : side.raises = true → s.graph.Raises side.block

theorem SideKept.mono (h : SideKept H base side s)
    (hgrows : Grows s.graph t.graph) : SideKept H base side t where
  new := h.new
  entities name entity hget v hv := by
    obtain ⟨hvis, hdef⟩ := h.entities name entity hget v hv
    exact ⟨hvis, hdef.mono hgrows (hasAnchor_end _ _)⟩
  raises hrs := (h.raises hrs).mono hgrows

/-- The two sides of a branch were lowered, and their names are being merged. -/
structure Merging (H : List ValueId) (base : LowerState) (n : NodeId)
    (a b : BranchSide) (s : LowerState) : Prop where
  wellFormed : WellFormed H s
  advances : Advances H base s
  newNode : base.graph.nodes.length ≤ n.index
  placed : n ∈ s.graph.before s.point
  sides : ∃ node, s.graph.node? n = some node ∧ Sides node a.block b.block
  first : SideKept H base a s
  second : SideKept H base b s
  common : ∀ name entity name' entity', a.frame.assigned? name = some (.entity entity) →
    b.frame.assigned? name' = some (.entity entity') →
    ∀ v ∈ entity.values, v ∈ entity'.values → s.graph.Defined s.point v

namespace Merging

variable {H : List ValueId} {base s t : LowerState} {n : NodeId} {a b : BranchSide}

section

variable (h : Merging H base n a b s)
include h

theorem step (hwf : WellFormed H t) (hadv : Advances H base t) (hgrows : Grows s.graph t.graph)
    (hpoint : t.point = s.point) : Merging H base n a b t where
  __ := h
  wellFormed := hwf
  advances := hadv
  placed := hpoint ▸ hgrows.mem_before h.wellFormed.hasAnchor h.placed
  sides := by
    obtain ⟨node, hn, hsides⟩ := h.sides
    obtain ⟨node', hn', hnodeGrows⟩ := hgrows.node n node hn
    exact ⟨node', hn', hsides.mono hnodeGrows⟩
  first := h.first.mono hgrows
  second := h.second.mono hgrows
  common name entity name' entity' ha hb v hv hv' :=
    hpoint ▸ (h.common name entity name' entity' ha hb v hv hv').mono hgrows h.wellFormed.hasAnchor

theorem swap : Merging H base n b a s where
  __ := h
  sides := by
    obtain ⟨node, hn, hop, others, hblocks⟩ := h.sides
    exact ⟨node, hn, hop, others, hblocks.symm⟩
  first := h.second
  second := h.first
  common name entity name' entity' hb ha v hv hv' :=
    h.common name' entity' name entity ha hb v hv' hv

theorem held_survivor (hrs : b.raises = true)
    (hget : a.frame.assigned? name = some (.entity entity)) : ∀ v ∈ entity.values, Held H s v := by
  intro v hv
  obtain ⟨node, hn, hsides⟩ := h.sides
  obtain ⟨hvis, hdef⟩ := h.first.entities name entity hget v hv
  exact ⟨hvis, .survive h.wellFormed.coherent h.placed hn hsides (h.second.raises hrs) hdef⟩

theorem held_shared (ha : a.binding? s.scope name = some (.entity entity))
    (hb : b.binding? s.scope name = some (.entity other)) (hs : entity.same other = true) :
    ∀ v ∈ entity.values, Held H s v := by
  have hvs := values_of_same entity hs
  have hfd : ∀ denoted, ((s.scope.find? name).map Scope.Found.binding) =
      some (.entity denoted) → ∀ v ∈ denoted.values, Held H s v := by
    intro denoted hdenoted
    obtain ⟨⟨frame, binding⟩, hfind, rfl⟩ := map_eq_some_iff.mp hdenoted
    exact h.wellFormed.frames.find hfind
  simp only [BranchSide.binding?, or_eq_some_iff] at ha hb
  rcases ha with ha | ⟨-, ha⟩
  · rcases hb with hb | ⟨-, hb⟩
    · intro v hv
      exact ⟨(h.first.entities name entity ha v hv).1,
        h.common name entity name other ha hb v hv (hvs ▸ hv)⟩
    · rw [hvs]
      exact hfd other hb
  · exact hfd entity ha

theorem encloses : s.graph.Encloses ⟨s.point.block, some n⟩ a.block := by
  obtain ⟨node, hn, hsides⟩ := h.sides
  exact encloses_of_mem_before h.placed hn hsides.mem

end

section

variable (h : Merging H base n a b s)
include h

/-- Where the variables of a side are read: at its end, or before a closure around the branch. -/
theorem returnPoint (source : Option Nat) : s.graph.Anchored (s.returnPoint a.block source) ∧
      s.graph.PastConstants (s.returnPoint a.block source) ∧
      s.graph.Within ⟨a.block, none⟩ (s.returnPoint a.block source) ∧
      (s.graph.Around s.point (s.returnPoint a.block source).block ∨
        (s.returnPoint a.block source).block = a.block) := by
  have hend : s.graph.Anchored ⟨a.block, none⟩ := by
    obtain ⟨node, hn, hsides⟩ := h.sides
    obtain ⟨block, hb, -⟩ := h.wellFormed.coherent.nested n node _ hn hsides.mem
    exact ⟨block, hb, by simp⟩
  have hhere : s.graph.PastConstants ⟨a.block, none⟩ := by
    intro _ _ hnone
    cases hnone
  cases source with
  | none => exact ⟨hend, hhere, .here _, Or.inr rfl⟩
  | some frame =>
    rw [LowerState.returnPoint]
    rcases h.wellFormed.readPoint frame ⟨a.block, none⟩ with
      heq | ⟨c, closure, inner, heq, henc, hin⟩ <;> rw [heq]
    · exact ⟨hend, hhere, .here _, Or.inr rfl⟩
    · refine ⟨henc.anchored, WellFormed.past_of_encloses h.wellFormed.tidy henc, ?_, Or.inl ?_⟩
      · exact .outward h.encloses (hin _ rfl)
      · exact ⟨_, hin s.point rfl, rfl⟩

theorem around (hbase : base.graph.Anchored base.point) (hc : s.graph.Around s.point c) :
    base.graph.Around base.point c ∨ base.graph.blocks.length ≤ c.index := by
  obtain ⟨block, hb, -⟩ := hbase
  obtain ⟨q, hwi, rfl⟩ := hc
  rw [h.advances.point] at hwi
  exact Or.inl ⟨q, hwi.of_grows h.advances.grows (index_lt_of_block? hb), rfl⟩

theorem returnFrom (hbase : base.graph.Anchored base.point)
    (name : String) (side : SideType) (span : Span) (label : Option String) :
    Merging H base n a b (s.returnFrom a.block name side span label) := by
  obtain ⟨hanchored, hpast, hwi, hopen⟩ := h.returnPoint side.source
  generalize hp : s.returnPoint a.block side.source = p at hanchored hpast hwi hopen
  have hload : WellFormed H (s.withGraph (s.graph.place p (loadNode name span) [side.ty])) :=
    h.wellFormed.placeAt hanchored hpast rfl (by simp [loadNode]) (by simp [loadNode])
  have hgrows : Grows s.graph (s.graph.place p (loadNode name span) [side.ty]) :=
    .place h.wellFormed.coherent rfl _ [side.ty]
  have hdef : (s.graph.place p (loadNode name span) [side.ty]).Defined ⟨a.block, none⟩
      s.graph.freshValue :=
    ⟨_, hwi.mono hgrows,
      definedHere_place h.wellFormed.coherent hanchored (by simp [freshValues_one])⟩
  have hret := (hload.named s.graph.freshValue label).withResult (hdef.mono
    ((Grows.refl _).named s.graph.freshValue label) (hasAnchor_end _ _))
  rw [LowerState.returnFrom, hp]
  refine h.step hret ?_ (((hgrows.named _ label)).withResult a.block _) rfl
  have hb : base.graph.Around base.point p.block ∨ base.graph.blocks.length ≤ p.block.index :=
    hopen.elim (h.around hbase) fun heq => Or.inr (heq ▸ h.first.new)
  exact { h.advances with graph := ((h.advances.graph.place h.wellFormed.coherent hb rfl
    [side.ty]).named _ label).withResult h.first.new _ }

theorem withOutputs (types : List Ty) : Merging H base n a b (s.withOutputs n types) := by
  induction types generalizing s with
  | nil => exact h
  | cons ty rest ih =>
    refine ih (s := s.withGraph (s.graph.withOutput n ty)) (h.step (h.wellFormed.withOutput n ty)
      ?_ ((Grows.refl s.graph).withOutput n ty) rfl)
    exact { h.advances with graph := h.advances.graph.withOutput h.newNode ty }

theorem definedHere_output (ty : Ty) (label : Option String) :
    ((s.graph.withOutput n ty).named s.graph.freshValue label).DefinedHere s.point
      s.graph.freshValue := by
  obtain ⟨node, hn, -⟩ := h.sides
  have hgrows := ((Grows.refl s.graph).withOutput n ty).named s.graph.freshValue label
  exact .output (hgrows.mem_before h.wellFormed.hasAnchor h.placed) (node?_withOutput hn ty)
    (by simp)

theorem storeOutput (hbase : base.graph.Anchored base.point)
    (name : String) (ty : Ty) (span : Span) (label : Option String) :
    Merging H base n a b (s.storeOutput n name ty span label) := by
  have hout := (h.wellFormed.withOutput n ty).named s.graph.freshValue label
  have hgrows := ((Grows.refl s.graph).withOutput n ty).named s.graph.freshValue label
  have hstore : WellFormed H ((s.withGraph ((s.graph.withOutput n ty).named
      s.graph.freshValue label)).place (storeNode name s.graph.freshValue span) []) := by
    refine hout.place rfl (fun v hv => ?_) (by simp [storeNode])
    obtain rfl := mem_singleton.mp hv
    exact (h.definedHere_output ty label).defined
  have hsince := (h.advances.graph.withOutput h.newNode ty).named s.graph.freshValue label
  have hadv : Advances H base (((s.withGraph ((s.graph.withOutput n ty).named
      s.graph.freshValue label)).place (storeNode name s.graph.freshValue span) [])) :=
    { h.advances with
      graph := hsince.place hout.coherent (h.around hbase ⟨_, .here _, rfl⟩) rfl [] }
  exact h.step (hstore.recordPlain name ty) (hadv.trans (.recordPlain _ name ty) hbase)
    (hgrows.trans (.place hout.coherent rfl _ [])) rfl

end

end Merging

theorem Merge.sound
    {a b : BranchSide} (hmerge : Merge n a b s t) (hbase : base.graph.Anchored base.point)
    (h : Merging H base n a b s) : Merging H base n a b t := by
  induction hmerge with
  | refl => exact h
  | trans _ _ ih ih' => exact ih' (ih h)
  | joined span labelA labelB label =>
    refine Merging.storeOutput (.swap ?_) hbase _ _ span label
    exact (h.returnFrom hbase _ _ span labelA).swap.returnFrom hbase _ _ span labelB
  | @shared s name entity other ha hb hs =>
    exact h.step (h.wellFormed.recordEntity (h.held_shared ha hb hs) name)
      (h.advances.trans (.recordEntity _ name entity) hbase) (.refl _) rfl
  | @survivor s name binding hside =>
    refine h.step (h.wellFormed.recordBinding ?_ name)
      (h.advances.trans (.recordBinding _ name binding) hbase) ?_ ?_
    · rintro entity rfl
      rcases hside with ⟨hrs, hget⟩ | ⟨hrs, hget⟩
      · exact h.held_survivor hrs hget
      · exact h.swap.held_survivor hrs hget
    · cases binding <;> exact .refl _
    · cases binding <;> rfl
  | defer s name fault =>
    exact h.step (h.wellFormed.defer name fault) (h.advances.trans (.defer _ name fault) hbase)
      (.refl _) rfl

/-! ## Branches -/

section

variable {H : List ValueId} {s s₁ s₂ : LowerState} {condition v : ValueId} {span : Span}
  {a b : BranchSide} {resultsA resultsB : List ValueId}

theorem Graph.node?_withBlock (hn : g.node? n = some node) : (g.withBlock n).node? n =
      some { node with blocks := node.blocks ++ [g.freshBlock] } := by
  rw [Graph.withBlock, node?_mapNode, if_pos rfl, node?_pushBlock, hn, map_some]

theorem Graph.block?_withBlock (g : Graph) (n : NodeId) (b : BlockId) : (g.withBlock n).block? b =
      if b = g.freshBlock then some { owner := some n } else g.block? b := by
  rw [Graph.withBlock, block?_mapNode, block?_pushBlock]

theorem Graph.length_blocks_place (g : Graph) (p : InsertPoint) (node : Node)
    (types : List Ty) : (g.place p node types).blocks.length = g.blocks.length := by
  simp [Graph.place, Graph.attach]

theorem Graph.freshBlock_place (g : Graph) (p : InsertPoint) (node : Node) (types : List Ty) :
    (g.place p node types).freshBlock = g.freshBlock := by
  rw [freshBlock, length_blocks_place, freshBlock]

theorem Graph.freshBlock_withBlock (g : Graph) (n : NodeId) :
    (g.withBlock n).freshBlock = ⟨g.blocks.length + 1⟩ := by
  simp [freshBlock, Graph.withBlock, pushBlock, mapNode]

theorem node?_openBranch (s : LowerState) (condition : ValueId) (span : Span) :
    (s.openBranch condition span).graph.node? s.graph.freshNode = some
      { op := .branch, inputs := [condition], owner := some s.point.block, span,
        blocks := s.sideBlocks } := by
  have hpl : (s.graph.place s.point { op := .branch, inputs := [condition], span } []).node?
      s.graph.freshNode =
        some { op := .branch, inputs := [condition], owner := some s.point.block, span } :=
    node?_place_fresh s.point
  rw [LowerState.openBranch, LowerState.withGraph, LowerState.graph,
    node?_withBlock (node?_withBlock hpl), freshBlock_withBlock,
    freshBlock_place, length_blocks_place]
  rfl

theorem block?_openBranch (s : LowerState) (condition : ValueId) (span : Span) {b : BlockId}
    (hb : b = ⟨s.graph.blocks.length⟩ ∨ b = ⟨s.graph.blocks.length + 1⟩) :
    (s.openBranch condition span).graph.block? b = some { owner := some s.graph.freshNode } := by
  rw [LowerState.openBranch, LowerState.withGraph, LowerState.graph, block?_withBlock,
    freshBlock_withBlock, length_blocks_place, block?_withBlock, freshBlock_place]
  rcases hb with rfl | rfl
  · simp [freshBlock]
  · simp

theorem Between.openBranch (h : WellFormed H s) (hcond : Held H s condition)
    (span : Span) : Between H s s.graph.freshNode (s.openBranch condition span) := by
  have hpl : Between H s s.graph.freshNode
      (s.place { op := .branch, inputs := [condition], span } []) := by
    refine Between.start h rfl (fun v hv => ?_) (by simp) (by simp)
    obtain rfl := mem_singleton.mp hv
    exact hcond
  exact hpl.withBlock.withBlock

theorem Graph.Around.index_lt (hp : g.Anchored p) (h : g.Around p c) :
    c.index < g.blocks.length := by
  obtain ⟨outer, hwi, rfl⟩ := h
  induction hwi with
  | here =>
    obtain ⟨block, hb, -⟩ := hp
    exact index_lt_of_block? hb
  | outward henc _ ih => exact ih henc.anchored

theorem otherSide_empty (h : WellFormed H s) (hbt : Between H s s.graph.freshNode
      (s.openBranch condition span)) (hbs : s.Sides a.block b.block)
    (henc : (s.openBranch condition span).graph.Encloses
      ⟨s.point.block, some s.graph.freshNode⟩ a.block)
    (hadv : Advances H ((s.openBranch condition span).enter a.block) s₁) :
    s₁.graph.block? b.block = some { owner := some s.graph.freshNode } := by
  have hempty := block?_openBranch s condition span (b := b.block)
    (hbs.elim (fun h => Or.inr h.2) fun h => Or.inl h.2)
  rw [← hempty]
  refine hadv.graph.closed b.block (index_lt_of_block? hempty) ?_
  rintro ⟨outer, hwi, houter⟩
  cases hwi with
  | here =>
    have heq : a.block = b.block := houter
    rcases hbs with ⟨ha, hb⟩ | ⟨ha, hb⟩ <;> simp [ha, hb] at heq
  | outward hencloses' hwi =>
    obtain rfl := hbt.wellFormed.coherent.encloses_unique hencloses' henc
    obtain ⟨block, hblock, -⟩ := id h.anchored
    have hold := hwi.of_grows hbt.graph.grows (index_lt_of_block? hblock)
    have haround : s.graph.Around s.point b.block :=
      .of_block (p := ⟨s.point.block, some s.graph.freshNode⟩) rfl ⟨outer, hold, houter⟩
    have hlt := haround.index_lt h.anchored
    rcases hbs with ⟨-, hb⟩ | ⟨-, hb⟩ <;> rw [hb] at hlt <;> simp only at hlt <;> omega

theorem grows_withResults (s : LowerState) (b : BlockId) (results : List ValueId) :
    Grows s.graph (s.withResults b results).graph :=
  List.foldlRecOn results _ (.refl _) fun _ h v _ => h.withResult b v

theorem WellFormed.entities (h : WellFormed H s) (hf : s.scope.current? = some frame)
    (hget : frame.assigned? name = some (.entity entity)) : ∀ v ∈ entity.values, Held H s v := by
  have hfs := h.frames
  obtain ⟨outer, hcons⟩ : ∃ outer, s.scope.frames = frame :: outer :=
    head?_eq_some_iff.mp hf
  rw [hcons] at hfs
  exact hfs.2.1 name entity (Frame.get?_of_assigned? hget)

theorem SideEnds.kept {outputs : List Ty} (h : SideEnds A H side results outputs s)
    (hnew : base.graph.blocks.length ≤ side.block.index) (hwf : WellFormed H s)
    (hpoint : s.point = ⟨side.block, none⟩) : SideKept H base side s :=
  ⟨hnew, fun _ _ hget v hv => hpoint ▸ hwf.entities h.frame hget v hv, h.raises⟩

/-- The parts of a branch, one after the other. -/
structure BranchParts (H : List ValueId) (s s₁ s₂ : LowerState) (condition : ValueId)
    (span : Span) (a b : BranchSide) (resultsA resultsB : List ValueId) : Prop where
  sides : s.Sides a.block b.block
  opened : Between H s s.graph.freshNode (s.openBranch condition span)
  first : Runs H ((s.openBranch condition span).enter a.block) s₁
  middle : Between H s s.graph.freshNode ((s₁.leave s.point).withResults a.block resultsA)
  enclosed : ((s₁.leave s.point).withResults a.block resultsA).graph.Encloses
    ⟨s.point.block, some s.graph.freshNode⟩ b.block
  second : Runs H (((s₁.leave s.point).withResults a.block resultsA).enter b.block) s₂
  last : Between H s s.graph.freshNode ((s₂.leave s.point).withResults b.block resultsB)

namespace BranchParts

theorem of_sound (h : WellFormed H s) (hcond : Held H s condition) (hbs : s.Sides a.block b.block)
    (ha : Leads H ((s.openBranch condition span).enter a.block) s₁)
    (hendA : SideEnds A H a resultsA outputs s₁)
    (hb : Leads H (((s₁.leave s.point).withResults a.block resultsA).enter b.block) s₂)
    (hendB : SideEnds A H b resultsB outputs s₂) :
    BranchParts H s s₁ s₂ condition span a b resultsA resultsB := by
  have hopen := Between.openBranch h hcond span
  have hn := node?_openBranch s condition span
  have hnewA := hbs.new
  have hnewB := hbs.swap.new
  -- the first side
  have henclosesA := hopen.encloses hn hbs.mem
  have hentryA := hopen.enter henclosesA
  obtain ⟨hwf₁, hadv₁⟩ := ha hentryA.wellFormed
  have hin₁ := hentryA.advance henclosesA hnewA h.anchored hwf₁ hadv₁
  have hmid := (hopen.leave hin₁ s.point).withResults hnewA resultsA fun v hv =>
    hin₁.point ▸ (hendA.held v hv).2
  -- the second side
  have henclosesB : ((s₁.leave s.point).withResults a.block resultsA).graph.Encloses
      ⟨s.point.block, some s.graph.freshNode⟩ b.block :=
    (hopen.encloses hn hbs.swap.mem).mono
      (hadv₁.grows.trans (grows_withResults (s₁.leave s.point) a.block resultsA))
  have hentryB := hmid.enter henclosesB
  obtain ⟨hwf₂, hadv₂⟩ := hb hentryB.wellFormed
  have hin₂ := hentryB.advance henclosesB hnewB h.anchored hwf₂ hadv₂
  have hend := (hmid.leave hin₂ s.point).withResults hnewB resultsB fun v hv =>
    hin₂.point ▸ (hendB.held v hv).2
  exact ⟨hbs, hopen, ⟨hentryA.wellFormed, hwf₁, hadv₁⟩, hmid, henclosesB,
    ⟨hentryB.wellFormed, hwf₂, hadv₂⟩, hend⟩

variable (h : BranchParts H s s₁ s₂ condition span a b resultsA resultsB)
include h

theorem isSides : Sides
    { op := .branch, inputs := [condition], owner := some s.point.block, span,
      blocks := s.sideBlocks } a.block b.block :=
  ⟨rfl, [], h.sides.imp (fun h => by simp [h]) fun h => by simp [h]⟩

theorem grows_second : Grows s₁.graph s₂.graph :=
  (grows_withResults (s₁.leave s.point) a.block resultsA).trans h.second.advances.grows

theorem merging (hwf : WellFormed H s) (hendA : SideEnds A H a resultsA outputs s₁)
    (hendB : SideEnds A H b resultsB outputs s₂) :
    Merging H s s.graph.freshNode a b ((s₂.leave s.point).withResults b.block resultsB) := by
  obtain ⟨hwfEnd, hadv⟩ := h.last.finish hwf rfl
  have hlast : Grows s₂.graph ((s₂.leave s.point).withResults b.block resultsB).graph :=
    grows_withResults (s₂.leave s.point) b.block resultsB
  have hgrows := h.grows_second.trans hlast
  have hn := node?_openBranch s condition span
  have hkeptB := hendB.kept h.sides.swap.new h.second.stop h.second.advances.point
  refine ⟨hwfEnd, hadv, Nat.le_refl _, h.last.placed, ?_,
    (hendA.kept h.sides.new h.first.stop h.first.advances.point).mono hgrows, hkeptB.mono hlast, ?_⟩
  · obtain ⟨node', hn', hnodeGrows⟩ := (h.first.advances.grows.trans hgrows).node _ _ hn
    exact ⟨node', hn', h.isSides.mono hnodeGrows⟩
  · intro name entity name' entity' hgetA hgetB v hvA hvB
    have hold := (h.first.stop.entities hendA.frame hgetA v hvA).2.index_lt h.first.stop.coherent
    obtain ⟨outer, hwi, hhere⟩ := (hkeptB.entities name' entity' hgetB v hvB).2
    cases hwi with
    | here =>
      -- what the second side defines itself, the first one does not know
      have hempty := otherSide_empty hwf h.opened h.sides (h.opened.encloses hn h.sides.mem)
        h.first.advances
      have hnew := hhere.is_new h.grows_second (fun block hb => by
        cases hempty.symm.trans hb
        exact ⟨rfl, rfl⟩)
      exact absurd hold (Nat.not_lt.mpr hnew)
    | outward henc hwi =>
      obtain rfl := h.second.stop.coherent.encloses_unique henc
        (h.enclosed.mono h.second.advances.grows)
      have hpl := h.second.advances.grows.mem_before h.middle.hasAnchor h.middle.placed
      exact (Defined.after hpl ⟨outer, hwi, hhere⟩).mono hlast
        ((hwf.anchored.mono (h.middle.graph.grows.trans h.second.advances.grows)).hasAnchor
          h.second.stop.coherent)

end BranchParts

end

/-! ## Loops -/

section

variable {H : List ValueId} {s s₁ s₂ s₃ : LowerState} {trip first next : ValueId} {span : Span}

theorem Between.openLoop (h : Between H base n s)
    (htrip : s.graph.Defined ⟨base.point.block, some n⟩ trip)
    (hfirst : s.graph.Defined ⟨base.point.block, some n⟩ first) :
    Between H base n (s.openLoop n trip first) ∧
      (s.openLoop n trip first).graph.Encloses ⟨base.point.block, some n⟩ s.graph.freshBlock := by
  have hgrows := (Grows.refl s.graph).withInput n trip
  have hanchor := h.wellFormed.hasAnchor
  have hins := (h.withInput htrip).withInput (hfirst.mono hgrows hanchor)
  have hp := hins.withBlock.withParam (b := s.graph.freshBlock) h.graph.grows.blocks_le .int
  refine ⟨hp, ?_⟩
  obtain ⟨node, hn⟩ := hins.exists_node
  have hb := hins.withBlock.encloses (node?_withBlock hn)
    (mem_append_right _ (mem_singleton.mpr rfl))
  exact hb.mono ((Grows.refl _).withParam _ _)

/-- A loop up to the start of its body. -/
structure LoopStart (H : List ValueId) (s s₁ : LowerState) (trip first : ValueId) (span : Span) :
    Prop where
  placed : Between H s s.graph.freshNode (s.place { op := .loop, inputs := [], span } [])
  start : Runs H (s.beforeLoop span) s₁
  opened : Between H s s.graph.freshNode ((s₁.moveTo s.point).openLoop s.graph.freshNode trip first)
  enclosed : ((s₁.moveTo s.point).openLoop s.graph.freshNode trip first).graph.Encloses
    ⟨s.point.block, some s.graph.freshNode⟩ s₁.graph.freshBlock

namespace LoopStart

theorem placedBefore (h : WellFormed H s) (span : Span) :
    Between H s s.graph.freshNode (s.place { op := .loop, inputs := [], span } []) :=
  Between.start h rfl (by simp) (by simp) (by simp)

theorem of_sound (h : WellFormed H s) (hfirst : Leads H (s.beforeLoop span) s₁)
    (htrip : Held H s₁ trip) (hcond : Held H s₁ first) : LoopStart H s s₁ trip first span := by
  have hpl := placedBefore h span
  obtain ⟨hwf₁, hadv₁⟩ := hfirst hpl.wellFormed
  have hpoint₁ : s₁.point = ⟨s.point.block, some s.graph.freshNode⟩ := hadv₁.point
  obtain ⟨hloop, henc⟩ := (hpl.outside s.point hwf₁ hadv₁).openLoop
    (hpoint₁ ▸ htrip.2) (hpoint₁ ▸ hcond.2)
  exact ⟨hpl, ⟨hpl.wellFormed, hwf₁, hadv₁⟩, hloop, henc⟩

section

variable (h : LoopStart H s s₁ trip first span)
include h

theorem entry : WellFormed H (s.loopBody s₁ trip first) :=
  (h.opened.enter h.enclosed).wellFormed

section

variable (hwf : WellFormed H s) (hbody : Runs H (s.loopBody s₁ trip first) s₂)
include hwf hbody

theorem inside : Inside H s s₁.graph.freshBlock (s.loopBody s₁ trip first) s₂ :=
  (h.opened.enter h.enclosed).advance h.enclosed
    (h.placed.outside s.point h.start.stop h.start.advances).graph.grows.blocks_le hwf.anchored
    hbody.stop hbody.advances

theorem enclosedNext : ((s₂.leave s.point).withBlock s.graph.freshNode).graph.Encloses
      ⟨s.point.block, some s.graph.freshNode⟩ s₂.graph.freshBlock := by
  have hmid := h.opened.leave (h.inside hwf hbody) s.point
  obtain ⟨node, hn⟩ := hmid.exists_node
  exact hmid.withBlock.encloses (node?_withBlock hn) (mem_append_right _ (mem_singleton.mpr rfl))

theorem entryNext : WellFormed H (s.loopNext s₂) :=
  ((h.opened.leave (h.inside hwf hbody) s.point).withBlock.enter
    (h.enclosedNext hwf hbody)).wellFormed

end

end

end LoopStart

/-- The parts of a loop, one after the other. -/
structure LoopParts (H : List ValueId) (s s₁ s₂ s₃ : LowerState) (trip first next : ValueId)
    (span : Span) : Prop extends LoopStart H s s₁ trip first span where
  body : Runs H (s.loopBody s₁ trip first) s₂
  middle : Between H s s.graph.freshNode (s₂.leave s.point)
  again : Runs H (s.loopNext s₂) s₃
  last : Between H s s.graph.freshNode (s.afterLoop s₂ s₃ next)

theorem LoopParts.of_sound (h : WellFormed H s) (hfirst : Leads H (s.beforeLoop span) s₁)
    (htrip : Held H s₁ trip) (hcond : Held H s₁ first) (hbody : LoopStart H s s₁ trip first span →
      WellFormed H s₂ ∧ Advances H (s.loopBody s₁ trip first) s₂)
    (hnext : Leads H (s.loopNext s₂) s₃) (hret : WellFormed H (s.loopNext s₂) → Held H s₃ next) :
    LoopParts H s s₁ s₂ s₃ trip first next span := by
  have hstart := LoopStart.of_sound h hfirst htrip hcond
  obtain ⟨hwf₂, hadv₂⟩ := hbody hstart
  have hruns : Runs H (s.loopBody s₁ trip first) s₂ := ⟨hstart.entry, hwf₂, hadv₂⟩
  have hin₂ := hstart.inside h hruns
  have hmid := hstart.opened.leave hin₂ s.point
  -- the condition of the next round
  have henc := hstart.enclosedNext h hruns
  have he := hmid.withBlock.enter henc
  obtain ⟨hwf₃, hadv₃⟩ := hnext he.wellFormed
  have hnew : s.graph.blocks.length ≤ s₂.graph.freshBlock.index := hin₂.graph.grows.blocks_le
  have hin₃ := he.advance henc hnew h.anchored hwf₃ hadv₃
  have hend := (hmid.withBlock.leave hin₃ s.point).withResults hnew [next] fun v hv => by
      obtain rfl := mem_singleton.mp hv
      exact hin₃.point ▸ (hret he.wellFormed).2
  exact ⟨hstart, hruns, hmid, ⟨he.wellFormed, hwf₃, hadv₃⟩, hend⟩

end

/-! ## Closures -/

theorem Between.openClosure (h : WellFormed H s)
    (span : Span) : Between H s s.graph.freshNode (s.openClosure span) ∧
      (s.openClosure span).graph.Encloses ⟨s.point.block, some s.graph.freshNode⟩
        s.graph.freshBlock := by
  have hpl : Between H s s.graph.freshNode
      (s.place { op := .closure, inputs := [], span } [.nothing]) :=
    Between.start h rfl (by simp) (by simp) (by simp)
  refine ⟨hpl.withBlock, ?_⟩
  obtain ⟨node, hn⟩ := hpl.exists_node
  have henc := hpl.withBlock.encloses (node?_withBlock hn)
    (mem_append_right _ (mem_singleton.mpr rfl))
  rwa [LowerState.place, LowerState.withGraph, LowerState.graph, freshBlock_place] at henc

/-- The parts of a closure, one after the other. -/
structure ClosureParts (H : List ValueId) (s s₁ : LowerState) (result : ValueId)
    (params : List ParamDecl) (body : BodyContext) (span : Span) : Prop where
  opened : Between H s s.graph.freshNode (s.openClosure span)
  entry : WellFormed H ((s.openClosure span).enterBody s.graph.freshBlock
    (some s.graph.freshNode) body)
  declared : Runs H (((s.openClosure span).enterBody s.graph.freshBlock
    (some s.graph.freshNode) body).declareAll s.graph.freshBlock params) s₁
  last : Between H s s.graph.freshNode
    ((s₁.leaveBody s.point).withResults s.graph.freshBlock [result])

theorem ClosureParts.of_sound
    (h : WellFormed H s) (hbody : Leads H (((s.openClosure span).enterBody s.graph.freshBlock
      (some s.graph.freshNode) body).declareAll s.graph.freshBlock params) s₁)
    (hret : Held H s₁ result) : ClosureParts H s s₁ result params body span := by
  obtain ⟨hopen, henc⟩ := Between.openClosure h span
  have hnew : s.graph.blocks.length ≤ s.graph.freshBlock.index := Nat.le_refl _
  have he := hopen.enterBody henc body
  have hdecl := he.declareAll hnew params
  obtain ⟨hwf₁, hadv₁⟩ := hbody hdecl.wellFormed
  have hin := hdecl.advance (henc.mono hdecl.grows) hnew h.anchored hwf₁ hadv₁
  refine ⟨hopen, he.wellFormed, ⟨hdecl.wellFormed, hwf₁, hadv₁⟩,
    (hopen.leaveBody hin s.point).withResults hnew [result] fun v hv => ?_⟩
  obtain rfl := mem_singleton.mp hv
  exact hin.point ▸ hret.2

theorem ClosureParts.sound (hpts : ClosureParts H s s₁ result params body span)
    (signature : Signature) : Leads H s (((s₁.leaveBody s.point).withResults s.graph.freshBlock
      [result]).sign s.graph.freshValue signature) := by
  intro h
  obtain ⟨hwf, hadv⟩ := hpts.last.finish h rfl
  exact ⟨hwf.of_same rfl (.refl _),
    { hadv with signatures := hadv.signatures.trans (suffix_cons _ _) }⟩

/-! ## Single steps -/

section

variable {H : List ValueId} {s : LowerState}

theorem Advances.place {types : List Ty} (h : WellFormed H s)
    (hp : s.graph.Around s.point p.block) (hbs : node.blocks = []) :
    Advances H s (s.withGraph (s.graph.place p node types)) :=
  .of_graph ((Since.refl H _ s.graph).place h.coherent (Or.inl hp) hbs types)

theorem place_sound (node : Node) (hbs : node.blocks = [])
    (hins : ∀ v ∈ node.inputs, s.graph.Defined s.point v)
    (hset : node.op = .tupleConstruct → ∀ v ∈ node.inputs, v ∉ H) (types : List Ty) :
    Leads H s (s.place node types) :=
  fun h => ⟨h.place hbs hins hset, .place h ⟨_, .here _, rfl⟩ hbs⟩

theorem storeNode_sound (hv : Held H s v) (name : String) (span : Span) :
    Leads H s (s.place (storeNode name v span) []) := by
  refine place_sound _ rfl (fun w hw => ?_) (by simp [storeNode]) []
  obtain rfl := mem_singleton.mp hw
  exact hv.2

theorem read_sound (frame : Nat) (name : String) (span : Span) (ty : Ty) :
    Leads H s (s.withGraph (s.graph.place (s.readPoint frame s.point) (loadNode name span) [ty])) :=
  fun h => ⟨h.placeAt (h.anchored_readPoint frame) (h.past_readPoint frame) rfl (by simp [loadNode])
    (by simp [loadNode]), .place h ⟨_, h.within_readPoint frame, rfl⟩ rfl⟩

theorem pooled_sound (value : Literal) (ty : Ty) : Leads H s (s.pooled value ty) := by
  intro h
  obtain ⟨q, hwi, hroot⟩ := h.rooted
  refine ⟨h.pooled value ty, ?_, rfl, .refl _, rfl, suffix_refl _⟩
  exact (Since.refl H _ s.graph).attach h.coherent (Or.inl ⟨q, hwi, hroot⟩)
    (arranges_atPosition _ _) rfl [ty]

end

/-! ## Comprehensions -/

theorem fill_sound (hH : list ∈ H) (hlist : s.graph.Defined s.point list) (hv : Held H s v)
    (ty filled : Ty) (span : Span) : Leads H s (s.fill list v ty filled span) := by
  intro h
  have hretyped := h.retype list (.list ty)
  have hgrows : Grows s.graph (s.graph.retype list (.list ty)) :=
    (Grows.refl s.graph).retype list (.list ty)
  have hadv : Advances H s (s.withGraph (s.graph.retype list (.list ty))) :=
    .of_graph ((Since.refl _ _ _).retype hH (.list ty))
  obtain ⟨hpl, hadvances'⟩ := place_sound
    { op := .primitive .append, inputs := [list, v], span } rfl (fun w hw => by
      rcases mem_cons.mp hw with rfl | hw
      · exact hlist.mono hgrows h.hasAnchor
      · obtain rfl := mem_singleton.mp hw
        exact hv.2.mono hgrows h.hasAnchor) (by simp) [filled] hretyped
  exact ⟨hpl, hadv.trans hadvances' h.anchored⟩

theorem constant_sound (h : WellFormed H s) (value : Literal) (ty : Ty) (span : Span) :
    Runs H s (s.place (constantNode value span) [ty]) ∧
      Held H (s.place (constantNode value span) [ty]) s.graph.freshValue := by
  obtain ⟨hwf, hadv⟩ := place_sound (constantNode value span) rfl (by simp [constantNode])
    (by simp [constantNode]) [ty] h
  refine ⟨⟨h, hwf, hadv⟩, h.freshValue_not_mem, ?_⟩
  exact (definedHere_place h.coherent h.anchored (by simp [freshValues_one])).defined

section

variable {H : List ValueId} {s s₀ s₁ s₂ : LowerState} {trip first v : ValueId} {ty filled : Ty}
  {span : Span}

/-- The parts of a comprehension, one after the other. -/
structure ComprehensionParts (H : List ValueId) (s s₀ s₁ s₂ : LowerState)
    (trip first v : ValueId) (ty filled : Ty) (span : Span) : Prop where
  iter : Runs (s.graph.freshValue :: H) (s.placeList span) s₀
  body : Runs (s.graph.freshValue :: H) ((s₀.loopBody s₁ trip first).enterLoop .loop) s₂
  fill : Runs (s.graph.freshValue :: H) s₂ (s₂.fill s.graph.freshValue v ty filled span)
  loop : LoopParts (s.graph.freshValue :: H) s₀ s₁
    (s₂.fill s.graph.freshValue v ty filled span).leaveLoop
    ((s₀.loopNext (s₂.fill s.graph.freshValue v ty filled span).leaveLoop).place
      (constantNode (.bool true) span) [.bool]) trip first
    (s₀.loopNext (s₂.fill s.graph.freshValue v ty filled span).leaveLoop).graph.freshValue span

theorem ComprehensionParts.of_sound (h : WellFormed H s)
    (hiter : Leads (s.graph.freshValue :: H) (s.placeList span) s₀)
    (hfirst : Leads (s.graph.freshValue :: H) (s₀.beforeLoop span) s₁)
    (htrip : Held (s.graph.freshValue :: H) s₁ trip)
    (hcond : Held (s.graph.freshValue :: H) s₁ first)
    (hbody : Leads (s.graph.freshValue :: H) ((s₀.loopBody s₁ trip first).enterLoop .loop) s₂)
    (helem : Held (s.graph.freshValue :: H) s₂ v) (ty filled : Ty) :
    ComprehensionParts H s s₀ s₁ s₂ trip first v ty filled span := by
  have hpl := h.hide (.list .tensor) span
  obtain ⟨hwf₀, hadv₀⟩ := hiter hpl
  have hlist : s₀.graph.Defined s₀.point s.graph.freshValue := by
    have hhere : (s.placeList span).graph.Defined s.point s.graph.freshValue :=
      (definedHere_place h.coherent h.anchored (by simp [freshValues_one])).defined
    exact hadv₀.point ▸ hhere.mono hadv₀.grows hpl.hasAnchor
  -- the body fills the list, which is defined there because it was before the loop
  have hfill : LoopStart (s.graph.freshValue :: H) s₀ s₁ trip first span →
      Runs (s.graph.freshValue :: H) ((s₀.loopBody s₁ trip first).enterLoop .loop) s₂ ∧
        Runs (s.graph.freshValue :: H) s₂ (s₂.fill s.graph.freshValue v ty filled span) := by
    intro hstart
    have hinLoop : WellFormed (s.graph.freshValue :: H)
        ((s₀.loopBody s₁ trip first).enterLoop .loop) := hstart.entry.of_same rfl (.refl _)
    obtain ⟨hwf₂, hadv₂⟩ := hbody hinLoop
    have hlist₂ : s₂.graph.Defined s₂.point s.graph.freshValue :=
      hadv₂.point ▸ (Defined.of_within (.outward hstart.enclosed (.here _))
        (hstart.opened.visible _ hlist)).mono hadv₂.grows hstart.entry.hasAnchor
    obtain ⟨hwf, hadv⟩ := fill_sound (.head _) hlist₂ helem ty filled span hwf₂
    exact ⟨⟨hinLoop, hwf₂, hadv₂⟩, hwf₂, hwf, hadv⟩
  have hnext := fun he : WellFormed (s.graph.freshValue :: H)
      (s₀.loopNext (s₂.fill s.graph.freshValue v ty filled span).leaveLoop) =>
    constant_sound he (.bool true) .bool span
  have hloop := LoopParts.of_sound hwf₀ hfirst htrip hcond (fun hstart => by
      obtain ⟨hruns, hruns'⟩ := hfill hstart
      exact ⟨hruns'.stop.of_same rfl (.refl _),
        (hruns.advances.trans hruns'.advances hruns.start.anchored).leaveLoop⟩)
    (fun he => ⟨(hnext he).1.stop, (hnext he).1.advances⟩)
    (fun he => (hnext he).2)
  obtain ⟨hruns, hruns'⟩ := hfill hloop.toLoopStart
  exact ⟨⟨hpl, hwf₀, hadv₀⟩, hruns, hruns', hloop⟩

theorem ComprehensionParts.sound
    (hpts : ComprehensionParts H s s₀ s₁ s₂ trip first v ty filled span) : Leads H s
      (s₀.afterRounds (s₂.fill s.graph.freshValue v ty filled span).leaveLoop span) := by
  intro h
  obtain ⟨hwf, hadv⟩ := hpts.loop.last.finish hpts.iter.stop rfl
  have hpl : Advances H s (s.placeList span) :=
    .place h ⟨_, .here _, rfl⟩ rfl
  exact ⟨hwf.unhide, ((hpl.hide _).trans (hpts.iter.advances.trans hadv
    hpts.iter.start.anchored) h.anchored).unhide (Nat.le_refl _)⟩

end

/-! ## All emissions -/

theorem Emission.sound (hemit : Emission A H s t) : Leads H s t := by
  intro h
  induction hemit with
  | refl H s => exact ⟨h, .refl H s⟩
  | trans _ _ ih ih' =>
    obtain ⟨ht, hst⟩ := ih h
    obtain ⟨hu, htu⟩ := ih' ht
    exact ⟨hu, hst.trans htu h.anchored⟩
  | node types hplain hbs _ hins =>
    exact place_sound _ hbs (fun v hv => (hins v hv).2) (fun _ v hv => (hins v hv).1) types h
  | pooled H s hnum => exact pooled_sound _ _ h
  | named H s v label => exact ⟨h.named v label, .of_graph ((Since.refl H _ s.graph).named v label)⟩
  | input H s =>
    obtain ⟨q, hwi, hroot⟩ := h.rooted
    exact ⟨h.withParam _ _, .of_graph ((Since.refl H _ s.graph).withParam
      (Or.inl ⟨rfl, q, hwi, hroot⟩) _)⟩
  | read span hfd => exact read_sound _ _ span _ h
  | @store H s name v ty span hheld =>
    obtain ⟨hwf, hadv⟩ := storeNode_sound hheld name span h
    exact ⟨hwf.recordPlain name ty, hadv.trans (.recordPlain _ name ty) h.anchored⟩
  | @narrow H s name v ty span hheld =>
    obtain ⟨hwf, hadv⟩ := storeNode_sound hheld name span h
    exact ⟨hwf.bindCurrent name (.refined ty) (by simp [Slot.binding]),
      hadv.trans (.of_scope (Scope.kept_recordRefined _ name ty)) h.anchored⟩
  | @entity H s name entity hheld => exact ⟨h.recordEntity hheld name, .recordEntity s name entity⟩
  | defer H s name fault => exact ⟨h.defer name fault, .defer s name fault⟩
  | merged H s ty => exact ⟨h.of_same rfl (.refl _), .setMerged s ty⟩
  | narrowing _ ih =>
    obtain ⟨ht, hadv⟩ := ih h.narrowing
    exact ⟨h.pop ht hadv, hadv.pop⟩
  | inLoop kind _ ih =>
    obtain ⟨ht, hadv⟩ := ih (h.of_same rfl (.refl _))
    exact ⟨ht.of_same rfl (.refl _), hadv.leaveLoop⟩
  | branch span hcond _ hbs _ hendA _ hendB _ hmerge iha ihb =>
    have hpts := BranchParts.of_sound h hcond hbs iha hendA ihb hendB
    have hmerged := hmerge.sound h.anchored ((hpts.merging h hendA hendB).withOutputs _)
    exact ⟨hmerged.wellFormed, hmerged.advances⟩
  | loop span _ htrip _ hcond _ _ _ hret _ ihfirst ihbody ihnext =>
    exact (LoopParts.of_sound h ihfirst htrip hcond (fun hstart => ihbody hstart.entry) ihnext
      fun _ => hret).last.finish h rfl
  | comprehension span _ _ htrip _ hcond _ _ helem _ _ ihiter ihfirst ihbody =>
    exact (ComprehensionParts.of_sound h ihiter ihfirst htrip hcond ihbody helem _ _).sound h
  | closure span name body _ _ _ hret _ ih => exact (ClosureParts.of_sound h ih hret).sound _ h
  | fork span _ hcl hargs =>
    refine place_sound _ rfl (fun v hv => ?_) (by simp) _ h
    rcases mem_cons.mp hv with rfl | hv
    · exact hcl.2
    · exact (hargs v hv).2

theorem Emission.runs (h : Emission A H s t) (hwf : WellFormed H s) : Runs H s t :=
  ⟨hwf, (h.sound hwf).1, (h.sound hwf).2⟩

end Flowgraph
