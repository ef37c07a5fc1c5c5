import Flowgraph.Proofs.Emission.Laws

/-!
# Every node that lowering places obeys its law

The induction over emissions keeps `Graph.LawfulBut`.  A node with blocks is pending from the time
it is placed until it is complete.  Meanwhile `BranchAt` and `NodeAt` keep account of its blocks and
of their types; when the last block is left they give the type of the node, and with it its law.
-/

namespace Flowgraph

open Flowgraph.Graph List Lower Option

variable {g : Graph} {values values' args : List ValueId} {node : Node} {isOpen : BlockId → Prop}
  {more types' outputs inputTypes argTys : List Ty} {A : Prop} {H : List ValueId}
  {pending : List NodeId} {s u t : LowerState} {types : List Ty} {v elem : ValueId} {found : Ty}
  {n m : NodeId}

/-! ## Single nodes -/

theorem Graph.Typed.eq_of_settled (h : g.Typed values types)
    (h' : g.Settled H values types') : types = types' :=
  Relator.RightUnique.forall₂ (fun _ _ _ hv hv' => some.inj (hv.symm.trans hv')) h
    (h'.imp fun _ _ => And.right)

/-- All nodes but the pending ones obey their law, as far as the state has come. -/
abbrev LowerState.Lawful (s : LowerState) (A : Prop) (H : List ValueId) (pending : List NodeId) :
    Prop :=
  LawfulBut A H pending s.graph s.signatures

/-- What happens between two states keeps the laws. -/
abbrev Abides (A : Prop) (H : List ValueId) (pending : List NodeId) (s t : LowerState) : Prop :=
  s.Lawful A H pending → t.Lawful A H pending

section

variable (hwf : WellFormed H s) (h : s.Lawful A H pending)
include hwf h

theorem lawful_place (p : InsertPoint)
    (hbs : node.blocks = []) (hins : ∀ v ∈ node.inputs, Held H s v) (hlaw : ∀ inputs,
      s.graph.Settled H node.inputs inputs → NodeType.Lawful A ⟨node.op, inputs, types,
      []⟩ ∧ (node.op = .forkClosure → s.graph.Forks H pending node.inputs ⟨node.op, inputs,
      types, []⟩)) : LawfulBut A H pending (s.graph.place p node types) s.signatures := by
  obtain ⟨inputs, hset⟩ := exists_settled fun v hv =>
    ⟨(hins v hv).1, (hins v hv).exists_type hwf⟩
  exact h.attach hwf.coherent hwf.known (arranges_placeIn _ _) hbs types fun _ =>
    ⟨inputs, hset, hlaw inputs hset⟩

theorem pending_place (node : Node) (types : List Ty) (hbs : node.blocks = []) :
    (s.place node types).Lawful A H (s.graph.freshNode :: pending) :=
  h.attach_pending hwf.coherent (arranges_placeIn _ _) hbs types

theorem lawful_store (hv : Held H s v) (name : String) (span : Span) :
    (s.place (storeNode name v span) []).Lawful A H pending :=
  lawful_place hwf h s.point rfl (by simpa [storeNode] using hv) fun _ _ =>
    ⟨trivial, fun hop => by simp [storeNode] at hop⟩

theorem lawful_load (p : InsertPoint) (name : String) (span : Span) (ty : Ty) :
    LawfulBut A H pending (s.graph.place p (loadNode name span) [ty]) s.signatures :=
  lawful_place hwf h p rfl (by simp [loadNode]) fun _ _ =>
    ⟨trivial, fun hop => by simp [loadNode] at hop⟩

theorem lawful_constant (value : Literal) (span : Span) (ty : Ty) :
    (s.place (constantNode value span) [ty]).Lawful A H pending :=
  lawful_place hwf h s.point rfl (by simp [constantNode]) fun _ _ =>
    ⟨trivial, fun hop => by simp [constantNode] at hop⟩

end

/-! ## Blocks of pending nodes -/

namespace Graph

variable {g g' : Graph} {b : BlockId} {ty : BlockType} {types : List Ty} {v : ValueId}

theorem Settled.append (h : g.Settled H values types)
    (h' : g.Settled H values' types') : g.Settled H (values ++ values') (types ++ types') :=
  rel_append h h'

theorem Settled.single {ty : Ty} (hv : v ∉ H) (hty : g.typeOf? v = some ty) :
    g.Settled H [v] [ty] :=
  .cons ⟨hv, hty⟩ .nil

theorem Settled.of_types (h : g.Settled H values types)
    (htys : g'.types = g.types ++ more) : g'.Settled H values types :=
  h.mono fun _ _ hv hty => ⟨hv, typeOf?_of_types htys hty⟩

theorem Settled.since (h : g.Settled H values types)
    (hsince : Since H isOpen g g') : g'.Settled H values types :=
  h.mono fun v _ hv hty => ⟨hv, (hsince.type v hv (lt_of_typeOf? hty)).trans hty⟩

section

variable (h : g.HasBlockType H b ty)
include h

theorem HasBlockType.since (hsince : Since H isOpen g g') (hb : b ≠ root) :
    g'.HasBlockType H b ty := by
  obtain ⟨block, hblock, hps, hres⟩ := h
  have hlt := index_lt_of_block? hblock
  obtain ⟨block', hb'⟩ := (exists_block?_iff g' b).mpr (hlt.trans_le hsince.grows.blocks_le)
  have hsameParams := hsince.params b hb hlt
  have hsameResults := hsince.results b hlt
  simp only [hblock, hb', map_some, some.injEq] at hsameParams hsameResults
  exact ⟨block', hb', hsameParams ▸ hps.since hsince, hsameResults ▸ hres.since hsince⟩

theorem HasBlockType.of_same (hb : g'.block? b = g.block? b) (htys : g'.types = g.types ++ more) :
    g'.HasBlockType H b ty := by
  obtain ⟨block, hfd, hps, hres⟩ := h
  exact ⟨block, hb.trans hfd, hps.of_types htys, hres.of_types htys⟩

theorem HasBlockType.withResult (hv : v ∉ H) (hty : g.typeOf? v = some found) :
    (g.withResult b v).HasBlockType H b ⟨ty.params, ty.results ++ [found]⟩ := by
  obtain ⟨block, hb, hps, hres⟩ := h
  refine ⟨{ block with results := block.results ++ [v] }, ?_, hps, ?_⟩
  · rw [Graph.withResult, block?_mapBlock, if_pos rfl, hb, map_some]
  · exact hres.append (.single hv hty)

theorem HasBlockType.withParam (hknown : ∀ v ∈ H, v.index < g.values.length) (param : Ty) :
    (g.withParam b param).HasBlockType H b ⟨ty.params ++ [param], ty.results⟩ := by
  obtain ⟨block, hb, hps, hres⟩ := h
  have htys := types_withParam g b param
  refine ⟨{ block with params := block.params ++ [g.freshValue] }, ?_, ?_, hres.of_types htys⟩
  · rw [Graph.withParam, block?_mapBlock, if_pos rfl, block?_pushValue, hb, map_some]
  · refine (hps.of_types htys).append (.single (fun hin => ?_) (typeOf?_withParam ..))
    exact lt_irrefl _ (hknown _ hin)

theorem HasBlockType.withOutput (n : NodeId) (output : Ty) :
    (g.withOutput n output).HasBlockType H b ty :=
  h.of_same rfl (types_withOutput ..)

theorem HasBlockType.withBlock (n : NodeId) : (g.withBlock n).HasBlockType H b ty := by
  refine h.of_same ?_ (append_nil _).symm
  obtain ⟨block, hb, -⟩ := h
  rw [block?_withBlock, if_neg (ne_freshBlock hb)]

end

theorem Coherent.unfinished (hc : g.Coherent) (hnode : g.node? n = some node)
    (hb : b ∈ node.blocks) (hn : n ∈ pending) : g.Unfinished pending b := by
  intro block m hblock hown
  obtain ⟨_, heq, howner'⟩ := hc.nested n node b hnode hb
  cases heq.symm.trans hblock
  exact some.inj (howner'.symm.trans hown) ▸ hn

end Graph

theorem lawful_withResults (h : s.Lawful A H pending)
    (hc : s.graph.Coherent) {b : BlockId} (hb : s.graph.Unfinished pending b)
    (hlt : b.index < s.graph.blocks.length) (results : List ValueId) :
    (s.withResults b results).Lawful A H pending := by
  induction results generalizing s with
  | nil => exact h
  | cons v rest ih =>
    refine ih (s := s.withGraph (s.graph.withResult b v)) (h.withResult hc hb v) (hc.withResult b v)
      (hb.mono ((Grows.refl _).withResult b v) hlt) ?_
    exact hlt.trans_le ((Grows.refl _).withResult b v).blocks_le

theorem lawful_withOutputs (h : s.Lawful A H pending) (hn : n ∈ pending) (types : List Ty) :
    (s.withOutputs n types).Lawful A H pending :=
  foldlRecOn (motive := (LawfulBut A H pending · s.signatures)) types _ h fun _ h ty _ =>
    h.withOutput hn ty

/-! ## Branches -/

/-- A branch that is being completed: what its sides return so far, and which outputs it has. -/
structure BranchAt (H : List ValueId) (g : Graph) (n : NodeId) (condition : ValueId)
    (a b : BlockId) (typesA typesB outputs : List Ty) : Prop where
  node : ∃ node, g.node? n = some node ∧ node.op = .branch ∧ node.inputs = [condition] ∧
    (node.blocks = [a, b] ∨ node.blocks = [b, a]) ∧ g.Settled H node.outputs outputs
  first : g.HasBlockType H a ⟨[], typesA⟩
  second : g.HasBlockType H b ⟨[], typesB⟩
  distinct : a ≠ b
  nested : a ≠ root ∧ b ≠ root

namespace BranchAt

variable {g g' : Graph} {n : NodeId} {condition : ValueId} {a b : BlockId}
  {typesA typesB outputs types : List Ty}

section

variable (h : BranchAt H g n condition a b typesA typesB outputs)
include h

theorem swap : BranchAt H g n condition b a typesB typesA outputs := by
  obtain ⟨⟨node, hn, hop, hins, hbs, houts⟩, hfirst, hsnd, hdist, hnest⟩ := h
  exact ⟨⟨node, hn, hop, hins, hbs.symm, houts⟩, hsnd, hfirst, hdist.symm, hnest.symm⟩

theorem since
    (hsince : Since H isOpen g g') : BranchAt H g' n condition a b typesA typesB outputs := by
  obtain ⟨⟨node, hn, hop, hins, hbs, houts⟩, hfirst, hsnd, hdist, hnest⟩ := h
  refine ⟨⟨node, ?_, hop, hins, hbs, houts.since hsince⟩, hfirst.since hsince hnest.1,
    hsnd.since hsince hnest.2, hdist, hnest⟩
  rw [hsince.node n (index_lt_of_node? hn), hn]

theorem withResult {ty : Ty} (hv : v ∉ H) (hty : g.typeOf? v = some ty) :
    BranchAt H (g.withResult a v) n condition a b (typesA ++ [ty]) typesB outputs where
  __ := h
  first := h.first.withResult hv hty
  second := h.second.of_same (by rw [Graph.withResult, block?_mapBlock, if_neg h.distinct])
    (append_nil _).symm

end

theorem withResults {results} (h : BranchAt H s.graph n condition a b typesA typesB outputs)
    (hres : s.graph.Settled H results types) :
    BranchAt H (s.withResults a results).graph n condition a b (typesA ++ types) typesB
      outputs := by
  induction results generalizing s typesA types with
  | nil =>
    cases hres
    rw [append_nil]
    exact h
  | cons v rest ih =>
    cases hres with
    | @cons _ ty _ types hv hr =>
      have := ih (s := s.withGraph (s.graph.withResult a v)) (h.withResult hv.1 hv.2) hr
      rwa [append_assoc] at this

theorem withOutput (h : BranchAt H g n condition a b typesA typesB outputs)
    (hknown : ∀ v ∈ H, v.index < g.values.length) (ty : Ty) :
    BranchAt H (g.withOutput n ty) n condition a b typesA typesB (outputs ++ [ty]) := by
  obtain ⟨⟨node, hn, hop, hins, hbs, houts⟩, hfirst, hsnd, hdist, hnest⟩ := h
  refine ⟨⟨_, node?_withOutput hn ty, hop, hins, hbs, ?_⟩, hfirst.withOutput n ty,
    hsnd.withOutput n ty, hdist, hnest⟩
  refine (houts.of_types (types_withOutput g n ty)).append
    (.single (fun hin => ?_) (typeOf?_withOutput ..))
  exact lt_irrefl _ (hknown _ hin)

theorem withOutputs (h : BranchAt H s.graph n condition a b typesA typesB outputs)
    (hknown : ∀ v ∈ H, v.index < s.graph.values.length) :
    BranchAt H (s.withOutputs n types).graph n condition a b typesA typesB (outputs ++ types) := by
  induction types generalizing s outputs with
  | nil =>
    rw [append_nil]
    exact h
  | cons ty rest ih =>
    have := ih (s := s.withGraph (s.graph.withOutput n ty)) (h.withOutput hknown ty) fun v hv =>
      lt_of_lt_of_le (hknown v hv) ((Grows.refl _).withOutput n ty).values_le
    rwa [append_assoc] at this

theorem opened (hwf : WellFormed H s) (condition : ValueId) (span : Span) (hbs : s.Sides a b) :
    BranchAt H (s.openBranch condition span).graph s.graph.freshNode condition a b [] [] [] := by
  have hroot : ∀ {c : BlockId}, s.graph.blocks.length ≤ c.index → c ≠ root := by
    rintro c hle rfl
    exact absurd hwf.blocks_pos hle.not_gt
  refine ⟨⟨_, node?_openBranch s condition span, rfl, rfl, ?_, .nil⟩,
    ⟨_, block?_openBranch s condition span ?_, .nil, .nil⟩,
    ⟨_, block?_openBranch s condition span ?_, .nil, .nil⟩, ?_, ?_, ?_⟩
  · rcases hbs with ⟨rfl, rfl⟩ | ⟨rfl, rfl⟩ <;> simp
  · exact hbs.imp And.left And.left
  · exact (hbs.imp And.right And.right).symm
  · rcases hbs with ⟨rfl, rfl⟩ | ⟨rfl, rfl⟩ <;> simp
  · exact hroot (by rcases hbs with ⟨rfl, -⟩ | ⟨rfl, -⟩ <;> simp)
  · exact hroot (by rcases hbs with ⟨-, rfl⟩ | ⟨-, rfl⟩ <;> simp)

theorem lawful (h : BranchAt H g n condition a b typesA typesB outputs) (hcond : condition ∉ H)
    (hty : g.typeOf? condition = some found)
    (htruth : A → found = .bool) (hA : A → Forall₂ Ty.Below typesA outputs)
    (hB : A → Forall₂ Ty.Below typesB outputs)
    (hn : g.node? n = some node) : g.Lawful A H pending node := by
  obtain ⟨⟨made, heq, hop, hins, hbs, houts⟩, hfirst, hsnd, -, -⟩ := h
  obtain rfl := some.inj (heq.symm.trans hn)
  have hinput : g.Settled H made.inputs [found] := hins ▸ .single hcond hty
  have hlaw : ∀ {first second : List Ty}, (A → Forall₂ Ty.Below first outputs) →
      (A → Forall₂ Ty.Below second outputs) →
      NodeType.Lawful A ⟨.branch, [found], outputs, [⟨[], first⟩, ⟨[], second⟩]⟩ :=
    fun hfirst hsnd hA => ⟨by rw [htruth hA], _, _, rfl, hfirst hA, hsnd hA⟩
  rcases hbs with hbs | hbs
  · exact ⟨_, ⟨hop.symm, hinput, houts, hbs ▸ .cons hfirst (.cons hsnd .nil)⟩, hlaw hA hB,
      fun hfork => by simp [hop] at hfork⟩
  · exact ⟨_, ⟨hop.symm, hinput, houts, hbs ▸ .cons hsnd (.cons hfirst .nil)⟩, hlaw hB hA,
      fun hfork => by simp [hop] at hfork⟩

end BranchAt

/-- How far a branch has come, with sides that return what the outputs take. -/
def BranchFits (A : Prop) (H : List ValueId) (g : Graph) (n : NodeId)
    (condition : ValueId) (a b : BlockId) : Prop :=
  ∃ typesA typesB outputs, BranchAt H g n condition a b typesA typesB outputs ∧
    (A → Forall₂ Ty.Below typesA outputs ∧ Forall₂ Ty.Below typesB outputs)

section

variable {base t : LowerState} {n : NodeId} {condition : ValueId} {a b : BranchSide}
  {typesA typesB outputs : List Ty}

theorem Merging.unfinished (hm : Merging H base n a b s) (hn : n ∈ pending) :
    s.graph.Unfinished pending a.block ∧ a.block.index < s.graph.blocks.length := by
  obtain ⟨node, hnode, hsides⟩ := hm.sides
  exact ⟨hm.wellFormed.coherent.unfinished hnode hsides.mem hn,
    hm.wellFormed.coherent.nested_lt hnode hsides.mem⟩

theorem lawful_returnFrom (hm : Merging H base n a b s) (hn : n ∈ pending)
    (h : s.Lawful A H pending) (name : String)
    (side : SideType) (span : Span) (label : Option String) :
    (s.returnFrom a.block name side span label).Lawful A H pending := by
  obtain ⟨hunfinished, hlt⟩ := hm.unfinished hn
  have hc := hm.wellFormed.coherent
  have hload := lawful_load hm.wellFormed h (s.returnPoint a.block side.source) name span side.ty
  have hpl : (s.graph.place (s.returnPoint a.block side.source) (loadNode name span)
      [side.ty]).Coherent := hc.place rfl _ _
  have hgrows : Grows s.graph ((s.graph.place (s.returnPoint a.block side.source)
      (loadNode name span) [side.ty]).named s.graph.freshValue label) :=
    (Grows.place hc rfl _ [side.ty]).named _ label
  exact (hload.named hpl _ label).withResult (hpl.named _ label) (hunfinished.mono hgrows hlt) _

theorem BranchAt.returnFrom (hwf : WellFormed H s)
    (h : BranchAt H s.graph n condition a.block b.block typesA typesB outputs) (name : String)
    (side : SideType) (span : Span) (label : Option String) :
    BranchAt H (s.returnFrom a.block name side span label).graph n condition a.block b.block
      (typesA ++ [side.ty]) typesB outputs := by
  refine (h.since (((Since.refl H (fun _ => True) s.graph).place hwf.coherent
    (.inl trivial) rfl [side.ty]).named _ label)).withResult hwf.freshValue_not_mem ?_
  rw [typeOf?_named, typeOf?_place]

theorem lawful_storeOutput (hm : Merging H base n a b s) (hn : n ∈ pending)
    (h : s.Lawful A H pending) (name : String) (ty : Ty) (span : Span) (label : Option String) :
    (s.storeOutput n name ty span label).Lawful A H pending := by
  have hout := (hm.withOutputs [ty]).wellFormed.named s.graph.freshValue label
  refine lawful_place hout
    ((h.withOutput hn ty).named (hm.wellFormed.coherent.withOutput n ty) _ label) s.point rfl ?_ ?_
  · exact forall_mem_singleton.mpr ⟨hm.wellFormed.freshValue_not_mem,
      (hm.definedHere_output ty label).defined⟩
  · exact fun _ _ => ⟨trivial, fun hop => by simp [storeNode] at hop⟩

theorem BranchAt.storeOutput (hwf : WellFormed H s)
    (h : BranchAt H s.graph n condition a.block b.block typesA typesB outputs) (name : String)
    (ty : Ty) (span : Span) (label : Option String) :
    BranchAt H (s.storeOutput n name ty span label).graph n condition a.block b.block typesA
      typesB (outputs ++ [ty]) := by
  have hc := (hwf.coherent.withOutput n ty).named s.graph.freshValue label
  exact ((h.withOutput hwf.known ty).since ((Since.refl H (fun _ => True) _).named _
    label)).since ((Since.refl H (fun _ => True) _).place hc (.inl trivial) rfl [])

theorem Merge.lawful (hmerge : Merge n a b s t) (hbase : base.graph.Anchored base.point)
    (hm : Merging H base n a b s) (hn : n ∈ pending) (h : s.Lawful A H pending)
    (hfits : BranchFits A H s.graph n condition a.block b.block)
    (hreg : A → s.Regular ∧ a.frame.Regular s.graph ∧ b.frame.Regular s.graph) :
    t.Lawful A H pending ∧ BranchFits A H t.graph n condition a.block b.block := by
  induction hmerge with
  | refl | shared | defer => exact ⟨h, hfits⟩
  | trans hfirst _ ih ih' =>
    obtain ⟨hmid, hfits'⟩ := ih hm h hfits hreg
    refine ih' (hfirst.sound hbase hm) hmid hfits' fun hA => ?_
    obtain ⟨hs, ha, hb⟩ := hreg hA
    obtain ⟨more, htys⟩ := hfirst.types
    exact ⟨hfirst.regular hs ha hb, ha.append htys, hb.append htys⟩
  | @joined s name typeA typeB joined span labelA labelB label hgetA hgetB hj =>
    obtain ⟨typesA, typesB, outputs, hat, hbelow⟩ := hfits
    have hmA := hm.returnFrom hbase name (a.typed s.scope name typeA) span labelA
    have hmB := (hmA.swap.returnFrom hbase name (b.typed s.scope name typeB) span labelB).swap
    have hA := lawful_returnFrom hm hn h name (a.typed s.scope name typeA) span labelA
    have hB := lawful_returnFrom hmA.swap hn hA name (b.typed s.scope name typeB) span labelB
    refine ⟨lawful_storeOutput hmB hn hB name joined span label, typesA ++ [typeA],
      typesB ++ [typeB], outputs ++ [joined], ?_, fun hA => ?_⟩
    · exact (((hat.returnFrom hm.wellFormed name _ span labelA).swap.returnFrom hmA.wellFormed
        name _ span labelB).swap).storeOutput hmB.wellFormed name joined span label
    · obtain ⟨hs, ha, hb⟩ := hreg hA
      have htypeA : typeA.Regular := a.regular_binding hs ha hgetA
      have htypeB : typeB.Regular := b.regular_binding hs hb hgetB
      obtain ⟨hbelowA, hbelowB⟩ := Ty.below_join typeA typeB htypeA.normal htypeB.normal hj
      obtain ⟨hfitsA, hfitsB⟩ := hbelow hA
      exact ⟨rel_append hfitsA (.cons hbelowA .nil), rel_append hfitsB (.cons hbelowB .nil)⟩
  | @survivor s name binding => cases binding <;> exact ⟨h, hfits⟩

end

theorem Graph.Returns.settled (h : g.Returns A values outputs) (hvs : ∀ v ∈ values, v ∉ H) :
    ∃ types, g.Settled H values types ∧ (A → Forall₂ Ty.Below types outputs) := by
  induction h with
  | nil => exact ⟨[], .nil, fun _ => .nil⟩
  | cons hv _ ih =>
    rw [forall_mem_cons] at hvs
    obtain ⟨found, hfd, hbelow⟩ := hv
    obtain ⟨types, htys, hr⟩ := ih hvs.2
    exact ⟨found :: types, .cons ⟨hvs.1, hfd⟩ htys, fun hA =>
      .cons (hbelow hA) (hr hA)⟩

section

variable {s₁ s₂ t : LowerState} {condition : ValueId} {span : Span} {a b : BranchSide}
  {resultsA resultsB : List ValueId} {outputs : List Ty}

section

variable (hpts : BranchParts H s s₁ s₂ condition span a b resultsA resultsB) (hwf : WellFormed H s)
include hpts hwf

theorem BranchParts.branchAt {typesA typesB : List Ty} (hA : s₁.graph.Settled H resultsA typesA)
    (hB : s₂.graph.Settled H resultsB typesB) :
    BranchAt H ((s₂.leave s.point).withResults b.block resultsB).graph s.graph.freshNode condition
      a.block b.block typesA typesB [] := by
  have hopn := BranchAt.opened hwf condition span hpts.sides
  have hat₁ := (hopn.since hpts.first.advances.graph).withResults (s := s₁.leave s.point) hA
  exact ((hat₁.since hpts.second.advances.graph).swap.withResults (s := s₂.leave s.point) hB).swap

theorem BranchParts.lawful (h : s.Lawful A H pending)
    (hcond : Held H s condition) (htruth : A → s.graph.typeOf? condition = some .bool)
    (hfirst : Abides A H (s.graph.freshNode :: pending) (s.openBranch condition span) s₁)
    (hendA : SideEnds A H a resultsA outputs s₁) (hsnd : Abides A H (s.graph.freshNode :: pending)
      ((s₁.leave s.point).withResults a.block resultsA) s₂)
    (hendB : SideEnds A H b resultsB outputs s₂)
    (hreg : A → s₁.Regular ∧ s₂.Regular ∧ ∀ ty ∈ outputs, ty.Regular)
    (hmerge : Merge s.graph.freshNode a b (((s₂.leave s.point).withResults b.block
      resultsB).withOutputs s.graph.freshNode outputs) t) : t.Lawful A H pending := by
  obtain ⟨typesA, hsettledA, hbelowA⟩ := hendA.returns.settled fun v hv => (hendA.held v hv).1
  obtain ⟨typesB, hsettledB, hbelowB⟩ := hendB.returns.settled fun v hv => (hendB.held v hv).1
  have hopn := BranchAt.opened hwf condition span hpts.sides
  obtain ⟨node, hn, -, -, hbs, -⟩ := hopn.node
  have hmem : a.block ∈ node.blocks ∧ b.block ∈ node.blocks := by
    rcases hbs with hbs | hbs <;> simp [hbs]
  have hpend : s.graph.freshNode ∈ s.graph.freshNode :: pending := mem_cons_self
  have hunfinished := fun {c : BlockId} (hc : c ∈ node.blocks) =>
    hpts.opened.wellFormed.coherent.unfinished hn hc hpend
  have hlt := fun {c : BlockId} (hc : c ∈ node.blocks) =>
    hpts.opened.wellFormed.coherent.nested_lt hn hc
  -- the two sides
  have hgrows₁ := hpts.first.advances.grows
  have h₁ := hfirst (((pending_place hwf h _ _ rfl).withBlock mem_cons_self).withBlock
    mem_cons_self)
  have hmid := lawful_withResults (s := s₁.leave s.point) h₁ hpts.first.stop.coherent
    ((hunfinished hmem.1).mono hgrows₁ (hlt hmem.1))
    (lt_of_lt_of_le (hlt hmem.1) hgrows₁.blocks_le) resultsA
  have h₂ := hsnd hmid
  have hgrows₂ := hgrows₁.trans hpts.grows_second
  have hlast := lawful_withResults (s := s₂.leave s.point) h₂ hpts.second.stop.coherent
    ((hunfinished hmem.2).mono hgrows₂ (hlt hmem.2))
    (lt_of_lt_of_le (hlt hmem.2) hgrows₂.blocks_le) resultsB
  -- the branch itself
  have hat := hpts.branchAt hwf hsettledA hsettledB
  have hmerging := hpts.merging hwf hendA hendB
  have hknown := hmerging.wellFormed.known
  obtain ⟨hend, typesA', typesB', outputs', hat', hbelow⟩ := hmerge.lawful hwf.anchored
    (hmerging.withOutputs outputs) mem_cons_self
    (lawful_withOutputs (s := (s₂.leave s.point).withResults b.block resultsB) hlast
      mem_cons_self outputs)
    ⟨typesA, typesB, outputs, hat.withOutputs hknown, fun hA => ⟨hbelowA hA, hbelowB hA⟩⟩
    fun hA => hpts.regular (hreg hA).1 (hreg hA).2.1 hendA hendB (hreg hA).2.2 rfl
  obtain ⟨found, hfd⟩ := hcond.exists_type hwf
  have hadv := (hmerge.sound hwf.anchored (hmerging.withOutputs outputs)).advances
  exact hend.resume fun node hn => hat'.lawful hcond.1 (hadv.typeOf? hcond.1 hfd)
    (fun hA => some.inj (hfd.symm.trans (htruth hA)))
    (fun hA => (hbelow hA).1) (fun hA => (hbelow hA).2) hn

end

end

/-! ## Loops and closures -/

/-- A node that gets its inputs and blocks one after the other: what it has so far. -/
structure NodeAt (H : List ValueId) (g : Graph) (n : NodeId) (op : Op)
    (inputs outputs : List ValueId) (types : List Ty) (blocks : List (BlockId × BlockType)) :
    Prop where
  node : ∃ node, g.node? n = some node ∧ node.op = op ∧ node.inputs = inputs ∧
    node.outputs = outputs ∧ node.blocks = blocks.map Prod.fst
  settled : g.Settled H outputs types
  typed : ∀ entry ∈ blocks, g.HasBlockType H entry.1 entry.2
  nested : ∀ entry ∈ blocks, entry.1 ≠ root

namespace NodeAt

variable {g g' : Graph} {n : NodeId} {op : Op} {inputs outputs : List ValueId} {types : List Ty}
  {blocks : List (BlockId × BlockType)}

theorem placed (hwf : WellFormed H s) (node : Node) (types : List Ty)
    (hins : node.inputs = []) (hbs : node.blocks = []) :
    NodeAt H (s.place node types).graph s.graph.freshNode node.op []
      (s.graph.freshValues types.length) types [] := by
  have hnone : s.graph.Settled H node.inputs [] := hins ▸ .nil
  exact ⟨⟨_, node?_place_fresh s.point, rfl, hins, rfl, by simp [hbs]⟩,
    (hasNodeType_attach hwf.known hbs hnone).outputs, by simp, by simp⟩

section

variable (h : NodeAt H g n op inputs outputs types blocks)
include h

theorem since (hsince : Since H isOpen g g') : NodeAt H g' n op inputs outputs types blocks := by
  obtain ⟨⟨node, hn, hr⟩, hset, htyped, hnest⟩ := h
  refine ⟨⟨node, ?_, hr⟩, hset.since hsince, fun entry he => ?_, hnest⟩
  · rw [hsince.node n (index_lt_of_node? hn), hn]
  · exact (htyped entry he).since hsince (hnest entry he)

theorem withInput (v : ValueId) :
    NodeAt H (g.withInput n v) n op (inputs ++ [v]) outputs types blocks := by
  obtain ⟨⟨node, hn, hop, hins, houts, hbs⟩, hset, htyped, hnest⟩ := h
  refine ⟨⟨{ node with inputs := node.inputs ++ [v] }, ?_, hop, by simp [hins], houts, hbs⟩,
    hset, htyped, hnest⟩
  rw [Graph.withInput, node?_mapNode, if_pos rfl, hn, map_some]

theorem withBlock (hroot : 0 < g.blocks.length) : NodeAt H (g.withBlock n) n op inputs outputs types
      (blocks ++ [(g.freshBlock, ⟨[], []⟩)]) := by
  obtain ⟨⟨node, hn, hop, hins, houts, hbs⟩, hset, htyped, hnest⟩ := h
  refine ⟨⟨_, node?_withBlock hn, hop, hins, houts, by simp [hbs]⟩, hset, ?_, ?_⟩ <;>
    rw [forall_mem_append, forall_mem_singleton]
  · exact ⟨fun entry he => (htyped entry he).withBlock n,
      { owner := some n }, by rw [block?_withBlock, if_pos rfl], .nil, .nil⟩
  · exact ⟨hnest, fun heq => ne_of_gt hroot (congrArg BlockId.index heq)⟩

end

variable {b : BlockId} {ty ty' : BlockType}

theorem unfinished (h : NodeAt H g n op inputs outputs types blocks) (hc : g.Coherent)
    (hb : (b, ty) ∈ blocks) (hn : n ∈ pending) : g.Unfinished pending b := by
  obtain ⟨node, hnode, -, -, -, hbs⟩ := h.node
  exact hc.unfinished hnode (hbs ▸ mem_map_of_mem hb) hn

section

variable (h : NodeAt H g n op inputs outputs types (blocks ++ [(b, ty)]))
include h

theorem changeLast (hn : g'.node? n = g.node? n) (htys : g'.types = g.types ++ more)
    (hother : ∀ entry ∈ blocks, g'.block? entry.1 = g.block? entry.1)
    (hlast : g'.HasBlockType H b ty') :
    NodeAt H g' n op inputs outputs types (blocks ++ [(b, ty')]) := by
  obtain ⟨⟨node, hfd, hr⟩, hset, htyped, hnest⟩ := h
  rw [forall_mem_append, forall_mem_singleton] at htyped hnest
  refine ⟨⟨node, hn.trans hfd, by simpa using hr⟩, hset.of_types htys, ?_, ?_⟩ <;>
    rw [forall_mem_append, forall_mem_singleton]
  · exact ⟨fun entry he => (htyped.1 entry he).of_same (hother entry he) htys, hlast⟩
  · exact hnest

theorem last : g.HasBlockType H b ty :=
  h.typed (b, ty) (mem_append_right _ (mem_singleton.mpr rfl))

end

theorem withParam (blocks : List (BlockId × BlockType))
    (h : NodeAt H g n op inputs outputs types (blocks ++ [(b, ty)]))
    (hne : ∀ entry ∈ blocks, b ≠ entry.1)
    (hknown : ∀ v ∈ H, v.index < g.values.length) (param : Ty) :
    NodeAt H (g.withParam b param) n op inputs outputs types
      (blocks ++ [(b, ⟨ty.params ++ [param], ty.results⟩)]) := by
  refine h.changeLast rfl (types_withParam ..) (fun entry he => ?_)
    (h.last.withParam hknown param)
  rw [Graph.withParam, block?_mapBlock, if_neg (hne entry he), block?_pushValue]

theorem withResult (blocks : List (BlockId × BlockType))
    (h : NodeAt H g n op inputs outputs types (blocks ++ [(b, ty)]))
    (hne : ∀ entry ∈ blocks, b ≠ entry.1) (hv : v ∉ H)
    (hty : g.typeOf? v = some found) : NodeAt H (g.withResult b v) n op inputs outputs types
      (blocks ++ [(b, ⟨ty.params, ty.results ++ [found]⟩)]) := by
  refine h.changeLast rfl (append_nil _).symm (fun entry he => ?_) (h.last.withResult hv hty)
  rw [Graph.withResult, block?_mapBlock, if_neg (hne entry he)]

theorem hasNodeType (h : NodeAt H g n op inputs outputs types blocks)
    (hins : g.Settled H inputs inputTypes) (hn : g.node? n = some node) :
    g.HasNodeType H node ⟨op, inputTypes, types, blocks.map Prod.snd⟩ := by
  obtain ⟨⟨made, heq, rfl, rfl, rfl, hbs⟩, hset, htyped, -⟩ := h
  cases heq.symm.trans hn
  refine ⟨rfl, hins, hset, hbs ▸ ?_⟩
  rw [forall₂_map_left_iff, forall₂_map_right_iff]
  exact forall₂_same.mpr htyped

theorem op_eq (h : NodeAt H g n op inputs outputs types blocks)
    (hn : g.node? n = some node) : node.op = op := by
  obtain ⟨made, heq, hop, -⟩ := h.node
  exact some.inj (heq.symm.trans hn) ▸ hop

end NodeAt

section

variable {s₁ s₂ s₃ : LowerState} {trip first next : ValueId} {span : Span} {pending' : List NodeId}

theorem LoopParts.lawful (hpts : LoopParts H s s₁ s₂ s₃ trip first next span)
    (hwf : WellFormed H s) (h : s.Lawful A H pending)
    (hfirst : Abides A H (s.graph.freshNode :: pending) (s.beforeLoop span) s₁)
    (htrip : Held H s₁ trip) (hcount : A → s₁.graph.typeOf? trip = some .int)
    (hcond : Held H s₁ first) (htruth : A → s₁.graph.typeOf? first = some .bool)
    (hbody : (s.loopBody s₁ trip first).Lawful A H (s.graph.freshNode :: pending) →
      s₂.Lawful A H (s.graph.freshNode :: pending'))
    (hnext : Abides A H (s.graph.freshNode :: pending') (s.loopNext s₂) s₃)
    (hret : Held H s₃ next) (hagain : A → s₃.graph.typeOf? next = some .bool) :
    (s.afterLoop s₂ s₃ next).Lawful A H pending' := by
  have hn := fun pending : List NodeId => mem_cons_self (a := s.graph.freshNode) (l := pending)
  -- what the loop starts from
  have h₁ := hfirst (pending_place hwf h _ _ rfl)
  have hat₁ : NodeAt H s₁.graph s.graph.freshNode .loop [] [] [] [] :=
    (NodeAt.placed hwf { op := .loop, inputs := [], span } [] rfl rfl).since
      hpts.start.advances.graph
  -- the body
  have hwf₁ := hpts.start.stop
  have hc₁ := ((hwf₁.coherent.withInput s.graph.freshNode trip).withInput s.graph.freshNode
    first).withBlock s.graph.freshNode
  have hatOpen := ((hat₁.withInput trip).withInput first).withBlock hwf₁.blocks_pos
  have hunfinished := hatOpen.unfinished hc₁ (mem_singleton.mpr rfl) (hn pending)
  have hatBody := hatOpen.withParam [] (by simp) hwf₁.known .int
  have h₂ := hbody ((((h₁.withInput (hn _) trip).withInput (hn _) first).withBlock (hn _)).withParam
    hc₁ hunfinished .int)
  have hat₂ := hatBody.since hpts.body.advances.graph
  -- the condition of the next round
  have hwf₂ := hpts.body.stop
  have h₃ := hnext (h₂.withBlock (hn _))
  have hat₃ := (hat₂.withBlock hwf₂.blocks_pos).since hpts.again.advances.graph
  have hne : s₂.graph.freshBlock ≠ s₁.graph.freshBlock := by
    intro heq
    refine lt_irrefl s₂.graph.freshBlock.index ?_
    nth_rewrite 1 [heq]
    obtain ⟨block, hblock, -⟩ := hat₂.typed _ (mem_singleton.mpr rfl)
    exact index_lt_of_block? hblock
  obtain ⟨again, hagainTy⟩ := hret.exists_type hpts.again.stop
  have hatEnd := hat₃.withResult [(s₁.graph.freshBlock, ⟨[.int], []⟩)]
    (by simpa using hne) hret.1 hagainTy
  have hend := h₃.withResult hpts.again.stop.coherent (hat₃.unfinished
    hpts.again.stop.coherent (mem_append_right _ (mem_singleton.mpr rfl)) (hn _)) next
  -- the loop is complete
  obtain ⟨count, hcountTy⟩ := htrip.exists_type hwf₁
  obtain ⟨truth, htruthTy⟩ := hcond.exists_type hwf₁
  have hkept : ∀ {v : ValueId} {ty : Ty}, v ∉ H → s₁.graph.typeOf? v = some ty →
      s₃.graph.typeOf? v = some ty := fun hv hty =>
    hpts.again.advances.typeOf? hv (hpts.body.advances.typeOf? hv
      (typeOf?_of_types (types_withParam ..) hty))
  refine hend.resume fun node hnode => ⟨_, hatEnd.hasNodeType
    (.cons ⟨htrip.1, hkept htrip.1 hcountTy⟩ (Settled.single hcond.1 (hkept hcond.1 htruthTy)))
    hnode, fun hA => ?_, fun hop => by simp [hatEnd.op_eq hnode] at hop⟩
  obtain rfl := some.inj (hcountTy.symm.trans (hcount hA))
  obtain rfl := some.inj (htruthTy.symm.trans (htruth hA))
  obtain rfl := some.inj (hagainTy.symm.trans (hagain hA))
  exact ⟨rfl, rfl, rfl⟩

end

/-! ## Parameters and closures -/

section

variable {n : NodeId} {b : BlockId} {op : Op} {inputs outputs : List ValueId} {types : List Ty}
  {ty : BlockType}

theorem lawful_declare (hc : s.graph.Coherent) (hknown : ∀ v ∈ H, v.index < s.graph.values.length)
    (h : s.Lawful A H pending) (hb : s.graph.Unfinished pending b) (param : ParamDecl) :
    (s.declare b param).Lawful A H pending := by
  have hc' := hc.withParam b param.ty
  refine ((h.withParam hc hb param.ty).named hc' s.graph.freshValue param.label).attach
    (hc'.named _ _) (fun v hv => ?_) (arranges_placeIn _ _) rfl [] fun _ => ⟨[param.ty],
      .single (fun hin => lt_irrefl _ (hknown _ hin)) ?_, trivial, fun hop => ?_⟩
  · exact lt_of_lt_of_le (hknown v hv)
      (((Grows.refl s.graph).withParam b param.ty).named _ param.label).values_le
  · rw [typeOf?_named, typeOf?_withParam]
  · simp [storeNode] at hop

theorem lawful_declareAll (hwf : WellFormed H s) (hpoint : s.point.block = b)
    (h : s.Lawful A H pending) (hb : s.graph.Unfinished pending b) (params : List ParamDecl) :
    (s.declareAll b params).Lawful A H pending := by
  induction params generalizing s with
  | nil => exact h
  | cons param rest ih =>
    obtain ⟨block, hblock, -⟩ := hwf.anchored
    exact ih (s := s.declare b param) (hwf.declare hpoint param) hpoint
      (lawful_declare hwf.coherent hwf.known h hb param)
      (hb.mono (LowerState.grows_declare hwf.coherent b param) (hpoint ▸ index_lt_of_block? hblock))

theorem NodeAt.declareAll (hwf : WellFormed H s) (hpoint : s.point.block = b)
    (h : NodeAt H s.graph n op inputs outputs types [(b, ty)]) (params : List ParamDecl) :
    NodeAt H (s.declareAll b params).graph n op inputs outputs types
      [(b, ⟨ty.params ++ params.map ParamDecl.ty, ty.results⟩)] := by
  induction params generalizing s ty with
  | nil =>
    rw [map_nil, append_nil]
    exact h
  | cons param rest ih =>
    have hc := (hwf.coherent.withParam b param.ty).named s.graph.freshValue param.label
    have hstore : (storeNode param.name s.graph.freshValue param.span).blocks = [] := rfl
    have hp := ((h.withParam [] (by simp) hwf.known param.ty).since
      ((Since.refl H (fun _ => True) _).named s.graph.freshValue param.label)).since
      ((Since.refl H (fun _ => True) _).place (p := s.point) hc (.inl trivial) hstore [])
    have := ih (s := s.declare b param) (hwf.declare hpoint param) hpoint hp
    rwa [append_assoc] at this

variable {s₁ : LowerState} {result : ValueId} {params : List ParamDecl} {body : BodyContext}
  {span : Span} {found : Ty}

theorem ClosureParts.lawful (hpts : ClosureParts H s s₁ result params body span)
    (hwf : WellFormed H s) (h : s.Lawful A H pending)
    (hbody : Abides A H (s.graph.freshNode :: pending) (((s.openClosure span).enterBody
      s.graph.freshBlock (some s.graph.freshNode) body).declareAll s.graph.freshBlock params) s₁)
    (hret : Held H s₁ result) (hty : s₁.graph.typeOf? result = some found) (name : String) :
    LawfulBut A H pending ((s₁.leaveBody s.point).withResults s.graph.freshBlock [result]).graph
      ((s.graph.freshValue, ⟨name, params.map fun param => (param.name, param.ty), found⟩) ::
        s₁.signatures) := by
  have hn := fun pending : List NodeId => mem_cons_self (a := s.graph.freshNode) (l := pending)
  have hc := hpts.opened.wellFormed.coherent
  -- the parameters
  have hopen :=
    (pending_place hwf h { op := .closure, inputs := [], span } [.nothing] rfl).withBlock (hn _)
  have hat : NodeAt H (s.openClosure span).graph s.graph.freshNode .closure []
      [s.graph.freshValue] [.nothing] [(s.graph.freshBlock, ⟨[], []⟩)] := by
    have hpos :
      0 < (s.place { op := .closure, inputs := [], span } [.nothing]).graph.blocks.length :=
      Nat.lt_of_lt_of_eq hwf.blocks_pos (length_blocks_place ..).symm
    have hpl := (NodeAt.placed hwf { op := .closure, inputs := [], span } [.nothing] rfl
      rfl).withBlock hpos
    rwa [LowerState.place, LowerState.withGraph, LowerState.graph, freshBlock_place] at hpl
  have hdecl := lawful_declareAll hpts.entry rfl hopen
    (hat.unfinished hc (mem_singleton.mpr rfl) (hn _)) params
  have hatDeclared := hat.declareAll (s := (s.openClosure span).enterBody s.graph.freshBlock
    (some s.graph.freshNode) body) hpts.entry rfl params
  -- the body
  have h₁ := hbody hdecl
  have hat₁ := hatDeclared.since hpts.declared.advances.graph
  have hend := h₁.withResult hpts.declared.stop.coherent (hat₁.unfinished
    hpts.declared.stop.coherent (mem_singleton.mpr rfl) (hn _)) result
  have hatEnd : NodeAt H (s₁.graph.withResult s.graph.freshBlock result) s.graph.freshNode
      .closure [] [s.graph.freshValue] [.nothing]
      [(s.graph.freshBlock, ⟨params.map ParamDecl.ty, [found]⟩)] :=
    hat₁.withResult [] (by simp) hret.1 hty
  -- the closure is complete
  have hp : (params.map fun param => (param.name, param.ty)).map Prod.snd =
      params.map ParamDecl.ty := by simp
  obtain ⟨node, hnode, -, -, houts, -⟩ := hatEnd.node
  obtain ⟨value, slot, hv, horig⟩ := (hpts.declared.stop.coherent.withResult _ result).output
    _ node s.graph.freshValue hnode (by simp [houts])
  have hsigned : (s₁.graph.withResult s.graph.freshBlock result).Signs H pending
      s.graph.freshValue (params.map ParamDecl.ty) found := by
    refine ⟨s.graph.freshNode, node, _, fun hin => lt_irrefl _ (h.known _ hin), ?_, hnode,
      hatEnd.hasNodeType .nil hnode⟩
    rw [producer?, hv, bind_eq_bind, bind_some, horig]
  have hcomplete : LawfulBut A H pending _ s₁.signatures := hend.resume fun made hm =>
    ⟨_, hatEnd.hasNodeType .nil hm, ⟨rfl, _, _, rfl⟩, fun hop => by
      simp [hatEnd.op_eq hm] at hop⟩
  exact { hcomplete with signed := forall_mem_cons.mpr ⟨hp ▸ hsigned, hcomplete.signed⟩ }

end

/-! ## Comprehensions -/

section

variable {s₀ s₁ s₂ : LowerState} {trip first v : ValueId} {ty filled : Ty} {span : Span}

theorem types_afterLoop (s₀ u : LowerState) (span : Span) (condition : ValueId) :
    (s₀.afterLoop u ((s₀.loopNext u).place (constantNode (.bool true) span) [.bool])
      condition).graph.types = u.graph.types ++ [.bool] :=
  types_place (u.graph.withBlock s₀.graph.freshNode) ⟨u.graph.freshBlock, none⟩
    (constantNode (.bool true) span) [.bool]

theorem node?_afterLoop (hm : m ≠ s₀.graph.freshNode)
    (hlt : m.index < u.graph.nodes.length) (span : Span) (condition : ValueId) :
    (s₀.afterLoop u ((s₀.loopNext u).place (constantNode (.bool true) span) [.bool])
      condition).graph.node? m = u.graph.node? m := by
  have hne : m ≠ (u.graph.withBlock s₀.graph.freshNode).freshNode := by
    rintro rfl
    simp [freshNode, withBlock, pushBlock] at hlt
  calc _ = (u.graph.withBlock s₀.graph.freshNode).node? m := node?_place_of_ne _ hne
    _ = u.graph.node? m := by
        rw [withBlock, node?_mapNode, if_neg hm.symm, node?_pushBlock]

theorem hasNodeType_fill (hwf : WellFormed (v :: H) s) (hv : v ∉ H)
    (helem : elem ∉ v :: H) (hty : s.graph.typeOf? elem = some ty) (filled : Ty)
    (span : Span) : ∃ node,
      (s.fill v elem ty filled span).graph.node? s.graph.freshNode = some node ∧
      node.op = .primitive .append ∧ node.blocks = [] ∧
      (s.fill v elem ty filled span).graph.HasNodeType H node
        ⟨.primitive .append, [.list ty, ty], [filled], []⟩ := by
  have hlt := hwf.known v mem_cons_self
  obtain ⟨hne, helem⟩ := not_or.mp (mem_cons.not.mp helem)
  have hknown : ∀ w ∈ H, w.index < (s.graph.retype v (.list ty)).values.length := fun w hw => by
    simpa [retype] using hwf.known w (mem_cons_of_mem _ hw)
  have hins : (s.graph.retype v (.list ty)).Settled H [v, elem] [.list ty, ty] :=
    .cons ⟨hv, typeOf?_retype _ hlt _⟩ (Settled.single helem
      (by rw [typeOf?_retype_of_ne _ hne, hty]))
  exact ⟨_, node?_place_fresh s.point, rfl, rfl, hasNodeType_attach hknown rfl hins⟩

theorem ComprehensionParts.lawful
    (hpts : ComprehensionParts H s s₀ s₁ s₂ trip first v ty filled span)
    (hwf : WellFormed H s) (h : s.Lawful A H pending) (hiter : Abides A (s.graph.freshValue :: H)
      (s.graph.freshNode :: pending) (s.placeList span) s₀)
    (hfirst :
      Abides A (s.graph.freshValue :: H) (s₀.graph.freshNode :: s.graph.freshNode :: pending)
      (s₀.beforeLoop span) s₁)
    (htrip : Held (s.graph.freshValue :: H) s₁ trip)
    (hcount : A → s₁.graph.typeOf? trip = some .int)
    (hcond : Held (s.graph.freshValue :: H) s₁ first)
    (htruth : A → s₁.graph.typeOf? first = some .bool)
    (hbody : Abides A (s.graph.freshValue :: H) (s₀.graph.freshNode :: s.graph.freshNode :: pending)
      ((s₀.loopBody s₁ trip first).enterLoop .loop) s₂)
    (helem : Held (s.graph.freshValue :: H) s₂ v) (htype : s₂.graph.typeOf? v = some ty)
    (hfilled : ∀ span, Primitive.check .append [.list ty, ty] span = .ok filled) :
    (s₀.afterRounds (s₂.fill s.graph.freshValue v ty filled span).leaveLoop span).Lawful
      A H pending := by
  have hfresh := hwf.freshValue_not_mem
  -- until the list is filled, its node and the appending to it are pending
  have hstart := hiter ((h.hide le_rfl).attach_pending hwf.coherent
    (arranges_placeIn _ _) rfl [.list .tensor])
  have hfill : (s₀.loopBody s₁ trip first).Lawful A (s.graph.freshValue :: H)
        (s₀.graph.freshNode :: s.graph.freshNode :: pending) →
      (s₂.fill s.graph.freshValue v ty filled span).leaveLoop.Lawful A (s.graph.freshValue :: H)
        (s₀.graph.freshNode :: s₂.graph.freshNode :: s.graph.freshNode :: pending) := fun he =>
    (((hbody he).retype hpts.fill.start.coherent mem_cons_self (.list ty)).attach_pending
      (hpts.fill.start.coherent.retype _ _) (arranges_placeIn _ _) rfl [filled]).swap
  have hnext := (constant_sound hpts.loop.again.start (.bool true) .bool span).2
  have hend := hpts.loop.lawful hpts.iter.stop hstart hfirst htrip hcount hcond htruth hfill
    (lawful_constant hpts.loop.again.start · (.bool true) span .bool) hnext
    fun _ => typeOf?_place ..
  have htys := types_afterLoop s₀ (s₂.fill s.graph.freshValue v ty filled span).leaveLoop span
    (s₀.loopNext (s₂.fill s.graph.freshValue v ty filled span).leaveLoop).graph.freshValue
  have hshown := hend.rehide fun _ _ hw hty => ⟨fun hin => hw (.tail _ hin), hty⟩
  refine (hshown.resume fun node hn => ?_).resume fun node hn => ?_
  · obtain ⟨made, hm, hop, hbs, hty⟩ := hasNodeType_fill hpts.fill.start hfresh helem.1
      htype filled span
    have hlt : s₂.graph.freshNode.index <
        (s₂.fill s.graph.freshValue v ty filled span).leaveLoop.graph.nodes.length :=
      index_lt_of_node? hm
    have hne : s₂.graph.freshNode ≠ s₀.graph.freshNode := by
      obtain ⟨loop, hloop⟩ := hpts.loop.opened.exists_node
      have hold := lt_of_lt_of_le (index_lt_of_node? hloop) hpts.body.advances.grows.nodes_le
      exact fun heq => lt_irrefl _ (heq ▸ hold)
    rw [node?_afterLoop hne hlt] at hn
    cases hm.symm.trans hn
    refine ⟨_, hty.mono (fun w found hw hfd => ⟨hw, typeOf?_of_types htys hfd⟩)
      (by simp [hbs]), ⟨filled, rfl, hfilled⟩, fun hfork => by simp [hop] at hfork⟩
  · have hlist : (s₂.graph.retype s.graph.freshValue (.list ty)).typeOf? s.graph.freshValue =
        some (.list ty) :=
      typeOf?_retype _ (hpts.fill.start.known _ mem_cons_self) _
    have hpl : (s.graph.place s.point { op := .listConstruct, inputs := [], span }
        [.list .tensor]).node? s.graph.freshNode = _ := node?_place_fresh s.point
    have hlt := hstart.known _ mem_cons_self
    rw [hpts.loop.last.graph.node _ hlt, hpts.iter.advances.graph.node _
      (index_lt_of_node? hpl)] at hn
    cases hpl.symm.trans hn
    refine ⟨⟨.listConstruct, [], [.list ty], []⟩, ⟨rfl, .nil, .single hfresh ?_, .nil⟩, trivial,
      fun hop => by simp at hop⟩
    exact typeOf?_of_types htys (typeOf?_of_types (types_place ..) hlist)

end

/-! ## Forks -/

theorem Graph.Settled.fits {params : List (String × Ty)} (h : g.Settled H args argTys)
    (hfit : Forall₂ (fun v param => ∃ ty, g.typeOf? v = some ty ∧
      ty.isSubtype (Prod.snd param) = true) args params) :
    Forall₂ (fun arg param => arg.isSubtype param = true) argTys (params.map Prod.snd) := by
  induction h generalizing params with
  | nil => cases hfit with | nil => exact .nil
  | cons hv _ ih =>
    cases hfit with
    | cons hfits hr =>
      obtain ⟨ty, hty, hsub⟩ := hfits
      cases hv.2.symm.trans hty
      exact .cons hsub (ih hr)

/-! ## All emissions -/

theorem Emission.lawful (hemit : Emission A H s t) (hwf : WellFormed H s) (hreg : A → s.Regular)
    (h : s.Lawful A H pending) : t.Lawful A H pending := by
  induction hemit generalizing pending with
  | refl => exact h
  | trans hfirst _ ih ih' =>
    exact ih' (hfirst.sound hwf).1 (fun hA => hfirst.regular hA hwf (hreg hA)) (ih hwf hreg h)
  | @node H s node types hplain hbs _ hins hchecked =>
    refine lawful_place hwf h s.point hbs hins fun inputs hset => ⟨?_, fun hop => ?_⟩
    · refine NodeType.lawful_of_isPlain hplain (fun primitive hop => ?_) fun hop => ?_
      · obtain ⟨args, ty, htyped, hty, hcheck⟩ := hchecked.primitive primitive hop
        exact ⟨ty, hty, htyped.eq_of_settled hset ▸ hcheck⟩
      · obtain ⟨inner, htyped, hin⟩ := hchecked.unwrap hop
        exact ⟨inner, (htyped.eq_of_settled hset).symm, hin⟩
    · simp [hop, Op.isPlain] at hplain
  | pooled H s hnum =>
    exact h.attach hwf.coherent hwf.known (arranges_atPosition _ _) rfl _ fun _ =>
      ⟨[], .nil, trivial, fun hop => by simp at hop⟩
  | named H s v label => exact h.named hwf.coherent v label
  | input H s =>
    refine h.withParam hwf.coherent (fun block n hblock hown => ?_) .tensor
    simp [h.owner_root block hblock] at hown
  | read span hfd => exact lawful_load hwf h _ _ span _
  | store span hheld | narrow span hheld => exact lawful_store hwf h hheld _ span
  | entity | defer | merged => exact h
  | narrowing _ ih => exact ih hwf.narrowing (fun hA => (hreg hA).push _ _ _) h
  | inLoop kind _ ih => exact ih (hwf.of_same rfl (.refl _)) (fun hA => (hreg hA).enterLoop kind) h
  | @branch H s s₁ s₂ t condition span a b resultsA resultsB outputs hcond htruth hbs ha hendA hb
      hendB houts hmerge iha ihb =>
      -- the sides are entered in regular states, so that the induction applies to both
      have hpts := BranchParts.of_sound hwf hcond hbs ha.sound hendA hb.sound hendB
      have hopen := fun hA => ((hreg hA).openBranch condition span).enter a.block
      have hregular₁ := fun hA => ha.regular hA hpts.first.start (hopen hA)
      have hmid := fun hA =>
        (((hregular₁ hA).leave s.point).withResults a.block resultsA).enter b.block
      exact hpts.lawful hwf h hcond htruth (iha hpts.first.start hopen) hendA
        (ihb hpts.second.start hmid) hendB
        (fun hA => ⟨hregular₁ hA, hb.regular hA hpts.second.start (hmid hA), houts hA⟩) hmerge
  | @loop H s s₁ s₂ s₃ trip first next span hfirst htrip hcount hcond htruth hbody hnext
      hret hagain ihfirst ihbody ihnext =>
      have hpts := LoopParts.of_sound hwf hfirst.sound htrip hcond
        (fun hstart => hbody.sound hstart.entry) hnext.sound fun _ => hret
      have hbef := fun hA => (hreg hA).beforeLoop span
      have he := fun hA =>
        (hfirst.regular hA hpts.start.start (hbef hA)).loopBody s trip first
      have hround := fun hA =>
        (hbody.regular hA hpts.body.start (he hA)).loopNext s
      exact hpts.lawful hwf h (ihfirst hpts.start.start hbef) htrip hcount hcond htruth
        (ihbody hpts.body.start he) (ihnext hpts.again.start hround) hret hagain
  | @comprehension H s s₀ s₁ s₂ trip first v ty filled span hiter hfirst htrip hcount hcond
      htruth hbody helem htype hfilled ihiter ihfirst ihbody =>
      have hpts := ComprehensionParts.of_sound hwf hiter.sound hfirst.sound htrip hcond
        hbody.sound helem ty filled
      have hlist : A → (s.placeList span).Regular :=
        fun hA => (hreg hA).place (by simpa using Ty.Regular.list .tensor)
      have hbef := fun hA =>
        (hiter.regular hA hpts.iter.start (hlist hA)).beforeLoop span
      have he := fun hA =>
        ((hfirst.regular hA hpts.loop.start.start (hbef hA)).loopBody s₀ trip first).enterLoop .loop
      exact hpts.lawful hwf h (ihiter hpts.iter.start hlist)
        (ihfirst hpts.loop.start.start hbef) htrip hcount hcond htruth
        (ihbody hpts.body.start he) helem htype hfilled
  | @closure H s s₁ result ty params span name body hdecl hps hbody hret htype ih =>
    have hpts := ClosureParts.of_sound hwf hbody.sound hret
    exact hpts.lawful hwf h (ih hpts.declared.start fun hA =>
      ((((hreg hA).openClosure span).enterBody _ _ (hdecl hA)).declareAll _
        (hps hA))) hret htype name
  | @fork H s closure args signature span hsigned hcl hargs hfit =>
    refine lawful_place hwf h s.point rfl (forall_mem_cons.mpr ⟨hcl, hargs⟩)
      fun inputs hset => ⟨trivial, fun _ => ?_⟩
    cases hset with
    | @cons _ closureTy _ argTys _ hr =>
      exact ⟨closure, args, closureTy, argTys, _, _, rfl, h.signed _ hsigned, rfl,
        Settled.fits hr hfit, rfl, rfl⟩

end Flowgraph
