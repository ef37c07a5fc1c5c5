import Flowgraph.Proofs.Emission.Regularity
import Flowgraph.Proofs.Graph.NodeTypes

/-!
# What lowering makes true of each node

The law of a node is about its type.

A node with blocks is placed long before it is complete.  `Graph.LawfulBut` says of a graph that
all its nodes obey their law, except for those that are still `pending`; nothing that happens to
the pending nodes and to their blocks matters to the others (`Graph.Keeps`).
-/

namespace Flowgraph

open List Option

variable {b : BlockId} {node : Node} {v closure : ValueId} {ty : NodeType} {H' : List ValueId}
  {arrange : List NodeId → List NodeId} {pending' : List NodeId}

/-- What the types around a node satisfy. -/
def NodeType.Lawful (A : Prop) (ty : NodeType) : Prop :=
  match ty.op with
  | .primitive primitive => ty.Checks primitive
  | .unwrap => ty.Unwraps
  | .branch => A → ty.IsBranch
  | .loop => A → ty.IsLoop
  | .closure => ty.inputs = [] ∧ ∃ params result, ty.blocks = [⟨params, [result]⟩]
  | .fork => False
  | _ => True

theorem NodeType.lawful_of_isPlain {A : Prop} (hplain : ty.op.isPlain = true)
    (hchecks : ∀ primitive, ty.op = .primitive primitive → ty.Checks primitive)
    (hunwraps : ty.op = .unwrap → ty.Unwraps) : ty.Lawful A := by
  unfold NodeType.Lawful
  split
  next primitive heq => exact hchecks primitive heq
  next heq => exact hunwraps heq
  case h_3 heq | h_4 heq | h_5 heq | h_6 heq => simp [heq, Op.isPlain] at hplain
  next => trivial

namespace Graph

variable {A : Prop} {g g' : Graph} {H : List ValueId} {pending : List NodeId} {n : NodeId}

/-- The value is that of a complete closure with these parameters and this result. -/
def Signs (g : Graph) (H : List ValueId) (pending : List NodeId) (closure : ValueId)
    (params : List Ty) (result : Ty) : Prop :=
  ∃ c node outputs, c ∉ pending ∧ g.producer? closure = some (some c) ∧ g.node? c = some node ∧
      g.HasNodeType H node ⟨.closure, [], outputs, [⟨params, [result]⟩]⟩

/-- The inputs are those of a fork of a complete closure, and the arguments fit its parameters. -/
def Forks (g : Graph) (H : List ValueId) (pending : List NodeId) (inputs : List ValueId)
    (ty : NodeType) : Prop :=
  ∃ closure args closureTy argTys params result, inputs = closure :: args ∧
    g.Signs H pending closure params result ∧ ty.inputs = closureTy :: argTys ∧
      Forall₂ (fun arg param => arg.isSubtype param = true) argTys params ∧
        ty.outputs = [.future result] ∧ ty.blocks = []

/-- The law of a node. -/
def Lawful (A : Prop) (g : Graph) (H : List ValueId) (pending : List NodeId) (node : Node) : Prop :=
  ∃ ty, g.HasNodeType H node ty ∧ ty.Lawful A ∧
    (node.op = .forkClosure → g.Forks H pending node.inputs ty)

theorem Forks.imp {inputs} (h : g.Forks H pending inputs ty)
    (hsigns : ∀ closure params result, g.Signs H pending closure params result → g'.Signs
      H' pending' closure params result) : g'.Forks H' pending' inputs ty := by
  obtain ⟨closure, args, closureTy, argTys, params, result, hins, hsigned, hr⟩ := h
  exact ⟨closure, args, closureTy, argTys, params, result, hins,
    hsigns closure params result hsigned, hr⟩

theorem Lawful.imp (h : g.Lawful A H pending node)
    (htype : ∀ ty, g.HasNodeType H node ty → g'.HasNodeType H' node ty) (hsigns
      : ∀ closure params result, g.Signs H pending closure params result → g'.Signs
      H' pending' closure params result) : g'.Lawful A H' pending' node := by
  obtain ⟨ty, hty, hlawful, hforks⟩ := h
  exact ⟨ty, htype ty hty, hlawful, fun hop => (hforks hop).imp hsigns⟩

/-! ## Changes that concern pending nodes only -/

/-- The graph grew, and nothing changed but hidden types, pending nodes and their blocks. -/
structure Keeps (H : List ValueId) (pending : List NodeId) (g g' : Graph) : Prop where
  grows : Grows g g'
  type : ∀ v ty, v ∉ H → g.typeOf? v = some ty → g'.typeOf? v = some ty
  node : ∀ n node, n ∉ pending → g.node? n = some node → g'.node? n = some node
  block : ∀ n node b block, n ∉ pending → g.node? n = some node → b ∈ node.blocks →
    g.block? b = some block → ∃ block', g'.block? b = some block' ∧
      block'.params = block.params ∧ block'.results = block.results

/-- If a node owns the block, it is pending. -/
def Unfinished (g : Graph) (pending : List NodeId) (b : BlockId) : Prop :=
  ∀ block n, g.block? b = some block → block.owner = some n → n ∈ pending

theorem Unfinished.mono (h : g.Unfinished pending b) (hgrows : Grows g g')
    (hb : b.index < g.blocks.length) : g'.Unfinished pending b := by
  intro block' n hb' hown
  obtain ⟨block, hblock⟩ := (exists_block?_iff g b).mpr hb
  obtain ⟨_, heq, hgrows'⟩ := hgrows.block b block hblock
  cases heq.symm.trans hb'
  exact h block n hblock (hgrows'.owner ▸ hown)

theorem producer?_of_grows (hgrows : Grows g g') {producer : Option NodeId}
    (h : g.producer? v = some producer) : g'.producer? v = some producer := by
  obtain ⟨value, hv, hprod⟩ := bind_eq_some_iff.mp h
  obtain ⟨value', hv', horig⟩ := hgrows.value v value hv
  rw [producer?, hv', bind_eq_bind, bind_some, horig]
  exact hprod

namespace Keeps

section

variable (h : Keeps H pending g g')
include h

theorem hasNodeType (hn : n ∉ pending)
    (hnode : g.node? n = some node) (hty : g.HasNodeType H node ty) : g'.HasNodeType H node ty :=
  hty.mono (fun v ty hv hty => ⟨hv, h.type v ty hv hty⟩)
    fun b hb block hblock => h.block n node b block hn hnode hb hblock

theorem signs {params : List Ty} {result : Ty} (hsigns : g.Signs H pending closure params result) :
    g'.Signs H pending closure params result := by
  obtain ⟨c, node, outputs, hc, hprod, hn, hty⟩ := hsigns
  exact ⟨c, node, outputs, hc, producer?_of_grows h.grows hprod, h.node c node hc hn,
    h.hasNodeType hc hn hty⟩

omit h in
theorem of_since {isOpen} (hsince : Since H isOpen g g')
    (hc : g.Coherent) (hroot : ∀ block, g.block? root = some block → block.owner = none) :
    Keeps H pending g g' where
  grows := hsince.grows
  type v ty hv hty := (hsince.type v hv (lt_of_typeOf? hty)).trans hty
  node n node _ hn := (hsince.node n (index_lt_of_node? hn)).trans hn
  block n node b block _ hn hb hblock := by
    have hne : b ≠ root := by
      rintro rfl
      obtain ⟨_, heq, hown⟩ := hc.nested n node root hn hb
      simp [hroot _ heq] at hown
    have hlt := index_lt_of_block? hblock
    obtain ⟨block', hb'⟩ := (exists_block?_iff g' b).mpr (hlt.trans_le hsince.grows.blocks_le)
    have hps := hsince.params b hne hlt
    have hres := hsince.results b hlt
    simp only [hblock, hb', map_some, Option.some.injEq] at hps hres
    exact ⟨block', hb', hps, hres⟩

omit h in
theorem refl (H : List ValueId) (pending : List NodeId) (g : Graph) : Keeps H pending g g :=
  ⟨.refl g, fun _ _ _ hty => hty, fun _ _ _ hn => hn,
    fun _ _ _ block _ _ _ hb => ⟨block, hb, rfl, rfl⟩⟩

theorem pushValue (value : Value) : Keeps H pending g (g'.pushValue value) where
  __ := h
  grows := h.grows.pushValues [value]
  type v ty hv hty :=
    typeOf?_of_types (show (g'.pushValue value).types = g'.types ++ [value.ty] by
      simp [types, Graph.pushValue]) (h.type v ty hv hty)

theorem mapNode (hn : n ∈ pending) {f : Node → Node}
    (hgrows : Grows g (g'.mapNode n f)) : Keeps H pending g (g'.mapNode n f) where
  __ := h
  grows := hgrows
  node m node hm hnode := by
    have hne : n ≠ m := fun heq => hm (heq ▸ hn)
    rw [node?_mapNode, if_neg hne, h.node m node hm hnode]

theorem mapBlock {f : Block → Block} (hc : g.Coherent)
    (hb : g.Unfinished pending b) (hgrows : Grows g (g'.mapBlock b f)) :
    Keeps H pending g (g'.mapBlock b f) where
  __ := h
  grows := hgrows
  block n node c block hn hnode hmem hblock := by
    have hne : b ≠ c := by
      rintro rfl
      obtain ⟨_, heq, hown⟩ := hc.nested n node b hnode hmem
      exact hn (hb _ n heq hown)
    rw [block?_mapBlock, if_neg hne]
    exact h.block n node c block hn hnode hmem hblock

theorem pushBlock {block : Block} (hps : block.params = []) (hns : block.nodes = []) :
    Keeps H pending g (g'.pushBlock block) where
  __ := h
  grows := h.grows.pushBlock hps hns
  block n node b found hn hnode hb hfd := by
    obtain ⟨block', hb', hs⟩ := h.block n node b found hn hnode hb hfd
    exact ⟨block', by rw [block?_pushBlock, if_neg (ne_freshBlock hb'), hb'], hs⟩

end

end Keeps

/-! ## Graphs with pending nodes -/

/-- All nodes but the pending ones obey their law, and closures are what was signed for them. -/
structure LawfulBut (A : Prop) (H : List ValueId) (pending : List NodeId)
    (g : Graph) (signatures : List (ValueId × Signature)) : Prop where
  known : ∀ n ∈ pending, n.index < g.nodes.length
  root : ∃ block, g.block? root = some block ∧ block.owner = none
  node : ∀ n node, n ∉ pending → g.node? n = some node → g.Lawful A H pending node
  signed : ∀ entry ∈ signatures, g.Signs H pending entry.1
    (entry.2.params.map Prod.snd) entry.2.result

theorem hasNodeType_attach {inputs types : List Ty}
    (hknown : ∀ v ∈ H, v.index < g.values.length) (hbs : node.blocks = [])
    (hins : g.Settled H node.inputs inputs) : (g.attach b arrange node types).HasNodeType H
      { node with outputs := g.freshValues types.length, owner := some b }
      ⟨node.op, inputs, types, []⟩ where
  op := rfl
  inputs := hins.mono fun v ty hv hty => ⟨hv, typeOf?_of_types (types_attach ..) hty⟩
  outputs := by
    refine forall₂_iff_get.mpr ⟨by simp [freshValues], fun i _ _ => ⟨fun hin => ?_, ?_⟩⟩
    · exact Nat.not_lt.mpr (le_of_mem_freshValues (get_mem _ _)) (hknown _ hin)
    · rw [typeOf?_eq, types_attach, getElem?_append_right (by simp [freshValues, Graph.types])]
      simp [freshValues, Graph.types]
  blocks := by simp [hbs]

namespace LawfulBut

variable {signatures : List (ValueId × Signature)}

section

variable (h : LawfulBut A H pending g signatures)
include h

theorem owner_root : ∀ block, g.block? Graph.root = some block → block.owner = none := by
  obtain ⟨block, hb, hown⟩ := h.root
  intro found hfd
  exact Option.some.inj (hb.symm.trans hfd) ▸ hown

theorem keep_root (hgrows : Grows g g') : ∃ block, g'.block? Graph.root = some block ∧
      block.owner = none := by
  obtain ⟨block, hb, hown⟩ := h.root
  obtain ⟨block', hb', hblockGrows⟩ := hgrows.block _ block hb
  exact ⟨block', hb', hblockGrows.owner.trans hown⟩

theorem step (hkeeps : Keeps H pending g g')
    (hnew : ∀ n node, n ∉ pending → g'.node? n = some node → g.nodes.length ≤ n.index →
      g'.Lawful A H pending node) : LawfulBut A H pending g' signatures where
  known n hn := Nat.lt_of_lt_of_le (h.known n hn) hkeeps.grows.nodes_le
  root := h.keep_root hkeeps.grows
  node n node' hn hn' := by
    by_cases hlt : n.index < g.nodes.length
    · obtain ⟨node, hnode⟩ := (exists_node?_iff g n).mpr hlt
      obtain rfl := Option.some.inj ((hkeeps.node n node hn hnode).symm.trans hn')
      exact (h.node n node hn hnode).imp (fun _ => hkeeps.hasNodeType hn hnode)
        fun _ _ _ => hkeeps.signs
    · exact hnew n node' hn hn' (Nat.le_of_not_lt hlt)
  signed entry he := hkeeps.signs (h.signed entry he)

theorem keep (hkeeps : Keeps H pending g g') (hns : g'.nodes.length = g.nodes.length) :
    LawfulBut A H pending g' signatures :=
  h.step hkeeps fun n _ _ hn hle => absurd (index_lt_of_node? hn) (by omega)

end

theorem resume (h : LawfulBut A H (n :: pending) g signatures)
    (hn : ∀ node, g.node? n = some node → g.Lawful A H pending node) :
    LawfulBut A H pending g signatures := by
  have hsigns : ∀ closure params result, g.Signs H (n :: pending) closure params result →
      g.Signs H pending closure params result := by
    rintro closure params result ⟨c, node, outputs, hc, hr⟩
    exact ⟨c, node, outputs, fun hin => hc (.tail _ hin), hr⟩
  refine ⟨fun m hm => h.known m (.tail _ hm), h.root, fun m node hm hnode => ?_,
    fun entry he => hsigns _ _ _ (h.signed entry he)⟩
  by_cases hmn : m = n
  · exact hn node (hmn ▸ hnode)
  · exact (h.node m node (by simp [hmn, hm]) hnode).imp (fun _ hty => hty) hsigns

theorem swap {m} (h : LawfulBut A H (m :: n :: pending) g signatures) :
    LawfulBut A H (n :: m :: pending) g signatures := by
  have hmem : ∀ {k : NodeId}, k ∈ m :: n :: pending ↔ k ∈ n :: m :: pending := by
    simp [or_left_comm]
  have hsigns : ∀ closure params result, g.Signs H (m :: n :: pending) closure params result →
      g.Signs H (n :: m :: pending) closure params result := by
    rintro closure params result ⟨c, node, outputs, hc, hr⟩
    exact ⟨c, node, outputs, hmem.not.mp hc, hr⟩
  exact ⟨fun k hk => h.known k (hmem.mpr hk), h.root, fun k node hk hn =>
    (h.node k node (hmem.not.mpr hk) hn).imp (fun _ hty => hty) hsigns,
    fun entry he => hsigns _ _ _ (h.signed entry he)⟩

section

variable (h : LawfulBut A H pending g signatures)
include h

theorem rehide (hset : ∀ v ty, v ∉ H → g.typeOf? v = some ty → v ∉ H' ∧ g.typeOf? v = some ty) :
    LawfulBut A H' pending g signatures := by
  have htype : ∀ (node : Node) (ty : NodeType), g.HasNodeType H node ty →
      g.HasNodeType H' node ty := fun _ _ hty =>
    hty.mono hset fun _ _ block hb => ⟨block, hb, rfl, rfl⟩
  have hsigns : ∀ closure params result, g.Signs H pending closure params result →
      g.Signs H' pending closure params result := by
    rintro closure params result ⟨c, node, outputs, hc, hprod, hn, hty⟩
    exact ⟨c, node, outputs, hc, hprod, hn, htype node _ hty⟩
  exact ⟨h.known, h.root, fun m node hm hn => (h.node m node hm hn).imp (htype node) hsigns,
    fun entry he => hsigns _ _ _ (h.signed entry he)⟩

theorem hide (hv : g.values.length ≤ v.index) : LawfulBut A (v :: H) pending g signatures := by
  have hset : ∀ w ty, w ∉ H → g.typeOf? w = some ty → w ∉ v :: H ∧ g.typeOf? w = some ty := by
    refine fun w ty hw hty => ⟨fun hin => ?_, hty⟩
    rcases mem_cons.mp hin with rfl | hin
    · exact absurd (lt_of_typeOf? hty) hv.not_gt
    · exact hw hin
  exact h.rehide hset

omit h in
/-! ### Steps -/

theorem attach (hc : g.Coherent) (hknown : ∀ v ∈ H, v.index < g.values.length)
    (harr : Arranges g.freshNode arrange) (hbs : node.blocks = []) (types : List Ty)
      (hlaw : g.freshNode ∉ pending → ∃ inputs, g.Settled H node.inputs inputs ∧
      NodeType.Lawful A ⟨node.op, inputs, types, []⟩ ∧ (node.op = .forkClosure → g.Forks
      H pending node.inputs ⟨node.op, inputs, types, []⟩)) :
    LawfulBut A H pending (g.attach b arrange node types) signatures := by
  have hkeeps : Keeps H pending g (g.attach b arrange node types) :=
    .of_since ((Since.refl H (fun _ => True) g).attach hc (Or.inl trivial)
      harr hbs types) hc h.owner_root
  refine h.step hkeeps fun n made hn hm hle => ?_
  rw [node?_attach] at hm
  split at hm
  next heq =>
    subst heq
    cases hm
    obtain ⟨inputs, hins, hlawful, hforks⟩ := hlaw hn
    exact ⟨_, hasNodeType_attach hknown hbs hins, hlawful, fun hop =>
      (hforks hop).imp fun _ _ _ hsigns => hkeeps.signs hsigns⟩
  next => exact absurd (index_lt_of_node? hm) hle.not_gt

theorem attach_pending (hc : g.Coherent)
    (harr : Arranges g.freshNode arrange) (hbs : node.blocks = []) (types : List Ty) :
    LawfulBut A H (g.freshNode :: pending) (g.attach b arrange node types) signatures := by
  have hkeeps : ∀ pending, Keeps H pending g (g.attach b arrange node types) :=
    fun _ => .of_since ((Since.refl H (fun _ => True) g).attach hc
      (Or.inl trivial) harr hbs types) hc h.owner_root
  have hsigns : ∀ closure params result, g.Signs H pending closure params result →
      (g.attach b arrange node types).Signs H (g.freshNode :: pending) closure params
        result := by
    rintro closure params result ⟨c, node, outputs, hc, hprod, hn, hty⟩
    refine (hkeeps _).signs ⟨c, node, outputs, fun hin => ?_, hprod, hn, hty⟩
    rcases mem_cons.mp hin with rfl | hin
    · exact Nat.lt_irrefl _ (index_lt_of_node? hn)
    · exact hc hin
  refine ⟨?_, (h.keep_root (hkeeps pending).grows), fun m made hm hmade => ?_, fun entry he =>
    hsigns _ _ _ (h.signed entry he)⟩
  · refine forall_mem_cons.mpr ⟨by simp [freshNode, Graph.attach], fun m hm => ?_⟩
    exact Nat.lt_of_lt_of_le (h.known m hm) (hkeeps pending).grows.nodes_le
  · obtain ⟨hne, hm⟩ := not_or.mp (mem_cons.not.mp hm)
    rw [node?_attach, if_neg hne] at hmade
    exact (h.node m made hm hmade).imp (fun _ => (hkeeps pending).hasNodeType hm hmade) hsigns

theorem named (hc : g.Coherent)
    (v : ValueId) (label : Option String) : LawfulBut A H pending (g.named v label) signatures :=
  h.keep (.of_since ((Since.refl H (fun _ => True) g).named v label) hc h.owner_root) rfl

theorem retype (hc : g.Coherent)
    (hv : v ∈ H) (ty : Ty) : LawfulBut A H pending (g.retype v ty) signatures :=
  h.keep (.of_since ((Since.refl H (fun _ => True) g).retype hv ty) hc h.owner_root) rfl

theorem withInput (hn : n ∈ pending)
    (v : ValueId) : LawfulBut A H pending (g.withInput n v) signatures :=
  h.keep ((Keeps.refl _ _ g).mapNode hn ((Grows.refl g).withInput n v)) (by simp [Graph.withInput])

theorem withOutput (hn : n ∈ pending)
    (ty : Ty) : LawfulBut A H pending (g.withOutput n ty) signatures :=
  h.keep (((Keeps.refl _ _ g).pushValue _).mapNode hn ((Grows.refl g).withOutput n ty))
    (by simp [Graph.withOutput, pushValue])

theorem withBlock (hn : n ∈ pending) : LawfulBut A H pending (g.withBlock n) signatures :=
  h.keep (((Keeps.refl _ _ g).pushBlock rfl rfl).mapNode hn ((Grows.refl g).withBlock n))
    (by simp [Graph.withBlock, pushBlock])

theorem withResult (hc : g.Coherent) (hb : g.Unfinished pending b) (v : ValueId) :
    LawfulBut A H pending (g.withResult b v) signatures :=
  h.keep ((Keeps.refl _ _ g).mapBlock hc hb ((Grows.refl g).withResult b v)) rfl

theorem withParam (hc : g.Coherent)
    (hb : g.Unfinished pending b) (ty : Ty) : LawfulBut A H pending (g.withParam b ty) signatures :=
  h.keep (((Keeps.refl _ _ g).pushValue _).mapBlock hc hb ((Grows.refl g).withParam b ty)) rfl

end

end LawfulBut

end Graph

end Flowgraph
