import Flowgraph.Proofs.Emission.Advance

/-!
# States that lowering passes through

`WellFormed` says what holds between any two steps of lowering: every use in the graph is defined
where it stands, every entity in the scope is defined at the block of its frame, and the pooled
constants come first in the root.

Between two sides of a branch the insertion point is taken to stand before the branch node, not
after it.
-/

namespace Flowgraph

open Flowgraph.Frame Flowgraph.Graph List Option Scope

variable {v : ValueId} {node : Node} {n c : NodeId} {frame : Frame} {name : String} {b : BlockId}
  {types : List Ty} {entity : Entity}

/-! ## Graphs in which every use is defined -/

structure Graph.Scoped (g : Graph) : Prop where
  coherent : g.Coherent
  inputs : ∀ b block n node v, g.block? b = some block → n ∈ block.nodes →
    g.node? n = some node → v ∈ node.inputs → g.Defined ⟨b, some n⟩ v
  results : ∀ b block v, g.block? b = some block → v ∈ block.results → g.Defined ⟨b, none⟩ v

namespace Graph

variable {g g' : Graph}

theorem hasAnchor_end (g : Graph) (b : BlockId) : g.HasAnchor ⟨b, none⟩ := by
  intro n hn
  cases hn

section

variable (h : g.Scoped)
include h

theorem Scoped.of_grows (hgrows : Grows g g') (hcoh : g'.Coherent)
    (hins : ∀ b block n node v, g'.block? b = some block → n ∈ block.nodes →
      g'.node? n = some node → v ∈ node.inputs →
      (∃ block node, g.block? b = some block ∧ n ∈ block.nodes ∧ g.node? n = some node ∧
        v ∈ node.inputs) ∨ g'.Defined ⟨b, some n⟩ v)
    (hres : ∀ b block v, g'.block? b = some block → v ∈ block.results →
      (∃ block, g.block? b = some block ∧ v ∈ block.results) ∨ g'.Defined ⟨b, none⟩ v) :
    g'.Scoped where
  coherent := hcoh
  inputs b block' n node' v hb' hn' hnode' hv' := by
    rcases hins b block' n node' v hb' hn' hnode' hv' with
      ⟨block, node, hb, hn, hnode, hv⟩ | hnew
    · refine (h.inputs b block n node v hb hn hnode hv).mono hgrows ?_
      intro m hm
      cases hm
      exact ⟨node, hnode⟩
    · exact hnew
  results b block' v hb' hv' := by
    rcases hres b block' v hb' hv' with ⟨block, hb, hv⟩ | hnew
    · exact (h.results b block v hb hv).mono hgrows (hasAnchor_end g b)
    · exact hnew

theorem Scoped.attach {arrange : List NodeId → List NodeId}
    (harr : Arranges g.freshNode arrange) (hbs : node.blocks = [])
    (hins : ∀ v ∈ node.inputs, (g.attach b arrange node types).Defined ⟨b, some g.freshNode⟩ v) :
    (g.attach b arrange node types).Scoped := by
  have hcoh := h.coherent.attach harr hbs (b := b) types
  refine h.of_grows ((Grows.refl g).attach harr hbs (h.coherent.freshNode_not_mem b)
    types) hcoh ?_ ?_
  · intro c block n made v hb hn hm hv
    obtain ⟨_, heq, hown⟩ := hcoh.placed c block n hb hn
    cases hm.symm.trans heq
    rw [node?_attach] at hm
    split at hm
    next hfresh =>
      subst hfresh
      cases hm
      cases hown
      exact Or.inr (hins v hv)
    next hne =>
      left
      rw [block?_attach] at hb
      split at hb
      · obtain ⟨old, hold, rfl⟩ := map_eq_some_iff.mp hb
        exact ⟨old, made, hold, (harr.mem hn).resolve_left hne, hm, hv⟩
      · exact ⟨block, made, hb, hn, hm, hv⟩
  · intro c block v hb hv
    left
    rw [block?_attach] at hb
    split at hb
    · obtain ⟨old, hold, rfl⟩ := map_eq_some_iff.mp hb
      exact ⟨old, hold, hv⟩
    · exact ⟨block, hb, hv⟩

theorem Scoped.of_same (hgrows : Grows g g') (hcoh : g'.Coherent)
    (hins : ∀ n node, g'.node? n = some node →
      ∃ old, g.node? n = some old ∧ node.inputs = old.inputs)
    (hbs : ∀ b block, g'.block? b = some block →
      (∃ old, g.block? b = some old ∧ block.nodes = old.nodes ∧ block.results = old.results) ∨
        block.nodes = [] ∧ block.results = []) : g'.Scoped := by
  refine h.of_grows hgrows hcoh ?_ ?_
  · intro b block n node v hb hn hnode hv
    obtain ⟨old, hold, heq⟩ := hins n node hnode
    rcases hbs b block hb with ⟨before, hbef, hns, -⟩ | ⟨hns, -⟩
    · exact Or.inl ⟨before, old, hbef, hns ▸ hn, hold, heq ▸ hv⟩
    · simp [hns] at hn
  · intro b block v hb hv
    rcases hbs b block hb with ⟨before, hbef, -, hres⟩ | ⟨-, hres⟩
    · exact Or.inl ⟨before, hbef, hres ▸ hv⟩
    · simp [hres] at hv

theorem Scoped.withOutput (n : NodeId) (ty : Ty) : (g.withOutput n ty).Scoped := by
  refine h.of_same ((Grows.refl g).withOutput n ty) (h.coherent.withOutput n ty) ?_
    fun b block hb => Or.inl ⟨block, hb, rfl, rfl⟩
  intro m node hn
  obtain ⟨old, hold, rfl | ⟨-, rfl⟩⟩ := exists_of_mapNode hn
  · exact ⟨node, hold, rfl⟩
  · exact ⟨old, hold, rfl⟩

theorem Scoped.withParam (b : BlockId) (ty : Ty) : (g.withParam b ty).Scoped := by
  refine h.of_same ((Grows.refl g).withParam b ty) (h.coherent.withParam b ty)
    (fun n node hn => ⟨node, hn, rfl⟩) ?_
  intro c block hb
  obtain ⟨old, hold, rfl | ⟨-, rfl⟩⟩ := exists_of_mapBlock hb
  · exact Or.inl ⟨block, hold, rfl, rfl⟩
  · exact Or.inl ⟨old, hold, rfl, rfl⟩

theorem Scoped.withBlock (n : NodeId) : (g.withBlock n).Scoped := by
  refine h.of_same ((Grows.refl g).withBlock n) (h.coherent.withBlock n) ?_ ?_
  · intro m node hn
    obtain ⟨old, hold, rfl | ⟨-, rfl⟩⟩ := exists_of_mapNode hn
    · exact ⟨node, hold, rfl⟩
    · exact ⟨old, hold, rfl⟩
  · intro c block hb
    rw [Graph.withBlock, block?_mapNode, block?_pushBlock] at hb
    split at hb
    · cases hb
      exact Or.inr ⟨rfl, rfl⟩
    · exact Or.inl ⟨block, hb, rfl, rfl⟩

theorem Scoped.withResult (hv : g.Defined ⟨b, none⟩ v) : (g.withResult b v).Scoped := by
  have hgrows := (Grows.refl g).withResult b v
  refine h.of_grows hgrows (h.coherent.withResult b v) ?_ ?_
  · intro c block n node w hb hn hnode hw
    left
    obtain ⟨old, hold, rfl | ⟨-, rfl⟩⟩ := exists_of_mapBlock hb
    · exact ⟨block, node, hold, hn, hnode, hw⟩
    · exact ⟨old, node, hold, hn, hnode, hw⟩
  · intro c block w hb hw
    obtain ⟨old, hold, rfl | ⟨rfl, rfl⟩⟩ := exists_of_mapBlock hb
    · exact Or.inl ⟨block, hold, hw⟩
    · rcases mem_append.mp hw with hw | hw
      · exact Or.inl ⟨old, hold, hw⟩
      · obtain rfl := mem_singleton.mp hw
        exact Or.inr (hv.mono hgrows (hasAnchor_end g b))

theorem Scoped.withInput
    (hv : ∀ b block, g.block? b = some block → n ∈ block.nodes → g.Defined ⟨b, some n⟩ v) :
    (g.withInput n v).Scoped := by
  have hgrows := (Grows.refl g).withInput n v
  refine h.of_grows hgrows (h.coherent.withInput n v) ?_ fun b block w hb hw =>
    Or.inl ⟨block, hb, hw⟩
  intro b block m node w hb hm hn hw
  obtain ⟨old, hold, rfl | ⟨rfl, rfl⟩⟩ := exists_of_mapNode hn
  · exact Or.inl ⟨block, node, hb, hm, hold, hw⟩
  · rcases mem_append.mp hw with hw | hw
    · exact Or.inl ⟨block, old, hb, hm, hold, hw⟩
    · obtain rfl := mem_singleton.mp hw
      refine Or.inr ((hv b block hb hm).mono hgrows ?_)
      intro k hk
      cases hk
      exact ⟨old, hold⟩

end

theorem scoped_empty : empty.Scoped := by
  refine ⟨coherent_empty, ?_, ?_⟩
  · intro b block n node v _ _ hn
    simp [node?, empty] at hn
  · intro b block v hb hv
    obtain rfl := mem_singleton.mp (mem_of_getElem? hb)
    cases hv

end Graph

/-! ## Pooled constants -/

/-- The pool lists the constants at the front of the root. -/
def Pooled (H : List ValueId) (g : Graph) (pool : List (Literal × ValueId)) : Prop :=
  ∃ block constants rest, g.block? root = some block ∧ block.nodes = constants ++ rest ∧
    constants.length = pool.length ∧
    (∀ n ∈ constants, ∃ node, g.node? n = some node ∧ node.op = .constant) ∧
    ∀ entry ∈ pool, entry.2 ∉ H ∧
      ∃ n ∈ constants, ∃ node, g.node? n = some node ∧ entry.2 ∈ node.outputs

/-- The node that the point stands before is not a constant. -/
def Graph.PastConstants (g : Graph) (point : InsertPoint) : Prop :=
  ∀ n node, point.before = some n → g.node? n = some node → node.op ≠ .constant

namespace Pooled

variable {H : List ValueId} {g g' : Graph} {pool : List (Literal × ValueId)}

theorem of_grows (h : Pooled H g pool) (hgrows : Grows g g')
    (hroot : ∀ block, g.block? root = some block →
      ∃ block', g'.block? root = some block' ∧ ∀ constants rest, block.nodes = constants ++ rest →
        (∀ n ∈ constants, ∃ node, g.node? n = some node ∧ node.op = .constant) →
        ∃ rest', block'.nodes = constants ++ rest') : Pooled H g' pool := by
  obtain ⟨block, constants, rest, hb, hns, hlen, hconsts, hpool⟩ := h
  obtain ⟨block', hb', hr⟩ := hroot block hb
  obtain ⟨rest', hnodes'⟩ := hr constants rest hns hconsts
  refine ⟨block', constants, rest', hb', hnodes', hlen, ?_, ?_⟩
  · intro n hn
    obtain ⟨node, hnode, hop⟩ := hconsts n hn
    obtain ⟨node', hn', hnodeGrows⟩ := hgrows.node n node hnode
    exact ⟨node', hn', hnodeGrows.op.trans hop⟩
  · intro entry he
    obtain ⟨hvis, n, hn, node, hnode, hv⟩ := hpool entry he
    obtain ⟨node', hn', hnodeGrows⟩ := hgrows.node n node hnode
    exact ⟨hvis, n, hn, node', hn', hnodeGrows.outputs.mem hv⟩

theorem of_same (h : Pooled H g pool) (hgrows : Grows g g')
    (hroot : (g'.block? root).map Block.nodes =
      (g.block? root).map Block.nodes) : Pooled H g' pool := by
  refine h.of_grows hgrows fun block hb => ?_
  rw [hb, map_some, map_eq_some_iff] at hroot
  obtain ⟨block', hb', hnodes'⟩ := hroot
  exact ⟨block', hb', fun constants rest hns _ => ⟨rest, hnodes'.trans hns⟩⟩

theorem placeIn_append {before : Option NodeId} {constants rest : List NodeId}
    (h : ∀ m, before = some m → m ∉ constants) :
    ∃ rest', placeIn before n (constants ++ rest) = constants ++ rest' := by
  cases before with
  | none => exact ⟨rest ++ [n], by simp [placeIn]⟩
  | some m =>
    refine ⟨rest.takeWhile (· ≠ m) ++ n :: rest.dropWhile (· ≠ m), ?_⟩
    have hne : ∀ k ∈ constants, decide (k ≠ m) = true := fun k hk =>
      decide_eq_true fun heq => h m rfl (heq ▸ hk)
    rw [placeIn, takeWhile_append_of_pos hne, dropWhile_append_of_pos hne, append_assoc]

theorem place (h : Pooled H g pool) (hc : g.Coherent) {p : InsertPoint}
    (hp : g.PastConstants p) (hbs : node.blocks = []) (types : List Ty) :
    Pooled H (g.place p node types) pool := by
  refine h.of_grows (.place hc hbs p types) fun block hb => ?_
  by_cases hroot : p.block = root
  · rw [← hroot] at hb ⊢
    refine ⟨_, block?_place_self hb, fun constants rest hns hconsts => ?_⟩
    simp only [hns]
    refine placeIn_append fun m hm hin => ?_
    obtain ⟨node, hn, hop⟩ := hconsts m hin
    exact hp m node hm hn hop
  · exact ⟨block, by rw [Graph.place, block?_attach, if_neg hroot, hb],
      fun constants rest hns _ => ⟨rest, hns⟩⟩

theorem hide (h : Pooled H g pool) (hc : g.Coherent)
    (hv : g.values.length ≤ v.index) : Pooled (v :: H) g pool := by
  obtain ⟨block, constants, rest, hb, hns, hlen, hconsts, hpool⟩ := h
  refine ⟨block, constants, rest, hb, hns, hlen, hconsts, fun entry he => ?_⟩
  obtain ⟨hvis, n, hn, node, hnode, hout⟩ := hpool entry he
  refine ⟨fun hin => ?_, n, hn, node, hnode, hout⟩
  rcases mem_cons.mp hin with heq | hin
  · exact absurd (heq ▸ hc.output_lt hnode hout) (Nat.not_lt.mpr hv)
  · exact hvis hin

theorem unhide (h : Pooled (v :: H) g pool) : Pooled H g pool := by
  obtain ⟨block, constants, rest, hb, hns, hlen, hconsts, hpool⟩ := h
  exact ⟨block, constants, rest, hb, hns, hlen, hconsts, fun entry he =>
    ⟨fun hin => (hpool entry he).1 (mem_cons_of_mem v hin), (hpool entry he).2⟩⟩

theorem defined (h : Pooled H g pool) {p q : InsertPoint} (hwi : g.Within p q)
    (hq : q.block = root) (hpast : g.PastConstants q) {entry : Literal × ValueId}
    (he : entry ∈ pool) : g.Defined p entry.2 := by
  obtain ⟨block, constants, rest, hb, hns, -, hconsts, hpool⟩ := h
  obtain ⟨-, n, hn, node, hnode, hv⟩ := hpool entry he
  refine ⟨q, hwi, .output ?_ hnode hv⟩
  simp only [before, hq, hb]
  cases hbef : q.before with
  | none => simp [hns, hn]
  | some m =>
    simp only [hns]
    rw [takeWhile_append_of_pos]
    · exact mem_append_left _ hn
    · intro k hk
      refine decide_eq_true fun heq => ?_
      obtain ⟨node, hnode, hop⟩ := hconsts k hk
      exact hpast m node hbef (heq ▸ hnode) hop

theorem push (h : Pooled H g pool) (hc : g.Coherent)
    (hH : g.freshValue ∉ H) (hop : node.op = .constant) (hbs : node.blocks = [])
    (value : Literal) (ty : Ty) :
    Pooled H (g.placeAtRoot pool.length node [ty]) ((value, g.freshValue) :: pool) := by
  have hgrows : Grows g (g.placeAtRoot pool.length node [ty]) :=
    (Grows.refl g).attach (arranges_atPosition _ _) hbs (hc.freshNode_not_mem _) [ty]
  have hfresh : (g.placeAtRoot pool.length node [ty]).node? g.freshNode =
      some { node with outputs := [g.freshValue], owner := some root } := by
    rw [placeAtRoot, node?_attach, if_pos rfl]
    rfl
  obtain ⟨block, constants, rest, hb, hns, hlen, hconsts, hpool⟩ := h
  refine ⟨{ block with nodes := constants ++ g.freshNode :: rest },
    constants ++ [g.freshNode], rest, ?_, by simp, by simp [hlen], ?_, ?_⟩
  · rw [placeAtRoot, block?_attach, if_pos rfl, hb, map_some, hns,
      ← hlen, take_left, drop_left]
  · intro n hn
    rcases mem_append.mp hn with hn | hn
    · obtain ⟨made, hm, hconstant⟩ := hconsts n hn
      obtain ⟨made', hmade', hmadeGrows⟩ := hgrows.node n made hm
      exact ⟨made', hmade', hmadeGrows.op.trans hconstant⟩
    · obtain rfl := mem_singleton.mp hn
      exact ⟨_, hfresh, hop⟩
  · intro entry he
    rcases mem_cons.mp he with rfl | he
    · exact ⟨hH, g.freshNode, by simp, _, hfresh, mem_singleton.mpr rfl⟩
    · obtain ⟨hvis, n, hn, made, hm, hv⟩ := hpool entry he
      obtain ⟨made', hmade', hmadeGrows⟩ := hgrows.node n made hm
      exact ⟨hvis, n, mem_append_left _ hn, made', hmade', hmadeGrows.outputs.mem hv⟩

end Pooled

/-! ## Frames -/

/-- The innermost frame belongs to the block of the point, the others to blocks around it, and the
entities of a frame are defined where it belongs. -/
def FramesOk (H : List ValueId) (g : Graph) : InsertPoint → List Frame → Prop
  | _, [] => True
  | p, frame :: outer =>
    frame.block = p.block ∧ (∀ name entity, frame.get? name = some (.entity entity) →
        ∀ v ∈ entity.values, v ∉ H ∧ g.Defined p v) ∧
      (∀ c, frame.closure = some c → ∃ b, g.Encloses ⟨b, some c⟩ frame.block) ∧
      ∃ q, g.Within p q ∧ FramesOk H g q outer

namespace FramesOk

variable {H H' : List ValueId} {g g' : Graph} {p : InsertPoint} {frames outer frames' : List Frame}

theorem mono (h : Grows g g') (hp : g.HasAnchor p)
    (hfs : FramesOk H g p frames) : FramesOk H g' p frames := by
  induction frames generalizing p with
  | nil => trivial
  | cons frame outer ih =>
    obtain ⟨hb, hents, hcl, q, hwi, houter⟩ := hfs
    refine ⟨hb, ?_, ?_, q, hwi.mono h, ih (hwi.hasAnchor hp) houter⟩
    · intro name entity hget v hv
      obtain ⟨hvis, hdef⟩ := hents name entity hget v hv
      exact ⟨hvis, hdef.mono h hp⟩
    · intro c hc
      obtain ⟨b, henc⟩ := hcl c hc
      exact ⟨b, henc.mono h⟩

theorem of_core (h : frames'.map core = frames.map core)
    (hfs : FramesOk H g p frames) : FramesOk H g p frames' := by
  induction frames generalizing p frames' with
  | nil =>
    obtain rfl := map_eq_nil_iff.mp h
    trivial
  | cons frame outer ih =>
    obtain ⟨frame', outer', rfl, hf, houter'⟩ := map_eq_cons_iff.mp h
    obtain ⟨hb, hents, hcl, q, hwi, houter⟩ := hfs
    simp only [core, Frame.mk.injEq, and_true] at hf
    obtain ⟨hb', -, hclosure', hslots'⟩ := hf
    refine ⟨hb'.trans hb, ?_, ?_, q, hwi, ih houter' houter⟩
    · intro name entity hget
      exact hents name entity (by rwa [get?, hslots'] at hget)
    · rw [hclosure', hb']
      exact hcl

theorem after (hn : n ∈ g.before p) (hfs : FramesOk H g ⟨p.block, some n⟩ frames) :
    FramesOk H g p frames := by
  induction frames with
  | nil => trivial
  | cons frame outer ih =>
    obtain ⟨hb, hents, hcl, q, hwi, houter⟩ := hfs
    refine ⟨hb, ?_, hcl, ?_⟩
    · intro name entity hget v hv
      obtain ⟨hvis, hdef⟩ := hents name entity hget v hv
      exact ⟨hvis, .after hn hdef⟩
    · cases hwi with
      | here => exact ⟨p, .here p, ih houter⟩
      | outward henc hwi => exact ⟨q, .outward henc hwi, houter⟩

theorem place_fresh (hc : g.Coherent) (hp : g.Anchored p) (hbs : node.blocks = [])
    (hfs : FramesOk H g p frames) :
    FramesOk H (g.place p node types) ⟨p.block, some g.freshNode⟩ frames := by
  have hgrows : Grows g (g.place p node types) := .place hc hbs p types
  induction frames with
  | nil => trivial
  | cons frame outer ih =>
    obtain ⟨hb, hents, hcl, q, hwi, houter⟩ := hfs
    refine ⟨hb, ?_, ?_, ?_⟩
    · intro name entity hget v hv
      obtain ⟨hvis, hdef⟩ := hents name entity hget v hv
      exact ⟨hvis, hdef.place_fresh hc hp hbs⟩
    · intro c hclosed
      obtain ⟨b, henc⟩ := hcl c hclosed
      exact ⟨b, henc.mono hgrows⟩
    · cases hwi with
      | here => exact ⟨_, .here _, ih houter⟩
      | outward henc hwi =>
        exact ⟨q, .outward (henc.mono hgrows) (hwi.mono hgrows),
          houter.mono hgrows (hwi.hasAnchor henc.hasAnchor)⟩

theorem rehide (hH : ∀ q w, g.Defined q w → w ∉ H → w ∉ H') (hfs : FramesOk H g p frames) :
    FramesOk H' g p frames := by
  induction frames generalizing p with
  | nil => trivial
  | cons frame outer ih =>
    obtain ⟨hb, hents, hcl, q, hwi, houter⟩ := hfs
    refine ⟨hb, ?_, hcl, q, hwi, ih houter⟩
    intro name entity hget w hw
    obtain ⟨hvis, hdef⟩ := hents name entity hget w hw
    exact ⟨hH p w hdef hvis, hdef⟩

theorem hide (hc : g.Coherent) (hv : g.values.length ≤ v.index)
    (hfs : FramesOk H g p frames) : FramesOk (v :: H) g p frames := by
  refine hfs.rehide fun q w hdef hvis hin => ?_
  rcases mem_cons.mp hin with rfl | hin
  · exact absurd (hdef.index_lt hc) (Nat.not_lt.mpr hv)
  · exact hvis hin

theorem unhide (hfs : FramesOk (v :: H) g p frames) : FramesOk H g p frames :=
  hfs.rehide fun _ _ _ hvis hin => hvis (mem_cons_of_mem v hin)

theorem unhidden (hfs : FramesOk H g p frames) (hmem : frame ∈ frames)
    (hget : frame.get? name = some (.entity entity)) : ∀ v ∈ entity.values, v ∉ H := by
  induction frames generalizing p with
  | nil => cases hmem
  | cons first outer ih =>
    obtain ⟨-, hents, -, q, -, houter⟩ := hfs
    rcases mem_cons.mp hmem with rfl | hmem
    · exact fun v hv => (hents name entity hget v hv).1
    · exact ih houter hmem

theorem find {number : Nat} (hfd : findFrom name frames = some ⟨number, .entity entity⟩)
    (hfs : FramesOk H g p frames) : ∀ v ∈ entity.values, v ∉ H ∧ g.Defined p v := by
  induction frames generalizing p with
  | nil => cases hfd
  | cons frame outer ih =>
    obtain ⟨-, hents, -, q, hwi, houter⟩ := hfs
    rw [findFrom] at hfd
    split at hfd
    next binding hget =>
      obtain ⟨-, rfl⟩ := Found.mk.inj (Option.some.inj hfd)
      exact hents name entity hget
    next =>
      intro v hv
      obtain ⟨hvis, hdef⟩ := ih hfd houter v hv
      exact ⟨hvis, hdef.of_within hwi⟩

/-- The block of the point lies within the body of every closure whose frame is there. -/
theorem closure (hmem : frame ∈ frames) (hcl : frame.closure = some c)
    (hfs : FramesOk H g p frames) : ∃ b, g.Encloses ⟨b, some c⟩ frame.block ∧
      ∀ p', p'.block = p.block → g.Within p' ⟨b, some c⟩ := by
  induction frames generalizing p with
  | nil => cases hmem
  | cons first outer ih =>
    obtain ⟨hb, -, hclosures, q, hwi, houter⟩ := hfs
    rcases mem_cons.mp hmem with rfl | hmem
    · obtain ⟨b, henc⟩ := hclosures c hcl
      refine ⟨b, henc, fun p' hp' => .outward ?_ (.here _)⟩
      rwa [hp', ← hb]
    · obtain ⟨b, henc, hin⟩ := ih hmem houter
      refine ⟨b, henc, fun p' hp' => ?_⟩
      cases hwi with
      | here => exact hin p' hp'
      | outward henclosing hwi => exact .outward (hp' ▸ henclosing) (hwi.trans (hin q rfl))

theorem bind {slot : Slot} (hent : ∀ entity, slot.binding = .entity entity
      → ∀ v ∈ entity.values, v ∉ H ∧ g.Defined p v) (hfs : FramesOk H g p (frame :: outer)) :
    FramesOk H g p (frame.bind name slot :: outer) := by
  obtain ⟨hb, hents, hcl, houter⟩ := hfs
  refine ⟨hb, ?_, hcl, houter⟩
  intro other entity hget
  rw [get?, Frame.bind, NameMap.get?_insert] at hget
  split at hget
  · exact hent entity (Option.some.inj hget)
  · exact hents other entity hget

end FramesOk

end Flowgraph
