import Flowgraph.Proofs.Lifting.Mirror

/-!
# Where the parts of a copy come from

The ledger of a finished copy maps the copy to its source: each node of the copy has the operation
and the subgraph of the node it stands for, and its inputs, outputs and blocks stand for those of
that node; blocks likewise, and values keep their types.  `MirrorsBody.copied` says this of an
extracted body.
-/

namespace Flowgraph

open List

variable {w : ValueId}

namespace Ledger

variable {l l' l'' : Ledger}

/-- A value is called by something that stands for it. -/
def Sound (l : Ledger) : Prop := ∀ v w, l.renamed v = some w → l.Stands w v

/-- The node of the copy stands for `n`. -/
def StandsNode (l : Ledger) (m n : NodeId) : Prop := l.nodes[m.index]? = some n

/-- The nested block of the copy stands for `b`. -/
def StandsBlock (l : Ledger) (made b : BlockId) : Prop :=
  made ≠ Graph.root ∧ l.blocks[made.index]? = some b

/-- Entries were only added, and names stay sound. -/
structure Extends (l l' : Ledger) : Prop where
  values : l.values <+: l'.values
  nodes : l.nodes <+: l'.nodes
  blocks : l.blocks <+: l'.blocks
  sound : l.Sound → l'.Sound

theorem Extends.refl (l : Ledger) : Extends l l :=
  ⟨prefix_refl _, prefix_refl _, prefix_refl _, id⟩

theorem Extends.trans (h : Extends l l') (h' : Extends l' l'') : Extends l l'' :=
  ⟨h.values.trans h'.values, h.nodes.trans h'.nodes, h.blocks.trans h'.blocks, h'.sound ∘ h.sound⟩

theorem Sound.add (h : l.Sound) (v : ValueId) : (l.add v).Sound := by
  intro u w hw
  simp only [Ledger.add] at hw
  split at hw
  next heq =>
    cases hw
    exact heq ▸ l.stands_last v
  next => exact (h u w hw).mono (l.prefix_add v)

theorem extends_addAll (l : Ledger) (vs : List ValueId) : Extends l (l.addAll vs) :=
  foldlRecOn vs _ (.refl l) fun l h v _ =>
    h.trans ⟨l.prefix_add v, prefix_refl _, prefix_refl _, fun h => h.add v⟩

theorem extends_addNode (l : Ledger) (n : NodeId) : Extends l (l.addNode n) :=
  ⟨prefix_refl _, prefix_append _ _, prefix_refl _, id⟩

theorem extends_addBlock (l : Ledger) (b : BlockId) : Extends l (l.addBlock b) :=
  ⟨prefix_refl _, prefix_refl _, prefix_append _ _, id⟩

@[simp] theorem nodes_addAll (l : Ledger) (vs : List ValueId) : (l.addAll vs).nodes = l.nodes := by
  induction vs generalizing l with
  | nil => rfl
  | cons v vs ih => exact ih (l.add v)

@[simp] theorem blocks_addAll (l : Ledger) (vs : List ValueId) :
    (l.addAll vs).blocks = l.blocks := by
  induction vs generalizing l with
  | nil => rfl
  | cons v vs ih => exact ih (l.add v)

theorem getElem?_of_prefix {α : Type} {entries more : List α} {i : Nat} {a : α}
    (hpre : entries <+: more) (h : entries[i]? = some a) : more[i]? = some a := by
  obtain ⟨rest, rfl⟩ := hpre
  rw [List.getElem?_append_left (List.getElem?_eq_some_iff.mp h).1]
  exact h

theorem sound_start (body : BlockId) : (start body).Sound := fun _ _ h => nomatch h

theorem stands_next (l : Ledger) (vs : List ValueId) :
    Forall₂ (l.addAll vs).Stands (l.next vs.length) vs := by
  induction vs generalizing l with
  | nil => exact .nil
  | cons v vs ih =>
    rw [length_cons, l.next_succ v, addAll_cons]
    exact .cons ((l.stands_last v).mono (extends_addAll _ vs).values) (ih (l.add v))

theorem forall₂_stands {ws vs : List ValueId} (h : Forall₂ l.Stands ws vs)
    (hextends : Extends l l') : Forall₂ l'.Stands ws vs :=
  h.imp fun _ _ hstd => hstd.mono hextends.values

end Ledger

open Ledger

section

variable {copy : Graph} {vs ws : List ValueId} {l l' : Ledger}

section

variable (h : Reads copy vs ws l l')
include h

theorem Reads.extends : Extends l l' := by
  induction h with
  | nil l => exact .refl l
  | known _ _ ih => exact ih
  | @captured v _ _ l _ _ _ _ ih =>
    have hcap : Extends l (l.capture v) :=
      ⟨l.prefix_add v, prefix_refl _, prefix_refl _, fun h => h.add v⟩
    exact hcap.trans ih

theorem Reads.nodes : l'.nodes = l.nodes := by
  induction h with
  | nil l => rfl
  | known _ _ ih => exact ih
  | captured _ _ _ ih => exact ih

theorem Reads.stands (hsound : l.Sound) : Forall₂ l'.Stands ws vs := by
  induction h with
  | nil l => exact .nil
  | known hknown hr ih => exact .cons ((hsound _ _ hknown).mono hr.extends.values) (ih hsound)
  | @captured v _ _ l _ _ _ hr ih =>
    exact .cons (Stands.mono (l.stands_last v) hr.extends.values) (ih (hsound.add v))

end

end

/-- The node `made` of the copy, at `m`, is `node` of the source, renamed. -/
structure NodeCopy (copy : Graph) (l : Ledger) (m : NodeId) (made node : Node) : Prop where
  op : made.op = node.op
  attrs : made.attrs = node.attrs
  subgraph : made.subgraph = node.subgraph
  span : made.span = node.span
  inputs : Forall₂ l.Stands made.inputs node.inputs
  outputs : Forall₂ l.Stands made.outputs node.outputs
  blocks : Forall₂ l.StandsBlock made.blocks node.blocks
  origin : ∀ w ∈ made.outputs, copy.OutputOf w m

/-- The block `made` of the copy, at `b`, is `block` of the source, renamed. -/
structure BlockCopy (copy : Graph) (l : Ledger) (b : BlockId) (made block : Block) : Prop where
  params : Forall₂ l.Stands made.params block.params
  results : Forall₂ l.Stands made.results block.results
  nodes : Forall₂ l.StandsNode made.nodes block.nodes
  origin : ∀ w ∈ made.params, copy.ParamOf w b

/-- The value is an input, comes from a block, or from the copy of a node that the value it stands
for comes from. -/
def BornFrom (source copy : Graph) (l : Ledger) (w : ValueId) : Prop :=
  copy.IsInput w ∨ (∃ b, copy.ParamOf w b) ∨ ∃ m n node v, copy.OutputOf w m ∧ l.StandsNode m n ∧
    source.node? n = some node ∧ l.Stands w v ∧ v ∈ node.outputs

/-- What was entered between two ledgers comes from the source, as the final ledger has it. -/
structure Explained (source copy : Graph) (final l l' : Ledger) : Prop where
  value : ∀ w : ValueId, l.values.length ≤ w.index → w.index < l'.values.length →
    BornFrom source copy final w
  node : ∀ m : NodeId, l.nodes.length ≤ m.index → m.index < l'.nodes.length →
    ∃ n node made, final.StandsNode m n ∧ source.node? n = some node ∧
      copy.node? m = some made ∧ NodeCopy copy final m made node
  block : ∀ b : BlockId, l.blocks.length ≤ b.index → b.index < l'.blocks.length →
    ∃ old block made, final.StandsBlock b old ∧ source.block? old = some block ∧
      copy.block? b = some made ∧ BlockCopy copy final b made block

section

variable {source copy : Graph} {pairing : Pairing} {l l' final l'' : Ledger}

theorem Explained.refl (l : Ledger) : Explained source copy final l l :=
  ⟨fun _ hnew hlt => absurd hnew hlt.not_ge, fun _ hnew hlt => absurd hnew hlt.not_ge,
    fun _ hnew hlt => absurd hnew hlt.not_ge⟩

theorem Explained.trans (h : Explained source copy final l l')
    (h' : Explained source copy final l' l'') : Explained source copy final l l'' where
  value w hnew hlt := (lt_or_ge w.index _).elim (h.value w hnew) fun hge => h'.value w hge hlt
  node m hnew hlt := (lt_or_ge m.index _).elim (h.node m hnew) fun hge => h'.node m hge hlt
  block b hnew hlt := (lt_or_ge b.index _).elim (h.block b hnew) fun hge => h'.block b hge hlt

theorem explained_addAll {vs : List ValueId}
    (h : ∀ w ∈ l.next vs.length, BornFrom source copy final w) :
    Explained source copy final l (l.addAll vs) where
  value w hnew hlt := h w (mem_next.mpr ⟨hnew, by simpa using hlt⟩)
  node m hnew hlt := absurd hnew (by simpa using hlt)
  block b hnew hlt := absurd hnew (by simpa using hlt)

theorem explained_addNode {n : NodeId} {node made : Node}
    (hstd : final.StandsNode ⟨l.nodes.length⟩ n) (hn : source.node? n = some node)
    (hmade : copy.node? ⟨l.nodes.length⟩ = some made)
    (hcopy : NodeCopy copy final ⟨l.nodes.length⟩ made node) :
    Explained source copy final l (l.addNode n) where
  value _ hnew hlt := absurd hnew hlt.not_ge
  node m hnew hlt := by
    obtain rfl : m = ⟨l.nodes.length⟩ := congrArg NodeId.mk
      (le_antisymm (Nat.le_of_lt_succ (by simpa [addNode] using hlt)) hnew)
    exact ⟨n, node, made, hstd, hn, hmade, hcopy⟩
  block _ hnew hlt := absurd hnew hlt.not_ge

theorem explained_addBlock {b : BlockId} {block made : Block}
    (hstd : final.StandsBlock ⟨l.blocks.length⟩ b) (hb : source.block? b = some block)
    (hmade : copy.block? ⟨l.blocks.length⟩ = some made)
    (hcopy : BlockCopy copy final ⟨l.blocks.length⟩ made block) :
    Explained source copy final l (l.addBlock b) where
  value _ hnew hlt := absurd hnew hlt.not_ge
  node _ hnew hlt := absurd hnew hlt.not_ge
  block c hnew hlt := by
    obtain rfl : c = ⟨l.blocks.length⟩ := congrArg BlockId.mk
      (le_antisymm (Nat.le_of_lt_succ (by simpa [addBlock] using hlt)) hnew)
    exact ⟨b, block, made, hstd, hb, hmade, hcopy⟩

theorem Reads.explained {vs ws : List ValueId} (h : Reads copy vs ws l l') :
    Explained source copy final l l' := by
  induction h with
  | nil l => exact .refl l
  | known _ _ ih => exact ih
  | @captured v _ _ l _ _ hinput _ ih =>
    obtain ⟨hvalue, hnode, hblock⟩ : Explained source copy final l (l.addAll [v]) := by
      refine explained_addAll fun w hw => .inl ?_
      obtain rfl : w = ⟨l.values.length⟩ := by simpa [Ledger.next] using hw
      exact hinput
    have hcap : Explained source copy final l (l.capture v) := ⟨hvalue, hnode, hblock⟩
    exact hcap.trans ih

theorem Mirrors.extends (h : Mirrors source copy pairing l l') : Extends l l' := by
  induction h with
  | noNode l | noBlock l => exact .refl l
  | node _ hins _ _ _ _ ihblocks ihrest =>
    exact hins.extends.trans ((extends_addNode ..).trans
      ((extends_addAll ..).trans (ihblocks.trans ihrest)))
  | block _ _ _ _ _ _ hres _ ihnodes ihrest =>
    exact (extends_addBlock ..).trans ((extends_addAll ..).trans
      (ihnodes.trans (hres.extends.trans ihrest)))

/-- The copies stand for what they were made from. -/
def Pairing.Stand (l : Ledger) : Pairing → Prop
  | .nodes ns ms => Forall₂ l.StandsNode ms ns
  | .blocks bs copies => Forall₂ l.StandsBlock copies bs

theorem Mirrors.explained (h : Mirrors source copy pairing l l') (hsound : l.Sound)
    (hfinal : Extends l' final) : pairing.Stand final ∧ Explained source copy final l l' := by
  induction h with
  | noNode l | noBlock l => exact ⟨.nil, .refl l⟩
  | @node n node _ _ _ _ _ l l₁ l₂ l₃ hn hins hcopy horig hbs hr ihblocks ihrest =>
    have hadded : ((l₁.addNode n).addAll node.outputs).Sound :=
      (extends_addAll ..).sound (hins.extends.sound hsound)
    have hlater := hbs.extends.trans (hr.extends.trans hfinal)
    obtain ⟨hblocks, hnested⟩ := ihblocks hadded (hr.extends.trans hfinal)
    obtain ⟨hnodes, hrest⟩ := ihrest (hbs.extends.sound hadded) hfinal
    have hstd : final.StandsNode ⟨l₁.nodes.length⟩ n :=
      getElem?_of_prefix ((extends_addAll ..).trans hlater).nodes (by simp [addNode])
    have hinputs := forall₂_stands (hins.stands hsound) ((extends_addNode l₁ n).trans
      ((extends_addAll ..).trans hlater))
    have houts := forall₂_stands ((l₁.addNode n).stands_next node.outputs) hlater
    refine ⟨.cons hstd hnodes, hins.explained.trans ((explained_addNode hstd hn hcopy
      ⟨rfl, rfl, rfl, rfl, hinputs, houts, hblocks, horig⟩).trans
        ((explained_addAll fun w hw => ?_).trans (hnested.trans hrest)))⟩
    obtain ⟨v, hv, hstands⟩ := exists_of_forall₂ houts hw
    exact .inr (.inr ⟨_, n, node, v, horig w hw, hstd, hn, hstands, hv⟩)
  | @block b block _ _ _ l l₁ l₂ l₃ hb hroot hcopy hps horig hns hres hr ihnodes ihrest =>
    have hopn : ((l.addBlock b).addAll block.params).Sound := (extends_addAll ..).sound hsound
    have hread := hr.extends.trans hfinal
    have hlater := hns.extends.trans (hres.extends.trans hread)
    obtain ⟨hnodes, hinside⟩ := ihnodes hopn (hres.extends.trans hread)
    obtain ⟨hblocks, hrest⟩ := ihrest ((hns.extends.trans hres.extends).sound hopn) hfinal
    have hstd : final.StandsBlock ⟨l.blocks.length⟩ b :=
      ⟨fun heq => hroot (length_eq_zero_iff.mp (congrArg BlockId.index heq)),
        getElem?_of_prefix ((extends_addAll ..).trans hlater).blocks (by simp [addBlock])⟩
    refine ⟨.cons hstd hblocks, (explained_addBlock hstd hb hcopy ⟨?_, forall₂_stands
      (hres.stands (hns.extends.sound hopn)) hread, hnodes, horig⟩).trans ((explained_addAll
        fun w hw => ?_).trans (hinside.trans (hres.explained.trans hrest)))⟩
    · rw [hps]
      exact forall₂_stands ((l.addBlock b).stands_next block.params) hlater
    · exact .inr (.inl ⟨_, horig w (hps ▸ hw)⟩)

end

/-- The graph is a copy of the body, with the captured values as further inputs. -/
structure Copied (source copy : Graph) (body : BlockId) (captured : List ValueId) (l : Ledger) :
    Prop where
  value : ∀ w made, copy.value? w = some made → ∃ v value, l.Stands w v ∧
    source.value? v = some value ∧ made.ty = value.ty
  node : ∀ m made, copy.node? m = some made → ∃ n node, l.StandsNode m n ∧
    source.node? n = some node ∧ NodeCopy copy l m made node
  block : ∀ b made, copy.block? b = some made → b ≠ Graph.root → ∃ old block,
    l.StandsBlock b old ∧ source.block? old = some block ∧ BlockCopy copy l b made block
  root : ∃ block made, source.block? body = some block ∧ copy.block? Graph.root = some made ∧
    Forall₂ l.Stands made.params (block.params ++ captured) ∧
    Forall₂ l.Stands made.results block.results ∧
    Forall₂ l.StandsNode made.nodes block.nodes ∧ ∀ w ∈ made.params, copy.ParamOf w Graph.root
  origin : ∀ w m, copy.OutputOf w m → ∃ n node v, l.StandsNode m n ∧ source.node? n = some node ∧
    l.Stands w v ∧ v ∈ node.outputs

theorem MirrorsBody.copied {source copy : Graph} {body : BlockId} {l : Ledger}
    (h : MirrorsBody source copy body l) : Copied source copy body l.captured l := by
  obtain ⟨block, rootMade, l₁, hblock, hmade, hstd, horig, hown, hmir, hreads⟩ := h.root
  have hsound : ((start body).addAll block.params).Sound :=
    (extends_addAll ..).sound (sound_start body)
  obtain ⟨hnodes, hmade'⟩ := hmir.explained hsound hreads.extends
  have hall := hmade'.trans hreads.explained
  refine ⟨fun w value hw => ?_, fun m node hm => ?_, fun b found hb hroot => ?_, ?_,
    fun w m hout => ?_⟩
  · obtain ⟨v, hv⟩ := (Graph.exists_getElem?_iff l.values w.index).mpr
      (h.length ▸ Graph.index_lt_of_value? hw)
    obtain ⟨old, again, hold, hagain, hty⟩ := h.types w v hv
    cases hw.symm.trans hagain
    exact ⟨v, old, hv, hold, hty⟩
  · obtain ⟨n, old, again, hstandsNode, hold, hagain, hcopy⟩ :=
      hall.node m (by simp [start]) (h.nodes ▸ Graph.index_lt_of_node? hm)
    cases hm.symm.trans hagain
    exact ⟨n, old, hstandsNode, hold, hcopy⟩
  · have hnew : ((start body).addAll block.params).blocks.length ≤ b.index := by
      obtain ⟨index⟩ := b
      simp only [blocks_addAll, start, length_singleton]
      exact Nat.pos_of_ne_zero fun heq => hroot (congrArg BlockId.mk heq)
    obtain ⟨old, oldBlock, again, hstandsBlock, hold, hagain, hcopy⟩ :=
      hall.block b hnew (h.blocks ▸ Graph.index_lt_of_block? hb)
    cases hb.symm.trans hagain
    exact ⟨old, oldBlock, hstandsBlock, hold, hcopy⟩
  · exact ⟨block, rootMade, hblock, hmade, hstd, hreads.stands (hmir.extends.sound hsound), hnodes,
      horig⟩
  · have hlt : w.index < l.values.length := by
      obtain ⟨made, -, hw, -⟩ := hout
      exact h.length ▸ Graph.index_lt_of_value? hw
    have hborn : BornFrom source copy l w := by
      rcases lt_or_ge w.index block.params.length with hp | hnew
      · have hmem : w ∈ (start body).next block.params.length :=
          mem_map.mpr ⟨w.index, mem_range.mpr hp, by simp [start]⟩
        exact .inl ⟨rootMade, hmade, hown w hmem⟩
      · exact hall.value w (by simpa [start] using hnew) hlt
    -- what a node gives is no parameter, neither of the root nor of another block
    rcases hborn with ⟨made, hagain, hw⟩ | ⟨b, hp⟩ | ⟨m', n, node, v, hm', hn, hnode, hv, hmem⟩
    · cases hmade.symm.trans hagain
      exact absurd (horig w hw) hout.not_paramOf
    · exact absurd hp hout.not_paramOf
    · obtain rfl := hout.unique hm'
      exact ⟨n, node, v, hn, hnode, hv, hmem⟩

end Flowgraph
