import Flowgraph.Proofs.Lifting.Frames

/-!
# What a copy stands for

A `Ledger` says for each value, node and block of a copy which one of the source it stands for, and
what the values of the source are called in the copy so far.  `Mirrors` is a copy seen from its
end: it walks the blocks of the source and those of the finished copy side by side and keeps the
ledger.
-/

namespace Flowgraph

open Flowgraph.Graph List

variable {added : Additions} {v w : ValueId} {olds ws news outer : List ValueId} {b : BlockId}
  {target final : Graph} {value : Value} {block : Block}

/-- What the values, nodes and blocks of a copy stand for, in the order in which they were made. -/
structure Ledger where
  /-- What a value of the source is called. -/
  renamed : ValueId → Option ValueId
  values : List ValueId
  nodes : List NodeId
  blocks : List BlockId
  captured : List ValueId

namespace Ledger

/-- Before anything is copied but the root, which stands for the body. -/
def start (body : BlockId) : Ledger := ⟨fun _ => none, [], [], [body], []⟩

/-- The next values of the copy. -/
def next (l : Ledger) (count : Nat) : List ValueId :=
  (range count).map fun slot => ⟨l.values.length + slot⟩

/-- The next value of the copy stands for `v`. -/
def add (l : Ledger) (v : ValueId) : Ledger :=
  { l with
    renamed := fun w => if w = v then some ⟨l.values.length⟩ else l.renamed w
    values := l.values ++ [v] }

def addAll (l : Ledger) (vs : List ValueId) : Ledger := vs.foldl add l

def addNode (l : Ledger) (n : NodeId) : Ledger := { l with nodes := l.nodes ++ [n] }

def addBlock (l : Ledger) (b : BlockId) : Ledger := { l with blocks := l.blocks ++ [b] }

/-- The next value of the copy is an input that stands for `v`. -/
def capture (l : Ledger) (v : ValueId) : Ledger := { l.add v with captured := l.captured ++ [v] }

/-- The value of the copy stands for `v`. -/
def Stands (l : Ledger) (w v : ValueId) : Prop := l.values[w.index]? = some v

theorem Stands.mono {l l' : Ledger} (h : l.Stands w v) (hpre : l.values <+: l'.values) :
    l'.Stands w v := by
  obtain ⟨more, heq⟩ := hpre
  have hlt := (List.getElem?_eq_some_iff.mp h).1
  rw [Stands, ← heq, getElem?_append_left hlt]
  exact h

theorem stands_last (l : Ledger) (v : ValueId) : (l.add v).Stands ⟨l.values.length⟩ v := by
  simp [Stands, add]

theorem prefix_add (l : Ledger) (v : ValueId) : l.values <+: (l.add v).values := ⟨[v], rfl⟩

theorem mem_next {l : Ledger} {count : Nat} :
    w ∈ l.next count ↔ l.values.length ≤ w.index ∧ w.index < l.values.length + count := by
  constructor
  · intro hw
    obtain ⟨slot, hslot, rfl⟩ := mem_map.mp hw
    exact ⟨Nat.le_add_right .., Nat.add_lt_add_left (mem_range.mp hslot) _⟩
  · rintro ⟨hle, hlt⟩
    refine mem_map.mpr ⟨w.index - l.values.length, mem_range.mpr (by omega), ?_⟩
    rw [Nat.add_sub_cancel' hle]

theorem next_succ (l : Ledger) (v : ValueId) (count : Nat) :
    l.next (count + 1) = ⟨l.values.length⟩ :: (l.add v).next count := by
  simp only [next, add, range_succ_eq_map, map_cons, map_map]
  simp [Nat.add_assoc, Nat.add_comm 1]

@[simp] theorem addAll_nil (l : Ledger) : l.addAll [] = l := rfl

@[simp] theorem addAll_cons (l : Ledger) (v : ValueId) (vs : List ValueId) :
    l.addAll (v :: vs) = (l.add v).addAll vs := rfl

theorem exists_of_forall₂ {α β : Type} {R : α → β → Prop} {as : List α} {bs : List β} {a : α}
    (h : Forall₂ R as bs) (ha : a ∈ as) : ∃ b ∈ bs, R a b :=
  exists_left_of_forall₂ h.flip ha

end Ledger

/-- Uses are translated; for a value without a name yet, the copy has an input. -/
inductive Reads (copy : Graph) : List ValueId → List ValueId → Ledger → Ledger → Prop
  | nil (l : Ledger) : Reads copy [] [] l l
  | known {v w : ValueId} {vs ws : List ValueId} {l l' : Ledger} :
      l.renamed v = some w → Reads copy vs ws l l' → Reads copy (v :: vs) (w :: ws) l l'
  | captured {v : ValueId} {vs ws : List ValueId} {l l' : Ledger} :
      l.renamed v = none → copy.IsInput ⟨l.values.length⟩ →
      Reads copy vs ws (l.capture v) l' → Reads copy (v :: vs) (⟨l.values.length⟩ :: ws) l l'

/-- Nodes or blocks of the source, with their copies. -/
inductive Pairing where
  | nodes (olds copies : List NodeId)
  | blocks (olds copies : List BlockId)

/-- The nodes and blocks of the finished copy are those of the source, renamed. -/
inductive Mirrors (source copy : Graph) : Pairing → Ledger → Ledger → Prop
  | noNode (l : Ledger) : Mirrors source copy (.nodes [] []) l l
  | node {n : NodeId} {node : Node} {inputs : List ValueId} {bs : List BlockId}
      {owner : Option BlockId} {ns ms : List NodeId} {l l₁ l₂ l₃ : Ledger}
      (hnode : source.node? n = some node) (hinputs : Reads copy node.inputs inputs l l₁)
      (hcopy : copy.node? ⟨l₁.nodes.length⟩ = some
        { node with inputs, outputs := l₁.next node.outputs.length, blocks := bs, owner })
      (houtputs : ∀ w ∈ l₁.next node.outputs.length, copy.OutputOf w ⟨l₁.nodes.length⟩)
      (hblocks : Mirrors source copy (.blocks node.blocks bs)
        ((l₁.addNode n).addAll node.outputs) l₂)
      (hrest : Mirrors source copy (.nodes ns ms) l₂ l₃) :
      Mirrors source copy (.nodes (n :: ns) (⟨l₁.nodes.length⟩ :: ms)) l l₃
  | noBlock (l : Ledger) : Mirrors source copy (.blocks [] []) l l
  | block {b : BlockId} {block made : Block} {bs copies : List BlockId} {l l₁ l₂ l₃ : Ledger}
      (hblock : source.block? b = some block) (hroot : l.blocks ≠ [])
      (hcopy : copy.block? ⟨l.blocks.length⟩ = some made)
      (hparams : made.params = l.next block.params.length)
      (horigin : ∀ w ∈ made.params, copy.ParamOf w ⟨l.blocks.length⟩)
      (hnodes : Mirrors source copy (.nodes block.nodes made.nodes)
        ((l.addBlock b).addAll block.params) l₁)
      (hresults : Reads copy block.results made.results l₁ l₂)
      (hrest : Mirrors source copy (.blocks bs copies) l₂ l₃) :
      Mirrors source copy (.blocks (b :: bs) (⟨l.blocks.length⟩ :: copies)) l l₃

/-- The root of the copy mirrors the body; its inputs are the parameters of the body and then the
captured values. -/
structure MirrorsBody (source copy : Graph) (body : BlockId) (l : Ledger) : Prop where
  length : copy.values.length = l.values.length
  types : ∀ w v, l.Stands w v → ∃ value made,
    source.value? v = some value ∧ copy.value? w = some made ∧ made.ty = value.ty
  nodes : copy.nodes.length = l.nodes.length
  blocks : copy.blocks.length = l.blocks.length
  root : ∃ block made l₁, source.block? body = some block ∧ copy.block? root = some made ∧
    Forall₂ l.Stands made.params (block.params ++ l.captured) ∧
    (∀ w ∈ made.params, copy.ParamOf w root) ∧
    (∀ w ∈ (Ledger.start body).next block.params.length, w ∈ made.params) ∧
    Mirrors source copy (.nodes block.nodes made.nodes)
      ((Ledger.start body).addAll block.params) l₁ ∧ Reads copy block.results made.results l₁ l

namespace Graph

variable (g : Graph)

theorem inputs?_withParam_root (ty : Ty) :
    (g.withParam root ty).inputs? = g.inputs?.map (· ++ [g.freshValue]) := by
  simp [inputs?, withParam, Function.comp_def]

@[simp] theorem inputs?_withResult (b : BlockId) (v : ValueId) :
    (g.withResult b v).inputs? = g.inputs? := by
  simp only [inputs?, withResult, block?_mapBlock]
  split <;> simp [Function.comp_def]

@[simp] theorem inputs?_append (b : BlockId) (n : NodeId) : (g.append b n).inputs? = g.inputs? := by
  simp only [inputs?, append, block?_mapBlock, block?_mapNode]
  split <;> simp [Function.comp_def]

theorem inputs?_withBlock {g : Graph} (n : NodeId) {inputs : List ValueId}
    (h : g.inputs? = some inputs) : (g.withBlock n).inputs? = some inputs := by
  obtain ⟨block, hb, rfl⟩ := Option.map_eq_some_iff.mp h
  simp [inputs?, withBlock, block?_pushBlock, ne_freshBlock hb, hb]

end Graph

namespace Copying

/-! ## The ledger of a copy under way -/

/-- The ledger fits the copy; the values for `pending` are made but not named yet. -/
structure Fits (source : Graph) (c : Copying) (l : Ledger) (pending : List ValueId) : Prop where
  renamed : ∀ v, c.renamed.lookup v = l.renamed v
  captured : c.captured = l.captured
  length : c.target.values.length = (l.values ++ pending).length
  types : ∀ w v : ValueId, (l.values ++ pending)[w.index]? = some v → ∃ value made,
    source.value? v = some value ∧ c.target.value? w = some made ∧ made.ty = value.ty
  nodes : c.target.nodes.length = l.nodes.length
  blocks : c.target.blocks.length = l.blocks.length

/-- The inputs of the copy stand for the parameters and then for what is captured. -/
def HasInputs (params : List ValueId) (c : Copying) (l : Ledger) : Prop :=
  ∃ inputs, c.target.inputs? = some inputs ∧
    Forall₂ l.Stands inputs (params ++ l.captured) ∧ ∀ w ∈ inputs, c.target.ParamOf w root

section Fits

variable {source : Graph} {params vs : List ValueId} {c c' : Copying} {l l' : Ledger}

theorem Fits.fresh (h : Fits source c l []) : c.target.freshValue = ⟨l.values.length⟩ := by
  simp [freshValue, h.length]

theorem Fits.freshValues (h : Fits source c l []) (count : Nat) :
    c.target.freshValues count = l.next count := by
  simp [Graph.freshValues, Ledger.next, h.length]

theorem Fits.freshNode (h : Fits source c l vs) : c.target.freshNode = ⟨l.nodes.length⟩ := by
  simp [Graph.freshNode, h.nodes]

theorem Fits.freshBlock (h : Fits source c l vs) : c.target.freshBlock = ⟨l.blocks.length⟩ := by
  simp [Graph.freshBlock, h.blocks]

theorem Fits.labelled (h : Fits source c l (v :: vs)) (value : Value) :
    Fits source (c.labelled v value ⟨l.values.length⟩) (l.add v) vs where
  __ := h
  renamed w := by
    rw [Copying.labelled, lookup_bind, h.renamed]
    rfl
  length := by simpa [Copying.labelled, bind, label, Ledger.add] using h.length
  types w u hu := by
    obtain ⟨old, made, hold, hm, hty⟩ := h.types w u (by simpa [Ledger.add] using hu)
    by_cases heq : (⟨l.values.length⟩ : ValueId) = w
    · refine ⟨old, { made with name := value.name }, hold, ?_, hty⟩
      simp [Copying.labelled, bind, label, heq, hm]
    · refine ⟨old, made, hold, ?_, hty⟩
      simp [Copying.labelled, bind, label, heq, hm]

theorem Fits.grow (h : Fits source c l []) (hadds : Adds c.target target added)
    (hlen : target.values.length = c.target.values.length + vs.length) (htys : ∀ slot v,
      vs[slot]? = some v → ∃ value made, source.value? v = some value ∧ target.value?
      ⟨c.target.values.length + slot⟩ = some made ∧ made.ty = value.ty) {nodes : List NodeId}
    {blocks : List BlockId} (hns : target.nodes.length = nodes.length)
    (hbs : target.blocks.length = blocks.length) :
    Fits source (c.withTarget target) { l with nodes, blocks } vs where
  __ := h
  length := by simp [withTarget, hlen, h.length]
  types w v hv := by
    have hold : c.target.values.length = l.values.length := by simpa using h.length
    rcases Nat.lt_or_ge w.index l.values.length with hlt | hge
    · rw [getElem?_append_left hlt] at hv
      obtain ⟨value, made, hvalue, hm, hty⟩ := h.types w v (by simpa using hv)
      obtain ⟨name, hmade'⟩ := hadds.value w made hm
      exact ⟨value, _, hvalue, hmade', hty⟩
    · rw [getElem?_append_right hge] at hv
      obtain ⟨value, made, hvalue, hm, hty⟩ := htys _ v hv
      rw [hold, Nat.add_sub_cancel' hge] at hm
      exact ⟨value, made, hvalue, hm, hty⟩
  nodes := hns
  blocks := hbs

theorem Fits.withParam (h : Fits source c l []) (hv : source.value? v = some value)
    (b : BlockId) : Fits source (c.withParam b v value) (l.add v) [] := by
  have hgrown : Fits source (c.withTarget (c.target.withParam b value.ty)) l [v] := by
    refine h.grow (Graph.adds_withParam ..) (by simp [Graph.withParam, pushValue]) ?_ ?_ ?_
    · intro slot u hu
      obtain ⟨rfl, rfl⟩ : slot = 0 ∧ v = u := by
        cases slot <;> simp_all
      exact ⟨value, _, hv,
        (value?_pushValue c.target c.target.freshValue _).trans (if_pos rfl), rfl⟩
    · simpa [Graph.withParam, pushValue] using h.nodes
    · simpa [Graph.withParam, pushValue] using h.blocks
  have hnamed := hgrown.labelled value
  rw [← h.fresh] at hnamed
  exact hnamed

theorem Fits.withCapture (h : Fits source c l []) (hv : source.value? v = some value) :
    Fits source (c.withCapture v value) (l.capture v) [] where
  renamed := (h.withParam hv root).renamed
  captured := congrArg (· ++ [v]) h.captured
  length := (h.withParam hv root).length
  types := (h.withParam hv root).types
  nodes := (h.withParam hv root).nodes
  blocks := (h.withParam hv root).blocks

theorem HasInputs.mono (h : HasInputs params c l) (hadds : Adds c.target c'.target added)
    (hins : c'.target.inputs? = c.target.inputs?) (hvs : l.values <+: l'.values)
    (hcapt : l'.captured = l.captured) : HasInputs params c' l' := by
  obtain ⟨inputs, heq, hstd, horig⟩ := h
  refine ⟨inputs, hins.trans heq, ?_, fun w hw => hadds.paramOf (horig w hw)⟩
  rw [hcapt]
  exact hstd.imp fun _ _ hstand => hstand.mono hvs

theorem paramOf_withParam (c : Copying) (b : BlockId) (v : ValueId) (value : Value) :
    (c.withParam b v value).target.ParamOf c.target.freshValue b := by
  have hm : (c.target.withParam b value.ty).ParamOf c.target.freshValue b :=
    ⟨_, _, (value?_pushValue c.target c.target.freshValue _).trans (if_pos rfl), rfl⟩
  exact (adds_label (c.target.withParam b value.ty) c.target.freshValue value.name).paramOf hm

theorem isInput_withParam (h : c.target.block? root = some block) (v : ValueId) (value : Value) :
    (c.withParam root v value).target.IsInput c.target.freshValue := by
  have hm : (c.target.withParam root value.ty).IsInput c.target.freshValue := by
    refine ⟨{ block with params := block.params ++ [c.target.freshValue] }, ?_, by simp⟩
    simp [Graph.withParam, h]
  exact (adds_label (c.target.withParam root value.ty) c.target.freshValue value.name).input _ hm

theorem inputs_withParam_root (value : Value) (hfits : Fits source c l [])
      (h : ∃ inputs, c.target.inputs? = some inputs ∧ Forall₂ l.Stands inputs outer ∧ ∀ w ∈
      inputs, c.target.ParamOf w root) :
    ∃ inputs, (c.withParam root v value).target.inputs? = some inputs ∧
      Forall₂ (l.add v).Stands inputs (outer ++ [v]) ∧
      ∀ w ∈ inputs, (c.withParam root v value).target.ParamOf w root := by
  obtain ⟨inputs, heq, hstd, horig⟩ := h
  refine ⟨inputs ++ [c.target.freshValue], ?_, ?_, ?_⟩
  · show (c.target.withParam root value.ty).inputs? = _
    rw [inputs?_withParam_root, heq]
    rfl
  · refine rel_append (hstd.imp fun _ _ hstand => hstand.mono (l.prefix_add v)) ?_
    exact .cons (hfits.fresh ▸ l.stands_last v) .nil
  · intro w hw
    rcases mem_append.mp hw with hold | hnew
    · exact (c.adds_withParam root v value).paramOf (horig w hold)
    · obtain rfl := mem_singleton.mp hnew
      exact paramOf_withParam c root v value

/-- The ledger fits a copy of a body with these parameters. -/
structure Tracks (source : Graph) (params : List ValueId) (c : Copying) (l : Ledger) : Prop where
  fits : Fits source c l []
  inputs : HasInputs params c l

section

variable (h : Tracks source params c l)
include h

theorem Tracks.withCapture (hv : source.value? v = some value) :
    Tracks source params (c.withCapture v value) (l.capture v) where
  fits := h.fits.withCapture hv
  inputs := by
    obtain ⟨inputs, heq, hstd, horig⟩ := inputs_withParam_root value h.fits h.inputs
    exact ⟨inputs, heq, append_assoc .. ▸ hstd, horig⟩

theorem Tracks.withTarget (hadds : Adds c.target target added)
    (hvs : target.values.length = c.target.values.length)
    (hns : target.nodes.length = c.target.nodes.length)
    (hbs : target.blocks.length = c.target.blocks.length)
    (hins : target.inputs? = c.target.inputs?) : Tracks source params (c.withTarget target) l where
  fits := h.fits.grow hadds (by simpa using hvs) (by simp) (hns.trans h.fits.nodes)
    (hbs.trans h.fits.blocks)
  inputs := h.inputs.mono hadds hins (prefix_refl _) rfl

theorem Tracks.withBlock (copy : NodeId) (b : BlockId) :
    Tracks source params (c.withTarget (c.target.withBlock copy)) (l.addBlock b) where
  fits := h.fits.grow (adds_withBlock ..) (by simp [Graph.withBlock, pushBlock]) (by simp)
    (by simpa [Graph.withBlock, pushBlock] using h.fits.nodes)
    (by simpa [Graph.withBlock, pushBlock] using h.fits.blocks)
  inputs := by
    obtain ⟨inputs, heq, -⟩ := h.inputs
    exact h.inputs.mono (adds_withBlock ..) ((inputs?_withBlock copy heq).trans heq.symm)
      (prefix_refl _) rfl

end

theorem Translates.reads {emit : Copying → ValueId → Copying}
    (hemit : ∀ {c l} w, Tracks source params c l → Tracks source params (emit c w) l) (hadds : ∀
      {vs ws c c'}, Translates source emit vs ws c c' → ∃ added, Adds c.target c'.target added)
    (hemits : ∀ c w, ∃ added, Adds c.target (emit c w).target added)
    (h : Translates source emit vs ws c c') (htr : Tracks source params c l)
    (hfinal : Adds c'.target final added) :
    ∃ l', Reads final vs ws l l' ∧ Tracks source params c' l' := by
  induction h generalizing l with
  | nil c => exact ⟨l, .nil l, htr⟩
  | known hlook _ ih =>
    obtain ⟨l', hreads, htracks'⟩ := ih (hemit _ htr) hfinal
    exact ⟨l', .known ((htr.fits.renamed _).symm.trans hlook) hreads, htracks'⟩
  | @new v value _ _ c _ hlook hv hr ih =>
    obtain ⟨l', hreads, htracks'⟩ := ih (hemit _ (htr.withCapture hv)) hfinal
    obtain ⟨emitted, hemitted⟩ := hemits (c.withCapture v value) c.target.freshValue
    obtain ⟨more, hmore⟩ := hadds hr
    obtain ⟨inputs, hins, -⟩ := htr.inputs
    obtain ⟨block, hb, -⟩ := Option.map_eq_some_iff.mp hins
    have horig : final.IsInput c.target.freshValue :=
      hfinal.input _ (hmore.input _ (hemitted.input _ (isInput_withParam hb v value)))
    rw [htr.fits.fresh] at horig ⊢
    exact ⟨l', .captured ((htr.fits.renamed _).symm.trans hlook) horig hreads, htracks'⟩

theorem Results.reads (h : Results source b vs ws c c')
    (htr : Tracks source params c l) (hfinal : Adds c'.target final added) :
    ∃ l', Reads final vs ws l l' ∧ Tracks source params c' l' :=
  Translates.reads (fun w h => h.withTarget (adds_withResult ..) rfl rfl
    (by simp [withResult]) (by simp)) (fun h => ⟨_, Results.adds h⟩)
    (fun c w => ⟨_, adds_withResult c.target b w⟩) h htr hfinal

theorem Params.tracks (hb : b ≠ root) (h : Params source b olds c c')
    (htr : Tracks source params c l) : Tracks source params c' (l.addAll olds) := by
  induction h generalizing l with
  | nil c => exact htr
  | @cons old value _ c _ hv _ ih =>
    exact ih ⟨htr.fits.withParam hv b, htr.inputs.mono (c.adds_withParam b old value)
      (show (c.target.withParam b value.ty).inputs? = _ by simp [inputs?, Graph.withParam, hb])
      (l.prefix_add old) rfl⟩

theorem Params.tracks_root (h : Params source root olds c c') (htr : Tracks source params c l)
    (hcapt : l.captured = []) : Tracks source (params ++ olds) c' (l.addAll olds) := by
  induction h generalizing params l with
  | nil c => simpa using htr
  | @cons old value rest c _ hv _ ih =>
    obtain ⟨inputs, heq, hstd, horig⟩ := inputs_withParam_root value htr.fits htr.inputs
    have hnext : Tracks source (params ++ [old]) (c.withParam root old value) (l.add old) :=
      ⟨htr.fits.withParam hv root, inputs, heq, by simpa [Ledger.add, hcapt] using hstd, horig⟩
    simpa using ih hnext hcapt

theorem Params.paramOf (h : Params source b olds c c') (hw : w ∈ c.target.freshValues olds.length) :
    c'.target.ParamOf w b := by
  induction h with
  | nil c => simp [freshValues] at hw
  | @cons old value _ c _ _ hr ih =>
    rw [length_cons, ← freshValues_cons (values_withParam c b old value)] at hw
    rcases mem_append.mp hw with hfirst | hlater
    · obtain rfl := mem_singleton.mp hfirst
      exact hr.adds.paramOf (paramOf_withParam c b old value)
    · exact ih hlater

theorem Params.isInput (h : Params source root olds c c')
    (hb : c.target.block? root = some block) (hw : w ∈ c.target.freshValues olds.length) :
    c'.target.IsInput w := by
  induction h generalizing block with
  | nil c => simp [freshValues] at hw
  | @cons old value _ c _ _ hr ih =>
    rw [length_cons, ← freshValues_cons (values_withParam c root old value)] at hw
    rcases mem_append.mp hw with hfirst | hlater
    · obtain rfl := mem_singleton.mp hfirst
      exact hr.adds.input _ (isInput_withParam hb old value)
    · obtain ⟨block', hb', -⟩ := (c.adds_withParam root old value).block _ _ hb
      exact ih hb' hlater

theorem Introduces.inputs (h : Introduces source olds news c c') :
    c'.target.inputs? = c.target.inputs? := by
  induction h with
  | nil c => rfl
  | cons _ _ ih => exact ih

theorem Introduces.fits (h : Introduces source olds news c c') (hfits : Fits source c l olds)
    (hnews : news = l.next olds.length) : Fits source c' (l.addAll olds) [] := by
  induction h generalizing l with
  | nil c => exact hfits
  | @cons old new value olds news c c' _ _ ih =>
    obtain ⟨rfl, rfl⟩ : new = ⟨l.values.length⟩ ∧ news = (l.add old).next olds.length := by
      simpa [l.next_succ old] using hnews
    exact ih (hfits.labelled value) rfl

end Fits

end Copying

end Flowgraph
