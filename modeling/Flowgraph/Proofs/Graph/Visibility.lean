import Flowgraph.Proofs.Graph.Update
import Mathlib.Data.List.TakeWhile

/-!
# Where a value is defined

A use stands at a point of the graph: in a block, right before a node (its inputs) or at the end
of the block (its results).  A point lies within another one when it stands in a block nested in
the node that the other point stands before.  A value is in scope at a point if, there or at a
point around it, it is a parameter of the block or an output of an earlier node.

One more way to be defined is needed to describe what lowering does.  After a branch of which one
side always raises, control has come through the other side, so what that side defines exists,
although no block around the point defines it: `Graph.DefinedHere.survivor`.
-/

namespace Flowgraph.Graph

open List

variable {b side other : BlockId} {block : Block} {α : Type} {entries : List α} {n : NodeId}
  {g g' : Graph} {a : α}

/-! ## Points -/

/-- The nodes that stand before a point in its block. -/
def before (g : Graph) (point : InsertPoint) : List NodeId :=
  match g.block? point.block, point.before with
  | none, _ => []
  | some block, none => block.nodes
  | some block, some n => block.nodes.takeWhile (· ≠ n)

/-- The outer point stands before the node that the block is nested in. -/
def Encloses (g : Graph) (outer : InsertPoint) (b : BlockId) : Prop :=
  ∃ n node block, outer.before = some n ∧ g.block? outer.block = some block ∧
    n ∈ block.nodes ∧ g.node? n = some node ∧ b ∈ node.blocks

/-- The first point is the second one, or stands in a block nested there. -/
inductive Within (g : Graph) : InsertPoint → InsertPoint → Prop
  | here (point : InsertPoint) : Within g point point
  | outward {inner middle outer : InsertPoint} :
      g.Encloses middle inner.block → Within g middle outer → Within g inner outer

/-- Control never passes the end of the block: it holds a `raise`, or a branch whose two sides
both raise. -/
inductive Raises (g : Graph) : BlockId → Prop
  | raise {b : BlockId} {block : Block} {n : NodeId} {node : Node} :
      g.block? b = some block → n ∈ block.nodes → g.node? n = some node →
      node.op = .raise → Raises g b
  | branch {b onTrue onFalse : BlockId} {block : Block} {n : NodeId} {node : Node}
      {others : List BlockId} : g.block? b = some block → n ∈ block.nodes → g.node? n = some node →
      node.op = .branch → node.blocks = onTrue :: onFalse :: others →
      Raises g onTrue → Raises g onFalse → Raises g b

/-- The two sides of a branch node, in either order. -/
def Sides (node : Node) (side other : BlockId) : Prop :=
  node.op = .branch ∧ ∃ others,
    node.blocks = side :: other :: others ∨ node.blocks = other :: side :: others

/-- The value is defined in the block of the point, before the point. -/
inductive DefinedHere (g : Graph) : InsertPoint → ValueId → Prop
  | param {point : InsertPoint} {block : Block} {v : ValueId} :
      g.block? point.block = some block → v ∈ block.params → DefinedHere g point v
  | output {point : InsertPoint} {n : NodeId} {node : Node} {v : ValueId} :
      n ∈ g.before point → g.node? n = some node → v ∈ node.outputs → DefinedHere g point v
  | survivor {point : InsertPoint} {n : NodeId} {node : Node} {live raising : BlockId}
      {v : ValueId} : n ∈ g.before point → g.node? n = some node → Sides node live raising →
      g.Raises raising → DefinedHere g ⟨live, none⟩ v → DefinedHere g point v

/-- The value is defined at the point or at a point around it. -/
def Defined (g : Graph) (point : InsertPoint) (v : ValueId) : Prop :=
  ∃ outer, g.Within point outer ∧ g.DefinedHere outer v

/-- The point stands in the block or in one nested there. -/
def Around (g : Graph) (point : InsertPoint) (b : BlockId) : Prop :=
  ∃ outer, g.Within point outer ∧ outer.block = b

section

variable {g : Graph} {p q r : InsertPoint} {v : ValueId}

theorem Within.trans (hpq : g.Within p q) (hqr : g.Within q r) : g.Within p r := by
  induction hpq with
  | here => exact hqr
  | outward henc _ ih => exact .outward henc (ih hqr)

theorem Defined.of_within (hpq : g.Within p q) (h : g.Defined q v) : g.Defined p v := by
  obtain ⟨outer, hwi, hhere⟩ := h
  exact ⟨outer, hpq.trans hwi, hhere⟩

theorem DefinedHere.defined (h : g.DefinedHere p v) : g.Defined p v := ⟨p, .here p, h⟩

theorem mem_nodes_of_mem_before (h : n ∈ g.before p) :
    ∃ block, g.block? p.block = some block ∧ n ∈ block.nodes := by
  unfold before at h
  split at h
  · cases h
  next block hb _ => exact ⟨block, hb, h⟩
  next block _ hb _ => exact ⟨block, hb, (takeWhile_sublist _).subset h⟩

end

/-! ## Growth keeps definitions -/

theorem takeWhile_ne_filter [DecidableEq α] (kept : α → Bool) (ha : kept a = true)
    (entries : List α) :
    (entries.filter kept).takeWhile (· ≠ a) = (entries.takeWhile (· ≠ a)).filter kept := by
  induction entries with
  | nil => rfl
  | cons entry rest ih =>
    by_cases hkept : kept entry = true
    · by_cases heq : entry = a
      · simp [heq, ha]
      · simp only [filter_cons, hkept, if_true, takeWhile_cons, heq, ne_eq,
          not_false_eq_true, decide_true, ih]
    · have hne : entry ≠ a := fun heq => hkept (heq ▸ ha)
      simp only [filter_cons, hkept, takeWhile_cons, hne, ne_eq, not_false_eq_true,
        decide_true, if_true, Bool.false_eq_true, if_false, ih]

/-- The node that the point stands before is there. -/
def HasAnchor (g : Graph) (point : InsertPoint) : Prop :=
  ∀ n, point.before = some n → ∃ node, g.node? n = some node

section

variable {g g' : Graph} {p q : InsertPoint} {v : ValueId}

section

variable (h : Grows g g')
include h

theorem Grows.mem_before (hp : g.HasAnchor p) (hn : n ∈ g.before p) : n ∈ g'.before p := by
  unfold before at hn
  split at hn
  · cases hn
  next block hb hbef =>
    obtain ⟨block', hb', hgrows⟩ := h.block _ block hb
    simpa [before, hb', hbef] using hgrows.mem hn
  next block m hb hbef =>
    obtain ⟨block', hb', hgrows⟩ := h.block _ block hb
    obtain ⟨node, hnode⟩ := hp m hbef
    have hlt := index_lt_of_node? hnode
    rw [← hgrows.nodes, takeWhile_ne_filter _ (by simp [hlt])] at hn
    simpa [before, hb', hbef] using (mem_filter.mp hn).1

theorem Encloses.mono (he : g.Encloses p b) : g'.Encloses p b := by
  obtain ⟨n, node, block, hbef, hblock, hn, hnode, hb⟩ := he
  obtain ⟨block', hb', hblockGrows⟩ := h.block _ block hblock
  obtain ⟨node', hn', hnodeGrows⟩ := h.node n node hnode
  exact ⟨n, node', block', hbef, hb', hblockGrows.mem hn, hn', hnodeGrows.blocks.mem hb⟩

omit h in
theorem Encloses.hasAnchor (he : g.Encloses p b) : g.HasAnchor p := by
  obtain ⟨n, node, block, hbef, -, -, hn, -⟩ := he
  intro m hm
  cases hbef.symm.trans hm
  exact ⟨node, hn⟩

theorem Within.mono (hw : g.Within p q) : g'.Within p q := by
  induction hw with
  | here p => exact .here p
  | outward henc _ ih => exact .outward (henc.mono h) ih

omit h in
theorem Within.hasAnchor (hw : g.Within p q) (hp : g.HasAnchor p) : g.HasAnchor q := by
  induction hw with
  | here => exact hp
  | outward henc _ ih => exact ih henc.hasAnchor

theorem Encloses.of_grows (he : g'.Encloses p b) (hb : b.index < g.blocks.length) :
    g.Encloses p b ∧ p.block.index < g.blocks.length := by
  obtain ⟨n, node', block', hbef, hblock', hn', hnode', hb'⟩ := he
  have hold : n.index < g.nodes.length := Nat.lt_of_not_le fun hnew =>
    absurd ((h.newNode n node' hnew hnode').2 b hb') hb.not_ge
  have hp : p.block.index < g.blocks.length := Nat.lt_of_not_le fun hnew =>
    absurd ((h.newBlock _ block' hnew hblock').2 n hn') hold.not_ge
  obtain ⟨node, hn⟩ := (exists_node?_iff g n).mpr hold
  obtain ⟨block, hblock⟩ := (exists_block?_iff g p.block).mpr hp
  obtain ⟨_, heq, hnodeGrows⟩ := h.node n node hn
  cases hnode'.symm.trans heq
  obtain ⟨_, heq, hblockGrows⟩ := h.block _ block hblock
  cases hblock'.symm.trans heq
  refine ⟨⟨n, node, block, hbef, hblock, ?_, hn, ?_⟩, hp⟩
  · exact (hblockGrows.mem_or hn').resolve_right hold.not_ge
  · exact (hnodeGrows.blocks.mem_or hb').resolve_right hb.not_ge

theorem Within.of_grows (hw : g'.Within p q)
    (hp : p.block.index < g.blocks.length) : g.Within p q := by
  induction hw with
  | here p => exact .here p
  | outward henc _ ih =>
    obtain ⟨henc, hmid⟩ := henc.of_grows h hp
    exact .outward henc (ih hmid)

omit h in
theorem Extended.two {first second : BlockId} {others blocks : List BlockId} {bound : Nat}
    (h : Extended BlockId.index bound (first :: second :: others) blocks) :
    ∃ others', blocks = first :: second :: others' := by
  obtain ⟨more, rfl, -⟩ := h
  exact ⟨others ++ more, rfl⟩

theorem Raises.mono (hr : g.Raises b) : g'.Raises b := by
  induction hr with
  | raise hb hn hnode hop =>
    obtain ⟨block', hb', hblockGrows⟩ := h.block _ _ hb
    obtain ⟨node', hn', hnodeGrows⟩ := h.node _ _ hnode
    exact .raise hb' (hblockGrows.mem hn) hn' (hnodeGrows.op.trans hop)
  | branch hb hn hnode hop hbs _ _ ihTrue ihFalse =>
    obtain ⟨block', hb', hblockGrows⟩ := h.block _ _ hb
    obtain ⟨node', hn', hnodeGrows⟩ := h.node _ _ hnode
    obtain ⟨others', hbs'⟩ := (hbs ▸ hnodeGrows.blocks).two
    exact .branch hb' (hblockGrows.mem hn) hn' (hnodeGrows.op.trans hop) hbs' ihTrue ihFalse

omit h in
theorem Sides.mono {node node' : Node} (h : NodeGrows g node node')
    (hs : Sides node side other) : Sides node' side other := by
  obtain ⟨hop, others, hbs | hbs⟩ := hs
  · obtain ⟨others', hbs'⟩ := (hbs ▸ h.blocks).two
    exact ⟨h.op.trans hop, others', .inl hbs'⟩
  · obtain ⟨others', hbs'⟩ := (hbs ▸ h.blocks).two
    exact ⟨h.op.trans hop, others', .inr hbs'⟩

theorem DefinedHere.mono (hp : g.HasAnchor p) (hd : g.DefinedHere p v) : g'.DefinedHere p v := by
  induction hd with
  | param hb hv =>
    obtain ⟨block', hb', hgrows⟩ := h.block _ _ hb
    exact .param hb' (hgrows.params.mem hv)
  | output hn hnode hv =>
    obtain ⟨node', hn', hgrows⟩ := h.node _ _ hnode
    exact .output (h.mem_before hp hn) hn' (hgrows.outputs.mem hv)
  | survivor hn hnode hsides hrs _ ih =>
    obtain ⟨node', hn', hgrows⟩ := h.node _ _ hnode
    exact .survivor (h.mem_before hp hn) hn' (hsides.mono hgrows) (hrs.mono h)
      (ih (fun _ hnone => by cases hnone))

theorem Defined.mono (hp : g.HasAnchor p) (hd : g.Defined p v) : g'.Defined p v := by
  obtain ⟨outer, hwi, hhere⟩ := hd
  exact ⟨outer, hwi.mono h, hhere.mono h (hwi.hasAnchor hp)⟩

end

end

/-! ## Definitions that reach a point -/

theorem takeWhile_ne_subset [DecidableEq α] {c : α} (h : c ∈ entries.takeWhile (· ≠ a)) {x : α}
    (hx : x ∈ entries.takeWhile (· ≠ c)) : x ∈ entries.takeWhile (· ≠ a) := by
  induction entries with
  | nil => cases hx
  | cons entry rest ih =>
    by_cases ha : entry = a
    · simp [ha] at h
    · by_cases hc : entry = c
      · simp [hc] at hx
      · simp only [takeWhile_cons, ne_eq, ha, hc, not_false_eq_true, decide_true, if_true,
          mem_cons] at h hx ⊢
        rcases hx with rfl | hx
        · exact .inl rfl
        · exact .inr (ih (h.resolve_left (Ne.symm hc)) hx)

section

variable {g : Graph} {p q : InsertPoint} {v w : ValueId} {n : NodeId} {node : Node}

theorem before_subset (hn : n ∈ g.before p) {m}
    (hm : m ∈ g.before ⟨p.block, some n⟩) : m ∈ g.before p := by
  unfold before at hn hm ⊢
  cases hb : g.block? p.block with
  | none => simp [hb] at hn
  | some block =>
    simp only [hb] at hn hm ⊢
    cases hbef : p.before with
    | none => exact (takeWhile_sublist _).subset hm
    | some a =>
      simp only [hbef] at hn ⊢
      exact takeWhile_ne_subset hn hm

theorem Defined.after (hn : n ∈ g.before p) (h : g.Defined ⟨p.block, some n⟩ w) :
    g.Defined p w := by
  obtain ⟨outer, hwi, hhere⟩ := h
  cases hwi with
  | here =>
    refine ⟨p, .here p, ?_⟩
    cases hhere with
    | param hb hw => exact .param hb hw
    | output hm hnode hw => exact .output (before_subset hn hm) hnode hw
    | survivor hm hnode hsides hrs hw => exact .survivor (before_subset hn hm) hnode hsides hrs hw
  | outward henc hwi => exact ⟨outer, .outward henc hwi, hhere⟩

theorem Coherent.encloses_unique (hc : g.Coherent) (hp : g.Encloses p b)
    (hq : g.Encloses q b) : p = q := by
  obtain ⟨n, nodeₙ, blockₙ, hbeforeₙ, hblockₙ, hn, hnodeₙ, hbₙ⟩ := hp
  obtain ⟨m, nodeₘ, blockₘ, hbeforeₘ, hblockₘ, hm, hnodeₘ, hbₘ⟩ := hq
  obtain rfl := blockOwner_unique (hc.nested n nodeₙ b hnodeₙ hbₙ) (hc.nested m nodeₘ b hnodeₘ hbₘ)
  have hs := owner_unique (hc.placed _ _ n hblockₙ hn) (hc.placed _ _ n hblockₘ hm)
  obtain ⟨pb, pn⟩ := p
  obtain ⟨qb, qn⟩ := q
  simp only at hs hbeforeₙ hbeforeₘ
  rw [hs, hbeforeₙ, hbeforeₘ]

theorem Sides.mem (h : Sides node side other) : side ∈ node.blocks := by
  obtain ⟨-, others, heq | heq⟩ := h <;> simp [heq]

theorem encloses_of_mem_before (hn : n ∈ g.before p) (hnode : g.node? n = some node)
    (hb : b ∈ node.blocks) : g.Encloses ⟨p.block, some n⟩ b := by
  obtain ⟨block, hblock, hin⟩ := mem_nodes_of_mem_before hn
  exact ⟨n, node, block, rfl, hblock, hin, hnode, hb⟩

section

variable (hc : g.Coherent)
include hc

/-- What is defined at the end of the surviving side of an earlier branch is defined at the
point. -/
theorem Defined.survive (hn : n ∈ g.before p)
    (hnode : g.node? n = some node) {live raising : BlockId}
    (hsides : Sides node live raising) (hrs : g.Raises raising)
    (h : g.Defined ⟨live, none⟩ w) : g.Defined p w := by
  obtain ⟨outer, hwi, hhere⟩ := h
  cases hwi with
  | here => exact ⟨p, .here p, .survivor hn hnode hsides hrs hhere⟩
  | outward henc hwi =>
    obtain rfl := hc.encloses_unique henc (encloses_of_mem_before hn hnode hsides.mem)
    exact .after hn ⟨outer, hwi, hhere⟩

theorem DefinedHere.through (hn : g.node? n = some node)
    (hv : v ∈ node.outputs) (hd : g.DefinedHere p v)
    (hw : ∀ b block, g.block? b = some block → n ∈ block.nodes →
      g.Defined ⟨b, some n⟩ w) : g.Defined p w := by
  have houtput : g.OutputOf v n := hc.output n node v hn hv
  induction hd with
  | param hb hparam => exact absurd (hc.param _ _ _ hb hparam) houtput.not_paramOf
  | @output p m made _ hm hmade hout =>
    obtain rfl := houtput.unique (hc.output _ _ _ hmade hout)
    obtain ⟨block, hb, hin⟩ := mem_nodes_of_mem_before hm
    exact .after hm (hw _ block hb hin)
  | survivor hm hmade hsides hrs _ ih => exact .survive hc hm hmade hsides hrs (ih hv houtput)

/-- What is defined where the producer of a value stands is defined wherever the value is. -/
theorem Defined.through (hn : g.node? n = some node) (hv : v ∈ node.outputs) (hd : g.Defined p v)
    (hw : ∀ b block, g.block? b = some block → n ∈ block.nodes →
      g.Defined ⟨b, some n⟩ w) : g.Defined p w := by
  obtain ⟨outer, hwi, hhere⟩ := hd
  exact .of_within hwi (hhere.through hc hn hv hw)

theorem DefinedHere.mem_outputs (hd : g.DefinedHere p v) {value : Value}
    {slot : Nat} (hv : g.value? v = some value) (horig : value.origin = .output n slot) :
    ∃ node, g.node? n = some node ∧ v ∈ node.outputs := by
  have houtput : g.OutputOf v n := ⟨value, slot, hv, horig⟩
  induction hd with
  | param hb hparam => exact absurd (hc.param _ _ _ hb hparam) houtput.not_paramOf
  | @output p m made _ hm hmade hout =>
    obtain rfl := houtput.unique (hc.output _ _ _ hmade hout)
    exact ⟨made, hmade, hout⟩
  | survivor _ _ _ _ _ ih => exact ih hv houtput

theorem DefinedHere.index_lt (h : g.DefinedHere p v) : v.index < g.values.length := by
  induction h with
  | param hb hv =>
    obtain ⟨value, -, hvalue, -⟩ := hc.param _ _ _ hb hv
    exact index_lt_of_value? hvalue
  | output _ hn hv => exact hc.output_lt hn hv
  | survivor _ _ _ _ _ ih => exact ih

theorem Defined.index_lt (h : g.Defined p v) : v.index < g.values.length := by
  obtain ⟨outer, -, hhere⟩ := h
  exact hhere.index_lt hc

end

end

/-! ## New blocks define new values -/

theorem DefinedHere.is_new {p : InsertPoint} {v : ValueId} (h : Grows g g')
    (hd : g'.DefinedHere p v)
    (hempty : ∀ block, g.block? p.block = some block → block.params = [] ∧ block.nodes = []) :
    g.values.length ≤ v.index := by
  induction hd with
  | @param p block' v hb' hv =>
    by_cases hin : p.block.index < g.blocks.length
    · obtain ⟨block, hb⟩ := (exists_block?_iff g p.block).mpr hin
      obtain ⟨_, heq, hgrows⟩ := h.block _ block hb
      cases heq.symm.trans hb'
      exact (hgrows.params.mem_or hv).resolve_left (by simp [(hempty block hb).1])
    · exact (h.newBlock _ block' (le_of_not_gt hin) hb').1 v hv
  | output hn hnode hv => exact (h.newNode _ _ (new_of_mem_before h hempty hn) hnode).1 _ hv
  | survivor hn hnode hsides _ _ ih =>
    refine ih fun block hb => ?_
    have hnew := (h.newNode _ _ (new_of_mem_before h hempty hn) hnode).2 _ hsides.mem
    exact absurd (index_lt_of_block? hb) hnew.not_gt
where
  new_of_mem_before {g g' : Graph} {p : InsertPoint} {n : NodeId} (h : Grows g g')
      (hempty : ∀ block, g.block? p.block = some block → block.params = [] ∧ block.nodes = [])
      (hn : n ∈ g'.before p) : g.nodes.length ≤ n.index := by
    obtain ⟨block', hb', hn⟩ := mem_nodes_of_mem_before hn
    by_cases hin : p.block.index < g.blocks.length
    · obtain ⟨block, hb⟩ := (exists_block?_iff g p.block).mpr hin
      obtain ⟨_, heq, hgrows⟩ := h.block _ block hb
      cases heq.symm.trans hb'
      exact (hgrows.mem_or hn).resolve_left (by simp [(hempty block hb).2])
    · exact (h.newBlock _ block' (le_of_not_gt hin) hb').2 n hn

/-! ## Placing a node at a point -/

/-- The point is in a block that exists, before one of its nodes or at its end. -/
def Anchored (g : Graph) (point : InsertPoint) : Prop :=
  ∃ block, g.block? point.block = some block ∧ ∀ n, point.before = some n → n ∈ block.nodes

section

variable {g g' : Graph} {p p' q : InsertPoint} {v : ValueId}

theorem Anchored.hasAnchor (hc : g.Coherent) (hp : g.Anchored p) : g.HasAnchor p := by
  obtain ⟨block, hb, hanchor⟩ := hp
  intro n hn
  obtain ⟨node, hnode, -⟩ := hc.placed _ block n hb (hanchor n hn)
  exact ⟨node, hnode⟩

theorem Encloses.anchored (h : g.Encloses p b) : g.Anchored p := by
  obtain ⟨n, -, block, hbef, hb, hn, -, -⟩ := h
  refine ⟨block, hb, fun m hm => ?_⟩
  cases hbef.symm.trans hm
  exact hn

theorem Anchored.mono (h : Grows g g') (hp : g.Anchored p) : g'.Anchored p := by
  obtain ⟨block, hb, hanchor⟩ := hp
  obtain ⟨block', hb', hgrows⟩ := h.block _ block hb
  exact ⟨block', hb', fun n hn => hgrows.mem (hanchor n hn)⟩

/-- Definitions move to a point of the same block that has no fewer nodes before it. -/
theorem Defined.move (h : Grows g g') (hblock : p'.block = p.block)
    (hbef : ∀ n ∈ g.before p, n ∈ g'.before p') (hd : g.Defined p v) : g'.Defined p' v := by
  obtain ⟨outer, hwi, hhere⟩ := hd
  cases hwi with
  | here =>
    refine ⟨p', .here p', ?_⟩
    cases hhere with
    | param hb hv =>
      obtain ⟨block', hb', hgrows⟩ := h.block _ _ hb
      exact .param (hblock ▸ hb') (hgrows.params.mem hv)
    | output hn hnode hv =>
      obtain ⟨node', hn', hgrows⟩ := h.node _ _ hnode
      exact .output (hbef _ hn) hn' (hgrows.outputs.mem hv)
    | survivor hn hnode hsides hrs hlive =>
      obtain ⟨node', hn', hgrows⟩ := h.node _ _ hnode
      exact .survivor (hbef _ hn) hn' (hsides.mono hgrows) (hrs.mono h)
        (hlive.mono h fun _ hnone => by cases hnone)
  | outward henc hwi =>
    refine ⟨outer, .outward (hblock ▸ henc.mono h) (hwi.mono h), ?_⟩
    exact hhere.mono h (hwi.hasAnchor henc.hasAnchor)

theorem Within.move (h : Grows g g') (hb : p'.block = p.block)
    (hw : g.Within p q) : q = p ∨ g'.Within p' q := by
  cases hw with
  | here => exact .inl rfl
  | outward henc hwi => exact .inr (.outward (hb ▸ henc.mono h) (hwi.mono h))

variable {node : Node} {types : List Ty}

theorem Grows.place (hc : g.Coherent) (hbs : node.blocks = []) (p : InsertPoint)
    (types : List Ty) : Grows g (g.place p node types) :=
  (Grows.refl g).attach (arranges_placeIn _ _) hbs (hc.freshNode_not_mem p.block) types

theorem Coherent.place (hc : g.Coherent) (hbs : node.blocks = []) (p : InsertPoint)
    (types : List Ty) : (g.place p node types).Coherent :=
  hc.attach (arranges_placeIn _ _) hbs types

theorem node?_place_fresh (p : InsertPoint) : (g.place p node types).node? g.freshNode =
      some { node with outputs := g.freshValues types.length, owner := some p.block } := by
  rw [Graph.place, node?_attach, if_pos rfl]

theorem node?_place_of_ne (p : InsertPoint) (hn : n ≠ g.freshNode) :
    (g.place p node types).node? n = g.node? n := by
  rw [Graph.place, node?_attach, if_neg hn]

theorem block?_place_self (hb : g.block? p.block = some block) :
    (g.place p node types).block? p.block =
      some { block with nodes := placeIn p.before g.freshNode block.nodes } := by
  rw [Graph.place, block?_attach, if_pos rfl, hb, Option.map_some]

theorem dropWhile_ne_eq_cons [DecidableEq α] (h : a ∈ entries) :
    ∃ rest, entries.dropWhile (· ≠ a) = a :: rest := by
  induction entries with
  | nil => cases h
  | cons entry rest ih =>
    by_cases heq : entry = a
    · exact ⟨rest, by simp [heq]⟩
    · obtain ⟨tail, htail⟩ := ih ((mem_cons.mp h).resolve_left (Ne.symm heq))
      exact ⟨tail, by simpa [heq] using htail⟩

section

variable (hc : g.Coherent) (hp : g.Anchored p)
include hc hp

theorem before_place_fresh :
    (g.place p node types).before ⟨p.block, some g.freshNode⟩ = g.before p := by
  obtain ⟨block, hb, -⟩ := hp
  have hfresh := hc.freshNode_not_mem _ block hb
  simp only [before, block?_place_self hb, hb]
  cases p.before with
  | none =>
    rw [placeIn, takeWhile_append_of_pos]
    · simp
    · intro n hn
      simpa using fun heq : n = g.freshNode => hfresh (heq ▸ hn)
  | some m =>
    rw [placeIn, takeWhile_append_of_pos]
    · simp
    · intro n hn
      have hin := (takeWhile_sublist _).subset hn
      simpa using fun heq : n = g.freshNode => hfresh (heq ▸ hin)

theorem before_place : (g.place p node types).before p = g.before p ++ [g.freshNode] := by
  obtain ⟨block, hb, hanchor⟩ := hp
  simp only [before, block?_place_self hb, hb]
  cases hbef : p.before with
  | none => rfl
  | some m =>
    have hm := hanchor m hbef
    have hne : g.freshNode ≠ m := fun heq => hc.freshNode_not_mem _ block hb (heq ▸ hm)
    obtain ⟨rest, hr⟩ := dropWhile_ne_eq_cons hm
    simp only [placeIn, hr]
    rw [takeWhile_append_of_pos]
    · simp [hne]
    · intro n hn
      exact mem_takeWhile_imp (p := fun x => decide (x ≠ m)) hn

theorem Defined.place_fresh (hbs : node.blocks = []) (h : g.Defined p v) :
    (g.place p node types).Defined ⟨p.block, some g.freshNode⟩ v :=
  Defined.move (p := p) (.place hc hbs p types) rfl
    (fun n hn => by rwa [before_place_fresh hc hp]) h

theorem definedHere_place (hv : v ∈ g.freshValues types.length) :
    (g.place p node types).DefinedHere p v :=
  .output (by simp [before_place hc hp]) (node?_place_fresh p) hv

end

theorem Anchored.place_fresh (hp : g.Anchored p) :
    (g.place p node types).Anchored ⟨p.block, some g.freshNode⟩ := by
  obtain ⟨block, hb, -⟩ := hp
  refine ⟨_, block?_place_self hb, ?_⟩
  intro n hn
  cases hn
  obtain ⟨before, after, -, heq⟩ := arranges_placeIn p.before g.freshNode block.nodes
  simp [heq]

end

theorem definedHere_withParam (hb : g.block? b = some block) (before : Option NodeId) (ty : Ty) :
    (g.withParam b ty).DefinedHere ⟨b, before⟩ g.freshValue := by
  have hb' : (g.withParam b ty).block? b =
      some { block with params := block.params ++ [g.freshValue] } := by
    rw [withParam, block?_mapBlock, if_pos rfl, block?_pushValue, hb, Option.map_some]
  exact @DefinedHere.param _ ⟨b, before⟩ _ _ hb' (by simp)

end Flowgraph.Graph
