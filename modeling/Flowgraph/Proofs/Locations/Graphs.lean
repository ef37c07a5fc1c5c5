import Flowgraph.Builder

/-!
# Where the nodes of a graph stand

A node keeps the span that it was made with, whatever else happens to it.  `Graph.Located P` says
that every node stands where `P` allows it.
-/

namespace Flowgraph

open List Option Build

namespace Graph

variable {g g' : Graph} {P : Span → Prop} {n before : NodeId} {b : BlockId} {v : ValueId} {ty : Ty}

/-- The nodes of the graph stand at places of a kind. -/
def Located (P : Span → Prop) (g : Graph) : Prop :=
  ∀ node ∈ g.nodes, P node.span

section

variable (h : g.Located P)
include h

theorem Located.setNode {node : Node} (hspan : P node.span) : (g.setNode n node).Located P := by
  intro other hother
  rcases mem_or_eq_of_mem_set hother with hother | rfl
  · exact h other hother
  · exact hspan

theorem Located.modifyNode {f : Node → Node}
    (hch : g.modifyNode n f = some g') (hf : ∀ node, (f node).span = node.span) : g'.Located P := by
  obtain ⟨node, hn, hset⟩ := bind_eq_some_iff.mp hch
  cases hset
  exact h.setNode ((hf node).symm ▸ h node (mem_of_getElem? hn))

theorem Located.modifyBlock {f : Block → Block}
    (hch : g.modifyBlock b f = some g') : g'.Located P := by
  obtain ⟨_, _, hset⟩ := bind_eq_some_iff.mp hch
  cases hset
  exact h

theorem Located.modifyValue {f : Value → Value}
    (hch : g.modifyValue v f = some g') : g'.Located P := by
  obtain ⟨_, _, hset⟩ := bind_eq_some_iff.mp hch
  cases hset
  exact h

theorem Located.addParam (hch : g.addParam b ty = some (v, g')) : g'.Located P := by
  obtain ⟨_, _, hset⟩ := bind_eq_some_iff.mp hch
  cases hset
  exact h

theorem Located.addOutput (hch : g.addOutput n ty = some (v, g')) : g'.Located P := by
  obtain ⟨node, hn, hset⟩ := bind_eq_some_iff.mp hch
  cases hset
  exact Located.setNode h (h node (mem_of_getElem? hn))

theorem Located.addBlock (hch : g.addBlock n = some (b, g')) : g'.Located P := by
  obtain ⟨node, hn, hset⟩ := bind_eq_some_iff.mp hch
  cases hset
  exact Located.setNode h (h node (mem_of_getElem? hn))

theorem Located.setAttr {key : String} {value : Literal}
    (hch : g.setAttr n key value = some g') : g'.Located P :=
  h.modifyNode hch fun node => by
    unfold NodeOf.setAttr
    split <;> rfl

theorem Located.insertAt {position : Nat}
    (hch : g.insertAt b position n = some g') : g'.Located P := by
  obtain ⟨_, howned, hpl⟩ := bind_eq_some_iff.mp hch
  exact (h.modifyNode howned fun _ => rfl).modifyBlock hpl

theorem Located.appendNode (hch : g.appendNode b n = some g') : g'.Located P := by
  obtain ⟨_, howned, hpl⟩ := bind_eq_some_iff.mp hch
  exact (h.modifyNode howned fun _ => rfl).modifyBlock hpl

theorem Located.insertBefore (hch : g.insertBefore before n = some g') : g'.Located P := by
  obtain ⟨anchor, _, hch⟩ := bind_eq_some_iff.mp hch
  split at hch
  · cases hch
    exact h
  · obtain ⟨_, _, hch⟩ := bind_eq_some_iff.mp hch
    exact h.insertAt hch

end

end Graph

/-! ## Building -/

def Builder.Located (P : Span → Prop) (builder : Builder) : Prop :=
  builder.graph.Located P

namespace Build

/-- The steps leave every node where `P` allows it, and the insertion point where it was. -/
def Locates {α : Type} (P : Span → Prop) (steps : Build α) : Prop :=
  ∀ builder a builder', steps builder = some (a, builder') →
    builder'.point = builder.point ∧ (builder.Located P → builder'.Located P)

/-- The steps move the insertion point, answering the one before. -/
def Moves (steps : Build InsertPoint) : Prop :=
  ∀ builder previous builder', steps builder = some (previous, builder') →
    previous = builder.point ∧ ∃ point, builder' = { builder with point }

@[grind ←] theorem Moves.enterBlock {block : BlockId} : Moves (enterBlock block) := by
  intro builder previous builder' hrun
  cases hrun
  exact ⟨rfl, _, rfl⟩

@[grind ←] theorem Moves.enterBefore {n : NodeId} : Moves (enterBefore n) := by
  intro builder previous builder' hrun
  obtain ⟨⟨node, _⟩, hn, hmove⟩ := bind_eq_some_iff.mp hrun
  obtain ⟨_, _, hquery⟩ := bind_eq_some_iff.mp hn
  cases hquery
  cases hmove
  exact ⟨rfl, _, rfl⟩

namespace Locates

variable {α β : Type} {P : Span → Prop} {op : Op} {inputs : List ValueId} {types : List Ty}
  {span : Span} {v : ValueId} {n : NodeId} {b : BlockId} {ty : Ty} {key : String} {value : Literal}

@[grind ←] theorem pure {a : α} : Locates P (Pure.pure a : Build α) := by
  intro builder b builder' hrun
  cases hrun
  exact ⟨rfl, id⟩

@[grind ←] theorem bind {steps} {f : α → Build β} (h : Locates P steps)
    (hf : ∀ a, Locates P (f a)) : Locates P (steps >>= f) := by
  intro builder b builder'' hrun
  obtain ⟨⟨a, builder'⟩, hfirst, hr⟩ := bind_eq_some_iff.mp hrun
  have ⟨hpoint, hns⟩ := h builder a builder' hfirst
  have ⟨hpoint', hnodes'⟩ := hf a builder' b builder'' hr
  exact ⟨hpoint'.trans hpoint, fun hbuilder => hnodes' (hns hbuilder)⟩

theorem get : Locates P (MonadState.get : Build Builder) := by
  intro builder b builder' hrun
  cases hrun
  exact ⟨rfl, id⟩

@[grind ←] theorem query {question : Graph → Option α} : Locates P (query question) := by
  intro builder a builder' hrun
  obtain ⟨_, _, hset⟩ := bind_eq_some_iff.mp hrun
  cases hset
  exact ⟨rfl, id⟩

theorem update {change : Graph → Option Graph}
    (hch : ∀ g g', change g = some g' → g.Located P → g'.Located P) :
    Locates P (update change) := by
  intro builder a builder' hrun
  obtain ⟨g, hg, hset⟩ := bind_eq_some_iff.mp hrun
  cases hset
  exact ⟨rfl, hch _ _ hg⟩

theorem create {change : Graph → Option (α × Graph)}
    (hch : ∀ g a g', change g = some (a, g') → g.Located P →
      g'.Located P) : Locates P (create change) := by
  intro builder a builder' hrun
  obtain ⟨g, hg, hset⟩ := bind_eq_some_iff.mp hrun
  cases hset
  exact ⟨rfl, hch _ _ _ hg⟩

@[grind ←] theorem setAttr : Locates P (setAttr n key value) :=
  update fun _ _ hch h => h.setAttr hch

theorem place : Locates P (place n) := by
  refine get.bind fun builder => ?_
  split
  · exact update fun _ _ hch h => h.insertBefore hch
  · exact update fun _ _ hch h => h.appendNode hch

theorem createNode (hspan : P span) :
    Locates P (Build.create fun g => some (g.createNode op inputs types span)) :=
  create fun _ _ _ hch h => by
    cases hch
    exact forall_mem_append.mpr ⟨h, forall_mem_singleton.mpr hspan⟩

@[grind ←] theorem insert (hspan : P span) : Locates P (Build.insert op inputs types span) :=
  (createNode hspan).bind fun _ => place.bind fun _ => .pure

@[grind ←] theorem insertValue (hspan : P span) : Locates P (insertValue op inputs ty span) :=
  (insert hspan).bind fun _ => query

@[grind ←] theorem insertWith (hspan : P span) :
    Locates P (insertWith op inputs ty key value span) :=
  (insert hspan).bind fun _ => setAttr.bind fun _ => query

theorem pooled (hnull : P .null) : Locates P (Build.pooled value ty) := by
  have hplace : ∀ position n, Locates P (Build.update fun g => g.insertAt Graph.root position n) :=
    fun _ _ => update fun _ _ hch h => h.insertAt hch
  have hrecord : ∀ v, Locates P (modify fun builder =>
      { builder with pool := (value, v) :: builder.pool } : Build PUnit) := by
    intro v builder a builder' hrun
    cases hrun
    exact ⟨rfl, id⟩
  unfold Build.pooled
  refine .bind .get fun builder => ?_
  split
  · exact .pure
  · exact (createNode hnull).bind fun _ => setAttr.bind fun _ => (hplace _ _).bind fun _ =>
      query.bind fun _ => (hrecord _).bind fun _ => .pure

@[grind ←] theorem typeOf : Locates P (typeOf v) := query

@[grind ←] theorem constantOf? : Locates P (constantOf? v) := query

@[grind ←] theorem insertPrimitive {operation} (hspan : P span) :
    Locates P (insertPrimitive operation inputs ty span) :=
  insertValue hspan

@[grind ←] theorem int {value : Int64} (hnull : P .null) : Locates P (int value) := pooled hnull

@[grind ←] theorem bool {value : Bool} (hspan : P span) : Locates P (bool value span) :=
  insertWith hspan

@[grind ←] theorem str {value : String} (hspan : P span) : Locates P (str value span) :=
  insertWith hspan

@[grind ←] theorem none (hspan : P span) : Locates P (none ty span) := insertWith hspan

@[grind ←] theorem literal (hnull : P .null) (hspan : P span) : Locates P (literal value span) := by
  cases value <;> first | exact pooled hnull | exact insertWith hspan

end Locates

end Build

end Flowgraph
