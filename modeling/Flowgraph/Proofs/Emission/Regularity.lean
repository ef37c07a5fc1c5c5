import Flowgraph.Proofs.Emission.Preservation

/-!
# Emissions keep types regular

If the host supplies regular types only, then every value of the graph has a regular type, and so
has every variable of the scope.  The changes of the state are seen through the list of the types in
the graph, which most of them leave alone or extend; only the list that a comprehension fills gets
another type.
-/

namespace Flowgraph

open List Lower LowerState Option Flowgraph.Graph

variable {v : ValueId} {ty : Ty} {H : List ValueId} {name : String} {A : Prop}
  {a b side : BranchSide} {ctx : LowerContext} {more : List Ty} {binding : Binding} {n : NodeId}
  {s t body before : LowerState}

/-! ## The types of a graph -/

namespace Graph

variable (g : Graph)

/-- The types of all values, in order. -/
def types : List Ty := g.values.map Value.ty

theorem typeOf?_eq (v : ValueId) : g.typeOf? v = g.types[v.index]? := by
  rw [typeOf?, types, getElem?_map]
  rfl

theorem typeOf?_of_types {g g' : Graph} (htys : g'.types = g.types ++ more)
    (h : g.typeOf? v = some ty) : g'.typeOf? v = some ty := by
  rw [typeOf?_eq] at h ⊢
  rw [htys, getElem?_append_left (List.getElem?_eq_some_iff.mp h).1, h]

@[simp] theorem types_attach (b : BlockId) (arrange : List NodeId → List NodeId) (node : Node)
    (types : List Ty) : (g.attach b arrange node types).types = g.types ++ types := by
  simp only [Graph.types, attach, map_append]
  congr 1
  refine ext_getElem? fun i => ?_
  simp [Function.comp_def]

@[simp] theorem types_place (p : InsertPoint) (node : Node) (types : List Ty) :
    (g.place p node types).types = g.types ++ types :=
  types_attach ..

@[simp] theorem types_withOutput (n : NodeId) (ty : Ty) :
    (g.withOutput n ty).types = g.types ++ [ty] := by
  simp [types, withOutput, pushValue, mapNode]

@[simp] theorem types_withParam (b : BlockId) (ty : Ty) :
    (g.withParam b ty).types = g.types ++ [ty] := by
  simp [types, withParam, pushValue, mapBlock]

@[simp] theorem types_withBlock (n : NodeId) : (g.withBlock n).types = g.types := rfl

@[simp] theorem types_withInput (n : NodeId) (v : ValueId) :
    (g.withInput n v).types = g.types := rfl

@[simp] theorem types_withResult (b : BlockId) (v : ValueId) :
    (g.withResult b v).types = g.types := rfl

@[simp] theorem types_named (v : ValueId) (label : Option String) :
    (g.named v label).types = g.types := by
  refine ext_getElem? fun i => ?_
  simp only [types, named, mapValue, getElem?_map, getElem?_modify]
  split <;> simp [Function.comp_def]

@[simp] theorem types_retype (v : ValueId) (ty : Ty) :
    (g.retype v ty).types = g.types.set v.index ty := by
  refine ext_getElem? fun i => ?_
  simp only [types, retype, mapValue, getElem?_map, getElem?_modify, getElem?_set, length_map]
  split
  next heq =>
    subst heq
    rcases lt_or_ge v.index g.values.length with hlt | hge
    · simp [hlt]
    · simp [not_lt.mpr hge]
  next => simp

@[simp] theorem typeOf?_named (v w : ValueId) (label : Option String) :
    (g.named v label).typeOf? w = g.typeOf? w := by
  rw [typeOf?_eq, types_named, ← typeOf?_eq]

theorem typeOf?_withOutput (n : NodeId) (ty : Ty) :
    (g.withOutput n ty).typeOf? g.freshValue = some ty := by
  rw [typeOf?_eq, types_withOutput]
  simp [types, freshValue]

theorem typeOf?_withParam (b : BlockId) (ty : Ty) :
    (g.withParam b ty).typeOf? g.freshValue = some ty := by
  rw [typeOf?_eq, types_withParam]
  simp [types, freshValue]

theorem typeOf?_place (p : InsertPoint) (node : Node) (ty : Ty) :
    (g.place p node [ty]).typeOf? g.freshValue = some ty := by
  rw [typeOf?_eq, types_place]
  simp [types, freshValue]

theorem typeOf?_retype (hv : v.index < g.values.length) (ty : Ty) :
    (g.retype v ty).typeOf? v = some ty := by
  rw [typeOf?_eq, types_retype, getElem?_set_self (by simpa [types] using hv)]

theorem typeOf?_retype_of_ne {w} (h : w ≠ v) (ty : Ty) :
    (g.retype v ty).typeOf? w = g.typeOf? w := by
  have hne : v.index ≠ w.index := fun heq => h (by cases v; cases w; simpa using heq.symm)
  rw [typeOf?_eq, typeOf?_eq, types_retype, getElem?_set_ne hne]

end Graph

@[simp] theorem LowerState.types_withResults (s : LowerState) (b : BlockId)
    (results : List ValueId) : (s.withResults b results).graph.types = s.graph.types :=
  foldlRecOn (motive := fun g : Graph => g.types = s.graph.types) results _ rfl fun _ h _ _ => h

@[simp] theorem LowerState.types_withOutputs (s : LowerState) (n : NodeId) (types : List Ty) :
    (s.withOutputs n types).graph.types = s.graph.types ++ types := by
  induction types generalizing s with
  | nil => simp [withOutputs, withGraph]
  | cons ty rest ih =>
    have hr := ih (s.withGraph (s.graph.withOutput n ty))
    simp only [withGraph, graph, types_withOutput, append_assoc, singleton_append] at hr
    exact hr

theorem Held.exists_type (h : WellFormed H s) (hv : Held H s v) :
    ∃ ty, s.graph.typeOf? v = some ty := by
  obtain ⟨value, hvalue⟩ := (exists_value?_iff _ v).mpr (hv.2.index_lt h.coherent)
  exact ⟨value.ty, by rw [typeOf?, hvalue, map_some]⟩

/-! ## Regular states -/

def Binding.Regular (g : Graph) : Binding → Prop
  | .plain ty => ty.Regular
  | .entity denoted => denoted.Regular g

/-- The types of the variables of a frame are regular, and so are its entities. -/
def Frame.Regular (g : Graph) (frame : Frame) : Prop :=
  ∀ name slot, frame.slots.get? name = some slot → slot.binding.Regular g

structure LowerState.Regular (s : LowerState) : Prop where
  types : ∀ ty ∈ s.graph.types, ty.Regular
  frames : ∀ frame ∈ s.scope.frames, frame.Regular s.graph
  declared : ∀ body ∈ s.bodies, ∀ ty ∈ body.declared, ty.Regular
  results : ∀ entry ∈ s.signatures, entry.2.result.Regular
  numbers : ∀ entry ∈ s.builder.pool, ∃ ty, entry.1.numberType? = some ty ∧
    s.graph.typeOf? entry.2 = some ty

namespace Frame.Regular

variable {g g' : Graph} {frame frame' : Frame}

section

variable (h : frame.Regular g)
include h

theorem get? (hget : frame.get? name = some binding) : binding.Regular g := by
  obtain ⟨slot, hslot, rfl⟩ := map_eq_some_iff.mp hget
  exact h name slot hslot

theorem bind {slot : Slot} (hslot : slot.binding.Regular g) : (frame.bind name slot).Regular g := by
  intro other found hfd
  rw [Frame.bind, NameMap.get?_insert] at hfd
  split at hfd
  · exact Option.some.inj hfd ▸ hslot
  · exact h other found hfd

theorem of_slots (hslots : frame'.slots = frame.slots) : frame'.Regular g :=
  fun name slot hget => h name slot (hslots ▸ hget)

theorem mono
    (hkeep : ∀ name entity, frame.get? name = some (.entity entity) → ∀ v ∈ entity.values, ∀ ty,
      g.typeOf? v = some ty → g'.typeOf? v = some ty) : frame.Regular g' := by
  intro name slot hslot
  have hreg := h name slot hslot
  cases hbind : slot.binding with rw [hbind] at hreg
  | plain ty => exact hreg
  | entity denoted =>
    refine Entity.Regular.mono denoted (hkeep name denoted ?_) hreg
    rw [Frame.get?, hslot, map_some, hbind]

theorem append (htys : g'.types = g.types ++ more) : frame.Regular g' :=
  h.mono fun _ _ _ _ _ _ hty => typeOf?_of_types htys hty

end

end Frame.Regular

namespace LowerState.Regular

variable {s t : LowerState} {g : Graph} {types : List Ty}

section

variable (h : s.Regular)
include h

theorem typeOf? (hty : s.graph.typeOf? v = some ty) : ty.Regular :=
  h.types ty (mem_of_getElem? (typeOf?_eq s.graph v ▸ hty))

theorem withGraph (more : List Ty)
    (htys : g.types = s.graph.types ++ more) (hmore : ∀ ty ∈ more, ty.Regular) :
    (s.withGraph g).Regular where
  __ := h
  types ty hty := by
    rcases mem_append.mp (htys ▸ hty) with hold | hnew
    · exact h.types ty hold
    · exact hmore ty hnew
  frames frame hf := (h.frames frame hf).append htys
  numbers entry he := by
    obtain ⟨ty, hnum, hty⟩ := h.numbers entry he
    exact ⟨ty, hnum, typeOf?_of_types htys hty⟩

theorem withGraph_same (htys : g.types = s.graph.types) : (s.withGraph g).Regular :=
  h.withGraph [] (by simpa using htys) (by simp)

theorem moveTo (p : InsertPoint) : (s.moveTo p).Regular :=
  { h with }

theorem mapScope {change : Scope → Scope}
    (hfs : ∀ frame ∈ (change s.scope).frames, frame.Regular s.graph) :
    (s.mapScope change).Regular :=
  { h with frames := hfs }

theorem mapBodies (change : List BodyContext → List BodyContext)
    (hbodies : ∀ body ∈ change s.bodies, ∀ ty ∈ body.declared, ty.Regular) :
    (s.mapBodies change).Regular :=
  { h with declared := hbodies }

theorem place {node} (htys : ∀ ty ∈ types, ty.Regular) : (s.place node types).Regular :=
  h.withGraph types (types_place ..) htys

end

/-! ### Scopes -/

theorem modifyBodyFrame {change : Frame → Frame} {frames}
    (hch : ∀ frame, (change frame).slots = frame.slots) (h : ∀ frame ∈ frames, frame.Regular g) :
    ∀ frame ∈ Scope.modifyBodyFrame change frames, frame.Regular g := by
  induction frames with
  | nil => exact h
  | cons first outer ih =>
    rw [forall_mem_cons] at h
    rw [Scope.modifyBodyFrame]
    split
    · exact forall_mem_cons.mpr ⟨h.1.of_slots (hch first), h.2⟩
    · exact forall_mem_cons.mpr ⟨h.1, ih h.2⟩

section

variable (h : s.Regular)
include h

theorem bindCurrent (name : String) (slot : Slot) (hslot : slot.binding.Regular s.graph) :
    (s.mapScope fun scope => scope.bindCurrent name slot).Regular := by
  refine h.mapScope ?_
  have hfs := h.frames
  rw [Scope.bindCurrent]
  split
  next hnil => simp [hnil]
  next frame outer hcons =>
    rw [hcons, forall_mem_cons] at hfs
    exact forall_mem_cons.mpr ⟨hfs.1.bind hslot, hfs.2⟩

theorem clearDeferred (name : String) :
    (s.mapScope fun scope => scope.clearDeferred name).Regular :=
  h.mapScope (modifyBodyFrame (by intro _; rfl) h.frames)

theorem defer (name : String) (fault : Fault) : (s.defer name fault).Regular :=
  h.mapScope (modifyBodyFrame (by intro _; rfl) h.frames)

theorem recordPlain (name : String) (hty : ty.Regular) : (s.recordPlain name ty).Regular :=
  (h.clearDeferred name).bindCurrent name (.assigned (.plain ty)) hty

theorem recordEntity (name : String) {entity : Entity}
    (hent : entity.Regular s.graph) : (s.recordEntity name entity).Regular :=
  (h.clearDeferred name).bindCurrent name (.assigned (.entity entity)) hent

theorem push (b : BlockId) (startsBody : Bool) (closure : Option NodeId) :
    (s.mapScope fun scope => scope.push b startsBody closure).Regular :=
  h.mapScope (forall_mem_cons.mpr ⟨fun _ _ hget => (nomatch hget), h.frames⟩)

theorem pop : s.pop.Regular :=
  h.mapScope fun frame hf => h.frames frame (mem_of_mem_tail hf)

theorem enter (b : BlockId) : (s.enter b).Regular :=
  (h.push b false none).moveTo _

theorem leave (p : InsertPoint) : (s.leave p).Regular := h.pop.moveTo p

theorem find? {found : Scope.Found} (hfd : s.scope.find? name = some found) :
    found.binding.Regular s.graph := by
  have hfs := h.frames
  rw [Scope.find?] at hfd
  generalize s.scope.frames = frames at hfd hfs
  induction frames with
  | nil => cases hfd
  | cons frame outer ih =>
    rw [forall_mem_cons] at hfs
    rw [Scope.findFrom] at hfd
    split at hfd
    next binding hget =>
      cases hfd
      exact hfs.1.get? hget
    next => exact ih hfd hfs.2

end

/-! ### Bodies -/

section

variable (h : s.Regular)
include h

theorem modifyHead {change : BodyContext → BodyContext}
    (hch : ∀ body, (change body).declared = body.declared) :
    (s.mapBodies (modifyHead change)).Regular := by
  refine h.mapBodies _ ?_
  have hdecl := h.declared
  cases hbodies : s.bodies with
  | nil => simp
  | cons body outer =>
    rw [hbodies, forall_mem_cons] at hdecl
    rw [modifyHead_cons]
    exact forall_mem_cons.mpr ⟨hch body ▸ hdecl.1, hdecl.2⟩

theorem enterLoop (kind : LoopKind) : (s.enterLoop kind).Regular :=
  h.modifyHead (by intro _; rfl)

theorem leaveLoop : s.leaveLoop.Regular :=
  h.modifyHead (by intro _; rfl)

theorem enterBody (b : BlockId) (closure : Option NodeId) {body : BodyContext}
    (hdecl : ∀ ty ∈ body.declared, ty.Regular) : (s.enterBody b closure body).Regular :=
  ((h.push b true closure).mapBodies (body :: ·) (forall_mem_cons.mpr ⟨hdecl, h.declared⟩)).moveTo _

theorem leaveBody (p : InsertPoint) : (s.leaveBody p).Regular :=
  (h.pop.mapBodies _ fun body hbody => h.declared body (mem_of_mem_tail hbody)).moveTo p

theorem declareAll (b : BlockId) {params : List ParamDecl}
    (hps : ∀ param ∈ params, param.ty.Regular) : (s.declareAll b params).Regular := by
  refine foldlRecOn params _ h fun s h param hmem => ?_
  have hp : (s.withGraph ((s.graph.withParam b param.ty).named s.graph.freshValue
      param.label)).Regular :=
    h.withGraph [param.ty] (by simp) (by simpa using hps param hmem)
  exact (hp.place (by simp)).recordPlain param.name (hps param hmem)

end

/-! ### Nodes with blocks -/

section

variable (h : s.Regular)
include h

theorem withResults (b : BlockId) (results : List ValueId) : (s.withResults b results).Regular :=
  h.withGraph_same (types_withResults s b results)

theorem withOutputs (n : NodeId) (htys : ∀ ty ∈ types, ty.Regular) :
    (s.withOutputs n types).Regular :=
  h.withGraph types (types_withOutputs s n types) htys

theorem openBranch (condition : ValueId) (span : Span) : (s.openBranch condition span).Regular :=
  h.withGraph_same (by simp)

theorem openLoop (n : NodeId) (trip first : ValueId) : (s.openLoop n trip first).Regular :=
  h.withGraph [.int] (by simp) (by simpa using Ty.Regular.int)

theorem openClosure (span : Span) : (s.openClosure span).Regular :=
  h.withGraph [.nothing] (by simp) (by simpa using Ty.Regular.nothing)

theorem beforeLoop (span : Span) : (s.beforeLoop span).Regular :=
  (h.place (by simp)).moveTo _

end

theorem loopBody (h : before.Regular) (s : LowerState)
    (trip first : ValueId) : (s.loopBody before trip first).Regular :=
  ((h.moveTo _).openLoop _ trip first).enter _

theorem loopNext (h : body.Regular) (s : LowerState) : (s.loopNext body).Regular := by
  have hb : ((body.leave s.point).withBlock s.graph.freshNode).Regular :=
    (h.leave _).withGraph_same rfl
  exact hb.enter _

theorem pooled (h : s.Regular) {value : Literal} (hnum : value.numberType? = some ty) :
    (s.pooled value ty).Regular := by
  have hreg : ty.Regular := by
    cases value <;> simp only [Literal.numberType?, some.injEq, reduceCtorEq] at hnum
    · exact hnum ▸ .int
    · exact hnum ▸ .float
  have htys : (s.pooled value ty).graph.types = s.graph.types ++ [ty] := Graph.types_attach ..
  have hg := h.withGraph [ty] htys (by simpa using hreg)
  refine { hg with numbers := forall_mem_cons.mpr ⟨⟨ty, hnum, ?_⟩, hg.numbers⟩ }
  rw [Graph.typeOf?_eq, htys]
  simp [Graph.freshValue, Graph.types]

theorem fill {list} {filled : Ty} (h : s.Regular) (hwf : WellFormed H s)
    (hlist : list ∈ H) (hty : ty.Regular) (hfilled : filled.Regular) (span : Span) :
    (s.fill list v ty filled span).Regular := by
  have hkeep : ∀ w, w ∉ H → (s.graph.retype list (.list ty)).typeOf? w = s.graph.typeOf? w := by
    intro w hw
    have hne : w ≠ list := fun heq => hw (heq ▸ hlist)
    exact typeOf?_retype_of_ne _ hne _
  have hretyped : (s.withGraph (s.graph.retype list (.list ty))).Regular := by
    refine ⟨?_, ?_, h.declared, h.results, ?_⟩
    · intro found hfd
      have hmem : found ∈ s.graph.types.set list.index (.list ty) := types_retype .. ▸ hfd
      rcases mem_or_eq_of_mem_set hmem with hold | rfl
      · exact h.types found hold
      · exact .list hty
    · intro frame hf
      refine (h.frames frame hf).mono fun name entity hget w hw found hfd => ?_
      rw [← hfd]
      exact hkeep w (hwf.frames.unhidden hf hget w hw)
    · intro entry he
      obtain ⟨found, hnum, hfd⟩ := h.numbers entry he
      exact ⟨found, hnum, (hkeep entry.2 (hwf.held_pooled he).1).trans hfd⟩
  exact hretyped.place (by simpa using hfilled)

end LowerState.Regular

/-! ## Merging the sides of a branch -/

@[simp] theorem LowerState.types_returnFrom (s : LowerState) (block : BlockId) (name : String)
    (side : SideType) (span : Span) (label : Option String) :
    (s.returnFrom block name side span label).graph.types = s.graph.types ++ [side.ty] := by
  simp [returnFrom, withGraph, graph]

@[simp] theorem LowerState.types_storeOutput (s : LowerState) (n : NodeId) (name : String) (ty : Ty)
    (span : Span) (label : Option String) :
    (s.storeOutput n name ty span label).graph.types = s.graph.types ++ [ty] := by
  simp [storeOutput, place, withGraph, recordPlain, mapScope, graph]

theorem Merge.types (hmerge : Merge n a b s t) : ∃ more, t.graph.types = s.graph.types ++ more := by
  induction hmerge with
  | refl | shared | defer => exact ⟨[], (append_nil _).symm⟩
  | trans _ _ ih ih' =>
    obtain ⟨more, hmore⟩ := ih
    obtain ⟨more', hmore'⟩ := ih'
    exact ⟨more ++ more', by rw [hmore', hmore, append_assoc]⟩
  | @joined s name typeA typeB joined span labelA labelB label =>
    refine ⟨[typeA, typeB, joined], ?_⟩
    rw [types_storeOutput, types_returnFrom, types_returnFrom]
    simp [BranchSide.typed]
  | @survivor s name binding =>
    refine ⟨[], ?_⟩
    cases binding <;> exact (append_nil _).symm

theorem Lower.BranchSide.regular_binding (h : s.Regular)
    (hside : side.frame.Regular s.graph) (hbind : side.binding? s.scope name = some binding) :
    binding.Regular s.graph := by
  rcases or_eq_some_iff.mp hbind with hget | ⟨-, hfd⟩
  · exact hside.get? (Frame.get?_of_assigned? hget)
  · obtain ⟨found, hfind, rfl⟩ := map_eq_some_iff.mp hfd
    exact h.find? hfind

theorem Merge.regular (hmerge : Merge n a b s t) (h : s.Regular)
    (ha : a.frame.Regular s.graph) (hb : b.frame.Regular s.graph) : t.Regular := by
  induction hmerge with
  | refl => exact h
  | trans hfirst _ ih ih' =>
    obtain ⟨more, htys⟩ := hfirst.types
    exact ih' (ih h ha hb) (ha.append htys) (hb.append htys)
  | @joined s name typeA typeB joined span labelA labelB label hgetA hgetB hj =>
    have htypeA : typeA.Regular := a.regular_binding h ha hgetA
    have htypeB : typeB.Regular := b.regular_binding h hb hgetB
    have hjoined := Ty.Regular.join typeA typeB htypeA htypeB hj
    have hA : (s.returnFrom a.block name (a.typed s.scope name typeA) span labelA).Regular :=
      h.withGraph [typeA] (types_returnFrom ..) (by simpa using htypeA)
    have hB : ((s.returnFrom a.block name (a.typed s.scope name typeA) span labelA).returnFrom
        b.block name (b.typed s.scope name typeB) span labelB).Regular :=
      hA.withGraph [typeB] (types_returnFrom ..) (by simpa using htypeB)
    refine (Regular.place (hB.withGraph [joined] ?_ ?_) (by simp)).recordPlain name
      hjoined
    · simp
    · simpa using hjoined
  | shared hgetA _ _ => exact h.recordEntity _ (a.regular_binding h ha hgetA)
  | @survivor s name binding hside =>
    have hreg : binding.Regular s.graph := by
      rcases hside with ⟨-, hget⟩ | ⟨-, hget⟩
      · exact ha.get? (Frame.get?_of_assigned? hget)
      · exact hb.get? (Frame.get?_of_assigned? hget)
    cases binding with
    | plain ty => exact h.recordPlain name hreg
    | entity denoted => exact h.recordEntity name hreg
  | defer s name fault => exact h.defer name fault

/-- When both sides of a branch were lowered, its outputs and what the sides bind is regular. -/
theorem BranchParts.regular {s₁ s₂ : LowerState} {condition span resultsA resultsB outputs}
    (h : BranchParts H s s₁ s₂ condition span a b resultsA resultsB) (h₁ : s₁.Regular)
    (h₂ : s₂.Regular) (hendA : SideEnds A H a resultsA outputs s₁)
    (hendB : SideEnds A H b resultsB outputs s₂) (houts : ∀ ty ∈ outputs, ty.Regular)
    (ht : ((s₂.leave s.point).withResults b.block resultsB).withOutputs s.graph.freshNode
      outputs = t) : t.Regular ∧ a.frame.Regular t.graph ∧ b.frame.Regular t.graph := by
  subst ht
  have hcur : ∀ {u : LowerState} {frame : Frame}, u.Regular →
      u.scope.current? = some frame → frame.Regular u.graph := fun hu hf =>
    hu.frames _ (mem_of_head? hf)
  have htys : (((s₂.leave s.point).withResults b.block resultsB).withOutputs
      s.graph.freshNode outputs).graph.types = s₂.graph.types ++ outputs := by simp; rfl
  suffices hfirst : a.frame.Regular s₂.graph from
    ⟨((h₂.leave s.point).withResults b.block resultsB).withOutputs _ houts,
      hfirst.append htys, (hcur h₂ hendB.frame).append htys⟩
  -- the second side leaves the types alone that the entities of the first one rely on
  refine (hcur h₁ hendA.frame).mono fun name entity hget v hv ty hty => ?_
  have hunhidden := h.first.stop.frames.unhidden (mem_of_head? hendA.frame) hget v hv
  refine h.second.advances.typeOf? hunhidden ?_
  rw [typeOf?_eq] at hty ⊢
  rw [← hty]
  exact congrArg (·[v.index]?) (types_withResults (s₁.leave s.point) a.block resultsA)

/-! ## All emissions -/

theorem Emission.regular (hemit : Emission A H s t)
    (hA : A) (hwf : WellFormed H s) (h : s.Regular) : t.Regular := by
  induction hemit with
  | refl => exact h
  | trans hfirst _ ih ih' => exact ih' (hfirst.sound hwf).1 (ih hwf h)
  | node types _ _ _ _ _ hreg => exact h.place (hreg hA)
  | pooled H s hnum => exact h.pooled hnum
  | named => exact h.withGraph_same (types_named ..)
  | input => exact h.withGraph [.tensor] (types_withParam ..) (by simpa using Ty.Regular.tensor)
  | @read H s name frame ty span hfd =>
    exact h.withGraph [ty] (types_place ..) (forall_mem_singleton.mpr (h.find? hfd))
  | store span _ hreg => exact (h.place (by simp)).recordPlain _ (hreg hA)
  | narrow span _ htype => exact (h.place (by simp)).bindCurrent _ (.refined _) (h.typeOf? htype)
  | entity _ hreg => exact h.recordEntity _ (hreg hA)
  | defer H s name fault => exact h.defer name fault
  | merged H s ty => exact h.modifyHead (by intro _; rfl)
  | narrowing _ ih => exact (ih hwf.narrowing (h.push _ _ _)).pop
  | inLoop kind _ ih => exact (ih (hwf.of_same rfl (.refl _)) (h.enterLoop kind)).leaveLoop
  | @branch H s s₁ s₂ t condition span a b resultsA resultsB outputs hcond _ hbs ha hendA hb hendB
      hreg hmerge iha ihb =>
      have hpts := BranchParts.of_sound hwf hcond hbs ha.sound hendA hb.sound hendB
      have h₁ := iha hpts.first.start ((h.openBranch condition span).enter a.block)
      have h₂ := ihb hpts.second.start (((h₁.leave s.point).withResults a.block resultsA).enter _)
      obtain ⟨hlast, hfirst, hsnd⟩ := hpts.regular h₁ h₂ hendA hendB (hreg hA) rfl
      exact hmerge.regular hlast hfirst hsnd
  | loop span hfirst htrip _ hcond _ hbody hnext hret _ ihfirst ihbody ihnext =>
    have hpts := LoopParts.of_sound hwf hfirst.sound htrip hcond
      (fun hstart => hbody.sound hstart.entry) hnext.sound fun _ => hret
    have h₁ := ihfirst hpts.start.start (h.beforeLoop span)
    have h₂ := ihbody hpts.body.start (h₁.loopBody _ _ _)
    exact ((ihnext hpts.again.start (h₂.loopNext _)).leave _).withResults _ _
  | @comprehension H s s₀ s₁ s₂ trip first v ty filled span hiter hfirst htrip _ hcond _
      hbody helem htype hfilled ihiter ihfirst ihbody =>
      have hpts := ComprehensionParts.of_sound hwf hiter.sound hfirst.sound htrip hcond
        hbody.sound helem ty filled
      have h₀ := ihiter hpts.iter.start (h.place (by simpa using Ty.Regular.list .tensor))
      have h₁ := ihfirst hpts.loop.start.start (h₀.beforeLoop span)
      have h₂ := ihbody hpts.body.start ((h₁.loopBody s₀ trip first).enterLoop .loop)
      have hty := h₂.typeOf? htype
      -- the list is hidden while it is filled, so that it may change its type
      have hfill : (s₂.fill s.graph.freshValue v ty filled span).Regular :=
        h₂.fill hpts.fill.start (.head _) hty
          (Primitive.check_regular (by simpa using ⟨.list hty, hty⟩) (hfilled default)) span
      exact (((hfill.leaveLoop.loopNext s₀).place (by simpa using Ty.Regular.bool)).leave
        _).withResults _ _
  | @closure H s s₁ result ty params span name body hdecl hps hbody hret htype ih =>
    have hpts := ClosureParts.of_sound hwf hbody.sound hret
    have h₁ := ih hpts.declared.start (((h.openClosure span).enterBody _ _
      (hdecl hA)).declareAll _ (hps hA))
    have hend := (h₁.leaveBody s.point).withResults s.graph.freshBlock [result]
    exact { hend with results := forall_mem_cons.mpr ⟨h₁.typeOf? htype, hend.results⟩ }
  | fork span hsigned => exact h.place (by simpa using Ty.Regular.future (h.results _ hsigned))

/-! ## States to lower in -/

/-- The types that come from outside of the program are regular. -/
structure LowerContext.Regular (ctx : LowerContext) : Prop where
  host : ctx.host.Regular
  paramType : ctx.settings.paramType.Regular

/-- The state is well-formed, and regular as far as that is assumed. -/
structure Ready (A : Prop) (H : List ValueId) (ctx : LowerContext)
    (s : LowerState) : Prop extends WellFormed H s where
  context : A → ctx.Regular
  regular : A → s.Regular

theorem Ready.typeOf? (h : Ready A H ctx s) (hty : s.graph.typeOf? v = some ty) : A → ty.Regular :=
  fun hA => (h.regular hA).typeOf? hty

theorem Ready.narrowing (h : Ready A H ctx s) : Ready A H ctx s.narrowing :=
  ⟨h.toWellFormed.narrowing, h.context, fun hA => (h.regular hA).push _ _ _⟩

theorem Emission.ready (hemit : Emission A H s t) (h : Ready A H ctx s) : Ready A H ctx t :=
  ⟨(hemit.sound h.toWellFormed).1, h.context,
    fun hA => hemit.regular hA h.toWellFormed (h.regular hA)⟩

end Flowgraph
