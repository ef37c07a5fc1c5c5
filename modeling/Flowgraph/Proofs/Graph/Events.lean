import Flowgraph.Proofs.Graph.Arena

/-!
# What a block uses and defines, in order

`Graph.events` reads the nodes of a block in order, with the blocks nested in them, and lists what
is used and what is defined.  The values that are used and not defined there are the free values of
the block (`Graph.free`).

In a graph that is well scoped and defines every value once, nothing is defined after it was used or
defined before: `Graph.Proper.ordered`.  What is read of a block is a part of what is read of the
whole graph, so that this has to be seen for the root only.
-/

namespace Flowgraph.Graph

open List

variable {runs : List (List Event)} {run all : List Event} {env : ValueId → Prop}
  {inside : BlockId → Option (List Event)} {α : Type} {ns nodes : List NodeId}
  {results : List ValueId} {R : α → List Event → Prop} {as : List α}

/-- What happens to a value. -/
inductive Event where
  | use (v : ValueId)
  | define (v : ValueId)
  deriving DecidableEq, Repr

namespace Event

def used? : Event → Option ValueId
  | .use v => some v
  | .define _ => none

def defined? : Event → Option ValueId
  | .use _ => none
  | .define v => some v

/-- The value that it happens to. -/
def value : Event → ValueId
  | .use v | .define v => v

end Event

/-- The values that are used, each as often as it is. -/
def used (events : List Event) : List ValueId := events.filterMap Event.used?

def defined (events : List Event) : List ValueId := events.filterMap Event.defined?

section Events

variable (g : Graph)

/-- A nested block: its parameters, what happens inside, and what it returns. -/
def nestedEvents (inside : BlockId → Option (List Event)) (b : BlockId) : Option (List Event) := do
  let block ← g.block? b
  let events ← inside b
  some (block.params.map .define ++ (events ++ block.results.map .use))

/-- A node: its inputs, its outputs, and the blocks nested in it. -/
def nodeEvents (inside : BlockId → Option (List Event)) (n : NodeId) : Option (List Event) := do
  let node ← g.node? n
  let nested ← node.blocks.mapM (g.nestedEvents inside)
  some (node.inputs.map .use ++ (node.outputs.map .define ++ nested.flatten))

/-- The nodes of a block; `depth` bounds the nesting. -/
def eventsWithin : Nat → BlockId → Option (List Event)
  | 0, _ => none
  | depth + 1, b => do
    let block ← g.block? b
    let runs ← block.nodes.mapM (g.nodeEvents (eventsWithin depth))
    some runs.flatten

def events (b : BlockId) : Option (List Event) :=
  g.eventsWithin g.blocks.length b

end Events

/-- The values that are used and not defined, in the order of their first use; those that are
`known` are left out. -/
def free (known : ValueId → Bool) (events : List Event) : List ValueId :=
  ((used events).filter fun v => !known v && !(defined events).contains v).eraseDups

/-! ## The parts of a list of events -/

section Lists

variable {known known' : ValueId → Prop} {es es' : List Event} {v : ValueId} {vs : List ValueId}

theorem mem_used : v ∈ used es ↔ .use v ∈ es := by
  simp only [used, mem_filterMap]
  constructor
  · rintro ⟨_ | _, he, ⟨⟩⟩
    exact he
  · exact fun he => ⟨_, he, rfl⟩

theorem mem_defined : v ∈ defined es ↔ .define v ∈ es := by
  simp only [defined, mem_filterMap]
  constructor
  · rintro ⟨_ | _, he, ⟨⟩⟩
    exact he
  · exact fun he => ⟨_, he, rfl⟩

@[simp] theorem used_append : used (es ++ es') = used es ++ used es' := filterMap_append

@[simp] theorem defined_append : defined (es ++ es') = defined es ++ defined es' :=
  filterMap_append

@[simp] theorem used_map_use : used (vs.map .use) = vs := by
  simp [used, filterMap_map, Function.comp_def, Event.used?]

@[simp] theorem used_map_define : used (vs.map .define) = [] := by
  simp [used, filterMap_map, Function.comp_def, Event.used?]

@[simp] theorem defined_map_use : defined (vs.map .use) = [] := by
  simp [defined, filterMap_map, Function.comp_def, Event.defined?]

@[simp] theorem defined_map_define : defined (vs.map .define) = vs := by
  simp [defined, filterMap_map, Function.comp_def, Event.defined?]

/-- Uses refer to what is known or was defined before. -/
def Known : (ValueId → Prop) → List Event → Prop
  | _, [] => True
  | known, .use v :: es => known v ∧ Known known es
  | known, .define v :: es => Known (fun w => known w ∨ w = v) es

/-- Nothing is defined after it was used or defined. -/
def Ordered (es : List Event) : Prop :=
  es.Pairwise fun e e' => e' ≠ .define e.value

theorem Known.mono (h : Known known es) (hknown : ∀ v, known v → known' v) : Known known' es := by
  induction es generalizing known known' with
  | nil => trivial
  | cons e es ih =>
    cases e with
    | use v => exact ⟨hknown v h.1, ih h.2 hknown⟩
    | define v =>
      have hr : Known (fun w => known w ∨ w = v) es := h
      exact ih hr fun w => Or.imp_left (hknown w)

theorem Known.append (h : Known known es)
    (h' : Known (fun v => known v ∨ v ∈ defined es) es') : Known known (es ++ es') := by
  induction es generalizing known with
  | nil => exact h'.mono fun v => Or.rec id (fun hnone => nomatch hnone)
  | cons e es ih =>
    cases e with
    | use v => exact ⟨h.1, ih h.2 h'⟩
    | define v =>
      have hr : Known (fun w => known w ∨ w = v) es := h
      refine ih hr (h'.mono fun w => ?_)
      rintro (hw | hw)
      · exact Or.inl (Or.inl hw)
      · exact (mem_cons.mp hw).elim (fun heq => Or.inl (Or.inr heq)) Or.inr

theorem known_uses (h : ∀ v ∈ vs, known v) : Known known (vs.map .use) := by
  induction vs with
  | nil => trivial
  | cons v vs ih => exact ⟨h v (.head _), ih fun w hw => h w (.tail _ hw)⟩

theorem known_definitions : Known known (vs.map .define) := by
  induction vs generalizing known with
  | nil => trivial
  | cons v vs ih => exact ih

theorem Known.use (h : Known known es) (hv : .use v ∈ es) : known v ∨ .define v ∈ es := by
  induction es generalizing known with
  | nil => cases hv
  | cons e es ih =>
    cases e with
    | use w =>
      rcases mem_cons.mp hv with heq | hlater
      · cases heq
        exact .inl h.1
      · exact (ih h.2 hlater).imp_right (.tail _)
    | define w =>
      have hr : Known (fun u => known u ∨ u = w) es := h
      rcases ih hr ((mem_cons.mp hv).resolve_left (by simp)) with (hold | rfl) | hlater
      · exact .inl hold
      · exact .inr (.head _)
      · exact .inr (.tail _ hlater)

theorem Known.ordered (h : Known known es) (hnew : ∀ v, known v → .define v ∉ es)
    (honce : (defined es).Nodup) : Ordered es := by
  induction es generalizing known with
  | nil => exact .nil
  | cons e es ih =>
    cases e with
    | use v =>
      refine .cons (fun e he heq => hnew v h.1 (.tail _ (heq ▸ he)))
        (ih h.2 (fun w hw hmem => ?_) honce)
      exact hnew w hw (.tail _ hmem)
    | define v =>
      obtain ⟨hv, honce⟩ := nodup_cons.mp (show (v :: defined es).Nodup from honce)
      refine .cons (fun e he heq => hv (mem_defined.mpr (heq ▸ he))) (ih h ?_ honce)
      rintro w (hw | rfl) hmem
      · exact hnew w hw (.tail _ hmem)
      · exact hv (mem_defined.mpr hmem)

/-! ### Free values -/

section Free

variable {named : ValueId → Bool}

/-- What is named when the events have been met. -/
def met (named : ValueId → Bool) (es : List Event) (v : ValueId) : Bool :=
  named v || (used es ++ defined es).contains v

theorem met_append : met (met named es) es' = met named (es ++ es') := by
  funext v
  rw [Bool.eq_iff_iff]
  simp only [met, used_append, defined_append, Bool.or_eq_true, contains_iff_mem, mem_append]
  tauto

theorem free_append (h : ∀ v ∈ used es, v ∉ defined es') :
    free named (es ++ es') = free named es ++ free (met named es) es' := by
  have hfirst : (used es).filter (fun v => !named v && !(defined (es ++ es')).contains v) =
      (used es).filter fun v => !named v && !(defined es).contains v := by
    refine filter_congr fun v hv => ?_
    simp [h v hv]
  rw [free, used_append, filter_append, eraseDups_append, hfirst, free, free, removeAll,
    filter_filter]
  congr 2
  refine filter_congr fun v _ => ?_
  by_cases hv : v ∈ used es <;> by_cases hd : v ∈ defined es <;> cases hn : named v <;>
    simp [met, hv, hd, hn]

theorem free_use (v : ValueId) : free named [.use v] = if named v then [] else [v] := by
  cases h : named v <;> simp [free, used, defined, Event.used?, Event.defined?, h, eraseDups_cons]

theorem nodup_eraseDups (vs : List ValueId) : vs.eraseDups.Nodup := by
  induction hlen : vs.length using Nat.strong_induction_on generalizing vs with
  | _ length ih =>
    cases vs with
    | nil => exact .nil
    | cons v vs =>
      rw [eraseDups_cons]
      refine nodup_cons.mpr ⟨by simp [mem_eraseDups], ih _ ?_ _ rfl⟩
      have := length_filter_le (fun u => !u == v) vs
      rw [← hlen, length_cons]
      omega

end Free

end Lists

/-! ## Graphs that define every value once -/

/-- Everything in the graph is where it says it is, once, and the graph can be walked. -/
structure Proper (g : Graph) : Prop where
  coherent : g.Coherent
  root : ∀ n node, g.node? n = some node → Graph.root ∉ node.blocks
  nodes : ∀ b block, g.block? b = some block → block.nodes.Nodup
  params : ∀ b block, g.block? b = some block → block.params.Nodup
  outputs : ∀ n node, g.node? n = some node → node.outputs.Nodup
  blocks : ∀ n node, g.node? n = some node → node.blocks.Nodup
  walk : g.Walkable g.blocks.length Graph.root

section Proper

variable {g : Graph} {b : BlockId} {n m : NodeId} {node : Node} {block : Block} {v : ValueId}
  {depth more : Nat} {es : List Event}

/-! ### Reading a block -/

theorem nestedEvents_eq_some (h : g.nestedEvents inside b = some es) :
    ∃ block events, g.block? b = some block ∧ inside b = some events ∧
      es = block.params.map .define ++ (events ++ block.results.map .use) := by
  obtain ⟨block, hblock, h⟩ := Option.bind_eq_some_iff.mp h
  obtain ⟨events, hevs, h⟩ := Option.bind_eq_some_iff.mp h
  exact ⟨block, events, hblock, hevs, (Option.some.inj h).symm⟩

theorem nodeEvents_eq_some (h : g.nodeEvents inside n = some es) :
    ∃ node nested, g.node? n = some node ∧
      Forall₂ (fun b run => g.nestedEvents inside b = some run) node.blocks nested ∧
      es = node.inputs.map .use ++ (node.outputs.map .define ++ nested.flatten) := by
  obtain ⟨node, hn, h⟩ := Option.bind_eq_some_iff.mp h
  obtain ⟨nested, hnest, h⟩ := Option.bind_eq_some_iff.mp h
  exact ⟨node, nested, hn, forall₂_of_mapM hnest, (Option.some.inj h).symm⟩

theorem eventsWithin_eq_some (h : g.eventsWithin depth b = some es) :
    ∃ inside block runs, depth = inside + 1 ∧ g.block? b = some block ∧
      Forall₂ (fun n run => g.nodeEvents (g.eventsWithin inside) n = some run)
        block.nodes runs ∧ es = runs.flatten := by
  cases depth with
  | zero => cases h
  | succ inside =>
    obtain ⟨block, hblock, h⟩ := Option.bind_eq_some_iff.mp h
    obtain ⟨runs, hruns, h⟩ := Option.bind_eq_some_iff.mp h
    exact ⟨inside, block, runs, rfl, hblock, forall₂_of_mapM hruns, (Option.some.inj h).symm⟩

theorem Walkable.nestedEvents (h : g.Walkable depth b) :
    ∃ es, g.nestedEvents (g.eventsWithin depth) b = some es := by
  induction depth generalizing b with
  | zero =>
    obtain ⟨_, _, hdepth, -⟩ := h.block
    cases hdepth
  | succ depth ih =>
    obtain ⟨_, block, hdepth, hblock, hns⟩ := h.block
    obtain rfl := Nat.succ.inj hdepth
    obtain ⟨runs, hruns⟩ : ∃ runs, block.nodes.mapM
        (g.nodeEvents (g.eventsWithin depth)) = some runs := by
      refine exists_mapM fun n hn => ?_
      obtain ⟨node, hnode, hbs⟩ := hns n hn
      obtain ⟨nested, hruns⟩ := exists_mapM fun inner hin => ih (hbs inner hin)
      exact ⟨_, Option.bind_eq_some_iff.mpr ⟨node, hnode,
        Option.bind_eq_some_iff.mpr ⟨nested, hruns, rfl⟩⟩⟩
    have hevs : g.eventsWithin (depth + 1) b = some runs.flatten :=
      Option.bind_eq_some_iff.mpr ⟨block, hblock, Option.bind_eq_some_iff.mpr ⟨runs, hruns, rfl⟩⟩
    exact ⟨_, Option.bind_eq_some_iff.mpr ⟨block, hblock,
      Option.bind_eq_some_iff.mpr ⟨_, hevs, rfl⟩⟩⟩

theorem eventsWithin_mono (h : g.eventsWithin depth b = some es) (hle : depth ≤ more) :
    g.eventsWithin more b = some es := by
  induction more generalizing depth b es with
  | zero =>
    obtain rfl := Nat.le_zero.mp hle
    exact h
  | succ more ih =>
    obtain ⟨_, block, runs, rfl, hblock, hruns, rfl⟩ := eventsWithin_eq_some h
    refine Option.bind_eq_some_iff.mpr ⟨block, hblock, Option.bind_eq_some_iff.mpr ⟨runs, ?_, rfl⟩⟩
    refine mapM_of_forall₂ (hruns.imp fun n run hrun => ?_)
    obtain ⟨node, nested, hn, hnest, rfl⟩ := nodeEvents_eq_some hrun
    refine Option.bind_eq_some_iff.mpr ⟨node, hn, Option.bind_eq_some_iff.mpr ⟨nested, ?_, rfl⟩⟩
    refine mapM_of_forall₂ (hnest.imp fun inner run hrun => ?_)
    obtain ⟨block, events, hblock, hevs, rfl⟩ := nestedEvents_eq_some hrun
    exact Option.bind_eq_some_iff.mpr ⟨block, hblock,
      Option.bind_eq_some_iff.mpr ⟨events, ih hevs (Nat.le_of_succ_le_succ hle), rfl⟩⟩

/-- A block that can be reached is read as a part of the whole. -/
theorem nestedEvents_sublist (hb : g.Reachable b)
    (hall : g.nestedEvents (g.eventsWithin depth) root = some all) :
    ∃ inside ≤ depth, ∃ es, g.nestedEvents (g.eventsWithin inside) b = some es ∧
      es.Sublist all := by
  induction hb with
  | root => exact ⟨depth, le_rfl, all, hall, .refl _⟩
  | nested _ hblock hn hnode hin ih =>
    obtain ⟨_, hle, _, hes, hsub⟩ := ih
    obtain ⟨_, _, hb, hevs, rfl⟩ := nestedEvents_eq_some hes
    cases hblock.symm.trans hb
    obtain ⟨inside, _, runs, rfl, hagain, hruns, rfl⟩ := eventsWithin_eq_some hevs
    cases hblock.symm.trans hagain
    obtain ⟨run, hrun, heq⟩ := exists_left_of_forall₂ hruns.flip hn
    obtain ⟨_, nested, hnode', hnest, rfl⟩ := nodeEvents_eq_some heq
    cases hnode.symm.trans hnode'
    obtain ⟨es, hes, heq⟩ := exists_left_of_forall₂ hnest.flip hin
    refine ⟨inside, Nat.le_of_succ_le hle, es, heq, .trans ?_ hsub⟩
    calc es
      _ <+ nested.flatten := sublist_flatten_of_mem hes
      _ <+ _ := (sublist_append_right ..).trans (sublist_append_right ..)
      _ <+ runs.flatten := sublist_flatten_of_mem hrun
      _ <+ _ := (sublist_append_left ..).trans (sublist_append_right ..)

/-! ### Uses come after definitions -/

theorem known_flatten {bs : List BlockId} {R : BlockId → List Event → Prop}
    (h : Forall₂ R bs runs) (hknown : ∀ b ∈ bs, ∀ run, R b run → Known env run) :
    Known env runs.flatten := by
  induction h with
  | nil => trivial
  | cons hrun _ ih =>
    refine Known.append (hknown _ (.head _) _ hrun) ?_
    exact (ih fun b hb => hknown b (.tail _ hb)).mono fun _ => Or.inl

theorem InScope.known_nodes (hinside : ∀ {env b run}, g.InScope env (.block b) →
      g.nestedEvents inside b = some run → Known env run) (h : g.InScope env (.nodes ns results))
    (hruns : Forall₂ (fun n run => g.nodeEvents inside n = some run) ns runs) :
    Known env (runs.flatten ++ results.map .use) := by
  induction hruns generalizing env with
  | nil =>
    cases h with
    | done hres => exact known_uses hres
  | @cons n run ns runs hrun _ ih =>
    cases h with
    | @node _ _ node _ _ hn hins hbs _ _ hr =>
    obtain ⟨again, nested, hagain, hnest, rfl⟩ := nodeEvents_eq_some hrun
    cases hn.symm.trans hagain
    have hdeeper : Known env nested.flatten :=
      known_flatten hnest fun b hb run hrun => hinside (hbs b hb) hrun
    have hfirst :
        Known env (node.inputs.map .use ++ (node.outputs.map .define ++ nested.flatten)) :=
      (known_uses hins).append
        (known_definitions.append (hdeeper.mono fun _ hv => Or.inl (Or.inl hv)))
    rw [flatten_cons, append_assoc]
    refine hfirst.append ((ih hr).mono fun v => ?_)
    rintro (henv | hout)
    · exact Or.inl henv
    · exact Or.inr (by simp [hout])

theorem InScope.known (h : g.InScope env (.block b))
    (hrun : g.nestedEvents (g.eventsWithin depth) b = some run) : Known env run := by
  induction depth generalizing b env run with
  | zero =>
    obtain ⟨_, _, -, hevs, -⟩ := nestedEvents_eq_some hrun
    cases hevs
  | succ depth ih =>
    obtain ⟨block, _, hblock, hevs, rfl⟩ := nestedEvents_eq_some hrun
    obtain ⟨_, again, runs, hdepth, hagain, hruns, rfl⟩ := eventsWithin_eq_some hevs
    obtain rfl := Nat.succ.inj hdepth
    cases hblock.symm.trans hagain
    cases h with
    | block hagain' hns =>
    cases hblock.symm.trans hagain'
    refine known_definitions.append ((hns.known_nodes (fun h => ih h) hruns).mono fun v hv => ?_)
    simpa using hv

/-! ### Each value is defined once -/

def paramsOf (g : Graph) (b : BlockId) : List ValueId := (g.block? b).elim [] Block.params

/-- What a node defines: its outputs, and the parameters of its blocks. -/
def made (g : Graph) (n : NodeId) : List ValueId :=
  (g.node? n).elim [] fun node => node.outputs ++ node.blocks.flatMap g.paramsOf

theorem perm_flatten {S : α → List NodeId → Prop} {walks : List (List NodeId)}
    {params : α → List ValueId} (h : Forall₂ R as runs) (hwalks : Forall₂ S as walks)
    (hperm : ∀ a run walk, R a run → S a walk →
      (defined run).Perm (params a ++ walk.flatMap g.made)) :
    (defined runs.flatten).Perm (as.flatMap params ++ walks.flatten.flatMap g.made) := by
  induction h generalizing walks with
  | nil =>
    cases hwalks
    exact .nil
  | @cons a run as runs hrun _ ih =>
    cases hwalks with
    | @cons _ walk _ walks hwalk hwalks =>
    simp only [flatten_cons, defined_append, flatMap_cons, flatMap_append]
    calc defined run ++ defined runs.flatten
      _ ~ (params a ++ walk.flatMap g.made) ++
          (as.flatMap params ++ walks.flatten.flatMap g.made) :=
        (hperm a run walk hrun hwalk).append (ih hwalks)
      _ ~ _ := by
        simp only [append_assoc]
        exact (perm_append_comm_assoc ..).append_left _

/-- The events of a block define what the nodes of the walk through it define. -/
theorem defined_perm (h : g.eventsWithin depth b = some es)
    (hwalk : g.walkWithin depth b = some nodes) : (defined es).Perm (nodes.flatMap g.made) := by
  induction depth generalizing b es nodes with
  | zero => cases hwalk
  | succ depth ih =>
    obtain ⟨_, block, runs, hdepth, hblock, hruns, rfl⟩ := eventsWithin_eq_some h
    obtain rfl := Nat.succ.inj hdepth
    obtain ⟨_, walks, hagain, hwalks, rfl⟩ := walkWithin_succ hwalk
    cases hblock.symm.trans hagain
    have hnone : block.nodes.flatMap (fun _ => ([] : List ValueId)) = [] :=
      flatMap_eq_nil_iff.mpr fun _ _ => rfl
    rw [← nil_append (walks.flatten.flatMap g.made), ← hnone]
    refine perm_flatten hruns hwalks ?_
    rintro n run _ hrun ⟨node, walks, hnode, hwalks, rfl⟩
    obtain ⟨_, nested, hagain, hnest, rfl⟩ := nodeEvents_eq_some hrun
    cases hnode.symm.trans hagain
    simp only [defined_append, defined_map_define, defined_map_use, nil_append, flatMap_cons, made,
      hnode, Option.elim_some, append_assoc]
    refine .append_left _ (perm_flatten hnest hwalks fun inner run walk hrun hwalk => ?_)
    obtain ⟨block, events, hblock, hevs, rfl⟩ := nestedEvents_eq_some hrun
    simpa [paramsOf, hblock] using (ih hevs hwalk).append_left block.params

theorem Coherent.paramOf_of_mem (hc : g.Coherent) (hv : v ∈ g.paramsOf b) : g.ParamOf v b := by
  cases hb : g.block? b with
  | none => simp [paramsOf, hb] at hv
  | some block => exact hc.param b block v hb (by simpa [paramsOf, hb] using hv)

/-- A value says which node defines it. -/
theorem Coherent.of_mem_made (hc : g.Coherent) (hv : v ∈ g.made n) : g.OutputOf v n ∨
    ∃ b, g.ParamOf v b ∧ ∃ node, g.node? n = some node ∧ b ∈ node.blocks := by
  cases hn : g.node? n with
  | none => simp [made, hn] at hv
  | some node =>
    simp only [made, hn, Option.elim_some, mem_append, mem_flatMap] at hv
    rcases hv with hout | ⟨b, hb, hp⟩
    · exact Or.inl (hc.output n node v hn hout)
    · exact Or.inr ⟨b, hc.paramOf_of_mem hp, node, rfl, hb⟩

theorem Coherent.eq_of_mem_made (hc : g.Coherent) (hn : v ∈ g.made n) (hm : v ∈ g.made m) :
    n = m := by
  rcases hc.of_mem_made hn with hout | ⟨b, hp, node, hnode, hb⟩
  · rcases hc.of_mem_made hm with hout' | ⟨_, hp, -⟩
    · exact hout.unique hout'
    · exact absurd hp hout.not_paramOf
  · rcases hc.of_mem_made hm with hout | ⟨_, hp', node', hnode', hb'⟩
    · exact absurd hp hout.not_paramOf
    · obtain rfl := hp.unique hp'
      exact blockOwner_unique (hc.nested n node b hnode hb) (hc.nested m node' b hnode' hb')

theorem Coherent.exists_of_mem_made (hc : g.Coherent) (hv : v ∈ g.made n) :
    ∃ value, g.value? v = some value := by
  rcases hc.of_mem_made hv with ⟨value, -, hvalue, -⟩ | ⟨b, ⟨value, -, hvalue, -⟩, -⟩
  · exact ⟨value, hvalue⟩
  · exact ⟨value, hvalue⟩

theorem Proper.nodup_made (h : g.Proper) (n : NodeId) : (g.made n).Nodup := by
  cases hn : g.node? n with
  | none => simp [made, hn]
  | some node =>
    simp only [made, hn, Option.elim_some]
    refine nodup_append'.mpr ⟨h.outputs n node hn, nodup_flatMap.mpr ⟨fun b _ => ?_, ?_⟩, ?_⟩
    · cases hb : g.block? b with
      | none => simp [paramsOf, hb]
      | some block => simpa [paramsOf, hb] using h.params b block hb
    · refine (h.blocks n node hn).imp fun hne v hv hv' => hne ?_
      exact (h.coherent.paramOf_of_mem hv).unique (h.coherent.paramOf_of_mem hv')
    · intro v hout hv
      obtain ⟨b, -, hp⟩ := mem_flatMap.mp hv
      exact OutputOf.not_paramOf (h.coherent.output n node v hn hout) (h.coherent.paramOf_of_mem hp)

theorem Proper.nodup_defined (h : g.Proper)
    (hes : g.nestedEvents (g.eventsWithin g.blocks.length) Graph.root = some es) :
    (defined es).Nodup ∧ ∀ v ∈ defined es, ∃ value, g.value? v = some value := by
  obtain ⟨block, events, hblock, hevs, rfl⟩ := nestedEvents_eq_some hes
  obtain ⟨nodes, hwalk⟩ := h.walk
  have hperm := defined_perm hevs hwalk
  have harranged : g.Arranged :=
    ⟨h.coherent.placed, h.coherent.nested, h.nodes, h.blocks⟩
  simp only [defined_append, defined_map_define, defined_map_use, append_nil]
  refine ⟨nodup_append'.mpr ⟨h.params _ _ hblock, hperm.nodup_iff.mpr (nodup_flatMap.mpr
    ⟨fun n _ => h.nodup_made n, ?_⟩), fun v hv hv' => ?_⟩, fun v hv => ?_⟩
  · refine (harranged.walk_nodup hwalk).imp fun hne v hv hv' => ?_
    exact hne (h.coherent.eq_of_mem_made hv hv')
  · -- the root is nested in no node
    obtain ⟨n, -, hmade⟩ := mem_flatMap.mp (hperm.subset hv')
    rcases h.coherent.of_mem_made hmade with hout | ⟨c, hp, node, hn, hc⟩
    · exact hout.not_paramOf (h.coherent.param _ _ v hblock hv)
    · exact h.root n node hn (hp.unique (h.coherent.param _ _ v hblock hv) ▸ hc)
  · rcases mem_append.mp hv with hp | hinside
    · obtain ⟨value, -, hvalue, -⟩ := h.coherent.param _ _ v hblock hp
      exact ⟨value, hvalue⟩
    · obtain ⟨n, -, hmade⟩ := mem_flatMap.mp (hperm.subset hinside)
      exact h.coherent.exists_of_mem_made hmade

/-! ### Reachable blocks -/

/-- A block is read in order, and everything in it happens to values of the graph. -/
theorem Proper.ordered (h : g.Proper) (hscop : g.WellScoped) (hb : g.Reachable b)
    (hblock : g.block? b = some block) : ∃ es, g.events b = some es ∧
      Ordered (block.params.map .define ++ (es ++ block.results.map .use)) ∧
      ∀ e ∈ block.params.map Event.define ++ (es ++ block.results.map .use),
        ∃ value, g.value? e.value = some value := by
  have hsc : g.InScope (fun _ => False) (.block Graph.root) :=
    inScope_of_wellScoped h.coherent h.nodes hscop h.root h.walk
  obtain ⟨all, hall⟩ := h.walk.nestedEvents
  obtain ⟨honce, hpresent⟩ := h.nodup_defined hall
  have hknown := hsc.known hall
  obtain ⟨inside, hle, es, hes, hsub⟩ := nestedEvents_sublist hb hall
  obtain ⟨_, events, hagain, hevs, rfl⟩ := nestedEvents_eq_some hes
  cases hblock.symm.trans hagain
  refine ⟨events, eventsWithin_mono hevs hle, (hknown.ordered (by simp) honce).sublist hsub,
    fun e he => hpresent e.value (mem_defined.mpr ?_)⟩
  cases e with
  | use v => exact (hknown.use (hsub.subset he)).resolve_left id
  | define v => exact hsub.subset he

end Proper

end Flowgraph.Graph
