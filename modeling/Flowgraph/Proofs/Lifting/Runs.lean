import Flowgraph.Proofs.Lifting.Steps

/-!
# The steps are run

Lifting a graph takes the steps of `Lifting` (`Lift.liftBlock_run`), and leaves nothing unlifted:
where it has been, no fork of a closure remains, and every closure carries its body and no block.
-/

namespace Flowgraph

open List Option

open Flowgraph.Graph

variable {b body : BlockId} {n : NodeId} {depth : Nat} {node node' fork : Node} {answer : Unit}

theorem Settled.progress (h : Settled node) (hprog : NodeProgress node node') : Settled node' := by
  have hop : node'.op = node.op := hprog.op.resolve_right fun hfork => h.1 hfork.1
  refine ⟨hop ▸ h.1, fun hcl => ⟨?_, hprog.subgraph (h.2 (hop ▸ hcl)).2⟩⟩
  rcases hprog.blocks with heq | ⟨-, hnone⟩
  · exact heq.trans (h.2 (hop ▸ hcl)).1
  · exact hnone

theorem SettledFrom.progress {g g' : Graph} (h : SettledFrom g b)
    (hprog : Progress g g') : SettledFrom g' b := by
  induction h with
  | @intro b block hb hns _ ih =>
    obtain ⟨block', hb', hleft⟩ := hprog.exists_block hb
    refine .intro hb' (fun n hn node' hn' => ?_) (fun n hn node' hn' hop inner hin => ?_)
    · obtain ⟨node, hnode, hprogresses⟩ := hprog.node n node' hn'
      exact (hns n (hleft.nodes.subset hn) node hnode).progress hprogresses
    · obtain ⟨node, hnode, hprogresses⟩ := hprog.node n node' hn'
      have hop' : node.op ≠ .fork := by
        rcases hprogresses.op with heq | ⟨-, hfork⟩
        · exact heq ▸ hop
        · exact absurd hfork hop
      rcases hprogresses.blocks with heq | ⟨-, hnone⟩
      · exact ih n (hleft.nodes.subset hn) node hnode hop' inner (heq ▸ hin)
      · rw [hnone] at hin
        cases hin

namespace Lift

variable {α β : Type} {g g' : Graph} {nodes : List NodeId} {answer : PUnit}

/-! ## The parts of a run -/

theorem bind_iff {action : Lift α} {f : α → Lift β} {answer : β} :
    (action >>= f) g = .ok (answer, g') ↔
      ∃ a middle, action g = .ok (a, middle) ∧ f a middle = .ok (answer, g') := by
  show Except.bind (action g) (fun p => f p.1 p.2) = _ ↔ _
  cases action g with
  | error failure => simp [Except.bind]
  | ok p =>
    obtain ⟨a, middle⟩ := p
    simp [Except.bind]

alias ⟨bind_ok, _⟩ := bind_iff

theorem pure_iff {a answer : α} : (pure a : Lift α) g = .ok (answer, g') ↔ a = answer ∧ g = g' := by
  show Except.ok (a, g) = _ ↔ _
  simp

alias ⟨pure_ok, _⟩ := pure_iff

theorem query_ok {question : Graph → Option α} {answer : α} :
    query question g = .ok (answer, g') ↔ question g = some answer ∧ g = g' := by
  unfold query
  rw [bind_iff]
  constructor
  · rintro ⟨_, _, hget, hrun⟩
    cases hget
    cases hquestion : question g with simp only [hquestion] at hrun
    | none => cases hrun
    | some found =>
      obtain ⟨rfl, rfl⟩ := pure_ok hrun
      exact ⟨rfl, rfl⟩
  · rintro ⟨hquestion, rfl⟩
    exact ⟨g, g, rfl, by rw [hquestion]; rfl⟩

theorem update_ok {change : Graph → Option Graph} :
    update change g = .ok (answer, g') ↔ change g = some g' := by
  unfold update
  rw [bind_iff]
  constructor
  · rintro ⟨changed, middle, hquery, hset⟩
    obtain ⟨hch, rfl⟩ := query_ok.mp hquery
    cases hset
    exact hch
  · intro hch
    exact ⟨g', g, query_ok.mpr ⟨hch, rfl⟩, rfl⟩

theorem liftM_ok {result : Except Failure α} {answer : α} :
    (liftM result : Lift α) g = .ok (answer, g') ↔ result = .ok answer ∧ g = g' := by
  show Except.bind result (fun a => .ok (a, g)) = _ ↔ _
  cases result <;> simp [Except.bind]

theorem fail_ok {cause : InternalCause} {answer : α} :
    ¬ (fail cause : Lift α) g = .ok (answer, g') :=
  fun h => nomatch h

theorem closureNode?_eq_some {v : ValueId} (h : closureNode? g v = some (some n)) :
    g.OutputOf v n ∧ ∃ node, g.node? n = some node ∧ node.op = .closure := by
  obtain ⟨producer, hprod, h⟩ := bind_eq_some_iff.mp h
  obtain ⟨value, hv, horig⟩ := bind_eq_some_iff.mp hprod
  cases hproduced : value.origin with rw [hproduced] at horig
  | param b slot =>
    cases horig
    cases h
  | output m slot =>
    cases horig
    obtain ⟨node, hn, h⟩ := bind_eq_some_iff.mp h
    split at h
    next hop =>
      cases h
      exact ⟨⟨value, slot, hv, hproduced⟩, node, hn, hop⟩
    next => cases h

/-! ## Forks -/

theorem lowerFork_run (hemptied : g.Emptied) (hpl : g.Placed n)
    (hfork : g.node? n = some fork) (hop : fork.op = .forkClosure)
    (h : lowerFork n g = .ok (answer, g')) : Lifting g g' ∧ Firm g g' ∧ g'.Emptied ∧
      ∃ fork', g'.node? n = some fork' ∧ fork'.op = .fork := by
  obtain ⟨again, _, hquery, hcases⟩ := bind_ok h
  obtain ⟨hagain, rfl⟩ := query_ok.mp hquery
  cases hfork.symm.trans hagain
  cases hins : fork.inputs with
  | nil =>
    rw [hins] at hcases
    exact absurd hcases fail_ok
  | cons closure args =>
  rw [hins] at hcases
  obtain ⟨producer?, _, hquery, hprod⟩ := bind_ok hcases
  obtain ⟨hcl, rfl⟩ := query_ok.mp hquery
  cases producer? with
  | none =>
    obtain ⟨name, _, -, hfail⟩ := bind_ok hprod
    exact absurd hfail fail_ok
  | some producer =>
  obtain ⟨horig, node, hn, hnodeOp⟩ := closureNode?_eq_some hcl
  obtain ⟨node', _, hquery, hsub⟩ := bind_ok hprod
  obtain ⟨hn', rfl⟩ := query_ok.mp hquery
  cases hn.symm.trans hn'
  cases hcarried : node.subgraph with
  | none =>
    rw [hcarried] at hsub
    exact absurd hsub fail_ok
  | some subgraph =>
  rw [hcarried] at hsub
  obtain ⟨_, middle, hupdate, hremaining⟩ := bind_ok hsub
  obtain rfl := modifyNode_eq_some (update_ok.mp hupdate)
  obtain ⟨remaining, _, hquery, hdrop⟩ := bind_ok hremaining
  obtain ⟨huses, rfl⟩ := query_ok.mp hquery
  -- the closure goes with its last use
  have hdrops : Drops (g.lowered n (args ++ node.inputs) subgraph) g' closure producer := by
    cases remaining with
    | nil => exact Or.inr ⟨huses, removeNode_eq_some (update_ok.mp hdrop)⟩
    | cons => exact Or.inl (pure_ok hdrop).2.symm
  have hforks : g.ForkOf n fork closure args producer node subgraph :=
    ⟨hfork, hop, hins, horig, hn, hnodeOp, hcarried⟩
  obtain ⟨hsteady, hstill⟩ := hforks.firm hemptied hdrops
  refine ⟨.lower hpl hforks hdrops (.refl g'), hsteady, hstill, ?_⟩
  have hlow : (g.lowered n (args ++ node.inputs) subgraph).node? n =
      some { fork with op := .fork, inputs := args ++ node.inputs, subgraph := some subgraph } := by
    simp [lowered, hfork]
  rcases hdrops with rfl | ⟨-, rfl⟩
  · exact ⟨_, hlow, rfl⟩
  · exact ⟨_, (node?_removed ..).trans (if_neg hforks.ne.symm) |>.trans hlow, rfl⟩

theorem forksLifted_eq_some_true (h : forksLifted g n = some true) :
    ∃ node, g.node? n = some node ∧ node.op = .forkClosure := by
  obtain ⟨node, hn, h⟩ := bind_eq_some_iff.mp h
  split at h
  next hop _ => exact ⟨node, hn, hop⟩
  next => cases h

theorem exists_of_mem_walkWithin (h : g.walkWithin depth b = some nodes)
    (hreach : g.Reachable b) (hn : n ∈ nodes) : g.Placed n := by
  induction depth generalizing b nodes with
  | zero => cases h
  | succ depth ih =>
    obtain ⟨block, hb, hwalk⟩ := bind_eq_some_iff.mp h
    obtain ⟨runs, hruns, heq⟩ := bind_eq_some_iff.mp hwalk
    cases heq
    obtain ⟨run, hrun, hin⟩ := mem_flatten.mp hn
    obtain ⟨m, hm, hanswer⟩ := Ledger.exists_of_forall₂ (forall₂_of_mapM hruns).flip hrun
    obtain ⟨node, hnode, hanswer⟩ := bind_eq_some_iff.mp hanswer
    obtain ⟨nested, hnest, hanswer⟩ := bind_eq_some_iff.mp hanswer
    cases hanswer
    rcases mem_cons.mp hin with rfl | hinside
    · exact ⟨b, block, hreach, hb, hm⟩
    · obtain ⟨inside, hmem, hin⟩ := mem_flatten.mp hinside
      obtain ⟨inner, hinner, hwalk⟩ := Ledger.exists_of_forall₂ (forall₂_of_mapM hnest).flip hmem
      exact ih hwalk (.nested hreach hb hm hnode hinner) hin

theorem lowerForks_run (hemptied : g.Emptied)
    (hpl : ∀ n ∈ nodes, ∀ node, g.node? n = some node → node.op = .forkClosure →
      g.Placed n) (h : (nodes.forM fun n => do
      if ← query fun g => forksLifted g n then lowerFork n : Lift PUnit) g = .ok (answer, g')) :
    Lifting g g' ∧ Firm g g' ∧ g'.Emptied := by
  induction nodes generalizing g with
  | nil =>
    obtain ⟨-, rfl⟩ := pure_ok h
    exact ⟨.refl g, .refl g, hemptied⟩
  | cons n rest ih =>
    obtain ⟨_, middle, hfirst, hr⟩ := bind_ok h
    obtain ⟨forks, _, hquery, hfirst⟩ := bind_ok hfirst
    obtain ⟨hforks, rfl⟩ := query_ok.mp hquery
    cases forks with
    | false =>
      obtain ⟨-, rfl⟩ := pure_ok hfirst
      exact ih hemptied (fun m hm => hpl m (mem_cons_of_mem n hm)) hr
    | true =>
      obtain ⟨fork, hfork, hop⟩ := forksLifted_eq_some_true hforks
      obtain ⟨hlift, hsteady, hstill, -⟩ := lowerFork_run hemptied
        (hpl n (.head _) fork hfork hop) hfork hop hfirst
      have hplaced' : ∀ m ∈ rest, ∀ node, middle.node? m = some node →
          node.op = .forkClosure → middle.Placed m := by
        intro m hm node' hn' hop'
        obtain ⟨node, hn, hns⟩ := hsteady.node m node' hn'
        have hs : node.op = .forkClosure := by
          rcases hns.op with heq | ⟨hfork, -⟩
          · exact heq ▸ hop'
          · exact hfork
        exact hsteady.placed hn (by simp [hs]) (hpl m (mem_cons_of_mem n hm) node hn hs)
      obtain ⟨hlifting', hsteady', hlast⟩ := ih hstill hplaced' hr
      exact ⟨hlift.trans hlifting', hsteady.trans hsteady', hlast⟩

/-! ## Closures -/

/-- A copy has no closure that keeps both its body and its block, if the source has none. -/
theorem emptied_copied {source copy : Graph} {captured : List ValueId} {l : Ledger}
    (h : Copied source copy body captured l) (hemptied : source.Emptied) : copy.Emptied := by
  intro m made hm hop hsome
  obtain ⟨n, node, -, hn, hcopy⟩ := h.node m made hm
  have hnone := hemptied n node hn (hcopy.op ▸ hop) (hcopy.subgraph ▸ hsome)
  have hbs := hcopy.blocks
  rw [hnone] at hbs
  exact forall₂_nil_right_iff.mp hbs

theorem liftClosure_run {liftRoot : Lift Unit} (hemptied : g.Emptied) (hroot : ∀ {extracted
      subgraph answer}, extracted.Emptied → liftRoot extracted = .ok (answer, subgraph) → Lifting
      extracted subgraph ∧ SettledFrom subgraph root) (hnode : g.node? n = some node)
    (hop : node.op = .closure) (hpl : node.blocks ≠ [] → g.Placed n)
    (h : liftClosure liftRoot n g = .ok (answer, g')) :
    Lifting g g' ∧ ∃ node', g'.node? n = some node' ∧ Settled node' := by
  obtain ⟨again, _, hquery, hcases⟩ := bind_ok h
  obtain ⟨hagain, rfl⟩ := query_ok.mp hquery
  cases hnode.symm.trans hagain
  cases hbs : node.blocks with
  | nil =>
    rw [hbs] at hcases
    exact absurd hcases fail_ok
  | cons body others =>
  rw [hbs] at hcases
  obtain ⟨_, middle, hforks, hextracting⟩ := bind_ok hcases
  obtain ⟨nodes, _, hquery, hforks⟩ := bind_ok hforks
  obtain ⟨hwalk, rfl⟩ := query_ok.mp hquery
  have hbody : g.Reachable body := by
    obtain ⟨b, block, hreach, hb, hn⟩ := hpl (by simp [hbs])
    exact .nested hreach hb hn hnode (hbs ▸ (.head _))
  obtain ⟨hlifting, hsteady, hstill⟩ := lowerForks_run hemptied
    (fun m hm _ _ _ => exists_of_mem_walkWithin hwalk hbody hm) hforks
  obtain ⟨⟨extracted, captured⟩, _, hquery, hin⟩ := bind_ok hextracting
  obtain ⟨hextract, rfl⟩ := query_ok.mp hquery
  have hextracts := Copying.extractBody_run hextract
  -- The closure keeps its block and its place while the forks in its body are lowered.
  obtain ⟨node', hnode', hprog⟩ := hsteady.exists_node hnode
  have hbs' : node'.blocks = body :: others := (hsteady.kept n _ _ hnode hnode').trans hbs
  have hop' : node'.op = .closure := by
    rcases hprog.op with heq | ⟨hfork, -⟩
    · exact heq.trans hop
    · cases hop.symm.trans hfork
  have hplaced' : middle.Placed n := by
    obtain ⟨b, block, hreach, hb, hn⟩ := hpl (by simp [hbs])
    obtain ⟨block', hb', hleft⟩ := hsteady.exists_block hb
    refine ⟨b, block', hsteady.reachable hreach, hb', ?_⟩
    rcases hleft.left n hn with hn' | ⟨gone, hgone, -, hnone⟩
    · exact hn'
    · cases hnode'.symm.trans hgone
      cases hnone.symm.trans hbs'
  obtain ⟨l, -, hmir⟩ := hextracts.mirrorsBody
  obtain ⟨⟨_, subgraph⟩, _, hlift, hupdate⟩ := bind_ok hin
  obtain ⟨hrun, rfl⟩ := liftM_ok.mp hlift
  obtain rfl := modifyNode_eq_some (update_ok.mp hupdate)
  obtain ⟨hinside, hset⟩ := hroot (emptied_copied hmir.copied hstill) hrun
  refine ⟨hlifting.trans (.lift hplaced' hnode' hop' hbs' hextracts hinside hset (.refl _)), ?_⟩
  refine ⟨{ node' with inputs := captured, blocks := [], subgraph := some subgraph }, ?_, ?_, ?_⟩
  · simp [hnode']
  · simp [hop']
  · simp

/-! ## Blocks -/

/-- The block can be reached without passing through a closure. -/
inductive Open (g : Graph) : BlockId → Prop
  | root : Open g root
  | nested {b inner : BlockId} {block : Block} {n : NodeId} {node : Node} :
      Open g b → g.block? b = some block → n ∈ block.nodes → g.node? n = some node →
      node.op ≠ .closure → inner ∈ node.blocks → Open g inner

theorem Open.reachable (h : Open g b) : g.Reachable b := by
  induction h with
  | root => exact .root
  | nested _ hb hn hnode _ hin ih => exact .nested ih hb hn hnode hin

theorem Open.progress (h : Open g b) (hprog : Progress g g') : Open g' b := by
  induction h with
  | root => exact .root
  | @nested _ inner _ n node _ hb hn hnode hop hin ih =>
    obtain ⟨block', hb', hleft⟩ := hprog.exists_block hb
    obtain ⟨node', hnode', hns⟩ := hprog.exists_node hnode
    have hop' : node'.op ≠ .closure := by
      rcases hns.op with heq | ⟨-, hfork⟩
      · exact heq ▸ hop
      · simp [hfork]
    have hinner' : inner ∈ node'.blocks := by
      rcases hns.blocks with heq | ⟨hcl, -⟩
      · exact heq ▸ hin
      · exact absurd hcl hop
    rcases hleft.left n hn with hn' | ⟨again, hagain, hcl, -⟩
    · exact .nested ih hb' hn' hnode' hop' hinner'
    · cases hnode'.symm.trans hagain
      exact absurd hcl hop'

theorem liftBlocks_run {lift : BlockId → Lift Unit} {blocks : List BlockId}
    (hlift : ∀ {g g' b answer}, g.Emptied → Open g b →
      lift b g = .ok (answer, g') → Lifting g g' ∧ SettledFrom g' b)
    (hemptied : g.Emptied) (hopen : ∀ b ∈ blocks, Open g b)
    (h : blocks.forM lift g = .ok (answer, g')) :
    Lifting g g' ∧ ∀ b ∈ blocks, SettledFrom g' b := by
  induction blocks generalizing g with
  | nil =>
    obtain ⟨-, rfl⟩ := pure_ok h
    exact ⟨.refl g, by simp⟩
  | cons b rest ih =>
    obtain ⟨_, middle, hfirst, hr⟩ := bind_ok h
    obtain ⟨hlifting, hset⟩ := hlift hemptied (hopen b (.head _)) hfirst
    obtain ⟨hprog, hstill⟩ := hlifting.progress hemptied
    obtain ⟨hlifting', hsettled'⟩ := ih hstill
      (fun c hc => (hopen c (mem_cons_of_mem b hc)).progress hprog) hr
    refine ⟨hlifting.trans hlifting', fun c hc => ?_⟩
    rcases mem_cons.mp hc with rfl | hlater
    · exact hset.progress (hlifting'.progress hstill).1
    · exact hsettled' c hlater

/-- The node is settled, and so are the blocks nested in it. -/
def SettledAt (g : Graph) (n : NodeId) : Prop :=
  ∀ node, g.node? n = some node → Settled node ∧
    (node.op ≠ .fork → ∀ inner ∈ node.blocks, SettledFrom g inner)

theorem SettledAt.progress (h : SettledAt g n) (hprog : Progress g g') : SettledAt g' n := by
  intro node' hn'
  obtain ⟨node, hn, hns⟩ := hprog.node n node' hn'
  obtain ⟨hset, hnest⟩ := h node hn
  refine ⟨hset.progress hns, fun hop inner hin => ?_⟩
  have hop' : node.op ≠ .fork := by
    rcases hns.op with heq | ⟨-, hfork⟩
    · exact heq ▸ hop
    · exact absurd hfork hop
  rcases hns.blocks with heq | ⟨-, hnone⟩
  · exact (hnest hop' inner (heq ▸ hin)).progress hprog
  · rw [hnone] at hin
    cases hin

/-- What is done with a node depends on its operation. -/
def atTurn (op : Op) (closure fork other : Lift Unit) : Lift Unit :=
  match op with
  | .closure => closure
  | .forkClosure => fork
  | _ => other

theorem atTurn_of_ne {op : Op} (hcl : op ≠ .closure) (hfork : op ≠ .forkClosure)
    (closure fork other : Lift Unit) : atTurn op closure fork other = other := by
  unfold atTurn
  split <;> simp_all

/-- One node of a block, at its turn. -/
def liftNode (depth : Nat) (n : NodeId) : Lift Unit := do
  let node ← query fun g => g.node? n
  atTurn node.op (liftClosure (liftBlock depth root) n) (lowerFork n)
    (node.blocks.forM (liftBlock depth))

theorem liftNode_run {block : Block} (hlift : ∀ {g g' b answer}, g.Emptied → Open g b →
      liftBlock depth b g = .ok (answer, g') → Lifting g g' ∧ SettledFrom g' b)
    (hemptied : g.Emptied) (hopen : Open g b) (hb : g.block? b = some block)
    (hpl : n ∈ block.nodes ∨ ∃ node, g.node? n = some node ∧ node.op = .closure ∧ node.blocks = [])
    (h : liftNode depth n g = .ok (answer, g')) : Lifting g g' ∧ SettledAt g' n := by
  obtain ⟨node, _, hquery, hcases⟩ := bind_ok h
  obtain ⟨hnode, rfl⟩ := query_ok.mp hquery
  by_cases hcl : node.op = .closure
  · rw [hcl] at hcases
    -- only a closure that was lifted before may have left its block
    have hstd : node.blocks ≠ [] → g.Placed n := by
      intro hsome
      rcases hpl with hn | ⟨gone, hgone, -, hnone⟩
      · exact ⟨b, block, hopen.reachable, hb, hn⟩
      · cases hnode.symm.trans hgone
        exact absurd hnone hsome
    obtain ⟨hlifting, node', hn', hset⟩ := liftClosure_run hemptied
      (fun hinside hrun => hlift hinside .root hrun) hnode hcl hstd hcases
    refine ⟨hlifting, fun again hagain => ?_⟩
    cases hn'.symm.trans hagain
    refine ⟨hset, fun _ inner hin => ?_⟩
    have hprog := (hlifting.progress hemptied).1
    obtain ⟨before, hbef, hns⟩ := hprog.node n node' hn'
    cases hnode.symm.trans hbef
    have hop' : node'.op = .closure := by
      rcases hns.op with heq | ⟨hfork, -⟩
      · exact heq.trans hcl
      · cases hcl.symm.trans hfork
    rw [(hset.2 hop').1] at hin
    cases hin
  by_cases hfork : node.op = .forkClosure
  · rw [hfork] at hcases
    have hstd : g.Placed n := by
      rcases hpl with hn | ⟨gone, hgone, hop, -⟩
      · exact ⟨b, block, hopen.reachable, hb, hn⟩
      · cases hnode.symm.trans hgone
        exact absurd hop hcl
    obtain ⟨hlifting, -, -, fork', hfork', hop'⟩ :=
      lowerFork_run hemptied hstd hnode hfork hcases
    refine ⟨hlifting, fun again hagain => ?_⟩
    cases hfork'.symm.trans hagain
    exact ⟨⟨by simp [hop'], by simp [hop']⟩, fun hne => absurd hop' hne⟩
  · have hnest : node.blocks.forM (liftBlock depth) g = .ok (answer, g') :=
      (congrFun (atTurn_of_ne hcl hfork _ _ _) g).symm.trans hcases
    rcases hpl with hn | ⟨gone, hgone, hop, -⟩
    · obtain ⟨hlifting, hset⟩ := liftBlocks_run hlift hemptied
        (fun inner hin => .nested hopen hb hn hnode hcl hin) hnest
      refine ⟨hlifting, fun node' hn' => ?_⟩
      obtain ⟨before, hbef, hns⟩ := (hlifting.progress hemptied).1.node n node' hn'
      cases hnode.symm.trans hbef
      have hop' : node'.op = node.op := hns.op.resolve_right fun hboth => hfork hboth.1
      have hbs' : node'.blocks = node.blocks :=
        hns.blocks.resolve_right fun hboth => hcl hboth.1
      exact ⟨⟨hop' ▸ hfork, fun hop => absurd (hop' ▸ hop) hcl⟩,
        fun _ inner hin => hset inner (hbs' ▸ hin)⟩
    · cases hnode.symm.trans hgone
      exact absurd hop hcl

theorem liftNodes_run (hlift : ∀ {g g' b answer}, g.Emptied →
      Open g b → liftBlock depth b g = .ok (answer, g') → Lifting g g' ∧
      SettledFrom g' b) (hemptied : g.Emptied) (hopen : Open g b) (hpl : ∃ block,
      g.block? b = some block ∧ ∀ n ∈ nodes, n ∈ block.nodes ∨ ∃ node, g.node? n = some
      node ∧ node.op = .closure ∧ node.blocks = [])
    (h : nodes.forM (liftNode depth) g = .ok (answer, g')) :
    Lifting g g' ∧ ∀ n ∈ nodes, SettledAt g' n := by
  induction nodes generalizing g with
  | nil =>
    obtain ⟨-, rfl⟩ := pure_ok h
    exact ⟨.refl g, by simp⟩
  | cons n rest ih =>
    obtain ⟨block, hb, hns⟩ := hpl
    obtain ⟨_, middle, hfirst, hr⟩ := bind_ok h
    obtain ⟨hlifting, hset⟩ := liftNode_run hlift hemptied hopen hb (hns n (.head _)) hfirst
    obtain ⟨hprog, hstill⟩ := hlifting.progress hemptied
    obtain ⟨block', hb', hleft⟩ := hprog.exists_block hb
    have hplaced' : ∀ m ∈ rest, m ∈ block'.nodes ∨
        ∃ node, middle.node? m = some node ∧ node.op = .closure ∧ node.blocks = [] := by
      intro m hm
      rcases hns m (mem_cons_of_mem n hm) with hin | ⟨node, hn, hop, hnone⟩
      · exact hleft.left m hin
      · obtain ⟨node', hn', hns⟩ := hprog.exists_node hn
        refine Or.inr ⟨node', hn', ?_, ?_⟩
        · exact (hns.op.resolve_right fun hboth => nomatch hop.symm.trans hboth.1).trans hop
        · rcases hns.blocks with heq | ⟨-, hnone'⟩
          · exact heq.trans hnone
          · exact hnone'
    obtain ⟨hlifting', hsettled'⟩ := ih hstill (hopen.progress hprog) ⟨block', hb', hplaced'⟩ hr
    refine ⟨hlifting.trans hlifting', fun m hm => ?_⟩
    rcases mem_cons.mp hm with rfl | hlater
    · exact hset.progress (hlifting'.progress hstill).1
    · exact hsettled' m hlater

theorem liftBlock_run (depth : Nat) (hemptied : g.Emptied) (hopen : Open g b)
    (h : liftBlock depth b g = .ok (answer, g')) : Lifting g g' ∧ SettledFrom g' b := by
  induction depth generalizing g g' b answer with
  | zero => cases h
  | succ depth ih =>
    obtain ⟨block, _, hquery, hns⟩ := bind_ok h
    obtain ⟨hb, rfl⟩ := query_ok.mp hquery
    obtain ⟨hlift, hset⟩ := liftNodes_run (fun h h' h'' => ih h h' h'') hemptied hopen
      ⟨block, hb, fun _ => Or.inl⟩ hns
    obtain ⟨block', hb', hleft⟩ := (hlift.progress hemptied).1.exists_block hb
    refine ⟨hlift, .intro hb' (fun n hn node hnode => ?_) (fun n hn node hnode => ?_)⟩
    · exact (hset n (hleft.nodes.subset hn) node hnode).1
    · exact (hset n (hleft.nodes.subset hn) node hnode).2

end Lift

theorem Graph.liftClosures_run {g lifted : Graph} (hemptied : g.Emptied)
    (h : g.liftClosures = .ok lifted) : Lifting g lifted ∧ SettledFrom lifted root := by
  unfold Graph.liftClosures at h
  cases hrun : Lift.liftBlock g.blocks.length root g with rw [hrun] at h
  | error failure => cases h
  | ok answer =>
    cases h
    exact Lift.liftBlock_run _ hemptied .root hrun

end Flowgraph
