import Flowgraph.Proofs.Arenas
import Mathlib.Data.List.Perm.Subperm

/-!
# The numbers of a compiled graph

Lowering keeps the constants of numbers in a pool: asked for a number again, it answers the constant
that it made before.  So these constants stand at the front of the root, each number once, and since
closures leave the root behind when they are lifted, no body has any (`Def.compile_numbersFirst`).
-/

namespace Flowgraph

open Ledger List NodeOf Option

open Flowgraph.Graph

variable {node made : Node} {copy source g : Graph} {l l' : Ledger}

namespace Graph

variable {g g' : Graph} {n : NodeId} {ids : List NodeId} {k k' : Stock} {f : Node → Node}
  {b : BlockId}

/-- The number that a node stands for. -/
def number? (g : Graph) (n : NodeId) : Option Literal := (g.node? n).bind NodeOf.number?

/-- The numbers stand at the front of the root, each once, and nowhere else. -/
def NumbersFirst (g : Graph) : Prop :=
  ∃ block numbers rest, g.block? root = some block ∧ block.nodes = numbers ++ rest ∧
    (∀ n ∈ numbers, (g.number? n).isSome) ∧ (numbers.map g.number?).Nodup ∧
    (∀ n ∈ rest, g.number? n = none) ∧
    ∀ b other, g.block? b = some other → b ≠ root → ∀ n ∈ other.nodes, g.number? n = none

def NumberFree (g : Graph) : Prop := ∀ n, g.number? n = none

theorem number?_mapNode (g : Graph) (n m : NodeId)
    (hf : ∀ node, g.node? n = some node → (f node).number? = node.number?) :
    (g.mapNode n f).number? m = g.number? m := by
  rw [number?, node?_mapNode, number?]
  split
  next heq =>
    subst heq
    cases hn : g.node? n with
    | none => rfl
    | some node => exact hf node hn
  next => rfl

theorem number?_attach (g : Graph) (b : BlockId) (arrange : List NodeId → List NodeId) (node : Node)
    (types : List Ty) (m : NodeId) : (g.attach b arrange node types).number? m =
      if m = g.freshNode then node.number? else g.number? m := by
  rw [number?, node?_attach]
  split <;> rfl

theorem number?_removed (g : Graph) (n m : NodeId) : (g.removed n).number? m = g.number? m := by
  rw [number?, node?_removed, number?]
  split
  · cases g.node? m <;> rfl
  · rfl

/-! ## The pool -/

/-- The nodes are those of the pool, one by one, and the graph has no other numbers. -/
structure Numbered (ids : List NodeId) (k : Stock) : Prop where
  made : Forall₂ (fun n entry => ∃ node, k.1.node? n = some node ∧
    node.number? = some entry.1 ∧ entry.2 ∈ node.outputs) ids k.2
  all : ∀ n, (k.1.number? n).isSome → n ∈ ids
  distinct : (k.2.map Prod.fst).Nodup

namespace Numbered

theorem empty : Numbered [] (Graph.empty, []) :=
  ⟨.nil, fun n hn => by simp [number?, node?, Graph.empty] at hn, .nil⟩

section

variable (h : Numbered ids k)
include h

theorem mapNode (n : NodeId)
    (hf : ∀ node, (f node).number? = node.number? ∧ node.outputs ⊆ (f node).outputs) :
    Numbered ids (k.1.mapNode n f, k.2) where
  __ := h
  made := h.made.imp fun m entry ⟨node, hn, hnum, hout⟩ => by
    rw [node?_mapNode, hn]
    split
    · exact ⟨_, rfl, (hf node).1.trans hnum, (hf node).2 hout⟩
    · exact ⟨node, rfl, hnum, hout⟩
  all m hm := h.all m (number?_mapNode k.1 n m (fun node _ => (hf node).1) ▸ hm)

theorem made_attach (b : BlockId) (arrange : List NodeId → List NodeId)
    (node : Node) (types : List Ty) : Forall₂ (fun n entry => ∃ made,
      (k.1.attach b arrange node types).node? n = some made ∧ made.number? = some entry.1 ∧
        entry.2 ∈ made.outputs) ids k.2 := by
  refine h.made.imp fun n entry ⟨made, hm, he⟩ => ⟨made, ?_, he⟩
  rw [node?_attach, if_neg (ne_freshNode hm), hm]

theorem attach {arrange types} (hnum : node.number? = none) :
    Numbered ids (k.1.attach b arrange node types, k.2) where
  __ := h
  made := h.made_attach b arrange node types
  all n hn := by
    rw [number?_attach] at hn
    split at hn
    · simp [hnum] at hn
    · exact h.all n hn

theorem number {value : Literal} {ty} (hnum : value.numberType? = some ty)
    (hnew : ∀ entry ∈ k.2, entry.1 ≠ value) :
    Numbered (k.1.freshNode :: ids) (k.1.placeAtRoot k.2.length
        { op := .constant, inputs := [], attrs := [("value", value)] } [ty],
      (value, k.1.freshValue) :: k.2) where
  made := by
    refine .cons ⟨_, (node?_attach ..).trans (if_pos rfl), ?_, ?_⟩ (h.made_attach ..)
    · simp [NodeOf.number?, attr?, hnum]
    · exact mem_singleton.mpr rfl
  all n hn := by
    rw [placeAtRoot, number?_attach] at hn
    split at hn
    next heq => exact heq ▸ .head _
    next => exact mem_cons_of_mem _ (h.all n hn)
  distinct := by
    refine nodup_cons.mpr ⟨fun hin => ?_, h.distinct⟩
    obtain ⟨entry, he, heq⟩ := mem_map.mp hin
    exact hnew entry he heq

theorem map_number? : ids.map k.1.number? = k.2.map (some ∘ Prod.fst) := by
  obtain ⟨g, pool⟩ := k
  obtain ⟨hm, -, -⟩ := h
  dsimp only at hm ⊢
  induction hm with
  | nil => rfl
  | cons hfirst _ ih =>
    obtain ⟨node, hn, hnum, -⟩ := hfirst
    rw [map_cons, map_cons, ih, number?, hn, bind_some, hnum]
    rfl

end

theorem of_builds (h : Builds k k') (hk : Numbered ids k) : ∃ ids, Numbered ids k' := by
  induction h generalizing ids with
  | refl => exact ⟨ids, hk⟩
  | trans _ _ ih ih' =>
    obtain ⟨_, hfirst⟩ := ih hk
    exact ih' hfirst
  | attach _ _ _ _ _ hnum => exact ⟨ids, hk.attach hnum⟩
  | number hnum hnew => exact ⟨_, hk.number hnum hnew⟩
  | @output k n =>
    exact ⟨ids, mapNode (k := (k.1.pushValue _, k.2)) ⟨hk.made, hk.all, hk.distinct⟩ n
      fun _ => ⟨rfl, by simp⟩⟩
  | @block k n =>
    exact ⟨ids, mapNode (k := (k.1.pushBlock _, k.2)) ⟨hk.made, hk.all, hk.distinct⟩ n
      fun _ => ⟨rfl, fun _ => id⟩⟩
  | input _ n => exact ⟨ids, hk.mapNode n fun _ => ⟨rfl, fun _ => id⟩⟩
  | param | result | retype | named => exact ⟨ids, hk.made, hk.all, hk.distinct⟩

end Numbered

/-! ## The front of the root -/

/-- The numbers of the arena stand at the front of the root, each once. -/
def FrontNumbers (g : Graph) : Prop :=
  ∃ block numbers rest, g.block? root = some block ∧ block.nodes = numbers ++ rest ∧
    (∀ n ∈ numbers, (g.number? n).isSome) ∧ (numbers.map g.number?).Nodup ∧
    ∀ n, (g.number? n).isSome → n ∈ numbers

/-- As many constants stand at the front as there are numbers, and among them are all numbers. -/
theorem Numbered.front {pool : List (Literal × ValueId)} (h : Numbered ids (g, pool))
    (hpool : Pooled [] g pool) (hcoh : g.Coherent) : g.FrontNumbers := by
  obtain ⟨block, constants, rest, hb, hns, hlen, -, hes⟩ := hpool
  have hnodup : (ids.map g.number?).Nodup := by
    rw [h.map_number?, ← List.map_map]
    exact h.distinct.map fun _ _ => Option.some.inj
  have hsubset : ids ⊆ constants := by
    intro n hn
    obtain ⟨entry, he, node, hnode, -, hout⟩ := exists_of_forall₂ h.made hn
    obtain ⟨-, m, hm, other, hother, hout'⟩ := hes entry he
    have hs : n = m := OutputOf.unique (hcoh.output n node _ hnode hout)
      (hcoh.output m other _ hother hout')
    exact hs ▸ hm
  have hperm : ids.Perm constants :=
    (subperm_of_subset (.of_map _ hnodup) hsubset).perm_of_length_le
    (by rw [hlen, h.made.length_eq])
  refine ⟨block, constants, rest, hb, hns, fun n hn => ?_, (hperm.map _).nodup hnodup,
    fun n hn => hsubset (h.all n hn)⟩
  obtain ⟨entry, -, node, hnode, hnum, -⟩ := exists_of_forall₂ h.made (hperm.mem_iff.mpr hn)
  rw [number?, hnode, bind_some, hnum]
  rfl

namespace FrontNumbers

section

variable (h : g.FrontNumbers)
include h

theorem congr (hnums : ∀ n, g'.number? n = g.number? n)
    (hroot : (g'.block? root).map Block.nodes = (g.block? root).map Block.nodes) :
    g'.FrontNumbers := by
  obtain ⟨block, numbers, rest, hb, hns, hsome, hnodup, hall⟩ := h
  rw [hb, map_some, map_eq_some_iff] at hroot
  obtain ⟨block', hb', heq⟩ := hroot
  have hfun : g'.number? = g.number? := funext hnums
  exact ⟨block', numbers, rest, hb', heq.trans hns, hfun ▸ hsome, hfun ▸ hnodup, hfun ▸ hall⟩

theorem mapNode (hf : ∀ node, g.node? n = some node → (f node).number? = node.number?) :
    (g.mapNode n f).FrontNumbers :=
  h.congr (fun m => number?_mapNode g n m hf) rfl

theorem removed (hn : g.number? n = none) : (g.removed n).FrontNumbers := by
  obtain ⟨block, numbers, rest, hb, hns, hsome, hnodup, hall⟩ := h
  have hfun : (g.removed n).number? = g.number? := funext (number?_removed g n)
  have hkept : (numbers.filter fun placed => placed ≠ n) = numbers :=
    filter_eq_self.mpr fun m hm => decide_eq_true fun heq => by
      simpa [heq, hn] using hsome m hm
  have hroot := block?_removed_eq g n root
  rw [hb] at hroot
  split at hroot
  · refine ⟨_, numbers, rest.filter fun placed => placed ≠ n, hroot, ?_, hfun ▸ hsome,
      hfun ▸ hnodup, hfun ▸ hall⟩
    simp only [hns, filter_append, hkept]
  · exact ⟨block, numbers, rest, hroot, hns, hfun ▸ hsome, hfun ▸ hnodup, hfun ▸ hall⟩

theorem number?_nested (htree : g.Treelike) {block : Block}
    (hb : g.block? b = some block) (hne : b ≠ root) (hn : n ∈ block.nodes) :
    g.number? n = none := by
  obtain ⟨rootBlock, numbers, rest, hroot, hns, -, -, hall⟩ := h
  refine not_isSome_iff_eq_none.mp fun hnum => hne ?_
  refine owner_unique (htree.placed b block n hb hn) (htree.placed root rootBlock n hroot ?_)
  rw [hns]
  exact mem_append_left _ (hall n hnum)

theorem numbersFirst (htree : g.Treelike) : g.NumbersFirst := by
  have hnest (b : BlockId) (other : Block) (hother : g.block? b = some other) (hne : b ≠ root)
      (n : NodeId) (hn : n ∈ other.nodes) := h.number?_nested htree hother hne hn
  obtain ⟨block, numbers, rest, hb, hns, hsome, hnodup, hall⟩ := h
  refine ⟨block, numbers, rest, hb, hns, hsome, hnodup, fun n hn => ?_, hnest⟩
  have hdisjoint := disjoint_of_nodup_append (hns ▸ htree.distinct root block hb)
  exact not_isSome_iff_eq_none.mp fun hnum => hdisjoint (hall n hnum) hn

end

end FrontNumbers

end Graph

/-! ## Lifting -/

theorem NodeCopy.number? {m} (h : NodeCopy copy l m made node) : made.number? = node.number? := by
  rw [NodeOf.number?, NodeOf.number?, h.op, attr?, attr?, h.attrs]

theorem Mirrors.nodes {pairing} {F : NodeId → Prop} (h : Mirrors source copy pairing l l')
    (hnest : ∀ n node b block m, source.node? n = some node → b ∈ node.blocks →
      source.block? b = some block → m ∈ block.nodes → F m) (hstart : match pairing with
      | .nodes ns _ => ∀ n ∈ ns, F n
      | .blocks bs _ => ∀ b ∈ bs, ∃ n node, source.node? n = some node ∧ b ∈ node.blocks)
    (hl : ∀ n ∈ l.nodes, F n) : ∀ n ∈ l'.nodes, F n := by
  induction h with
  | noNode | noBlock => exact hl
  | @node n node inputs bs owner ns ms l l₁ l₂ l₃ hnode hins _ _ _ _ ihblocks ihrest =>
    obtain ⟨hn, hns⟩ := forall_mem_cons.mp hstart
    refine ihrest hns (ihblocks (fun b hb => ⟨n, node, hnode, hb⟩) ?_)
    rw [nodes_addAll, addNode, hins.nodes]
    exact forall_mem_append.mpr ⟨hl, forall_mem_singleton.mpr hn⟩
  | @block b block made bs copies l l₁ l₂ l₃ hblock _ _ _ _ _ hres _ ihnodes ihrest =>
    obtain ⟨⟨n, node, hnode, hb⟩, hbs⟩ := forall_mem_cons.mp hstart
    refine ihrest hbs ?_
    rw [hres.nodes]
    exact ihnodes (fun m hm => hnest n node b block m hnode hb hblock hm)
      (by simpa [Ledger.addBlock] using hl)

theorem MirrorsBody.numberFree {body} (h : MirrorsBody source copy body l)
    (hfree : ∀ n ∈ l.nodes, source.number? n = none) : copy.NumberFree := by
  intro m
  cases hm : copy.node? m with
  | none => rw [Graph.number?, hm, bind_none]
  | some made =>
    obtain ⟨n, node, hstd, hn, hcopy⟩ := h.copied.node m made hm
    have hnone := hfree n (mem_of_getElem? hstd)
    rw [Graph.number?, hn, bind_some] at hnone
    rw [Graph.number?, hm, bind_some, hcopy.number?, hnone]

theorem numberFree_respects : Lifting.Respects NumberFree NumberFree where
  lowered h hforks m := by
    refine (number?_mapNode _ _ m fun node hn => ?_).trans (h m)
    cases hforks.here.symm.trans hn
    simp [NodeOf.number?, hforks.op]
  removed h _ _ m := (number?_removed ..).trans (h m)
  extracted h _ _ hmir _ := hmir.numberFree fun n _ => h n
  lifted h _ _ _ _ m := by
    refine Eq.trans (number?_mapNode _ _ m ?_) (h m)
    exact fun _ _ => rfl

theorem numbers_respects : Lifting.Respects (fun g => g.Orderly ∧ g.FrontNumbers) NumberFree where
  lowered h hforks := by
    refine ⟨orderly_respects.lowered h.1 hforks, h.2.mapNode fun node hnode => ?_⟩
    cases hforks.here.symm.trans hnode
    simp [NodeOf.number?, hforks.op]
  removed h hnode hop := by
    refine ⟨orderly_respects.removed h.1 hnode hop, h.2.removed ?_⟩
    rw [Graph.number?, hnode, bind_some, NodeOf.number?, if_neg (by simp [hop])]
  extracted {g extracted n node body l} h hnode hbody hmir _ := by
    have hnest : ∀ n node b block m, g.node? n = some node → b ∈ node.blocks →
        g.block? b = some block → m ∈ block.nodes → g.number? m = none := by
      intro n node b block m hnode hb hblock hm
      refine h.2.number?_nested h.1.tree hblock (fun heq => ?_) hm
      obtain ⟨found, hfd, hown⟩ := h.1.tree.nested n node b hnode hb
      obtain ⟨rootBlock, hroot, hnone⟩ := h.1.tree.root
      cases hfd.symm.trans (heq ▸ hroot)
      simp [hnone] at hown
    obtain ⟨block, _, l₁, hblock, -, -, -, -, hns, hreads⟩ := hmir.root
    refine hmir.numberFree (hreads.nodes ▸ hns.nodes hnest (fun n hn => ?_) (by simp [start]))
    exact hnest _ node body block n hnode hbody hblock hn
  lifted h hnode hop hmir subgraph :=
    ⟨orderly_respects.lifted h.1 hnode hop hmir subgraph, h.2.mapNode fun _ _ => rfl⟩

/-! ## Compiled graphs -/

variable {definition : Def} {host : Host} {settings : Settings}

theorem Def.toGraph_numbers {signature}
    (h : definition.toGraph host settings = .ok (signature, g)) : g.FrontNumbers := by
  obtain ⟨_, hbuilds, hpool⟩ := Def.toGraph_builds h
  obtain ⟨_, hnumbered⟩ := Numbered.of_builds hbuilds .empty
  exact hnumbered.front hpool (Def.toGraph_scoped h).coherent

/-- The numbers of a compiled graph stand at the front of the root, each once, and nowhere else; the
bodies in the graph have none. -/
theorem Def.compile_numbersFirst {compiled : Compiled}
    (h : definition.compile host settings = .ok compiled) :
    compiled.graph.NumbersFirst ∧ compiled.graph.Carries NumberFree := by
  have ⟨⟨horderly, hnumbers⟩, hcarries⟩ :=
    Def.compile_layered numbers_respects numberFree_respects h fun _ _ hgraph =>
      have ⟨_, hbuilds, _⟩ := Def.toGraph_builds hgraph
      ⟨⟨hbuilds.homed homed_empty, hbuilds.treelike treelike_empty⟩, Def.toGraph_numbers hgraph⟩
  exact ⟨hnumbers.numbersFirst horderly.tree, hcarries⟩

/-- One of the numbers is asked for in a closure. -/
theorem forkedTwice_numbersFirst : ∃ compiled, forkedTwice.compile Host.empty {} = .ok compiled ∧
    (compiled.graph.nodes.filterMap NodeOf.number? = [.int 1, .int 2] ∧
      ∃ node ∈ compiled.graph.nodes, node.subgraph.isSome) ∧
    compiled.graph.NumbersFirst ∧ compiled.graph.Carries NumberFree := by
  obtain ⟨compiled, hcompiled, hnumbers⟩ : ∃ compiled,
      forkedTwice.compile Host.empty {} = .ok compiled ∧
        compiled.graph.nodes.filterMap NodeOf.number? = [.int 1, .int 2] ∧
        ∃ node ∈ compiled.graph.nodes, node.subgraph.isSome := by
    decide +kernel
  exact ⟨compiled, hcompiled, hnumbers, Def.compile_numbersFirst hcompiled⟩

end Flowgraph
