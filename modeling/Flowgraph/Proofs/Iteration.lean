import Flowgraph.Proofs.Constants
import Flowgraph.Proofs.Scopes.Statements

/-!
# What loops visit

A loop asks an iterable for the number of its elements before it starts, and for the element at the
counter in every round.  If the nodes compute what they are there for (`Graph.Computes`), the values
that it gets hold just that, for the elements that `Entity.elements?` lists.  `length_counts` and
`item_holds` show this by recursion over iterables, and `Iterates.visits` for the rounds of a `for`.
What the nodes compute is read in a later graph, where everything that was made still stands
(`Graph.Outlasts`).
-/

namespace Flowgraph

open Entity Flowgraph.Graph List Option

/-! ## Sequences -/

/-- What a value of the graph holds while the program runs. -/
inductive Content where
  | int (x : Int)
  | tuple (elems : List Content)
  /-- A list or a string. -/
  | sequence (elems : List Content)
  | other (key : Nat)

namespace Content

def sequence? : Content → Option (List Content)
  | .sequence elems => some elems
  | _ => none

/-- How many numbers a range has. -/
def rangeCount (start stop step : Int) : Nat :=
  if 0 < step then ((stop - start + step - 1) / step).toNat
  else ((start - stop - step - 1) / -step).toNat

/-- The numbers of a range. -/
def range (start stop step : Int) : List Content :=
  (List.range (rangeCount start stop step)).map fun i : Nat => .int (start + i * step)

/-- The numbers that `range` gives for its arguments. -/
def rangeOf? : List Int → Option (List Content)
  | [stop] => some (range 0 stop 1)
  | [start, stop] => some (range start stop 1)
  | [start, stop, step] => if step = 0 then none else some (range start stop step)
  | _ => none

/-- A range goes on as long as its numbers are before the end. -/
theorem lt_rangeCount_iff {start stop step : Int} (h : step ≠ 0) (i : Nat) :
    i < rangeCount start stop step ↔
      if 0 < step then start + i * step < stop else stop < start + i * step := by
  have hcount : ∀ x d : Int, 0 < d → (i < (x / d).toNat ↔ (i : Int) * d + d ≤ x) := by
    intro x d hd
    have hle := Int.le_ediv_iff_mul_le (a := (i : Int) + 1) (b := x) hd
    rw [Int.add_mul, Int.one_mul] at hle
    omega
  unfold rangeCount
  split
  next hpos =>
    rw [hcount _ _ hpos]
    omega
  next hneg =>
    rw [hcount _ _ (by omega), Int.mul_neg]
    omega

theorem getElem?_range {start stop step : Int} {i : Nat} {c : Content}
    (h : (range start stop step)[i]? = some c) : c = .int (start + i * step) := by
  rw [range, getElem?_map] at h
  obtain ⟨j, hj, rfl⟩ := map_eq_some_iff.mp h
  obtain ⟨hlt, rfl⟩ := List.getElem?_eq_some_iff.mp hj
  simp

/-- The rows of some columns, as many as the shortest column has. -/
def rows : List (List Content) → List (List Content)
  | [] => []
  | [column] => column.map fun c => [c]
  | column :: next :: rest => zipWith (fun c row => c :: row) column (rows (next :: rest))

theorem of_getElem?_rows {columns : List (List Content)} {i : Nat} {row : List Content}
    (h : (rows columns)[i]? = some row) :
    Forall₂ (fun column c => column[i]? = some c) columns row := by
  induction columns generalizing row with
  | nil => cases h
  | cons column rest ih =>
    cases rest with
    | nil =>
      rw [rows, getElem?_map] at h
      obtain ⟨c, hc, rfl⟩ := map_eq_some_iff.mp h
      exact .cons hc .nil
    | cons next rest =>
      rw [rows, getElem?_zipWith_eq_some] at h
      obtain ⟨c, others, hc, hothers, rfl⟩ := h
      exact .cons hc (ih hothers)

/-- The least of a count and the lengths of some columns. -/
def leastLength : Option Nat → List (List Content) → Option Nat
  | least, [] => least
  | least, column :: rest =>
    leastLength (some (least.elim column.length fun k => min k column.length)) rest

theorem leastLength_some (k : Nat) (column : List Content) (rest : List (List Content)) :
    leastLength (some k) (column :: rest) = some (min k (rows (column :: rest)).length) := by
  induction rest generalizing k column with
  | nil => simp [leastLength, rows]
  | cons next rest ih =>
    rw [leastLength, ih, rows, length_zipWith, elim_some, Nat.min_assoc]

theorem leastLength_none (column : List Content) (rest : List (List Content)) :
    leastLength none (column :: rest) = some (rows (column :: rest)).length := by
  cases rest with
  | nil => simp [leastLength, rows]
  | cons next rest =>
    rw [leastLength, leastLength_some, rows, length_zipWith]
    rfl

/-- What the operations that loops use give.  There is no element past the end. -/
def eval? : Primitive → List Content → Option Content
  | .len, [.sequence elems] => some (.int elems.length)
  | .min, [.int x, .int y] => some (.int (min x y))
  | .rangeLength, [.int start, .int stop, .int step] => some (.int (rangeCount start stop step))
  | .deriveIndex, [.int i, .int start, .int step] => some (.int (start + i * step))
  | .getItem, [.sequence elems, .int i] =>
    if 0 ≤ i then elems[i.toNat]?
    else if 0 ≤ i + elems.length then elems[(i + elems.length).toNat]? else none
  | _, _ => none

end Content

mutual

/-- The elements of an iterable, in order. -/
def Entity.elements? (ρ : ValueId → Option Content) : Entity → Option (List Content)
  | .value v => (ρ v).bind Content.sequence?
  | .range start stop step =>
    match start.elim (some (.int 0)) ρ, ρ stop, step.elim (some (.int 1)) ρ with
    | some (.int first), some (.int last), some (.int distance) =>
      if distance = 0 then none else some (Content.range first last distance)
    | _, _, _ => none
  | .zip items => (elementsAll? ρ items).map fun columns => (Content.rows columns).map .tuple
  | .enumerate inner => (inner.elements? ρ).map fun elems =>
    elems.zipIdx.map fun entry => .tuple [.int entry.2, entry.1]
  | _ => none

def Entity.elementsAll? (ρ : ValueId → Option Content) : List Entity → Option (List (List Content))
  | [] => some []
  | entity :: rest => (entity.elements? ρ).bind fun column =>
    (elementsAll? ρ rest).map fun columns => column :: columns

end

/-- The value is what a node with the operation and the inputs gives. -/
def Graph.Gives (g : Graph) (op : Op) (inputs : List ValueId) (v : ValueId) : Prop :=
  ∃ n node, g.node? n = some node ∧ node.op = op ∧ node.inputs = inputs ∧ node.outputs = [v]

/-- The nodes of the graph compute what they are there for, and only lists and strings hold
sequences. -/
structure Graph.Computes (g : Graph) (ρ : ValueId → Option Content) : Prop where
  number : ∀ v i, g.IsNumber v (.int i) → ρ v = some (.int i.toInt)
  tuple : ∀ vs v cs, g.Gives .tupleConstruct vs v → vs.mapM ρ = some cs → ρ v = some (.tuple cs)
  primitive : ∀ operation vs v cs c, g.Gives (.primitive operation) vs v →
    vs.mapM ρ = some cs → Content.eval? operation cs = some c → ρ v = some c
  typed : ∀ v elems ty, ρ v = some (.sequence elems) → g.typeOf? v = some ty →
    ty = .str ∨ ∃ elem, ty = .list elem

/-- The nodes of a graph are still there, and the types of the values that are not hidden. -/
structure Graph.Outlasts (H : List ValueId) (g g' : Graph) : Prop where
  node : ∀ n node, g.node? n = some node → g'.node? n = some node
  type : ∀ v ty, v ∉ H → g.typeOf? v = some ty → g'.typeOf? v = some ty

/-- The value counts a number of elements; a negative number counts none. -/
def CountsTo (ρ : ValueId → Option Content) (v : ValueId) (k : Nat) : Prop :=
  ∃ x : Int, ρ v = some (.int x) ∧ x.toNat = k

variable {H : List ValueId} {s t u w : LowerState} {ctx : LowerContext} {span : Span}
  {v position : ValueId} {ρ : ValueId → Option Content} {g : Graph} {elems cs : List Content}
  {start step given : Option ValueId} {stop : ValueId} {c : Content} {i : Nat} {vs : List ValueId}
  {Γ Θ : List Fact} {operation : Primitive} {ty : Ty} {op : Op}

theorem Graph.Since.outlasts {isOpen} {g' : Graph} (h : Since H isOpen g g') : g.Outlasts H g' where
  node n _ hn := (h.node n (index_lt_of_node? hn)).trans hn
  type v _ hv hty := (h.type v hv (lt_of_typeOf? hty)).trans hty

namespace Graph.Outlasts

variable {g₁ g₂ g₃ : Graph}

theorem refl (H : List ValueId) (g : Graph) : g.Outlasts H g := ⟨fun _ _ => id, fun _ _ _ => id⟩

theorem trans (h : g₁.Outlasts H g₂) (h' : g₂.Outlasts H g₃) : g₁.Outlasts H g₃ where
  node n node hn := h'.node n node (h.node n node hn)
  type v ty hv hty := h'.type v ty hv (h.type v ty hv hty)

theorem gives (h : g₁.Outlasts H g₂) (hgives : g₁.Gives op vs v) : g₂.Gives op vs v := by
  obtain ⟨n, node, hn, hnode⟩ := hgives
  exact ⟨n, node, h.node n node hn, hnode⟩

end Graph.Outlasts

namespace Lower

/-! ## Single steps -/

/-- The state lists its numbers, and the facts hold. -/
structure Supports (H : List ValueId) (Γ : List Fact) (s : LowerState) : Prop
    extends Tallied H s where
  facts : ∀ fact ∈ Γ, fact.Holds False H s

theorem Emits.onward {α : Type} {action : Lower α} {Δ : α → List Fact} {a : α}
    (h : Emits False H quiet Γ action Δ) (hs : Supports H Γ s) (hrun : action ctx s = .ok (a, t)) :
    Supports H (Δ a ++ Γ) t ∧ s.graph.Outlasts H t.graph := by
  obtain ⟨hemit, hq, hafter⟩ := h.apply (hs.ready ctx) hs.facts hrun
  obtain ⟨-, hadv⟩ := hemit.sound hs.toWellFormed
  exact ⟨⟨hs.toTallied.of_emission hemit, forall_mem_append.mpr ⟨hafter, fun fact hφ =>
    (hs.facts fact hφ).mono_quiet hs.toWellFormed hadv hq⟩⟩, hadv.graph.outlasts⟩

theorem Supports.mono (h : Supports H (Θ ++ Γ) s) : Supports H Γ s :=
  ⟨h.toTallied, fun fact hφ => h.facts fact (mem_append_right _ hφ)⟩

/-- A new node gives its value, and those that were there stay. -/
theorem insertValue_gives (hs : Tallied H s)
    (hrun : build (Build.insertValue op vs ty span) ctx s = .ok (v, t)) :
    s.graph.Outlasts H t.graph ∧ t.graph.Gives op vs v := by
  obtain ⟨builder, hsteps, rfl⟩ := build_ok hrun
  obtain ⟨rfl, rfl⟩ := Build.insertValue_some hs.coherent hs.anchored hsteps
  refine ⟨⟨fun n node hn => ?_, fun v ty _ => typeOf?_of_types (types_attach ..)⟩,
    _, _, node?_place_fresh _, rfl, rfl, freshValues_one _⟩
  refine (node?_place_of_ne _ ?_).trans hn
  rintro rfl
  exact Nat.lt_irrefl _ (index_lt_of_node? hn)

theorem primitive_holds (hs : Tallied H s) (hρ : g.Computes ρ)
    (hrun : primitive operation vs span ctx s = .ok (v, t)) : s.graph.Outlasts H t.graph ∧
      (t.graph.Outlasts H g → vs.mapM ρ = some cs → Content.eval? operation cs = some c →
        ρ v = some c) := by
  obtain ⟨_, _, htypes, hrest⟩ := bind_ok hrun
  obtain ⟨-, rfl⟩ := typesOf_ok htypes
  obtain ⟨_, _, hcheck, hinsert⟩ := bind_ok hrest
  obtain ⟨-, rfl⟩ := ofExcept_ok hcheck
  obtain ⟨hstays, hgives⟩ := insertValue_gives hs hinsert
  exact ⟨hstays, fun hlasts => hρ.primitive _ _ _ _ _ (hlasts.gives hgives)⟩

theorem tuple_holds (hs : Tallied H s) (hρ : g.Computes ρ)
    (hrun : tuple vs span ctx s = .ok (v, t)) : s.graph.Outlasts H t.graph ∧
      (t.graph.Outlasts H g → vs.mapM ρ = some cs → ρ v = some (.tuple cs)) := by
  obtain ⟨_, _, htypes, hinsert⟩ := bind_ok hrun
  obtain ⟨-, rfl⟩ := typesOf_ok htypes
  obtain ⟨hstays, hgives⟩ := insertValue_gives hs hinsert
  exact ⟨hstays, fun hlasts => hρ.tuple _ _ _ (hlasts.gives hgives)⟩

/-! ## Ranges and sequences -/

/-- A part of a range that is not given is a number. -/
theorem getDM_holds {k : Int64} (hs : Tallied H s) (hρ : g.Computes ρ)
    (hrun : given.getDM (build (Build.int k)) ctx s = .ok (v, t)) :
    Tallied H t ∧ s.graph.Outlasts H t.graph ∧
      (t.graph.Outlasts H g → given.elim (some (.int k.toInt)) ρ = ρ v) := by
  cases given with
  | none =>
    obtain ⟨ht, hstays⟩ := Emits.onward (Γ := []) int_emits ⟨hs, by simp⟩ hrun
    refine ⟨ht.toTallied, hstays, fun hlasts => ?_⟩
    obtain ⟨n, node, hn, hnode⟩ := (hs.isNumber_pooled rfl hrun).2
    exact (hρ.number v k ⟨n, node, hlasts.node n node hn, hnode⟩).symm
  | some given =>
    obtain ⟨rfl, rfl⟩ := pure_ok hrun
    exact ⟨hs, .refl .., fun _ => rfl⟩

/-- A primitive of the start and the step of a range. -/
theorem rangeStep_holds {inputs : ValueId × ValueId → List ValueId} {a d : Int} (hs : Tallied H s)
    (hρ : g.Computes ρ) (hlasts : t.graph.Outlasts H g)
    (hrun : (rangeParts start step >>= fun parts =>
      primitive operation (inputs parts) span) ctx s = .ok (v, t))
    (ha : start.elim (some (.int 0)) ρ = some (.int a))
    (hd : step.elim (some (.int 1)) ρ = some (.int d))
    (hvs : ∀ parts : ValueId × ValueId, ρ parts.1 = some (.int a) → ρ parts.2 = some (.int d) →
      (inputs parts).mapM ρ = some cs) (hc : Content.eval? operation cs = some c) :
    ρ v = some c := by
  obtain ⟨parts, u, hparts, hrun⟩ := bind_ok hrun
  obtain ⟨first, u', hfirst, hparts⟩ := bind_ok hparts
  obtain ⟨distance, hdistance, rfl⟩ := map_ok hparts
  obtain ⟨hu', -, hstart⟩ := getDM_holds hs hρ hfirst
  obtain ⟨hu, hstays, hstep⟩ := getDM_holds hu' hρ hdistance
  obtain ⟨hstays', hholds⟩ := primitive_holds hu hρ hrun
  have hafter := hstays'.trans hlasts
  exact hholds hlasts (hvs _ ((hstart (hstays.trans hafter)).symm.trans ha)
    ((hstep hafter).symm.trans hd)) hc

theorem of_elements?_range (h : (Entity.range start stop step).elements? ρ = some elems) :
    ∃ a b d, start.elim (some (.int 0)) ρ = some (.int a) ∧ ρ stop = some (.int b) ∧
      step.elim (some (.int 1)) ρ = some (.int d) ∧ elems = Content.range a b d := by
  rw [Entity.elements?] at h
  split at h
  next a b d ha hb hd =>
    split at h
    · cases h
    · cases h
      exact ⟨a, b, d, ha, hb, hd, rfl⟩
  next => cases h

/-- A value that holds a sequence is a list or a string when its type is asked for. -/
theorem typed_sequence (hρ : g.Computes ρ) (hheld : Held H s v) (hlasts : s.graph.Outlasts H g)
    (helems : (Entity.value v).elements? ρ = some elems) (hty : s.graph.typeOf? v = some ty) :
    ρ v = some (.sequence elems) ∧ (ty = .str ∨ ∃ elem, ty = .list elem) := by
  rw [Entity.elements?] at helems
  obtain ⟨c, hc, hseq⟩ := Option.bind_eq_some_iff.mp helems
  cases c <;> cases hseq
  exact ⟨hc, hρ.typed v _ ty hc (hlasts.type v ty hheld.1 hty)⟩

/-! ## The number of the elements -/

mutual

/-- The number of rounds is that of the elements. -/
theorem length_counts (entity : Entity) {Γ : List Fact} {s t : LowerState} {v : ValueId}
    {elems : List Content} (h : ∀ fact ∈ entity.facts False, fact ∈ Γ) (hs : Supports H Γ s)
    (hρ : g.Computes ρ) (hrun : length span entity ctx s = .ok (v, t))
    (hlasts : t.graph.Outlasts H g) (helems : entity.elements? ρ = some elems) :
    CountsTo ρ v elems.length := by
  cases entity with
  | value given =>
    obtain ⟨-, hstays⟩ := (length_emits _ h).onward hs hrun
    rw [length] at hrun
    obtain ⟨ty, u, hasked, hrun⟩ := bind_ok hrun
    obtain ⟨hty, rfl⟩ := typeOf_ok hasked
    obtain ⟨hc, rfl | ⟨elem, rfl⟩⟩ := typed_sequence hρ
      (hs.facts (.held given) (h _ (by simp [Entity.facts]))) (hstays.trans hlasts) helems hty
    all_goals
      have hvs : [given].mapM ρ = some [.sequence elems] := by simp [hc]
      exact ⟨_, (primitive_holds hs.toTallied hρ hrun).2 hlasts hvs rfl, Int.toNat_natCast _⟩
  | range start stop step =>
    obtain ⟨a, b, d, ha, hb, hd, rfl⟩ := of_elements?_range helems
    by_cases hplain : start = none ∧ step = none
    · obtain ⟨rfl, rfl⟩ := hplain
      cases ha
      cases hd
      rw [length] at hrun
      obtain ⟨rfl, rfl⟩ := pure_ok hrun
      exact ⟨b, hb, by simp [Content.range, Content.rangeCount]⟩
    · rw [length] at hrun
      · exact ⟨_, rangeStep_holds hs.toTallied hρ hlasts hrun ha hd
          (fun _ hp hq => by simp [hp, hq, hb]; rfl) rfl, by simp [Content.range]⟩
      · simpa using hplain
  | zip items =>
    rw [length] at hrun
    obtain ⟨answer, u, hshortest, hrun⟩ := bind_ok hrun
    rw [Entity.elements?] at helems
    obtain ⟨columns, hcolumns, rfl⟩ := Option.map_eq_some_iff.mp helems
    cases answer with
    | none => cases hrun
    | some count =>
      obtain ⟨rfl, rfl⟩ := pure_ok hrun
      -- the search starts with no least count, and the first column replaces it
      have hcount := (shortest_counts items none (by simp) (by simpa [Entity.facts] using h) hs hρ
        hshortest).2 hlasts columns none hcolumns .none
      cases columns with
      | nil => cases hcount
      | cons column rest =>
        rw [Content.leastLength_none] at hcount
        cases hcount with
        | some hcount => simpa using hcount
  | enumerate inner =>
    rw [length] at hrun
    rw [Entity.elements?] at helems
    obtain ⟨inside, hinside, rfl⟩ := Option.map_eq_some_iff.mp helems
    simpa using length_counts inner (by simpa [Entity.facts] using h) hs hρ hrun hlasts hinside
  | _ => cases helems

/-- The least count is that of the shortest. -/
theorem shortest_counts (entities : List Entity) (least : Option ValueId) {answer : Option ValueId}
    {Γ : List Fact} {s t : LowerState} (hleast : ∀ v, least = some v → .held v ∈ Γ)
    (h : ∀ fact ∈ Entity.factsAll False entities, fact ∈ Γ) (hs : Supports H Γ s)
    (hρ : g.Computes ρ) (hrun : shortest span least entities ctx s = .ok (answer, t)) :
    s.graph.Outlasts H t.graph ∧ (t.graph.Outlasts H g → ∀ columns k,
      Entity.elementsAll? ρ entities = some columns → Option.Rel (CountsTo ρ) least k →
        Option.Rel (CountsTo ρ) answer (Content.leastLength k columns)) := by
  cases entities with rw [shortest] at hrun
  | nil =>
    obtain ⟨rfl, rfl⟩ := pure_ok hrun
    refine ⟨.refl .., fun _ columns k hcolumns hk => ?_⟩
    cases hcolumns
    exact hk
  | cons entity rest =>
    obtain ⟨count, u, hcount, hrun⟩ := bind_ok hrun
    obtain ⟨next, u', hnext, hrun⟩ : ∃ next u', (match least with
        | some previous => primitive .min [previous, count] span
        | none => pure count) ctx u = .ok (next, u') ∧
        shortest span (some next) rest ctx u' = .ok (answer, t) := by
      cases least <;> exact bind_ok hrun
    rw [Entity.factsAll, forall_mem_append] at h
    obtain ⟨hu, hstays⟩ := (length_emits entity h.1).onward hs hcount
    -- what the count becomes with the one before it
    obtain ⟨Θ, hu', hsub, hheld, hstays', hmin⟩ : ∃ Θ, Supports H Θ u' ∧ Γ ⊆ Θ ∧ .held next ∈ Θ ∧
        u.graph.Outlasts H u'.graph ∧ (u'.graph.Outlasts H g → ∀ k m,
          Option.Rel (CountsTo ρ) least k → CountsTo ρ count m →
            CountsTo ρ next (k.elim m fun k => min k m)) := by
      cases least with
      | none =>
        obtain ⟨rfl, rfl⟩ := pure_ok hnext
        refine ⟨_, hu, subset_append_right _ _, by simp, .refl .., fun _ k m hk hm => ?_⟩
        cases hk
        exact hm
      | some previous =>
        obtain ⟨hu', hstays'⟩ := (primitive_emits (by simp [hleast previous rfl])).onward hu hnext
        refine ⟨_, hu', fun fact hφ => by simp [hφ], by simp, hstays', fun hlasts k m hk hm => ?_⟩
        obtain ⟨y, hy, rfl⟩ := hm
        cases hk with
        | some hk =>
          obtain ⟨x, hx, rfl⟩ := hk
          have hvs : [previous, count].mapM ρ = some [.int x, .int y] := by simp [hx, hy]
          refine ⟨min x y, (primitive_holds hu.toTallied hρ hnext).2 hlasts hvs rfl, ?_⟩
          simp only [Option.elim_some]
          omega
    obtain ⟨hlasts, hrest⟩ := shortest_counts rest (some next) (by simpa using hheld)
      (fun fact hφ => hsub (h.2 fact hφ)) hu' hρ hrun
    refine ⟨hstays.trans (hstays'.trans hlasts), fun hfinal columns k hcolumns hk => ?_⟩
    rw [Entity.elementsAll?] at hcolumns
    obtain ⟨column, hcolumn, hcolumns⟩ := Option.bind_eq_some_iff.mp hcolumns
    obtain ⟨others, hothers, rfl⟩ := Option.map_eq_some_iff.mp hcolumns
    have hafter := hlasts.trans hfinal
    have hlen := length_counts entity h.1 hs hρ hcount (hstays'.trans hafter) hcolumn
    exact hrest hfinal others _ hothers (.some (hmin hafter k _ hk hlen))

end

/-! ## The element of a round -/

mutual

/-- The element at the counter is the one that comes then. -/
theorem item_holds (entity : Entity) {s t : LowerState} {v : ValueId} {elems : List Content}
    {c : Content} (h : ∀ fact ∈ entity.facts False, fact ∈ Γ) (hp : .held position ∈ Γ)
    (hs : Supports H Γ s) (hρ : g.Computes ρ) (hrun : item span position entity ctx s = .ok (v, t))
    (hlasts : t.graph.Outlasts H g) (helems : entity.elements? ρ = some elems)
    (hi : ρ position = some (.int i)) (hc : elems[i]? = some c) : ρ v = some c := by
  cases entity with
  | value given =>
    obtain ⟨-, hstays⟩ := (item_emits _ h hp).onward hs hrun
    rw [item] at hrun
    obtain ⟨ty, u, hasked, hrun⟩ := bind_ok hrun
    obtain ⟨hty, rfl⟩ := typeOf_ok hasked
    obtain ⟨hgiven, rfl | ⟨elem, rfl⟩⟩ := typed_sequence hρ
      (hs.facts (.held given) (h _ (by simp [Entity.facts]))) (hstays.trans hlasts) helems hty
    all_goals
      have hvs : [given, position].mapM ρ = some [.sequence elems, .int i] := by simp [hgiven, hi]
      exact (primitive_holds hs.toTallied hρ hrun).2 hlasts hvs (by simpa [Content.eval?] using hc)
  | range start stop step =>
    obtain ⟨a, b, d, ha, -, hd, rfl⟩ := of_elements?_range helems
    rw [Content.getElem?_range hc]
    -- without a start and a step the element is the counter itself
    by_cases hplain : start = none ∧ step = none
    · obtain ⟨rfl, rfl⟩ := hplain
      cases ha
      cases hd
      rw [item] at hrun
      obtain ⟨rfl, rfl⟩ := pure_ok hrun
      simpa using hi
    · rw [item] at hrun
      · exact rangeStep_holds hs.toTallied hρ hlasts hrun ha hd
          (fun _ hp hq => by simp [hp, hq, hi]; rfl) rfl
      · simpa using hplain
  | zip items =>
    rw [item] at hrun
    obtain ⟨vs, u, hitems, hrun⟩ := bind_ok hrun
    rw [Entity.elements?] at helems
    obtain ⟨columns, hcolumns, rfl⟩ := Option.map_eq_some_iff.mp helems
    rw [getElem?_map] at hc
    obtain ⟨row, hrow, rfl⟩ := Option.map_eq_some_iff.mp hc
    have hfacts : ∀ fact ∈ Entity.factsAll False items, fact ∈ Γ := by simpa [Entity.facts] using h
    obtain ⟨hu, -⟩ := (itemsAt_emits items hfacts hp).onward hs hitems
    obtain ⟨hstays, hholds⟩ := tuple_holds hu.toTallied hρ hrun
    exact hholds hlasts (itemsAt_hold items hfacts hp hs hρ hitems (hstays.trans hlasts) hcolumns hi
      (Content.of_getElem?_rows hrow))
  | enumerate inner =>
    rw [item] at hrun
    obtain ⟨elem, u, helem, hrun⟩ := bind_ok hrun
    rw [Entity.elements?] at helems
    obtain ⟨inside, hinside, rfl⟩ := Option.map_eq_some_iff.mp helems
    rw [getElem?_map, getElem?_zipIdx, Option.map_map] at hc
    obtain ⟨x, hx, rfl⟩ := Option.map_eq_some_iff.mp hc
    have hfacts : ∀ fact ∈ inner.facts False, fact ∈ Γ := by simpa [Entity.facts] using h
    obtain ⟨hu, -⟩ := (item_emits inner hfacts hp).onward hs helem
    obtain ⟨hstays, hholds⟩ := tuple_holds hu.toTallied hρ hrun
    have hinner := item_holds inner hfacts hp hs hρ helem (hstays.trans hlasts) hinside hi hx
    have hvs : [position, elem].mapM ρ = some [.int i, x] := by simp [hi, hinner]
    simpa using hholds hlasts hvs
  | _ => cases helems

theorem itemsAt_hold (entities : List Entity) {s t : LowerState} {vs : List ValueId}
    {columns : List (List Content)} {row : List Content}
    (h : ∀ fact ∈ Entity.factsAll False entities, fact ∈ Γ) (hp : .held position ∈ Γ)
    (hs : Supports H Γ s) (hρ : g.Computes ρ)
    (hrun : itemsAt span position entities ctx s = .ok (vs, t)) (hlasts : t.graph.Outlasts H g)
    (hcolumns : Entity.elementsAll? ρ entities = some columns) (hi : ρ position = some (.int i))
    (hrow : Forall₂ (fun column c => column[i]? = some c) columns row) : vs.mapM ρ = some row := by
  cases entities with rw [itemsAt] at hrun
  | nil =>
    obtain ⟨rfl, rfl⟩ := pure_ok hrun
    cases hcolumns
    cases hrow
    rfl
  | cons entity rest =>
    obtain ⟨elem, u, helem, hrun⟩ := bind_ok hrun
    obtain ⟨others, hothers, rfl⟩ := map_ok hrun
    rw [Entity.factsAll, forall_mem_append] at h
    rw [Entity.elementsAll?] at hcolumns
    obtain ⟨column, hcolumn, hcolumns⟩ := Option.bind_eq_some_iff.mp hcolumns
    obtain ⟨columns, hrest, rfl⟩ := Option.map_eq_some_iff.mp hcolumns
    cases hrow with
    | cons hc hrow =>
      obtain ⟨hu, -⟩ := (item_emits entity h.1 hp).onward hs helem
      obtain ⟨-, hstays⟩ := (itemsAt_emits rest h.2 hp).onward hu.mono hothers
      have hfirst := item_holds entity h.1 hp hs hρ helem (hstays.trans hlasts) hcolumn hi hc
      have hlater := itemsAt_hold rest h.2 hp hu.mono hρ hothers hlasts hrest hi hrow
      simp [hfirst, hlater]

end

/-! ## Rounds -/

variable {iterable : Entity} {trip counter elem : ValueId}

/-- A call of `range`, `zip` or `enumerate` makes an iterable of what its arguments stand for. -/
theorem makeIterable_elements {kind : IterableKind} {args : List Entity}
    (hrun : makeIterable kind span args ctx s = .ok (iterable, t)) :
    (kind = .range → ∃ values u, toValues span args ctx s = .ok (values, u) ∧
      ∀ xs, Forall₂ (fun v x => ρ v = some (.int x)) values xs →
        iterable.elements? ρ = Content.rangeOf? xs) ∧
    (kind = .zip → iterable = .zip args) ∧
    (kind = .enumerate → args.map .enumerate = [iterable]) := by
  cases kind with
  | range =>
    obtain ⟨values, u, hvalues, hrun⟩ := bind_ok hrun
    obtain ⟨_, _, -, hrun⟩ := bind_ok hrun
    refine ⟨fun _ => ⟨values, u, hvalues, fun xs hxs => ?_⟩, by simp, by simp⟩
    rcases hxs with _ | ⟨hx, _ | ⟨hy, _ | ⟨hz, _ | _⟩⟩⟩ <;>
      first
        | exact absurd hrun fail_ok
        | obtain ⟨rfl, -⟩ := pure_ok hrun
          simp [Entity.elements?, Content.rangeOf?, *]
  | zip | enumerate =>
    rcases args with _ | ⟨inner, _ | _⟩ <;>
      first
        | exact absurd hrun fail_ok
        | obtain ⟨rfl, -⟩ := pure_ok hrun
          simp

theorem supports_iff : Supports H (.held counter :: iterable.facts False) s ↔
    Tallied H s ∧ ∀ v ∈ counter :: iterable.values, Held H s v := by
  have hiff := iterable.facts_hold_iff (A := False) (H := H) (s := s)
  simp only [false_implies, and_true] at hiff
  exact ⟨
    fun h => ⟨h.toTallied, forall_mem_cons.mpr ((forall_mem_cons.mp h.facts).imp_right hiff.mp)⟩,
    fun h => ⟨h.1, forall_mem_cons.mpr ((forall_mem_cons.mp h.2).imp_right hiff.mpr)⟩⟩

theorem Supports.visits (hs : Supports H (iterable.facts False) s)
    (hlength : length span iterable ctx s = .ok (trip, t)) (hkept : t.graph.Outlasts H u.graph)
    (hu : Supports H (.held counter :: iterable.facts False) u)
    (hitem : item span counter iterable ctx u = .ok (elem, w)) (hρ : w.graph.Computes ρ)
    (helems : iterable.elements? ρ = some elems) : CountsTo ρ trip elems.length ∧
      ∀ (i : Nat) c, ρ counter = some (.int i) → elems[i]? = some c → ρ elem = some c := by
  have htail : ∀ fact ∈ iterable.facts False, fact ∈ .held counter :: iterable.facts False :=
    fun _ => .tail _
  obtain ⟨-, hstays⟩ := (item_emits iterable htail (.head _)).onward hu hitem
  exact ⟨length_counts iterable (fun _ => id) hs hρ hlength (hkept.trans hstays) helems,
    fun i c => item_holds iterable htail (.head _) hu hρ hitem (.refl ..) helems⟩

theorem Iterates.supports {iter : Expr} (hs : Tallied H s)
    (h : Iterates ctx iter span s iterable trip t) : ∃ u, Supports H (iterable.facts False) u ∧
      length span iterable ctx u = .ok (trip, t) := by
  obtain ⟨hiter, htuple, hprepare, htrip⟩ := h
  obtain ⟨h₁, -⟩ := ((Expr.operand_sound iter).entity (Γ := [])).onward ⟨hs, by simp⟩ hiter
  obtain ⟨h₂, -⟩ := isTuple_emits.onward h₁ htuple
  obtain ⟨h₃, -⟩ := (prepareIterable_emits (by simp +contextual)).onward h₂ hprepare
  exact ⟨_, ⟨h₃.toTallied, fun fact hφ => h₃.facts fact (mem_append_left _ hφ)⟩, htrip⟩

/-- The body of a loop starts with what held before the loop, and with the counter. -/
theorem LoopSteps.supports {trip : Option ValueId} {count first : ValueId} {s₁ inner : LowerState}
    (hs : Supports H Γ s) (h : LoopSteps False H ctx s trip span count first s₁ inner) :
    Supports H (.held s₁.graph.freshValue :: Γ.filter Fact.isLasting) inner ∧
      s.graph.Outlasts H inner.graph := by
  have hentry : WellFormed H ((s.loopBody s₁ count first).enterLoop .loop) :=
    h.start.entry.of_same rfl (.refl _)
  have hbuilds := (LowerState.builds_loopBody count first
    (h.before.builds h.start.start.start)).1.trans
    (h.narrows.builds hentry)
  obtain ⟨ids, hids⟩ := hs.numbered
  refine ⟨⟨⟨h.iterates.ready.toWellFormed, Numbered.of_builds hbuilds hids⟩,
    forall_mem_cons.mpr ⟨h.iterates.counter, fun fact hφ => ?_⟩⟩,
    h.start.opened.graph.outlasts.trans (h.narrows.sound hentry).2.graph.outlasts⟩
  obtain ⟨hφ, hlasting⟩ := mem_filter.mp hφ
  exact h.iterates.carries.holds hlasting (hs.facts fact hφ)

/-- A `for` over anything but a tuple is a loop of as many rounds as there are elements, and in each
round the targets are assigned the element. -/
theorem Iterates.visits {iter : Expr} {targets : List Expr} {body : Lower Unit} (hs : Tallied H s)
    (hiterates : Iterates ctx iter span s iterable trip t) (hloop : loop (some trip) none span
      (fun counter => do forRound targets span body (← item span counter iterable)) ctx t =
        .ok ((), w)) : ∃ first s₁ round elem u v,
      LoopSteps False H ctx t (some trip) span trip first s₁ round ∧
      item span s₁.graph.freshValue iterable ctx round = .ok (elem, u) ∧
      forRound targets span body elem ctx u = .ok ((), v) ∧
      ∀ ρ elems, u.graph.Computes ρ → iterable.elements? ρ = some elems →
        CountsTo ρ trip elems.length ∧ ∀ (i : Nat) c, ρ s₁.graph.freshValue = some (.int i) →
          elems[i]? = some c → ρ elem = some c := by
  obtain ⟨start, hstart, hlength⟩ := hiterates.supports hs
  obtain ⟨ht, -⟩ := (length_emits iterable fun _ => id).onward hstart hlength
  obtain ⟨_, first, s₁, round, v, _, _, _, hsteps, hround, -, -⟩ :=
    loop_steps (ht.ready ctx) ht.facts (by simp) (by simp) hloop
  obtain rfl := hsteps.same trip rfl
  obtain ⟨elem, u, hitem, hbody⟩ := bind_ok hround
  obtain ⟨hinner, hkept⟩ := hsteps.supports ht
  refine ⟨first, s₁, round, elem, u, v, hsteps, hitem, hbody, fun ρ elems => ?_⟩
  refine Supports.visits hstart hlength hkept ⟨hinner.toTallied, ?_⟩ hitem
  refine forall_mem_cons.mpr ⟨hinner.facts _ (.head _), fun fact hφ => hinner.facts fact ?_⟩
  exact .tail _ (mem_filter.mpr ⟨mem_append_right _ hφ, iterable.isLasting_facts fact hφ⟩)

end Lower

open Lower

end Flowgraph
