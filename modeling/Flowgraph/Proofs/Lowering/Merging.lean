import Flowgraph.Proofs.Lowering.Expressions
import Flowgraph.Proofs.Scopes.Quiet

/-!
# Merging the sides of a branch

What becomes of a name that the sides of a branch assign is decided by what it means at their ends
and outside (`fate`).  What merging does is a `Merge`, and it binds only names that one of the sides
assigned.
-/

namespace Flowgraph.Lower

variable {H : List ValueId} {ctx : LowerContext} {base s t : LowerState} {n : NodeId}
  {a b live : BranchSide} {name : String} {span : Span} {answer : Unit}

/-! ## Runs -/

theorem returnFrom_run (h : Merging H base n a b s) (ctx : LowerContext) (name : String)
    (side : SideType) (span : Span) : ∃ label, returnFrom a.block name side span ctx s =
      .ok ((), s.returnFrom a.block name side span label) := by
  obtain ⟨hanchored, -, -, -⟩ := h.returnPoint side.source
  have hcoh : (s.moveTo ⟨a.block, none⟩).graph.Coherent := h.wellFormed.coherent
  obtain ⟨node, hn, hsides⟩ := h.sides
  obtain ⟨block, hb, -⟩ := hcoh.nested n node a.block hn hsides.mem
  have hadd : ∀ label, addResult a.block s.graph.freshValue ctx
      (((s.moveTo ⟨a.block, none⟩).withGraph ((s.graph.place (s.returnPoint a.block side.source)
        (loadNode name span) [side.ty]).named s.graph.freshValue label)).moveTo s.point) =
          .ok ((), s.returnFrom a.block name side span label) := by
    intro label
    obtain ⟨block', hb', -⟩ := ((Graph.Grows.place hcoh
      (show (loadNode name span).blocks = [] from rfl) (s.returnPoint a.block side.source)
        [side.ty]).named s.graph.freshValue label).block _ block hb
    exact build_eq_ok (Build.update_some.mpr ⟨_, Graph.modifyBlock_some hb' _, rfl⟩)
  cases hsrc : side.source with
  | none =>
    refine ⟨none, bind_iff.mpr ⟨_, _, inBlock_run ?_, hadd none⟩⟩
    rw [hsrc] at hanchored ⊢
    rw [Graph.named_none]
    exact build_eq_ok (Build.insertWith_eq hcoh hanchored)
  | some frame =>
    rw [hsrc] at hanchored
    obtain ⟨label, hload⟩ := load_run hcoh hanchored
    refine ⟨label, bind_iff.mpr ⟨_, _, inBlock_run ?_, hadd label⟩⟩
    rw [hsrc]
    exact hload

theorem mergeVariable_run (h : Merging H base n a b s) (hbase : base.graph.Anchored base.point)
    (ctx : LowerContext) (name : String) (sideA sideB : SideType) (joined : Ty) (span : Span) :
    ∃ labelA labelB label,
      mergeVariable n name (a.block, sideA) (b.block, sideB) joined span ctx s =
        .ok ((), ((s.returnFrom a.block name sideA span labelA).returnFrom b.block name
          sideB span labelB).storeOutput n name joined span label) := by
  obtain ⟨labelA, hreturnA⟩ := returnFrom_run h ctx name sideA span
  have hafterA := h.returnFrom hbase name sideA span labelA
  obtain ⟨labelB, hreturnB⟩ := returnFrom_run hafterA.swap ctx name sideB span
  have hafterB := (hafterA.swap.returnFrom hbase name sideB span labelB).swap
  obtain ⟨node, hn, -⟩ := hafterB.sides
  have hout := hafterB.wellFormed.withOutput n joined
  obtain ⟨label, hname⟩ := nameValue_run ctx name hout.coherent (Graph.node?_withOutput hn joined)
    (List.mem_append_right _ (List.mem_singleton_self _))
  have hnamed := fun v => hout.named v label
  exact ⟨labelA, labelB, label, bind_iff.mpr ⟨_, _, hreturnA, bind_iff.mpr ⟨_, _, hreturnB,
    bind_iff.mpr ⟨_, _, addOutput_run hn, bind_iff.mpr ⟨_, _, hname,
      store_eq (hnamed _).coherent (hnamed _).anchored⟩⟩⟩⟩⟩

theorem recordBinding_ok {binding : Binding}
    (h : recordBinding name binding ctx s = .ok (answer, t)) :
    s.recordBinding name binding = t := by
  obtain rfl := modifyScope_ok h
  cases binding <;> rfl

theorem deferFault_ok {fault : Fault} (h : deferFault name fault ctx s = .ok (answer, t)) :
    s.defer name fault = t :=
  modifyScope_ok h

/-! ## Fates -/

/-- What a name is to be after a branch. -/
inductive Fate where
  /-- The sides give it types that have a join. -/
  | joined (first second ty : Ty)
  | bound (binding : Binding)
  | clash
  | unsettled
  | kept

/-- The fate of a name, by whether it is visible outside and what it means at the ends of the
sides. -/
def Fate.of (visible : Bool) : Option Binding → Option Binding → Fate
  | some (.plain a), some (.plain b) =>
    match Ty.join a b with
    | some ty => .joined a b ty
    | none => if visible then .clash else .unsettled
  | some (.entity a), some (.entity b) => if a.same b then .bound (.entity a) else .unsettled
  | _, _ => .unsettled

/-- The fate of a name that one of the sides assigns.  A side that always raises has no say. -/
def fate (a b : BranchSide) (scope : Scope) (name : String) : Fate :=
  match a.raises, b.raises with
  | true, true => .kept
  | true, false => (b.frame.assigned? name).elim .kept .bound
  | false, true => (a.frame.assigned? name).elim .kept .bound
  | false, false => .of (scope.find? name).isSome (a.binding? scope name) (b.binding? scope name)

/-- Bind a name to what a side assigned to it, if it did. -/
def recordFrom (live : BranchSide) (name : String) : Lower Unit :=
  match live.frame.assigned? name with
  | some binding => recordBinding name binding
  | none => pure ()

/-- What merging does with one name. -/
def mergeStep (n : NodeId) (a b : BranchSide) (span : Span) (name : String) : Lower Unit :=
  match a.raises, b.raises with
  | true, true => pure ()
  | true, false => recordFrom b name
  | false, true => recordFrom a name
  | false, false => mergeName n a b span name

theorem mergeSides_eq : mergeSides n a b span =
    (sortedNames (a.frame.definedNames ++ b.frame.definedNames)).forM (mergeStep n a b span) := by
  have hidle : ∀ names : List String, names.forM (fun _ => (pure () : Lower Unit)) = pure () := by
    intro names
    induction names with
    | nil => rfl
    | cons _ _ ih => exact ih
  unfold mergeSides mergeStep
  cases a.raises <;> cases b.raises
  · rfl
  · rfl
  · rfl
  · exact (hidle _).symm

/-- How a name is merged.  If a fault is deferred for a name that was bound before, it is that its
two meanings are of different kinds. -/
inductive MergeRun (n : NodeId) (a b : BranchSide) (span : Span) (name : String)
    (ctx : LowerContext) (s : LowerState) (result : Except Failure (Unit × LowerState)) : Prop
  | joined {typeA typeB joined : Ty} (ha : a.binding? s.scope name = some (.plain typeA))
      (hb : b.binding? s.scope name = some (.plain typeB))
      (hjoin : Ty.join typeA typeB = some joined)
      (hrun : mergeVariable n name (a.block, a.typed s.scope name typeA)
        (b.block, b.typed s.scope name typeB) joined span ctx s = result)
      (hfate : fate a b s.scope name = .joined typeA typeB joined)
  | bound {binding : Binding} (hmerge : Merge n a b s (s.recordBinding name binding))
      (hrun : recordBinding name binding ctx s = result)
      (hfate : fate a b s.scope name = .bound binding)
  | clash {typeA typeB : Ty}
      (hrun : fail (.type span (.branchMismatch name typeA typeB)) ctx s = result)
      (hfate : fate a b s.scope name = .clash)
  | deferred {fault : Fault} (hrun : deferFault name fault ctx s = result)
      (hfault : fault.Defers name) (hcase : s.scope.find? name = none ∨ ∃ span onTrue onFalse,
        fault = .type span (.branchKinds name onTrue onFalse))
      (hfate : fate a b s.scope name = .unsettled)
  | kept (hrun : (pure () : Lower Unit) ctx s = result) (hfate : fate a b s.scope name = .kept)

variable {result : Except Failure (Unit × LowerState)}

theorem mergeName_runs (hraisesA : a.raises = false) (hraisesB : b.raises = false)
    (hrun : mergeName n a b span name ctx s = result) : MergeRun n a b span name ctx s result := by
  have hfate : ∀ x y z, a.binding? s.scope name = x → b.binding? s.scope name = y →
      Fate.of (s.scope.find? name).isSome x y = z → fate a b s.scope name = z := by
    rintro _ _ _ rfl rfl hof
    simpa only [fate, hraisesA, hraisesB] using hof
  replace hrun := getScope_run hrun
  cases ha : (a.frame.assigned? name).or ((s.scope.find? name).map Scope.Found.binding) with
  | none =>
    simp only [ha] at hrun
    exact .deferred hrun rfl (Or.inl (by simp_all [Option.or_eq_none_iff])) (hfate _ _ _ ha rfl rfl)
  | some bindingA =>
    cases hb : (b.frame.assigned? name).or ((s.scope.find? name).map Scope.Found.binding) with
    | none =>
      simp only [ha, hb] at hrun
      exact .deferred hrun rfl (Or.inl (by simp_all [Option.or_eq_none_iff]))
        (hfate _ _ _ ha hb (by cases bindingA <;> rfl))
    | some bindingB =>
      rcases bindingA with typeA | denoted <;> rcases bindingB with typeB | other <;>
        simp only [ha, hb, mergeName.sharedEntity?] at hrun
      · cases hj : Ty.join typeA typeB with simp only [hj] at hrun
        | some joined =>
          exact .joined ha hb hj hrun (hfate _ _ _ ha hb (by simp [Fate.of, hj]))
        | none =>
          split at hrun
          next hvis => exact .clash hrun (hfate _ _ _ ha hb (by simp [Fate.of, hj, hvis]))
          next hvis =>
            exact .deferred hrun rfl (Or.inl (Option.not_isSome_iff_eq_none.mp hvis))
              (hfate _ _ _ ha hb (by simp [Fate.of, hj, hvis]))
      -- a variable on one side, another entity on the other
      iterate 2 exact .deferred hrun rfl (Or.inr ⟨_, _, _, rfl⟩) (hfate _ _ _ ha hb rfl)
      · cases hs : denoted.same other with simp only [hs, if_true] at hrun
        | true =>
          exact .bound (.shared ha hb hs) hrun (hfate _ _ _ ha hb (by simp [Fate.of, hs]))
        | false =>
          exact .deferred hrun rfl (Or.inr ⟨_, _, _, rfl⟩)
            (hfate _ _ _ ha hb (by simp [Fate.of, hs]))

theorem recordFrom_runs (hrun : recordFrom live name ctx s = result)
    (hmerge : ∀ binding, live.frame.assigned? name = some binding →
      Merge n a b s (s.recordBinding name binding))
    (hfate : fate a b s.scope name = (live.frame.assigned? name).elim .kept .bound) :
    MergeRun n a b span name ctx s result := by
  unfold recordFrom at hrun
  cases hget : live.frame.assigned? name with rw [hget] at hrun hfate
  | none => exact .kept hrun hfate
  | some binding => exact .bound (hmerge binding hget) hrun hfate

theorem mergeStep_runs (hrun : mergeStep n a b span name ctx s = result) :
    MergeRun n a b span name ctx s result := by
  unfold mergeStep at hrun
  cases ha : a.raises <;> cases hb : b.raises <;> simp only [ha, hb] at hrun
  · exact mergeName_runs ha hb hrun
  · exact recordFrom_runs hrun (fun _ hget => .survivor (Or.inl ⟨hb, hget⟩)) (by rw [fate, ha, hb])
  · exact recordFrom_runs hrun (fun _ hget => .survivor (Or.inr ⟨ha, hget⟩)) (by rw [fate, ha, hb])
  · exact .kept hrun (by rw [fate, ha, hb])

theorem mergeStep_ok (h : Merging H base n a b s) (hbase : base.graph.Anchored base.point)
    (hrun : mergeStep n a b span name ctx s = .ok (answer, t)) : Merge n a b s t := by
  cases mergeStep_runs hrun with
  | joined ha hb hj hrun =>
    obtain ⟨labelA, labelB, label, hmerged⟩ := mergeVariable_run h hbase ctx name _ _ _ span
    cases hmerged.symm.trans hrun
    exact .joined span labelA labelB label ha hb hj
  | bound hmerge hrun =>
    obtain rfl := recordBinding_ok hrun
    exact hmerge
  | clash hrun => exact absurd hrun fail_ok
  | @deferred fault hrun =>
    obtain rfl := deferFault_ok hrun
    exact .defer s name fault
  | kept hrun =>
    obtain ⟨-, rfl⟩ := pure_ok hrun
    exact .refl s

/-! ## All names -/

theorem mem_sortedNames {names : List String} : name ∈ sortedNames names ↔ name ∈ names := by
  have hkeys : ∀ map : NameMap Unit, name ∈ map.names ↔ (map.get? name).isSome := by
    intro map
    rw [← Option.ne_none_iff_isSome, NameMap.get?, Ne, List.lookup_eq_none_iff]
    simp [NameMap.names]
  have hfold : ∀ map : NameMap Unit, (((names.map fun name => (name, ())).foldl
      (fun map entry => map.insert entry.1 entry.2) map).get? name).isSome ↔
        name ∈ names ∨ (map.get? name).isSome := by
    induction names with
    | nil => simp
    | cons other rest ih =>
      intro map
      rw [List.map_cons, List.foldl_cons, ih, NameMap.get?_insert]
      by_cases heq : name = other <;> simp [heq]
  rw [sortedNames, hkeys, NameMap.ofList, hfold]
  simp

theorem sortedNames_sorted (names : List String) : (sortedNames names).Pairwise (· < ·) := by
  have hempty : NameMap.Sorted (⟨[]⟩ : NameMap Unit) := .nil
  exact List.pairwise_map.mpr (List.foldlRecOn _ _ hempty fun _ h item _ =>
    NameMap.Sorted.insert h item.1 item.2)

theorem mergeSides_ok (h : Merging H base n a b s) (hbase : base.graph.Anchored base.point)
    (hrun : mergeSides n a b span ctx s = .ok (answer, t)) : Merge n a b s t := by
  rw [mergeSides_eq] at hrun
  generalize sortedNames (a.frame.definedNames ++ b.frame.definedNames) = names at hrun
  induction names generalizing s with
  | nil =>
    obtain ⟨-, rfl⟩ := pure_ok hrun
    exact .refl s
  | cons name rest ih =>
    obtain ⟨_, u, hname, hr⟩ := bind_ok hrun
    have hmerge := mergeStep_ok h hbase hname
    exact hmerge.trans (ih (hmerge.sound hbase h) hr)

end Flowgraph.Lower
