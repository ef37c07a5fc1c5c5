import Flowgraph.Proofs.Narrowing
import Flowgraph.SurfaceType
import Flowgraph.Syntax.Stmt

/-!
# The places of a program

`DefOf.spans` lists the spans of the expressions, statements, names and definitions that occur in a
definition.
-/

namespace Flowgraph

open Flowgraph.Expr

mutual

def Expr.spans : Expr → List Span
  | .var span _ | .const span _ | .ellipsis span => [span]
  | .unary span _ inner | .starred span inner => span :: inner.spans
  | .binary span _ lhs rhs => span :: (lhs.spans ++ rhs.spans)
  | .ternary span cond body orelse => span :: (cond.spans ++ (body.spans ++ orelse.spans))
  | .listComp span elem target iter => span :: (elem.spans ++ (target.spans ++ iter.spans))
  | .subscript span base indices => span :: (base.spans ++ spansAll indices)
  | .slice span start stop step =>
    span :: (spans? start ++ (spans? stop ++ spans? step))
  | .call span callee args keywords =>
    span :: (callee.spans ++ (spansAll args ++ keywordSpans keywords))
  | .attribute span base attr => span :: attr.span :: base.spans
  | .list span elems | .tuple span elems => span :: spansAll elems
  | .dict span entries => span :: entrySpans entries

def Expr.spans? : Option Expr → List Span
  | none => []
  | some expr => expr.spans

def Expr.spansAll : List Expr → List Span
  | [] => []
  | expr :: rest => expr.spans ++ spansAll rest

def Expr.keywordSpans : List (Keyword Expr) → List Span
  | [] => []
  | ⟨name, value⟩ :: rest => name.span :: (value.spans ++ keywordSpans rest)

def Expr.entrySpans : List (Expr × Expr) → List Span
  | [] => []
  | (key, value) :: rest => key.spans ++ (value.spans ++ entrySpans rest)

end

def Param.spans (param : Param) : List Span :=
  param.name.span :: spans? param.ty

mutual

def Stmt.spans : Stmt → List Span
  | .branch span cond body orelse =>
    span :: (cond.spans ++ (Stmt.spansAll body ++ Stmt.spansAll orelse))
  | .whileLoop span cond body => span :: (spans? cond ++ Stmt.spansAll body)
  | .forLoop span targets iters body =>
    span :: (spansAll targets ++ (spansAll iters ++ Stmt.spansAll body))
  | .assign span target ty value => span :: (target.spans ++ (spans? ty ++ spans? value))
  | .augment span target _ value => span :: (target.spans ++ value.spans)
  | .ret span value | .raise span value => span :: spans? value
  | .leave span | .next span | .pass span => [span]
  | .assert span test message => span :: (test.spans ++ spans? message)
  | .eval span value => span :: value.spans
  | .globals span names => span :: names.map Ident.span
  | .define span definition => span :: definition.spans

def Stmt.spansAll : List Stmt → List Span
  | [] => []
  | stmt :: rest => stmt.spans ++ Stmt.spansAll rest

/-- The spans of the definition and of everything in it. -/
def DefOf.spans : DefOf Stmt → List Span
  | ⟨name, params, result, body, span⟩ =>
    span :: name.span :: (params.flatMap Param.spans ++ (spans? result ++ Stmt.spansAll body))

end

theorem Expr.span_mem (expr : Expr) : expr.span ∈ expr.spans := by
  cases expr <;> rw [spans] <;> exact .head _

theorem Stmt.span_mem (stmt : Stmt) : stmt.span ∈ stmt.spans := by
  cases stmt <;> rw [spans] <;> exact .head _

theorem Expr.mem_spansAll {expr : Expr} {exprs : List Expr} (h : expr ∈ exprs) :
    expr.spans ⊆ spansAll exprs := by
  induction exprs with
  | nil => cases h
  | cons first rest ih =>
    rw [spansAll]
    rcases List.mem_cons.mp h with rfl | hr
    · exact List.subset_append_left ..
    · exact List.Subset.trans (ih hr) (List.subset_append_right ..)

/-! ## Refinements -/

/-- Everything that the map narrows is narrowed at one of the places. -/
def RefinementMap.At (spans : List Span) (map : RefinementMap) : Prop :=
  ∀ entry ∈ map.entries, entry.2.span ∈ spans

namespace RefinementMap.At

variable {a b : RefinementMap} {as bs : List Span}

theorem mono (h : a.At as) (hsub : as ⊆ bs) : a.At bs := fun entry he => hsub (h entry he)

theorem empty : RefinementMap.At as .empty := fun _ he => nomatch he

theorem intersect (h : a.At as) : (a.intersect b).At as := by
  rintro ⟨name, narrowing⟩ he
  obtain ⟨ours, -, hours, -, -, hspan⟩ := mem_intersect he
  exact hspan ▸ h _ hours

theorem union (ha : a.At as) (hb : b.At as) : (a.union b).At as := by
  rintro ⟨name, narrowing⟩ he
  rcases mem_union he with ⟨hours, -⟩ | ⟨htheirs, -⟩ | ⟨ours, -, hours, -, -, hspan⟩
  · exact ha _ hours
  · exact hb _ htheirs
  · exact hspan ▸ ha _ hours

end RefinementMap.At

theorem Refinements.ofIdentity_at (typeOf : String → Option Ty) (isNone outcome : Bool)
    (lhs rhs : Expr) :
    ((Refinements.ofIdentity typeOf isNone lhs rhs).on outcome).At [lhs.span, rhs.span] := by
  have htest : ∀ {name span}, span ∈ [lhs.span, rhs.span] →
      ((Refinements.ofNoneTest typeOf isNone name span).on outcome).At [lhs.span, rhs.span] := by
    intro name span hspan
    have hsingle : ∀ ty, (RefinementMap.single name ty span).At [lhs.span, rhs.span] :=
      fun ty entry he => (List.mem_singleton.mp he) ▸ hspan
    unfold Refinements.ofNoneTest
    split
    · cases isNone <;> cases outcome <;> exact hsingle _
    · cases outcome <;> exact .empty
  unfold Refinements.ofIdentity
  split
  · exact htest (.head _)
  · exact htest (.tail _ (.head _))
  · cases outcome <;> exact .empty

theorem Expr.refinements_at (typeOf : String → Option Ty) (expr : Expr) (outcome : Bool) :
    ((expr.refinements typeOf).on outcome).At expr.spans := by
  induction expr using refinements.induct generalizing outcome with
  | case1 span lhs rhs | case2 span lhs rhs =>
    refine (Refinements.ofIdentity_at typeOf _ outcome lhs rhs).mono ?_
    simp [spans, span_mem]
  | case3 span lhs rhs ihl ihr =>
    have hleft : lhs.spans ⊆ (binary span .and lhs rhs).spans := by simp [spans]
    have hright : rhs.spans ⊆ (binary span .and lhs rhs).spans := by simp [spans]
    cases outcome with
    | true => exact .intersect ((ihl true).mono hleft)
    | false => exact .union ((ihl false).mono hleft) ((ihr false).mono hright)
  | case4 span lhs rhs ihl ihr =>
    have hleft : lhs.spans ⊆ (binary span .or lhs rhs).spans := by simp [spans]
    have hright : rhs.spans ⊆ (binary span .or lhs rhs).spans := by simp [spans]
    cases outcome with
    | true => exact .union ((ihl true).mono hleft) ((ihr true).mono hright)
    | false => exact .intersect ((ihl false).mono hleft)
  | case5 span operand ih =>
    refine RefinementMap.At.mono ?_ (List.subset_cons_self span operand.spans)
    cases outcome
    · exact ih true
    · exact ih false
  | case6 expr => cases outcome <;> rw [refinements] <;> first | exact .empty | assumption

/-! ## Types -/

/-- The fault is one of type at one of the places. -/
def Fault.TypeAt (spans : List Span) (fault : Fault) : Prop :=
  ∃ span ∈ spans, ∃ cause, fault = .type span cause

theorem Fault.TypeAt.mono {fault : Fault} {spans more : List Span} (h : fault.TypeAt spans)
    (hsub : spans ⊆ more) : fault.TypeAt more :=
  h.imp fun _ h => ⟨hsub h.1, h.2⟩

namespace Expr

variable {host : Host} {fault : Fault}

theorem bind_fault {α β ε : Type} {result : Except ε α} {f : α → Except ε β} {e : ε}
    (h : result >>= f = .error e) : result = .error e ∨ ∃ a, f a = .error e := by
  cases result with
  | ok a => exact Or.inr ⟨a, h⟩
  | error e' => exact Or.inl (by simpa [Bind.bind, Except.bind] using h)

theorem map_fault {α β ε : Type} {result : Except ε α} {f : α → β} {e : ε}
    (h : result.map f = .error e) : result = .error e := by
  cases result with
  | ok a => cases h
  | error e' => simpa [Except.map] using h

theorem namedType_fault {name : String} {span : Span}
    (h : namedType host name span = .error fault) : fault.TypeAt [span] := by
  unfold namedType at h
  split at h
  · cases h
  · split at h
    · cases h
    · cases h
      exact ⟨span, (.head _), _, rfl⟩

mutual

theorem surfaceType_fault (expr : Expr) (h : expr.surfaceType host = .error fault) :
    fault.TypeAt expr.spans := by
  match expr with
  | .var span name =>
    rw [surfaceType] at h
    exact namedType_fault h
  | .attribute span value attr =>
    rw [surfaceType] at h
    split at h
    · exact (namedType_fault h).mono (by simp [spans])
    · cases h
      exact ⟨span, (.head _), _, rfl⟩
  | .subscript span value args =>
    have hargs : spansAll args ⊆ (subscript span value args).spans := by simp [spans]
    have hone : ∀ {elem : Expr}, elem ∈ args → elem.surfaceType host = .error fault →
        fault.TypeAt (subscript span value args).spans := fun {elem} hmem helem =>
      (surfaceType_fault elem helem).mono (List.Subset.trans (mem_spansAll hmem) hargs)
    unfold surfaceType at h
    split at h
    · cases h
      exact ⟨value.span, by simp [spans, span_mem], _, rfl⟩
    iterate 3
      · split at h
        · exact hone (.head _) (map_fault h)
        · cases h
          exact ⟨span, (.head _), _, rfl⟩
    · split at h
      next key elem =>
        rcases bind_fault h with hkey | ⟨keyType, h⟩
        · exact hone (.head _) hkey
        · split at h
          · rcases bind_fault h with helem | ⟨_, h⟩
            · exact hone (by simp) helem
            · cases h
          · cases h
            exact ⟨key.span, hargs (by simp [spansAll, span_mem]), _, rfl⟩
      next =>
        cases h
        exact ⟨span, (.head _), _, rfl⟩
    · exact (surfaceTypes_fault args (map_fault h)).mono hargs
    · cases h
      exact ⟨span, (.head _), _, rfl⟩
  | .const span value =>
    cases value <;> simp only [surfaceType] at h <;> cases h <;>
      exact ⟨span, (.head _), _, rfl⟩
  | .binary span .. | .unary span .. | .ternary span .. | .slice span .. | .ellipsis span
  | .starred span .. | .call span .. | .list span .. | .tuple span .. | .dict span ..
  | .listComp span .. =>
    simp only [surfaceType] at h
    cases h
    exact ⟨span, by rw [spans]; exact (.head _), _, rfl⟩

theorem surfaceTypes_fault (exprs : List Expr) (h : surfaceTypes host exprs = .error fault) :
    fault.TypeAt (spansAll exprs) := by
  cases exprs with
  | nil => cases h
  | cons expr rest =>
    rw [surfaceTypes] at h
    rw [spansAll]
    rcases bind_fault h with hfirst | ⟨_, h⟩
    · exact (surfaceType_fault expr hfirst).mono (List.subset_append_left ..)
    · rcases bind_fault h with hr | ⟨_, h⟩
      · exact (surfaceTypes_fault rest hr).mono (List.subset_append_right ..)
      · cases h

end

end Expr

end Flowgraph
