import Flowgraph.Proofs.Lowering.Identifiers
import Flowgraph.Proofs.Lowering.Loops
import Flowgraph.Proofs.Scopes.Graphs
import Flowgraph.Proofs.Scopes.Quiet

/-!
# Expressions are quiet

Lowering an expression binds nothing that is seen afterwards (`Expr.lower_quiet`), and assigning to
a target binds the names in it (`Expr.assign_assigns`).  Both come from one recursion over the tree,
`Expr.lower_keeps` and `Expr.assign_keeps`, about any law that a few conditions make robust enough;
other laws of expressions are read off it as well.
-/

namespace Flowgraph

open Flowgraph.Expr List Scope Operand

/-! ## Parts -/

variable {scope : Scope}

structure Operand.Keeps (R : Law) (operand : Operand) : Prop where
  covers : R.Covers operand.expr.spans
  lower : ∀ hint, Lower.Keeps R (operand.lower hint)

def ItemForm.Keeps (R : Law) : ItemForm → Prop
  | .starred inner => inner.Keeps R
  | .slice start stop step => (∀ operand ∈ start, operand.Keeps R) ∧
      (∀ operand ∈ stop, operand.Keeps R) ∧ ∀ operand ∈ step, operand.Keeps R
  | _ => True

structure Item.Keeps (R : Law) (item : Item) : Prop where
  operand : item.toOperand.Keeps R
  form : item.form.Keeps R

def Target.Keeps (R : Law) (target : Target) : Prop :=
  ∀ entity span, R.At span → Lower.Keeps R (target.assign entity span)

namespace Lower

/-- The operands that an index has still to lower. -/
def IndexEntry.Keeps (R : Law) : IndexEntry → Prop
  | .slice start stop step => (ItemForm.slice start stop step).Keeps R
  | _ => True

variable {α β : Type} {R : Law} {f : α → Lower β} {entries : List (Operand × Operand)}
  {targets : List Target} {Q : β → Prop} {op : BinaryOp}

/-- As `Keeps`, and what the action answers has the property. -/
structure Gives (R : Law) (P : α → Prop) (action : Lower α) : Prop where
  keeps : Keeps R action
  answer : ∀ ctx s a t, action ctx s = .ok (a, t) → P a

namespace Gives

variable {P : α → Prop} {action : Lower α}

@[grind ←] theorem fail {fault} (h : Keeps R (fail fault : Lower α)) :
    Gives R P (fail fault : Lower α) :=
  ⟨h, fun _ _ _ _ hrun => absurd hrun fail_ok⟩

variable [hR : R.Lawful]

@[grind ←] theorem pure {a : α} (h : P a) : Gives R P (Pure.pure a : Lower α) :=
  ⟨.pure, fun _ _ _ _ hrun => (pure_ok hrun).1 ▸ h⟩

theorem andThen (h : Gives R P action) (hf : ∀ a, P a → Keeps R (f a)) :
    Keeps R (action >>= f) := by
  intro ctx s
  have hfirst := h.keeps ctx s
  cases hrun : action ctx s with
  | ok answer =>
    rw [hrun] at hfirst
    rw [bind_of_ok hrun]
    exact hR.trans hfirst (hf answer.1 (h.answer ctx s _ _ hrun) ctx answer.2)
  | error failure =>
    rw [bind_error hrun]
    rwa [hrun] at hfirst

theorem andGives (h : Gives R P action) (hf : ∀ a, P a → Gives R Q (f a)) :
    Gives R Q (action >>= f) := by
  refine ⟨h.andThen fun a ha => (hf a ha).keeps, fun ctx s b u hrun => ?_⟩
  obtain ⟨a, t, hfirst, hr⟩ := bind_ok hrun
  exact (hf a (h.answer ctx s a t hfirst)).answer ctx t b u hr

@[grind ←] theorem bind (h : Keeps R action) (hf : ∀ a, Gives R Q (f a)) :
    Gives R Q (action >>= f) :=
  andGives (P := fun _ => True) ⟨h, fun _ _ _ _ _ => trivial⟩ fun a _ => hf a

theorem atPoint {enter : Build InsertPoint} (henter : enter.Moves) (h : Gives R P action) :
    Gives R P (atPoint enter action) := by
  refine ⟨.atPoint henter h.keeps, fun ctx s a t hrun => ?_⟩
  obtain ⟨_, _, -, hrun⟩ := bind_ok hrun
  obtain ⟨_, _, haction, hrun⟩ := bind_ok hrun
  obtain ⟨_, _, -, hrun⟩ := bind_ok hrun
  exact (pure_ok hrun).1 ▸ h.answer _ _ _ _ haction

end Gives

namespace Keeps

variable [hR : R.Lawful] {span : Span} [R.At span] {hint : Option Ty} {operand lhs rhs : Operand}
  {item : Item} {items : List Item} {v : ValueId} {what : String}
  {start stop step cond : Option Operand} {types : List Ty}

/-! ## Operands -/

section

variable (h : operand.Keeps R)
include h

@[grind ←] theorem entity : Keeps R operand.entity := by
  obtain ⟨_, hlower⟩ := h
  unfold Operand.entity
  grind

@[grind ←] theorem value : Keeps R (operand.value hint) := by
  obtain ⟨_, hlower⟩ := h
  unfold Operand.value
  grind

@[grind ←] theorem truth : Keeps R operand.truth := by
  have := h.covers
  unfold Operand.truth
  grind

theorem given_condition : Gives R (fun condition => ∀ outcome,
      (condition.refinements.on outcome).At operand.expr.spans) operand.condition := by
  obtain ⟨_, hlower⟩ := id h
  have hplace := fun scope : Scope => operand.expr.refinements_at scope.typeOf?
  unfold condition
  refine .bind .getScope fun scope => ?_
  dsimp only
  split
  · grind
  · refine .bind .isInstanceCall fun isCall => ?_
    split <;> grind

@[grind ←] theorem condition : Keeps R operand.condition :=
  (given_condition h).keeps

@[grind ←] theorem negation : Keeps R (Lower.negation span operand) := by
  unfold Lower.negation
  grind

end

@[grind ←] theorem identity {negated} (hlhs : lhs.Keeps R) (hrhs : rhs.Keeps R) :
    Keeps R (Lower.identity span negated lhs rhs) := by
  unfold Lower.identity
  grind

@[grind ←] theorem binary (hlhs : lhs.Keeps R) (hrhs : rhs.Keeps R) :
    Keeps R (Lower.binary span op lhs rhs) := by
  unfold Lower.binary
  grind

@[grind ←] theorem outcome {action : Lower ValueId} (h : Keeps R action) :
    Keeps R (Lower.outcome action) := by
  unfold Lower.outcome
  grind

@[grind ←] theorem unaryForm {op : UnaryOp} (h : operand.Keeps R) :
    Keeps R (Lower.unaryForm span op operand) := by
  unfold Lower.unaryForm Lower.unary
  grind

/-! ## Subscripts -/

theorem indexEntry {seenEllipsis} (h : item.Keeps R) :
    Gives R (·.Keeps R) (Lower.indexEntry seenEllipsis item) := by
  obtain ⟨hopd, hform⟩ := h
  have := hopd.covers
  unfold Lower.indexEntry
  split <;> grind [IndexEntry.Keeps]

theorem indexEntries {seenEllipsis} (h : ∀ item ∈ items, item.Keeps R) :
    Gives R (fun entries => ∀ entry ∈ entries, entry.Keeps R)
      (indexEntries seenEllipsis items) := by
  induction items generalizing seenEllipsis with
  | nil => exact .pure (by simp)
  | cons item rest ih =>
    have hfirst := @indexEntry _ _ _ seenEllipsis (h item (.head _))
    have hr := fun seen => @ih seen fun i hi => h i (mem_cons_of_mem item hi)
    refine ⟨hfirst.keeps.bind fun _ => (hr _).keeps.bind fun _ => pure, ?_⟩
    intro ctx s entries u hrun
    obtain ⟨entry, t, he, hrun⟩ := bind_ok hrun
    obtain ⟨others, t', hothers, hrun⟩ := bind_ok hrun
    obtain ⟨rfl, rfl⟩ := pure_ok hrun
    exact forall_mem_cons.mpr
      ⟨hfirst.answer ctx s entry t he, (hr _).answer ctx t others t' hothers⟩

@[grind ←] theorem sliceBound {default : Int64} (h : ∀ operand ∈ start, operand.Keeps R) :
    Keeps R (Lower.sliceBound start default) := by
  unfold Lower.sliceBound
  split
  next operand =>
    have := (h operand rfl).covers
    grind
  next => grind

@[grind ←] theorem sliceBounds (h : (ItemForm.slice start stop step).Keeps R) :
    Keeps R (Lower.sliceBounds start stop step) := by
  obtain ⟨hstart, hstop, hstep⟩ := h
  unfold Lower.sliceBounds
  grind

@[grind ←] theorem applyEntry {sliced} {entry : IndexEntry} {axis}
    (h : entry.Keeps R) : Keeps R (Lower.applyEntry span sliced entry axis) := by
  cases entry with
  | slice start stop step =>
    have hbounds : Keeps R (Lower.sliceBounds start stop step) := sliceBounds h
    unfold Lower.applyEntry
    grind
  | _ =>
    unfold Lower.applyEntry
    grind

section

variable (h : ∀ item ∈ items, item.Keeps R)
include h

@[grind ←] theorem refuseTensorAfterEllipsis {entries : List IndexEntry} :
    Keeps R (Lower.refuseTensorAfterEllipsis items entries) := by
  unfold Lower.refuseTensorAfterEllipsis
  dsimp only
  split
  next pair hpair =>
    have hmem := (dropWhile_sublist _).mem (mem_reverse.mp (mem_of_find?_eq_some hpair))
    have := (h pair.1 (of_mem_zip hmem).1).operand.covers
    grind
  next => exact pure

@[grind ←] theorem decompose : Keeps R (Lower.decompose v items span) := by
  unfold Lower.decompose
  refine (indexEntries h).andThen fun entries hes => ?_
  refine bind (refuseTensorAfterEllipsis h) fun _ => foldlM fun sliced pair hpair => ?_
  exact applyEntry (hes pair.1 (of_mem_zip hpair).1)

@[grind ←] theorem tensorSubscript : Keeps R (Lower.tensorSubscript v items span) := by
  unfold Lower.tensorSubscript
  grind

end

@[grind ←] theorem constantIndex (h : operand.Keeps R) :
    Keeps R (Lower.constantIndex operand what) := by
  have := h.covers
  unfold Lower.constantIndex
  grind

@[grind ←] theorem tupleBound {length default : Nat} (h : ∀ operand ∈ start, operand.Keeps R) :
    Keeps R (Lower.tupleBound length start default) := by
  unfold Lower.tupleBound
  split <;> grind

@[grind ←] theorem tupleSlice [R.At item.span] (h : (ItemForm.slice start stop step).Keeps R) :
    Keeps R (Lower.tupleSlice v types item start stop step span) := by
  obtain ⟨hstart, hstop, -⟩ := h
  unfold Lower.tupleSlice
  grind

@[grind ←] theorem tupleItem (h : item.Keeps R) : Keeps R (Lower.tupleItem v types item span) := by
  have hopd := h.operand
  have := hopd.covers
  unfold Lower.tupleItem
  grind

@[grind ←] theorem tupleSubscript (h : item.Keeps R) :
    Keeps R (Lower.tupleSubscript v types item span) := by
  have hform := h.form
  have := h.operand.covers
  unfold Lower.tupleSubscript
  grind

@[grind ←] theorem sequenceSubscript (h : item.Keeps R) :
    Keeps R (Lower.sequenceSubscript v item span) := by
  obtain ⟨hopd, hform⟩ := h
  unfold Lower.sequenceSubscript
  grind

theorem given_singleIndex (h : ∀ item ∈ items, item.Keeps R) :
    Gives R (·.Keeps R) (singleIndex items span what) := by
  unfold singleIndex
  split <;> grind

theorem given_twoArguments (h : ∀ item ∈ items, item.Keeps R) :
    Gives R (fun pair => pair.1.Keeps R ∧ pair.2.Keeps R) (twoArguments what span items) := by
  unfold twoArguments
  split <;> grind

@[grind ←] theorem subscript (hbase : operand.Keeps R) (h : ∀ item ∈ items, item.Keeps R) :
    Keeps R (Lower.subscript span operand items) := by
  unfold Lower.subscript
  refine bind (entity hbase) fun entity => ?_
  split
  · refine bind typeOf fun ty => ?_
    split
    · exact tensorSubscript h
    · exact tensorSubscript h
    · exact (given_singleIndex h).andThen fun item hit => tupleSubscript hit
    case h_4 | h_5 => exact (given_singleIndex h).andThen fun item hit => sequenceSubscript hit
    · refine (given_singleIndex h).andThen fun item hit => ?_
      have hopd := hit.operand
      have := hopd.covers
      grind
    · split
      · refine (given_singleIndex h).andThen fun item hit => ?_
        have hopd := hit.operand
        grind
      · exact type
  · exact type

/-! ## Literals and arguments -/

@[grind ←] theorem element (h : item.Keeps R) : Keeps R (Lower.element hint item) := by
  obtain ⟨hopd, hform⟩ := h
  have := hopd.covers
  unfold Lower.element
  split
  next inner hit =>
    have hin : inner.Keeps R := by simpa [hit, ItemForm.Keeps] using hform
    grind
  next => grind

section

variable (h : ∀ item ∈ items, item.Keeps R)
include h

@[grind ←] theorem elements : Keeps R (Lower.elements hint items) := by
  unfold Lower.elements
  grind

@[grind ←] theorem listLiteral : Keeps R (Lower.listLiteral span items hint) := by
  unfold Lower.listLiteral
  grind

@[grind ←] theorem hintedElements : Keeps R (hintedElements items types) := by
  induction items generalizing types with
  | nil =>
    unfold hintedElements
    grind
  | cons item rest ih =>
    have hit := (h item (.head _)).operand
    have := hit.covers
    have hr : ∀ types, Keeps R (hintedElements rest types) := fun _ =>
      ih fun i hi => h i (mem_cons_of_mem item hi)
    unfold hintedElements
    grind

@[grind ←] theorem tupleLiteral : Keeps R (Lower.tupleLiteral span items hint) := by
  unfold Lower.tupleLiteral
  grind

end

section

variable (h : ∀ entry ∈ entries, entry.1.Keeps R ∧ entry.2.Keeps R)
include h

@[grind ←] theorem dictEntries {keyHint valueHint} :
    Keeps R (Lower.dictEntries keyHint valueHint entries) := by
  induction entries with
  | nil => exact pure
  | cons entry rest ih =>
    obtain ⟨hkey, hv⟩ := h entry (.head _)
    have hr := ih fun e he => h e (mem_cons_of_mem entry he)
    unfold Lower.dictEntries
    grind

@[grind ←] theorem dictLiteral : Keeps R (Lower.dictLiteral span entries hint) := by
  unfold Lower.dictLiteral
  grind

end

@[grind ←] theorem argument (h : item.Keeps R) : Keeps R (Lower.argument item) := by
  obtain ⟨hopd, hform⟩ := h
  have := hopd.covers
  unfold Lower.argument
  split
  next inner hit =>
    have hin : inner.Keeps R := by simpa [hit, ItemForm.Keeps] using hform
    grind
  next => grind

section

variable (h : ∀ item ∈ items, item.Keeps R)
include h

@[grind ←] theorem arguments : Keeps R (Lower.arguments items) := by
  unfold Lower.arguments
  grind

@[grind ←] theorem callGetAttr : Keeps R (Lower.callGetAttr span items) := by
  unfold Lower.callGetAttr
  refine (given_twoArguments h).andThen fun pair hpair => ?_
  have hobject := hpair.1.operand
  have := hpair.2.operand.covers
  grind

omit h in
theorem spans_candidates {expr candidate : Expr} (h : candidate ∈ candidates expr) :
    candidate.spans ⊆ expr.spans := by
  unfold candidates at h
  split at h
  next span elems =>
    rw [spans]
    exact Subset.trans (mem_spansAll h) (subset_cons_self span _)
  next => exact mem_singleton.mp h ▸ Subset.refl _

@[grind ←] theorem callIsInstance : Keeps R (Lower.callIsInstance span items) := by
  unfold Lower.callIsInstance
  refine (given_twoArguments h).andThen fun pair hpair => ?_
  refine bind (value hpair.1.operand) fun v => bind typeOf fun ty =>
    bind (mapM fun candidate hcandidate => ?_) fun _ => ?_
  · have : R.Covers candidate.spans := ⟨fun span hspan =>
      hpair.2.operand.covers.mem span (spans_candidates hcandidate hspan)⟩
    exact isInstance
  · grind

@[grind ←] theorem callAnnotate : Keeps R (Lower.callAnnotate span items) := by
  unfold Lower.callAnnotate
  refine (given_twoArguments h).andThen fun pair hpair => ?_
  have hv := hpair.2.operand
  have := hpair.1.operand.covers
  grind

end

@[grind ←] theorem comprehensionElement {list} (h : operand.Keeps R) :
    Keeps R (comprehensionElement list operand hint) := by
  have := h.covers
  refine bind (value h) fun v => ?_
  cases hint with
  | some ty => exact coerce
  | none =>
    refine bind typeOf fun ty => bind (build ?_) fun _ => pure
    exact .update fun _ _ hch hg => hg.modifyValue hch

theorem given_firstCondition (h : ∀ operand ∈ cond, operand.Keeps R) :
    Gives R (fun condition => ∀ entry ∈ condition.refinements.onTrue.entries, R.At entry.2.span)
      (firstCondition cond span) := by
  unfold firstCondition
  split
  next operand =>
    have hopd := h operand rfl
    refine ⟨condition hopd, fun ctx s a t hrun entry he => hopd.covers.mem _ ?_⟩
    exact (given_condition hopd).answer ctx s a t hrun true entry he
  next => exact .bind (build (.bool (Law.At.node))) fun _ => .pure fun _ he => nomatch he

@[grind ←] theorem nextCondition (h : ∀ operand ∈ cond, operand.Keeps R) :
    Keeps R (Lower.nextCondition cond span) := by
  unfold Lower.nextCondition
  split <;> grind

@[grind ←] theorem assignItem (hbase : operand.Keeps R) (h : ∀ item ∈ items, item.Keeps R) :
    Keeps R (Lower.assignItem operand items v span) := by
  unfold Lower.assignItem
  refine bind (entity hbase) fun entity => ?_
  split
  · refine bind typeOf fun ty => ?_
    split
    · grind
    · grind
    case h_3 | h_4 =>
      refine (given_singleIndex h).andThen fun item hit => ?_
      have hopd := hit.operand
      have := hopd.covers
      grind
    · split
      · refine (given_singleIndex h).andThen fun item hit => ?_
        have hopd := hit.operand
        grind
      · exact type
  · exact type

end Keeps

/-! ## Frames -/

section

variable {ctx : LowerContext} {s t : LowerState} {block : BlockId} {closure : Option NodeId}
  {action : Lower α} {span : Span} {hint : Option Ty} {operand lhs rhs : Operand}
  {map : RefinementMap} {name : String}

/-- Narrowing a variable does nothing, or records the narrowed type of a variable in scope. -/
theorem narrow_scope {narrowing : Narrowing} {a : Unit}
    (h : narrow name narrowing ctx s = .ok (a, t)) :
    (t.scope = s.scope ∧ (narrowing.ty.isNothing = true ∨
        ∀ current, s.scope.typeOf? name = some current → (current == narrowing.ty) = true)) ∨
      (t.scope = s.scope.recordRefined name narrowing.ty ∧ narrowing.ty.isNothing = false ∧
        ∃ current, s.scope.typeOf? name = some current ∧ (current == narrowing.ty) = false) := by
  have hs : ∀ {β : Type} {action : Lower β} {ctx s b t}, Keeps (.scope Eq) action →
      action ctx s = .ok (b, t) → t.scope = s.scope := fun h hrun => (h.run hrun).symm
  unfold narrow at h
  split at h
  next hnil => exact .inl ⟨(pure_ok h).2 ▸ rfl, .inl hnil⟩
  next hsomething =>
    replace h := getScope_run h
    cases hcur : s.scope.typeOf? name with simp only [hcur] at h
    | none => exact .inl ⟨(pure_ok h).2 ▸ rfl, .inr fun _ hsome => nomatch hsome⟩
    | some current =>
      split at h
      next heq => exact .inl ⟨(pure_ok h).2 ▸ rfl, .inr fun _ hsome => Option.some.inj hsome ▸ heq⟩
      next hne =>
        obtain ⟨entity, s₁, hlook, h⟩ := bind_ok h
        obtain ⟨v, s₂, hv, h⟩ := bind_ok h
        obtain ⟨narrowed, s₃, hunwrap, h⟩ := bind_ok h
        obtain ⟨n, s₄, hinsert, h⟩ := bind_ok h
        obtain ⟨_, s₅, hattr, h⟩ := bind_ok h
        have hsc : s₅.scope = s.scope := by
          rw [hs (.build .setAttr) hattr, hs (.build (.insert trivial)) hinsert,
            hs (.build (.insertValue trivial)) hunwrap, hs .toValue hv, hs .lookup hlook]
        obtain rfl := modifyScope_ok h
        exact .inr ⟨congrArg (recordRefined · name _) hsc,
          Bool.not_eq_true _ ▸ hsomething, current, rfl, Bool.not_eq_true _ ▸ hne⟩

theorem insertRefinements_narrows : Keeps Narrows (insertRefinements map) := by
  refine .forM fun entry _ => .of_run fun ctx s a t hrun => ?_
  rcases narrow_scope hrun with ⟨hsc, -⟩ | ⟨hsc, -, current, hcur, -⟩
  · exact hsc ▸ refl_of Narrows s.scope
  · exact hsc ▸ narrows_recordRefined entry.2.ty hcur

/-- What a law says of a frame of its own: there, names may be narrowed. -/
class Nests (L : Law) where
  inside : Law
  lawful : inside.Lawful
  inner : ∀ {α : Type} {action : Lower α}, Keeps L action → Keeps inside action
  narrow : ∀ {map : RefinementMap}, (∀ entry ∈ map.entries, L.At entry.2.span) →
    Keeps inside (insertRefinements map)
  frame : ∀ {α : Type} {action : Lower α} {block : BlockId} {closure : Option NodeId},
    Keeps inside action → Keeps L (withFrame block false closure action)

/-- What a law says of a body of its own, and of the bodies in there. -/
class Encloses (L : Law) where
  body : Law
  lawful : body.Lawful
  admits : ∀ {span : Span}, L.At span → body.At span
  frame : ∀ {α : Type} {action : Lower α} {block : BlockId} {closure : Option NodeId},
    Keeps body action → Keeps L (withFrame block true closure action)
  again : ∀ {α : Type} {action : Lower α} {block : BlockId} {closure : Option NodeId},
    Keeps body action → Keeps body (withFrame block true closure action)

/-- What narrows in a frame of its own is quiet from outside. -/
instance : Nests Quiet where
  inside := Narrows
  lawful := inferInstance
  inner h := h.mono fun _ _ => Quiet.narrows
  narrow _ := insertRefinements_narrows
  frame h := .of_run fun _ _ _ _ hrun => by
    obtain ⟨u, haction, -, rfl⟩ := withFrame_ok hrun
    exact (h.run haction).pop

theorem withFrame_body {R : Scope → Scope → Prop} [IsPreorder Scope R] (h : Keeps Local action) :
    Keeps R (withFrame block true closure action) := by
  refine .of_eq fun ctx s a t hrun => ?_
  obtain ⟨u, haction, -, rfl⟩ := withFrame_ok hrun
  exact (h.run haction).pop_body

instance {R : Scope → Scope → Prop} [IsPreorder Scope R] : Encloses R where
  body := Local
  lawful := inferInstance
  admits _ := inferInstance
  frame := withFrame_body
  again := withFrame_body

section Nested

variable {L : Law} [hL : Nests L]

section

variable (hmap : ∀ entry ∈ map.entries, L.At entry.2.span) (h : Keeps L action)
include hmap h

theorem narrowed : Keeps hL.inside (do insertRefinements map; action) :=
  have := hL.lawful
  (hL.narrow hmap).bind fun _ => hL.inner h

theorem inNarrowedBranch_keeps : Keeps L (inNarrowedBranch block map action) :=
  have := hL.lawful
  hL.frame (.inBlock (narrowed hmap h))

end

@[grind ←] theorem inBranch_keeps (h : Keeps L action) : Keeps L (inBranch block action) :=
  have := hL.lawful
  hL.frame (.inBlock (hL.inner h))

variable [L.Lawful] [L.At span]

theorem refined_keeps (hmap : ∀ entry ∈ map.entries, L.At entry.2.span) (h : Keeps L action) :
    Keeps L (refined map action) :=
  .bind .get fun _ => .bind (hL.frame (narrowed hmap h)) fun _ => .pure

theorem shortCircuit_keeps {isAnd} (hlhs : lhs.Keeps L) (hrhs : rhs.Keeps L) :
    Keeps L (shortCircuit span isAnd lhs rhs) := by
  unfold shortCircuit
  refine (Keeps.given_condition hlhs).andThen fun left hleft => ?_
  have hmap := fun entry he => hlhs.covers.mem _ (hleft isAnd entry he)
  rw [show (if isAnd then left.refinements.onTrue else left.refinements.onFalse) =
    left.refinements.on isAnd by cases isAnd <;> rfl]
  dsimp only
  have hrefined := refined_keeps hmap (.condition hrhs)
  split
  · grind
  · refine .bind .insertBranching fun branching => ?_
    refine .bind (inNarrowedBranch_keeps hmap (.condition hrhs)) fun _ => ?_
    grind

theorem ternary_keeps (hcond : operand.Keeps L) (hlhs : lhs.Keeps L) (hrhs : rhs.Keeps L) :
    Keeps L (ternary span operand lhs rhs hint) := by
  unfold ternary
  refine (Keeps.given_condition hcond).andThen fun condition hcondition => ?_
  have hmap := fun outcome entry he => hcond.covers.mem _ (hcondition outcome entry he)
  split
  · exact refined_keeps (hmap true) (.value hlhs)
  · exact refined_keeps (hmap false) (.value hrhs)
  · refine .bind .insertBranching fun branching => ?_
    refine .bind (inNarrowedBranch_keeps (hmap true) (.value hlhs)) fun _ =>
      .bind .addResult fun _ =>
        .bind (inNarrowedBranch_keeps (hmap false) (.value hrhs)) fun _ => ?_
    grind

theorem binaryForm_keeps (hlhs : lhs.Keeps L) (hrhs : rhs.Keeps L) :
    Keeps L (binaryForm span op lhs rhs) := by
  have hshort : ∀ isAnd, Keeps L (shortCircuit span isAnd lhs rhs) := fun _ =>
    shortCircuit_keeps hlhs hrhs
  unfold binaryForm
  grind

end Nested

end

/-! ## Calls -/

section

variable {L : Law} [hL : L.Lawful] [hB : Encloses L] {span : Span} [hspan : L.At span]

instance : Encloses hB.body := ⟨hB.body, hB.lawful, id, hB.again, hB.again⟩

theorem forkCall_keeps {call : Lower Entity} (h : Keeps hB.body call) :
    Keeps L (forkCall span call) := by
  have hf : ∀ block n, Keeps L (withFrame block true (some n) (withBody (.start "fork" none)
      (inBlock block (do toValue span (← call))))) := fun _ _ =>
    have := hB.lawful
    have := hB.admits hspan
    hB.frame (.withBody (.inBlock (.bind h fun _ => .toValue)))
  unfold forkCall
  refine .bind .insertClosure fun _ => .bind (hf _ _) fun _ => .bind .addResult fun _ =>
    .bind (.build .query) fun _ => ?_
  grind

@[grind ←] theorem call_keeps (entity : Entity) (args : List Entity) :
    Keeps L (call span entity args) := by
  fun_induction call span entity args generalizing L hL hB hspan with
  | case3 target args _ ih => exact forkCall_keeps (@ih _ hB.lawful _ (hB.admits hspan))
  | _ => grind

omit hL hB in
theorem keywords_admitted {keywords : List (Keyword Expr)} (h : L.Covers (keywordSpans keywords)) :
    ∀ keyword ∈ keywords.map Keyword.name, L.At keyword.span := by
  induction keywords with
  | nil => simp
  | cons keyword rest ih =>
    simp only [keywordSpans, Law.covers_cons, Law.covers_append] at h
    exact forall_mem_cons.mpr ⟨h.1, ih h.2.2⟩

@[grind ←] theorem callExpression_keeps {callee : Operand} {items : List Item}
    {keywords} (hkeywords : ∀ keyword ∈ keywords, L.At keyword.span)
    (hcal : callee.Keeps L) (h : ∀ item ∈ items, item.Keeps L) :
    Keeps L (callExpression span callee items keywords) := by
  unfold callExpression
  cases keywords with
  | nil => grind
  | cons keyword rest =>
    have := hkeywords keyword (.head _)
    exact .bind .unsupported fun _ => by grind

end

/-! ## Loops -/

/-- What a loop lowers before its body: the answer is the node, the block of the body, the number of
the iteration and what the first condition narrows. -/
def openLoop (trip : Option ValueId) (cond : Option Operand) (span : Span) :
    Lower (NodeId × BlockId × ValueId × RefinementMap) := do
  let n ← build (Build.insert .loop [] [] span)
  let (trip, first) ← atPoint (Build.enterBefore n) do
    let trip ← trip.getDM (build (Build.int unbounded))
    return (trip, ← firstCondition cond span)
  addNodeInput n trip
  addNodeInput n first.value
  let block ← addBlock n
  let counter ← addParam block .int
  return (n, block, counter, first.refinements.onTrue)

/-- What a loop lowers after its body, up to the hiding of names. -/
def closeLoop (n : NodeId) (cond : Option Operand) (span : Span) : Lower Unit := do
  let conditionBlock ← addBlock n
  let (next, _) ← inBranch conditionBlock (nextCondition cond span)
  addResult conditionBlock next

section

variable {ctx : LowerContext} {s t : LowerState} {name : String} {span : Span}
  {trip : Option ValueId} {cond : Option Operand} {body : ValueId → Lower Unit} {a : Unit}
  {names : List String}

theorem loop_eq : loop trip cond span body = (do
    let (n, block, counter, map) ← openLoop trip cond span
    let (_, frame) ← withFrame block false none <| withLoop .loop <| inBlock block do
      insertRefinements map
      body counter
    closeLoop n cond span
    hideLoopNames ((frame.map Frame.definedNames).getD []) span) := by
  simp only [loop, openLoop, closeLoop, bind_assoc, pure_bind]

theorem loop_parts (h : loop trip cond span body ctx s = .ok (a, t)) :
    ∃ n block counter map s₁ u v w,
      openLoop trip cond span ctx s = .ok ((n, block, counter, map), s₁) ∧
      insertRefinements map ctx ((s₁.enter block).enterLoop .loop) = .ok ((), u) ∧
      body counter ctx u = .ok ((), v) ∧
      closeLoop n cond span ctx (v.leaveLoop.leave s₁.point) = .ok ((), w) ∧
      hideLoopNames ((v.scope.current?.map Frame.definedNames).getD []) span ctx w =
        .ok (a, t) := by
  rw [loop_eq] at h
  obtain ⟨⟨n, block, counter, map⟩, s₁, hopen, h⟩ := bind_ok h
  obtain ⟨⟨_, frame⟩, s₂, hf, h⟩ := bind_ok h
  obtain ⟨_, w, hclose, hhide⟩ := bind_ok h
  obtain ⟨_, hframed, rfl, rfl⟩ := withFrame_ok hf
  obtain ⟨_, hlooped, rfl⟩ := withLoop_ok hframed
  obtain ⟨v, hinside, rfl⟩ := inBlock_ok hlooped
  obtain ⟨_, u, href, hbody⟩ := bind_ok hinside
  exact ⟨n, block, counter, map, s₁, u, v, w, hopen, href, hbody, hclose, hhide⟩

section Nested

variable {L : Law} [L.Lawful] [hspan : L.At span] (h : ∀ operand ∈ cond, operand.Keeps L)

include h

/-- The answer of what comes before a loop narrows names at places that are admitted. -/
theorem given_openLoop : Gives L (fun parts => ∀ entry ∈ parts.2.2.2.entries, L.At entry.2.span)
    (openLoop trip cond span) := by
  have hstart :
    Gives L (fun start => ∀ entry ∈ start.2.refinements.onTrue.entries, L.At entry.2.span)
      (do return (← trip.getDM (build (Build.int unbounded)), ← firstCondition cond span)) :=
    .bind (.getDM (.build (.int Law.Lawful.null))) fun _ =>
      (Keeps.given_firstCondition h).andGives fun _ hfirst => .pure hfirst
  refine .bind (.build (.insert hspan.node)) fun n =>
    (hstart.atPoint .enterBefore).andGives fun start hstart => ?_
  exact .bind .addNodeInput fun _ => .bind .addNodeInput fun _ => .bind .addBlock fun _ =>
    .bind .addParam fun _ => .pure hstart

theorem openLoop_keeps : Keeps L (openLoop trip cond span) :=
  (given_openLoop h).keeps

theorem closeLoop_keeps [Nests L] {n} : Keeps L (closeLoop n cond span) := by
  unfold closeLoop
  grind

end Nested

theorem hideName_scope (h : (do if ((← getScope).find? name).isNone then
        modifyScope fun scope => scope.defer name (.name span (.insideLoop name)) : Lower Unit)
        ctx s = .ok (a, t)) : t.scope = if (s.scope.find? name).isNone then
      s.scope.defer name (.name span (.insideLoop name)) else s.scope := by
  replace h := getScope_run h
  split at h
  next hnone =>
    obtain rfl := modifyScope_ok h
    rw [if_pos hnone]
    rfl
  next hsome =>
    obtain ⟨-, rfl⟩ := pure_ok h
    rw [if_neg hsome]

theorem hideLoopNames_quiet : Keeps Quiet (hideLoopNames names span) := by
  refine .forM fun name _ => .of_run fun ctx s a t hrun => ?_
  rw [hideName_scope hrun]
  split
  · exact quiet_defer s.scope rfl
  · exact refl_of Quiet s.scope

theorem hideLoopNames_pending (hname : name ∈ names)
    (hfind : s.scope.find? name = none) (hbody : s.scope.HasBody)
    (h : hideLoopNames names span ctx s = .ok (a, t)) : t.scope.Pending name := by
  induction names generalizing s with
  | nil => cases hname
  | cons other rest ih =>
    obtain ⟨_, u, hfirst, hr⟩ := bind_ok h
    have hsc := hideName_scope hfirst
    by_cases heq : other = name
    · subst heq
      rw [hfind] at hsc
      have hpend : u.scope.Pending other := hsc ▸ hbody.defer rfl
      have hunbound : u.scope.find? other = none :=
        hsc ▸ ((s.scope.sameBindings_defer other _).find? other).trans hfind
      exact (hideLoopNames_quiet.run hr).pending other hunbound hpend
    · have hs : s.scope.SameBindings u.scope := by
        rw [hsc]
        split
        · exact s.scope.sameBindings_defer other _
        · exact .refl s.scope
      have hrestName := (mem_cons.mp hname).resolve_left (Ne.symm heq)
      exact ih hrestName ((hs.find? name).trans hfind) (hs.hasBody hbody) hr

theorem mem_hidden (h : scope.AssignedHere name) :
    name ∈ (scope.current?.map Frame.definedNames).getD [] := by
  obtain ⟨frame, hf⟩ := h.current?
  obtain ⟨binding, hbind⟩ := h.assigned? hf
  simpa [hf] using mem_definedNames hbind

theorem loop_steady (hcond : ∀ operand ∈ cond, operand.Keeps Quiet)
    (hbody : ∀ counter, Keeps Local (body counter)) : Keeps Steady (loop trip cond span body) := by
  refine .of_run fun ctx s a t hrun => ?_
  obtain ⟨n, block, counter, map, s₁, u, v, w, hopen, href, hrun, hclose, hhide⟩ :=
    loop_parts hrun
  have hbef : s.scope.Quiet s₁.scope := (openLoop_keeps hcond).run hopen
  have hinside : (s₁.scope.push block false none).Local v.scope :=
    trans_of Local (insertRefinements_narrows.run href).toLocal ((hbody counter).run hrun)
  have hafter : v.scope.pop.Quiet t.scope :=
    trans_of Quiet ((closeLoop_keeps hcond).run hclose) (hideLoopNames_quiet.run hhide)
  exact trans_of Steady hbef.toSteady (trans_of Steady hinside.pop hafter.toSteady)

/-- A loop whose body keeps track of a name is quiet about it: if the body assigns it, it is hidden
afterwards. -/
theorem loop_quietAbout (hcond : ∀ operand ∈ cond, operand.Keeps Quiet)
    (hbody : ∀ counter, Keeps (Tracks name) (body counter)) :
    Keeps (QuietAbout name) (loop trip cond span body) := by
  refine .of_run fun ctx s a t hrun => ?_
  obtain ⟨n, block, counter, map, s₁, u, v, w, hopen, href, hrun, hclose, hhide⟩ :=
    loop_parts hrun
  have hbef : s.scope.Quiet s₁.scope := (openLoop_keeps hcond).run hopen
  have hnarr : (s₁.scope.push block false none).Narrows u.scope :=
    insertRefinements_narrows.run href
  obtain ⟨hsteady, hleave⟩ := Tracks.leave hnarr ((hbody counter).run hrun)
  have hafter : v.scope.pop.Quiet w.scope := (closeLoop_keeps hcond).run hclose
  have hH : w.scope.Quiet t.scope := hideLoopNames_quiet.run hhide
  have hq := trans_of Quiet hafter hH
  refine trans_of (QuietAbout name) (hbef.about name)
    ⟨trans_of Steady hsteady hq.toSteady, fun hfind hpend => ?_⟩
  rcases hleave hfind hpend with hstill | hasgn
  · exact hq.pending name ((hsteady.bindings.find? name).trans hfind) hstill
  · have hstays := hsteady.bindings.trans hafter.bindings
    exact hideLoopNames_pending (mem_hidden hasgn) ((hstays.find? name).trans hfind)
      (hstays.hasBody hpend.hasBody) hhide

theorem comprehension_quiet {elem iter : Operand} {target : Target} {hint : Option Ty}
    (helem : elem.Keeps Quiet) (htgt : target.Keeps (Assigns names)) (hiter : iter.Keeps Quiet) :
    Keeps Quiet (comprehension span elem target iter hint) := by
  have hloop : ∀ trip iterable list, Keeps Quiet (loop (some trip) none span fun counter => do
        let current ← item span counter iterable
        target.assign (.value current) span
        let v ← comprehensionElement list elem (elementHint? hint)
        let _ ← primitive .append [list, v] span
        return PUnit.unit) := by
    intro trip iterable list
    refine .of_run fun ctx s a t hrun => quiet_of_forall fun name => ?_
    refine (loop_quietAbout (by simp) fun counter => ?_).run hrun
    refine .bind (.item _ _) fun current =>
      .bind ((htgt _ _ inferInstance).mono fun _ _ h => h.tracks) fun _ => ?_
    have helement : Keeps Quiet (comprehensionElement list elem (elementHint? hint)) :=
      .comprehensionElement helem
    exact .bind (helement.mono fun _ _ h => h.tracks) fun v => .bind .primitive fun _ => .pure
  unfold comprehension
  refine .bind .graph fun list => .bind (.entity hiter) fun iterable => .bind .isTuple fun _ => ?_
  split
  · exact .fail_bind
  · refine .bind .prepareIterable fun iterable => .bind (.length iterable) fun trip => ?_
    exact .bind (hloop trip iterable list) fun _ => .pure

end

/-! ## Targets -/

section

variable {ctx : LowerContext} {s t : LowerState} {name : String} {entity : Entity}
  {declared : Option Ty} {span : Span} {R : Law} [R.Lawful] [hspan : R.At span]

/-- The name is bound in the innermost frame, and nothing else happens. -/
def Binds (name : String) (binding : Binding) (scope scope' : Scope) : Prop :=
  scope' = (scope.clearDeferred name).bindCurrent name (.assigned binding)

def Records (name : String) (scope scope' : Scope) : Prop :=
  ∃ binding, Binds name binding scope scope'

theorem store_binds {v : ValueId} {ty} : Keeps (Binds name (.plain ty)) (store name v ty span) := by
  refine .after .graph fun n => .after .graph fun _ => .of_run fun ctx s a t hrun => ?_
  obtain rfl := modifyScope_ok hrun
  rfl

theorem bindName_records : Keeps (Records name) (bindName name entity declared span) := by
  have hv : ∀ v, Keeps (Records name) (do store name v (declared.getD (← typeOf v)) span) :=
    fun _ => .after .typeOf fun _ => store_binds.mono fun _ _ h => ⟨_, h⟩
  have hent : Keeps (Records name) (modifyScope fun scope => scope.recordEntity name entity) := by
    refine .of_run fun ctx s a t hrun => ?_
    obtain rfl := modifyScope_ok hrun
    exact ⟨.entity entity, rfl⟩
  unfold bindName
  dsimp only
  split
  on_goal 1 => refine .after .nameValue fun _ => ?_
  all_goals
    refine .after .enclosing? fun previous => ?_
    cases previous with
    | some previous => exact .after .rebind fun v => .after .pure (Option.forall.mpr ⟨hent, hv⟩)
    | none => exact .after .pure (Option.forall.mpr ⟨hent, hv⟩)

theorem Records.assigns {scope'} {names : List String} (h : Records name scope scope')
    (hname : name ∈ names) : scope.Assigns names scope' := by
  obtain ⟨ty | entity, rfl⟩ := h
  · exact .plain scope ty hname
  · exact .entity scope entity hname

theorem bindName_assigns : Keeps (Assigns [name]) (bindName name entity declared span) :=
  bindName_records.mono fun _ _ h => h.assigns (.head _)

/-- What a law says of assignments to names. -/
class Assigning (L : Law) where
  law : List String → Law
  lawful : ∀ names, (law names).Lawful
  admits : ∀ {names : List String} {span : Span}, L.At span ↔ (law names).At span
  reads : ∀ {α : Type} {action : Lower α} {names : List String}, Keeps L action →
    Keeps (law names) action
  mono : ∀ {α : Type} {action : Lower α} {names more : List String}, names ⊆ more →
    Keeps (law names) action → Keeps (law more) action
  bind : ∀ {name : String} {entity : Entity} {declared : Option Ty} {span : Span}, L.At span →
    Keeps (law [name]) (bindName name entity declared span)
  comprehend : ∀ {elem iter : Operand} {target : Target} {hint : Option Ty} {names : List String}
    {span : Span}, L.At span → elem.Keeps L → target.Keeps (law names) → iter.Keeps L →
    Keeps L (comprehension span elem target iter hint)

namespace Assigning

variable {L : Law} [hL : Assigning L] {names : List String}

instance : (hL.law names).Lawful := hL.lawful names

instance {span : Span} [hspan : L.At span] : (hL.law names).At span := hL.admits.mp hspan

instance {spans : List Span} [h : L.Covers spans] : (hL.law names).Covers spans :=
  ⟨fun span hspan => hL.admits.mp (h.mem span hspan)⟩

end Assigning

/-- A comprehension hides the names that it assigns. -/
instance : Assigning Quiet where
  law names := Assigns names
  lawful _ := inferInstance
  admits := ⟨fun _ => inferInstance, fun _ => inferInstance⟩
  reads h := h.mono fun _ _ => Assigns.quiet
  mono hsub h := h.mono fun _ _ hassigns => hassigns.mono hsub
  bind _ := bindName_assigns
  comprehend _ := comprehension_quiet

@[grind ←] theorem distribute_keeps {elems : List ValueId}
    (h : ∀ target ∈ targets, target.Keeps R) : Keeps R (distribute span targets elems) := by
  induction targets generalizing elems with
  | nil => exact .pure
  | cons target rest ih =>
    have hfirst := h target (.head _)
    have hr : ∀ elems, Keeps R (distribute span rest elems) := fun _ =>
      ih fun other hother => h other (mem_cons_of_mem target hother)
    unfold distribute
    grind [Target.Keeps]

@[grind ←] theorem destructure_keeps (h : ∀ target ∈ targets, target.Keeps R) :
    Keeps R (destructure targets entity span) := by
  unfold destructure
  grind

end

end Lower

/-! ## The tree -/

namespace Expr

open Lower Law

section

variable {L : Law} [L.Lawful] [Nests L] [Encloses L] [hL : Assigning L]

mutual

theorem lower_keeps (expr : Expr) (h : L.Covers expr.spans) : (mk expr expr.lower).Keeps L := by
  refine ⟨h, fun hint => ?_⟩
  dsimp only
  cases expr with
    (simp only [spans, covers_cons, covers_append] at h
     rw [lower])
  | var span name =>
    have := h.1
    exact .bind .lookup fun entity => .pure
  | const span value =>
    have := h.1
    exact .outcome .constant
  | binary span op lhs rhs =>
    obtain ⟨_, hlhs, hrhs⟩ := h
    exact binaryForm_keeps (lower_keeps lhs hlhs) (lower_keeps rhs hrhs)
  | unary span op operand =>
    obtain ⟨_, hopd⟩ := h
    exact .unaryForm (lower_keeps operand hopd)
  | ternary span cond body orelse =>
    obtain ⟨_, hcond, hbody, horelse⟩ := h
    exact .outcome (ternary_keeps (lower_keeps cond hcond) (lower_keeps body hbody)
      (lower_keeps orelse horelse))
  | subscript span base indices =>
    obtain ⟨_, hbase, hindices⟩ := h
    exact .outcome (.subscript (lower_keeps base hbase) (items_keep indices hindices))
  | slice | ellipsis | starred =>
    have := h.1
    exact .shape
  | call span callee args keywords =>
    obtain ⟨_, hcal, hargs, hkeywords⟩ := h
    exact .bind (callExpression_keeps (keywords_admitted hkeywords) (lower_keeps callee hcal)
      (items_keep args hargs)) fun entity => .pure
  | «attribute» span base attr =>
    obtain ⟨_, _, hbase⟩ := h
    exact .bind ((lower_keeps base hbase).lower none) fun object =>
      .bind .getAttribute fun entity =>
      .pure
  | list span elems =>
    obtain ⟨_, helems⟩ := h
    exact .outcome (.listLiteral (items_keep elems helems))
  | tuple span elems =>
    obtain ⟨_, helems⟩ := h
    exact .outcome (.tupleLiteral (items_keep elems helems))
  | dict span entries =>
    obtain ⟨_, hes⟩ := h
    exact .outcome (.dictLiteral (entries_keep entries hes))
  | listComp span elem target iter =>
    obtain ⟨hspan, helem, htgt, hiter⟩ := h
    exact .outcome (hL.comprehend hspan (lower_keeps elem helem)
      (fun entity span hspan => assign_keeps target entity (hL.admits.mpr hspan) htgt)
      (lower_keeps iter hiter))

theorem itemForm_keeps (expr : Expr) (h : L.Covers expr.spans) : expr.itemForm.Keeps L := by
  cases expr with
  | starred span inner =>
    simp only [spans, covers_cons] at h
    rw [itemForm]
    exact lower_keeps inner h.2
  | slice span start stop step =>
    simp only [spans, covers_cons, covers_append] at h
    obtain ⟨-, hstart, hstop, hstep⟩ := h
    rw [itemForm]
    exact ⟨operand?_keeps start hstart, operand?_keeps stop hstop, operand?_keeps step hstep⟩
  | const span value => cases value <;> trivial
  | _ => trivial

theorem operand?_keeps (expr : Option Expr) (h : L.Covers (spans? expr)) :
    ∀ operand ∈ operand? expr, operand.Keeps L := by
  cases expr with
  | none => simp [operand?]
  | some expr =>
    intro operand hopd
    obtain rfl : mk expr expr.lower = operand := Option.some.inj hopd
    exact lower_keeps expr h

theorem items_keep (exprs : List Expr) (h : L.Covers (spansAll exprs)) :
    ∀ item ∈ items exprs, item.Keeps L := by
  cases exprs with
  | nil => simp [items]
  | cons expr rest =>
    obtain ⟨hexpr, hr⟩ := covers_append.mp h
    rw [items, forall_mem_cons]
    exact ⟨⟨lower_keeps expr hexpr, itemForm_keeps expr hexpr⟩, items_keep rest hr⟩

theorem entries_keep (entries : List (Expr × Expr)) (h : L.Covers (entrySpans entries)) :
    ∀ entry ∈ Expr.entries entries, entry.1.Keeps L ∧ entry.2.Keeps L := by
  match entries with
  | [] => simp [Expr.entries]
  | (key, value) :: rest =>
    simp only [entrySpans, covers_append] at h
    obtain ⟨hkey, hv, hr⟩ := h
    rw [Expr.entries, forall_mem_cons]
    exact ⟨⟨lower_keeps key hkey, lower_keeps value hv⟩, entries_keep rest hr⟩

theorem assign_keeps (target : Expr) (entity : Entity) {span : Span} (hspan : L.At span)
    (h : L.Covers target.spans) : Keeps (hL.law target.boundNames) (target.assign entity span) := by
  have hhere := h.mem _ target.span_mem
  match target with
  | .var here name =>
    rw [assign, boundNames]
    exact hL.bind hhere
  | .tuple here elems | .list here elems =>
    rw [spans, covers_cons] at h
    have := h.1
    rw [assign, boundNames]
    exact .bind .validateTargets fun _ => destructure_keeps (targets_keep elems h.2)
  | .subscript here base indices =>
    simp only [spans, covers_cons, covers_append] at h
    obtain ⟨-, hbase, hindices⟩ := h
    rw [assign]
    exact .bind .toValue fun v =>
      hL.reads (.assignItem (lower_keeps base hbase) (items_keep indices hindices))
  | .attribute here base attr =>
    simp only [spans, covers_cons] at h
    obtain ⟨_, -, hbase⟩ := h
    rw [assign]
    exact hL.reads (.bind ((lower_keeps base hbase).lower none) fun object =>
      .bind .toValue fun v => .setAttribute)
  | .starred here inner =>
    have : L.At here := hhere
    rw [assign]
    exact .shape
  | .const .. | .binary .. | .unary .. | .ternary .. | .slice .. | .ellipsis .. | .call ..
  | .dict ..
  | .listComp .. =>
    simp only [assign]
    exact .shape

theorem targets_keep (exprs : List Expr) (h : L.Covers (spansAll exprs)) :
    ∀ target ∈ targets exprs, target.Keeps (hL.law (boundNamesAll exprs)) := by
  match exprs with
  | [] => simp [targets]
  | target :: rest =>
    obtain ⟨htgt, hr⟩ := covers_append.mp h
    have hmore : ∀ other ∈ targets rest, other.Keeps (hL.law (boundNamesAll (target :: rest))) := by
      intro other hother entity span hspan
      have : L.At span := hL.admits.mpr hspan
      refine hL.mono ?_ (targets_keep rest hr other hother entity span inferInstance)
      rw [boundNamesAll]
      exact subset_append_right ..
    cases target with
    | starred span inner =>
      rw [targets, forall_mem_cons]
      rw [spans, covers_cons] at htgt
      refine ⟨fun entity span hspan => ?_, hmore⟩
      refine hL.mono ?_ (assign_keeps inner entity (hL.admits.mpr hspan) htgt.2)
      rw [boundNamesAll, boundNames]
      exact subset_append_left ..
    | _ =>
      simp only [targets, forall_mem_cons]
      refine ⟨fun entity span hspan => ?_, hmore⟩
      refine hL.mono ?_ (assign_keeps _ entity (hL.admits.mpr hspan) htgt)
      rw [boundNamesAll]
      exact subset_append_left ..

end

end

theorem lower_quiet (expr : Expr) : (Operand.mk expr expr.lower).Keeps Quiet :=
  expr.lower_keeps inferInstance

theorem assign_assigns (target : Expr) (entity : Entity) (span : Span) :
    Keeps (Assigns target.boundNames) (target.assign entity span) :=
  target.assign_keeps (L := Quiet) entity inferInstance inferInstance

end Expr

end Flowgraph
