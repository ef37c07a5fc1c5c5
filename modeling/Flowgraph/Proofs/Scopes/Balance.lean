import Flowgraph.Proofs.Scopes.Expressions
import Flowgraph.Proofs.Scopes.Histories

/-!
# Laws that leave scopes free

A law is lenient if frames may come and go, names may be bound, and faults that may be reported may
be deferred.  Expressions keep such a law however they nest.

One of these laws is that a run leaves the bodies and the insertion point as they were.  With what
is known of the scope, lowering an expression changes nothing but the graph, its tables and the
faults that are deferred (`Expr.lower_neutral`).
-/

namespace Flowgraph

namespace Law

/-- A fault may be deferred that may be reported, and other operations are free. -/
def Admits (L : Law) : Scope.Move → Prop
  | .defer _ fault => ∃ span, L.At span ∧ fault.span? = some span ∧ fault.saysMissingReturn = false
  | _ => True

class Lenient (L : Law) : Prop where
  move : ∀ {m : Scope.Move} {ctx} {s : LowerState}, L.Admits m →
    L.ends ctx s (.ok (s.mapScope (·.move m)))

end Law

namespace Lower

variable {α : Type} {L : Law} [hlenient : L.Lenient] {action : Lower α} {name : String}

theorem Keeps.move (m : Scope.Move) (h : L.Admits m) : Keeps L (modifyScope (·.move m)) :=
  fun _ _ => hlenient.move h

variable [L.Lawful] {span : Span} [hspan : L.At span] {block : BlockId} {closure : Option NodeId}
  {map : RefinementMap}

theorem withFrame_lenient {startsBody : Bool} (h : Keeps L action) :
    Keeps L (withFrame block startsBody closure action) :=
  (Keeps.move (.push block startsBody closure) trivial).bind fun _ => h.bind fun _ =>
    Keeps.getScope.bind fun _ => (Keeps.move .pop trivial).bind fun _ => .pure

/-! ## Names -/

@[grind ←] theorem store_lenient {v : ValueId} {ty : Ty} : Keeps L (store name v ty span) :=
  .bind (.build (.insert hspan.node)) fun _ => .bind (.build .setAttr) fun _ =>
    Keeps.move (.plain name ty) trivial

@[grind ←] theorem bindName_lenient {entity : Entity} {declared : Option Ty} :
    Keeps L (bindName name entity declared span) := by
  have hv : ∀ v, Keeps L (do store name v (declared.getD (← typeOf v)) span) :=
    fun _ => .bind .typeOf fun _ => store_lenient
  have hent : Keeps L (modifyScope fun scope => scope.recordEntity name entity) :=
    .move (.entity name entity) trivial
  unfold bindName
  dsimp only
  split
  on_goal 1 => refine .bind .nameValue fun _ => ?_
  all_goals
    refine .bind .enclosing? fun previous => ?_
    cases previous with
    | some previous => exact .bind .rebind fun v => .bind .pure (Option.forall.mpr ⟨hent, hv⟩)
    | none => exact .bind .pure (Option.forall.mpr ⟨hent, hv⟩)

theorem narrow_lenient {narrowing : Narrowing} (hplace : L.At narrowing.span) :
    Keeps L (narrow name narrowing) := by
  unfold narrow
  split
  · exact .pure
  · refine .bind .getScope fun scope => ?_
    split
    · exact .pure
    · split
      · exact .pure
      · refine .bind .lookup fun _ => .bind .toValue fun _ =>
          .bind (.build (.insertValue hplace.node)) fun _ =>
            .bind (.build (.insert hplace.node)) fun _ =>
            .bind (.build .setAttr) fun _ => .move (.refined name _) trivial

theorem insertRefinements_lenient (h : ∀ entry ∈ map.entries, L.At entry.2.span) :
    Keeps L (insertRefinements map) :=
  .forM fun entry he => narrow_lenient (h entry he)

instance : Nests L := ⟨L, inferInstance, id, insertRefinements_lenient, withFrame_lenient⟩

instance : Encloses L := ⟨L, inferInstance, id, withFrame_lenient, withFrame_lenient⟩

omit [L.Lawful] in
theorem deferFault_lenient {fault : Fault} (hplace : fault.span? = some span)
    (hkind : fault.saysMissingReturn = false) : Keeps L (deferFault name fault) :=
  .move (.defer name fault) ⟨span, hspan, hplace, hkind⟩

/-! ## Loops and branches -/

theorem hideLoopNames_lenient {names : List String} : Keeps L (hideLoopNames names span) := by
  refine .forM fun name _ => Keeps.getScope.bind fun scope => ?_
  split
  · exact deferFault_lenient rfl rfl
  · exact .pure

theorem loop_lenient {trip : Option ValueId} {cond : Option Operand} {body : ValueId → Lower Unit}
    (hcond : ∀ operand ∈ cond, operand.Keeps L) (hbody : ∀ counter, Keeps L (body counter)) :
    Keeps L (loop trip cond span body) := by
  rw [loop_eq]
  refine (given_openLoop hcond).andThen fun parts hpts => ?_
  refine .bind (withFrame_lenient (.withLoop (.inBlock
    (.bind (insertRefinements_lenient hpts) fun _ => hbody _)))) fun _ => ?_
  exact .bind (closeLoop_keeps hcond) fun _ => hideLoopNames_lenient

theorem comprehension_lenient {elem iter : Operand} {target : Target} {hint : Option Ty}
    (helem : elem.Keeps L) (htgt : target.Keeps L) (hiter : iter.Keeps L) :
    Keeps L (comprehension span elem target iter hint) := by
  have := hiter.covers
  have hround : ∀ iterable list counter, Keeps L (do
      let current ← item span counter iterable
      target.assign (.value current) span
      let v ← comprehensionElement list elem (elementHint? hint)
      let _ ← primitive .append [list, v] span
      return PUnit.unit) := fun _ _ _ =>
    .bind (.item _ _) fun _ => .bind (htgt _ _ hspan) fun _ =>
      .bind (.comprehensionElement helem) fun _ => .bind .primitive fun _ => .pure
  unfold comprehension
  refine .bind (.build (.insertValue hspan.node)) fun list => .bind (.entity hiter) fun iterable =>
    .bind .isTuple fun _ => ?_
  split
  · exact .bind .unsupported fun _ => .bind .prepareIterable fun iterable =>
      .bind (.length iterable) fun _ => .bind (loop_lenient (by simp) (hround _ _)) fun _ => .pure
  · exact .bind .prepareIterable fun iterable => .bind (.length iterable) fun _ =>
      .bind (loop_lenient (by simp) (hround _ _)) fun _ => .pure

instance : Assigning L where
  law _ := L
  lawful _ := inferInstance
  admits := Iff.rfl
  reads := id
  mono _ := id
  bind _ := bindName_lenient
  comprehend _ := comprehension_lenient

end Lower

/-! ## Bodies and the insertion point -/

namespace Law

/-- A run that succeeds leaves the bodies and the insertion point as they were. -/
def balanced : Law where
  span _ := True
  ends _ s e := ∀ t, e = .ok t → t.bodies = s.bodies ∧ t.point = s.point

instance : balanced.Lawful where
  null := trivial
  internal _ h := nomatch h
  dangling _ h := nomatch h
  deferred _ _ h := nomatch h
  trans h h' t ht :=
    have ⟨hbodies, hpoint⟩ := h _ rfl
    have ⟨hbodies', hpoint'⟩ := h' t ht
    ⟨hbodies'.trans hbodies, hpoint'.trans hpoint⟩
  same _ _ hbodies hpoint t ht := by
    cases ht
    exact ⟨hbodies, hpoint⟩
  elsewhere {_ _ e _} h t ht := by
    cases e <;> cases ht
    have ⟨hbodies, _⟩ := h _ rfl
    exact ⟨hbodies, rfl⟩
  within {_ _ e _ _} hleave h t ht := by
    cases e <;> cases ht
    have ⟨hbodies, hpoint⟩ := h _ rfl
    exact ⟨(congrArg _ hbodies).trans hleave, hpoint⟩

instance : balanced.Lenient where
  move _ t ht := by
    cases ht
    exact ⟨rfl, rfl⟩

instance {spans : List Span} : balanced.Covers spans :=
  ⟨fun _ _ => ⟨trivial, fun _ _ _ h => nomatch h⟩⟩

end Law

/-- Lowering an expression leaves the frames with all that they bind or narrow, the bodies and the
insertion point as they were. -/
theorem Expr.lower_neutral {expr : Expr} {hint : Option Ty} {ctx : LowerContext} {s t : LowerState}
    {outcome : Outcome} (h : expr.lower hint ctx s = .ok (outcome, t)) :
    s.scope.SameBindings t.scope ∧ t.bodies = s.bodies ∧ t.point = s.point :=
  ⟨(((Expr.lower_quiet expr).lower hint).run h).bindings,
    ((expr.lower_keeps (L := Law.balanced) inferInstance).lower hint) ctx s t
      (congrArg (Except.map Prod.snd) h)⟩

/-- `[i if True else 0 for i in [1, 2]]` -/
def chosenItems : Expr :=
  .listComp .null
    (.ternary .null (.const .null (.bool true)) (.var .null "i") (.const .null (.int 0)))
    (.var .null "i") (.list .null [.const .null (.int 1), .const .null (.int 2)])

theorem chosenItems_neutral :
    ∃ outcome t, chosenItems.lower none .bare (.start (.start "f" none)) = .ok (outcome, t) ∧
      1 < t.graph.blocks.length ∧ t.bodies = [.start "f" none] ∧ t.point = ⟨Graph.root, none⟩ := by
  obtain ⟨outcome, t, hrun, hblocks⟩ : ∃ outcome t, chosenItems.lower none .bare
      (.start (.start "f" none)) = .ok (outcome, t) ∧ 1 < t.graph.blocks.length := by
    decide +kernel
  exact ⟨outcome, t, hrun, hblocks, (Expr.lower_neutral hrun).2⟩

end Flowgraph
