import Flowgraph.Lower.Index

/-!
# Targets of an assignment

Assigning to several targets at once, and to the items of a container.
-/

namespace Flowgraph.Lower

/-! ## Several targets -/

/-- At most one target of a list is starred, and it does not stand alone. -/
def validateTargets (targets : List Expr) (span : Span) : Lower Unit := do
  let starred := targets.countP Expr.isStarred
  if starred > 1 then fail (.shape span .twoStars)
  if starred = 1 ∧ targets.length = 1 then fail (.shape span .loneStar)

/-- Give the elements to the targets from left to right; a starred target takes as many as leave
one for each target after it. -/
def distribute (span : Span) : List Target → List ValueId → Lower Unit
  | [], _ => return ()
  | target :: rest, elems => do
    if target.starred then
      let count := elems.length - rest.length
      let packed ← tuple (elems.take count) span
      target.assign (.value packed) span
      distribute span rest (elems.drop count)
    else
      match elems with
      | [] => return ()
      | elem :: elems =>
        target.assign (.value elem) span
        distribute span rest elems

/-- Unpack an entity of fixed length into targets. -/
def destructure (targets : List Target) (entity : Entity) (span : Span) : Lower Unit := do
  let hasStar := targets.any Target.starred
  match ← expand? entity span (if hasStar then none else some targets.length) with
  | none => fail (.type span (.notUnpackable (← describe entity)))
  | some elems =>
    let needed := if hasStar then targets.length - 1 else targets.length
    if elems.length < needed then
      if hasStar then fail (.type span (.tooFewForStar needed elems.length))
      else fail (.type span (.tooFewValues needed elems.length))
    if !hasStar && elems.length > needed then
      fail (.type span (.tooManyValues needed elems.length))
    distribute span targets elems

/-! ## Items of containers -/

/-- `base[items] = v` -/
def assignItem (base : Operand) (items : List Item) (v : ValueId) (span : Span) : Lower Unit := do
  let entity ← base.entity
  match entity with
  | .value container =>
    let ty ← typeOf container
    match ty with
    | .tensor | .ranked _ =>
      let sliced ← decompose container items span
      let v ← coerce v .tensor span .tensorItem
      if sliced.positions.isEmpty then
        let _ ← primitive .copy [sliced.tensor, v] span
      else
        let list ← positionList sliced.positions span
        let _ ← primitive .indexPut [sliced.tensor, list, v] span
    | .list elem =>
      let item ← singleIndex items span "list"
      if let .slice .. := item.form then fail (.unsupported item.span .listSliceAssignment)
      let position ← item.value none
      let v ← coerce v elem span .listItem
      let _ ← primitive .setItem [container, position, v] span
    | .dict key value =>
      let item ← singleIndex items span "dict"
      let keyValue ← coerce (← item.value (some key)) key item.span .dictKey
      let v ← coerce v value span .dictItem
      let _ ← primitive .setItem [container, keyValue, v] span
    | _ =>
      match ty.classWith? "__setitem__" with
      | some cls =>
        let item ← singleIndex items span cls.name
        let position ← item.value none
        let _ ← callMethod container cls "__setitem__" [position, v] span
      | none => fail (.type span (.noItemAssignment (.ofType ty)))
  | other => fail (.type span (.noItemAssignment (.ofKind other.kind)))

end Flowgraph.Lower
