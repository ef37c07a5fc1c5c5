import Flowgraph.Proofs.Scopes.Blocks

/-!
# Tests that are decided from types

Whether a variable is `None`, and whether it is an instance of a type, is decided from the static
type of the variable where that is possible, and `not`, `and` and `or` carry such decisions on.
`Expr.decision` is what comes of it, as a function of the types of variables alone
(`Lower.condition_known`).

A decision that a variable is an instance of a type is right, and so are all decisions about `None`.
That a variable is *not* an instance is decided where its type is no subtype, and this takes more: a
`number` is no `int` by its type, and yet its value may be one (`numberCheck_decided`).
`Expr.known_sound` says where decisions are right.
-/

namespace Flowgraph

open Flowgraph.Expr Flowgraph.Frame Flowgraph.Graph List Option Scope

open Lower

variable {map : RefinementMap} {datum : Datum} {candidate types expr subject : Expr}
  {n before : NodeId} {a : Unit} {ty : Ty} {isChecker isVariable : String → Prop} {host : Host}

/-! ## Instances -/

/-- A kind of values that is named without saying what they hold. -/
inductive Container where
  | list | tuple | dict

namespace Container

def hasDatum : Container → Datum → Bool
  | .list, .list _ | .tuple, .tuple _ | .dict, .dict _ => true
  | _, _ => false

def hasType : Container → Ty → Bool
  | .list, .list _ | .tuple, .tuple _ | .dict, .dict _ _ => true
  | _, _ => false

end Container

def Expr.container? (candidate : Expr) : Option Container :=
  match candidate.asName? with
  | some "list" => some .list
  | some "tuple" => some .tuple
  | some "dict" => some .dict
  | _ => none

/-- The value is an instance of what the candidate names. -/
def Datum.InstanceOf (host : Host) (datum : Datum) (candidate : Expr) : Prop :=
  match candidate.container? with
  | some container => container.hasDatum datum = true
  | none => ∃ target, candidate.surfaceType host = .ok target ∧ target.Holds datum

theorem Datum.instanceOf_iff {target : Ty} (hcontainer : candidate.container? = none)
    (htgt : candidate.surfaceType host = .ok target) :
    datum.InstanceOf host candidate ↔ target.Holds datum := by
  unfold InstanceOf
  simp [hcontainer, htgt]

/-- Whether the type makes its values instances of what the candidate names. -/
def Ty.isInstanceOf (host : Host) (candidate : Expr) (ty : Ty) : Bool :=
  match candidate.container? with
  | some container => container.hasType ty
  | none =>
    match candidate.surfaceType host with
    | .ok target => ty.isSubtype target
    | .error _ => false

namespace Ty

mutual

theorem holds_unshaped : (a : Ty) → ∀ {datum : Datum}, a.Holds datum → a.unshaped.Holds datum
  | .optional a, datum, h => by
      simp only [unshaped, Holds] at h ⊢
      exact h.imp_right (holds_unshaped a)
  | .list a, datum, h => by
      cases datum <;> simp only [unshaped, Holds] at h ⊢
      exact fun item hit => holds_unshaped a (h item hit)
  | .tuple as, datum, h => by
      cases datum <;> simp only [unshaped, Holds] at h ⊢
      exact holdsAll_unshapedAll as h
  | .dict key value, datum, h => by
      cases datum <;> simp only [unshaped, Holds] at h ⊢
      exact fun entry he => ⟨holds_unshaped key (h entry he).1, holds_unshaped value (h entry he).2⟩
  | .future a, datum, h => by
      cases datum <;> simp only [unshaped, Holds] at h ⊢
      exact holds_unshaped a h
  | .ranked _, datum, h => by
      cases datum <;> simp_all [unshaped, Holds]
  | .tensor, _, h | .int, _, h | .float, _, h | .bool, _, h | .str, _, h | .nothing, _, h
  | .number, _, h | .object _, _, h => h

theorem holdsAll_unshapedAll : (as : List Ty) → ∀ {items : List Datum}, HoldsAll as items →
    HoldsAll (unshapedAll as) items
  | [], items, h => h
  | a :: as, items, h => by
      cases items <;> simp only [unshapedAll, HoldsAll] at h ⊢
      exact ⟨holds_unshaped a h.1, holdsAll_unshapedAll as h.2⟩

end

theorem instanceOf_of_isInstanceOf (h : ty.isInstanceOf host candidate = true)
    (hholds : ty.Holds datum) : datum.InstanceOf host candidate := by
  unfold isInstanceOf at h
  unfold Datum.InstanceOf
  split at h
  next container _ =>
    cases container <;> cases ty <;> simp only [Container.hasType, Bool.false_eq_true] at h <;>
      cases datum <;> simp_all [Holds, Container.hasDatum]
  next =>
    split at h
    next target htgt => exact ⟨target, htgt, holds_of_isSubtype target h hholds⟩
    next => cases h

end Ty

/-! ## Decisions -/

/-- What the type of a value says about its being `None`. -/
def Ty.noneStatus : Ty → NoneStatus
  | .nothing => .always
  | .optional _ => .maybe
  | _ => .never

/-- The static type of what a test for `None` compares: a variable, or the literal `None`. -/
def Expr.subjectType (typeOf : String → Option Ty) : Expr → Option Ty
  | .var _ name => typeOf name
  | .const _ .nothing => some .nothing
  | _ => none

/-- The types of variables after one of them was narrowed; a variable is not narrowed to `None`. -/
def Narrowing.apply (typeOf : String → Option Ty) (entry : String × Narrowing) :
    String → Option Ty := fun name =>
  if name = entry.1 ∧ entry.2.ty.isNothing = false then
    (typeOf name).map fun current => if current == entry.2.ty then current else entry.2.ty
  else typeOf name

def RefinementMap.apply (map : RefinementMap) (typeOf : String → Option Ty) : String → Option Ty :=
  map.entries.foldl Narrowing.apply typeOf

/-- The outcome of an `and`, or an `or`, from those of its operands. -/
def decideBoth (isAnd : Bool) (left right : Option Bool) : Option Bool :=
  if left = some isAnd then right else left

namespace Expr

/-- The types of variables where the second operand of an `and`, or an `or`, is lowered. -/
def typesAfter (isAnd : Bool) (lhs : Expr) (typeOf : String → Option Ty) : String → Option Ty :=
  ((lhs.refinements typeOf).on isAnd).apply typeOf

/-- Whether the operands are both `None`, as far as their types decide it. -/
def identityDecision (typeOf : String → Option Ty) (lhs rhs : Expr) : Option Bool := do
  let left ← lhs.subjectType typeOf
  let right ← rhs.subjectType typeOf
  knownIdentity? left.noneStatus right.noneStatus

/-- The outcome of a test as far as the types of variables decide it. -/
def decision (host : Host) : Expr → (String → Option Ty) → Option Bool
  | .binary _ .is lhs rhs, typeOf => identityDecision typeOf lhs rhs
  | .binary _ .isNot lhs rhs, typeOf => (identityDecision typeOf lhs rhs).map (!·)
  | .binary _ .and lhs rhs, typeOf =>
    decideBoth true (lhs.decision host typeOf) (rhs.decision host (lhs.typesAfter true typeOf))
  | .binary _ .or lhs rhs, typeOf =>
    decideBoth false (lhs.decision host typeOf) (rhs.decision host (lhs.typesAfter false typeOf))
  | .unary _ .not operand, typeOf => (operand.decision host typeOf).map (!·)
  | .call _ _ [.var _ name, types] _, typeOf =>
    (typeOf name).map fun ty => (candidates types).any (ty.unshaped.isInstanceOf host)
  | _, _ => none

/-- A test of variables: for being `None`, by `isinstance`, and what `not`, `and` and `or` make of
these. -/
inductive IsTest (isChecker isVariable : String → Prop) : Expr → Prop
  | isNone {span place here : Span} {name : String} {op : BinaryOp} (hop : op = .is ∨ op = .isNot)
      (hname : isVariable name) :
      IsTest isChecker isVariable (.binary span op (.var place name) (.const here .nothing))
  | noneIs {span place here : Span} {name : String} {op : BinaryOp} (hop : op = .is ∨ op = .isNot)
      (hname : isVariable name) :
      IsTest isChecker isVariable (.binary span op (.const here .nothing) (.var place name))
  | isInstance {span place here : Span} {checker name : String} {types : Expr}
      (hchecker : isChecker checker) (hname : isVariable name) :
      IsTest isChecker isVariable (.call span (.var here checker) [.var place name, types] [])
  | not {span : Span} {operand : Expr} (h : IsTest isChecker isVariable operand) :
      IsTest isChecker isVariable (.unary span .not operand)
  | both {span : Span} {op : BinaryOp} {lhs rhs : Expr} (hop : op = .and ∨ op = .or)
      (hlhs : IsTest isChecker isVariable lhs) (hrhs : IsTest isChecker isVariable rhs) :
      IsTest isChecker isVariable (.binary span op lhs rhs)

/-- What a decision relies on.  Where `isinstance` is decided to be false, no value of the type of
the variable is an instance; and where the first operand of an `and` or an `or` is decided and the
second one is lowered, what the first one narrows holds. -/
def Reliable (host : Host) (valuation : Valuation) : Expr → (String → Option Ty) → Prop
  | .binary _ .and lhs rhs, typeOf => lhs.Reliable host valuation typeOf ∧
    (lhs.decision host typeOf = some true →
      (∀ name, Sound valuation (lhs.refinements typeOf).onTrue name) ∧
        rhs.Reliable host valuation (lhs.typesAfter true typeOf))
  | .binary _ .or lhs rhs, typeOf => lhs.Reliable host valuation typeOf ∧
    (lhs.decision host typeOf = some false →
      (∀ name, Sound valuation (lhs.refinements typeOf).onFalse name) ∧
        rhs.Reliable host valuation (lhs.typesAfter false typeOf))
  | .unary _ .not operand, typeOf => operand.Reliable host valuation typeOf
  | .call _ _ [.var _ name, types] _, typeOf => ∀ ty, typeOf name = some ty →
    (candidates types).any (ty.unshaped.isInstanceOf host) = false →
      ∀ datum, ty.Holds datum → ∀ candidate ∈ candidates types, ¬datum.InstanceOf host candidate
  | _, _ => True

end Expr

/-- Calls of `isinstance` come out as the values of variables say. -/
def Valuation.Checks (valuation : Valuation) (host : Host) (isChecker : String → Prop) : Prop :=
  ∀ span here place checker name types, isChecker checker →
    (valuation.outcomeOf (.call span (.var here checker) [.var place name, types] []) = true ↔
      ∃ candidate ∈ candidates types, (valuation.valueOf name).InstanceOf host candidate)

/-! ## Decisions are right -/

section Decisions

variable {host : Host} {valuation : Valuation} {typeOf : String → Option Ty} {known : Bool}
  {name checker : String}

theorem Valuation.Respects.apply (h : valuation.Respects typeOf)
    (hmap : ∀ name, Expr.Sound valuation map name) : valuation.Respects (map.apply typeOf) := by
  refine foldlRecOn map.entries _ h fun typeOf h entry he name ty hty => ?_
  unfold Narrowing.apply at hty
  split at hty
  next hname =>
    obtain ⟨current, hcur, rfl⟩ := map_eq_some_iff.mp hty
    split
    · exact h name current hcur
    · exact hname.1 ▸ hmap entry.1 entry.2 he
  next => exact h name ty hty

theorem isNothing_of_noneStatus (h : ty.Holds datum)
    (hknown : knownIdentity? ty.noneStatus .always = some known) : datum.isNothing = known := by
  cases ty with
  | nothing =>
    cases hknown
    rw [Ty.eq_nothing_of_holds h]
    rfl
  | optional inner => cases hknown
  | _ =>
    cases hknown
    cases datum <;> simp_all [Ty.Holds, Datum.isNothing]

theorem knownIdentity?_comm (a b : NoneStatus) : knownIdentity? a b = knownIdentity? b a := by
  cases a <;> cases b <;> rfl

theorem RefinementMap.isSome_apply (h : (typeOf name).isSome) : (map.apply typeOf name).isSome := by
  refine foldlRecOn
    (motive := fun types : String → Option Ty => (types name).isSome) map.entries _ h
    fun _ h _ _ => ?_
  unfold Narrowing.apply
  split
  · rwa [isSome_map]
  · exact h

theorem Expr.isInstance_sound (hchecks : valuation.Checks host isChecker)
    (hresp : valuation.Respects typeOf) {span here place : Span} (hchecker : isChecker checker)
    (hexpr : expr = .call span (.var here checker) [.var place name, types] [])
    (hrel : expr.Reliable host valuation typeOf) (h : expr.decision host typeOf = some known) :
    valuation.outcomeOf expr = known := by
  subst hexpr
  rw [decision] at h
  obtain ⟨ty, hty, hknown⟩ := map_eq_some_iff.mp h
  have hholds := hresp name ty hty
  have hiff := hchecks span here place checker name types hchecker
  cases known with
  | true =>
    obtain ⟨candidate, hcandidate, hinstance⟩ := List.any_eq_true.mp hknown
    exact hiff.mpr ⟨candidate, hcandidate,
      Ty.instanceOf_of_isInstanceOf hinstance (ty.holds_unshaped hholds)⟩
  | false =>
    rw [Reliable] at hrel
    rw [← Bool.not_eq_true, hiff]
    rintro ⟨candidate, hcandidate, hinstance⟩
    exact hrel ty hty hknown _ hholds candidate hcandidate hinstance

theorem Expr.decision_sound
    (htest : expr.IsTest isChecker isVariable) (hchecks : valuation.Checks host isChecker)
    (hvariable : ∀ name, isVariable name → (typeOf name).isSome)
    (hresp : valuation.Respects typeOf) (hrel : expr.Reliable host valuation typeOf)
    (h : expr.decision host typeOf = some known) : expr.outcome valuation = known := by
  induction htest generalizing typeOf known with
  | @isNone _ _ _ name _ hop hname | @noneIs _ _ _ name _ hop hname =>
    obtain ⟨ty, hty⟩ := isSome_iff_exists.mp (hvariable name hname)
    have hknown : ∀ {known}, knownIdentity? ty.noneStatus .always = some known →
        (valuation.valueOf name).isNothing = known := isNothing_of_noneStatus (hresp name ty hty)
    rcases hop with rfl | rfl <;>
      simp only [decision, identityDecision, subjectType, hty, bind_eq_bind, Option.bind_some,
        Ty.noneStatus, knownIdentity?_comm .always] at h
    · exact hknown h
    · obtain ⟨decided, hdecided, rfl⟩ := map_eq_some_iff.mp h
      exact congrArg (!·) (hknown hdecided)
  | isInstance hchecker _ => exact isInstance_sound hchecks hresp hchecker rfl hrel h
  | not _ ih =>
    obtain ⟨decided, hdecided, rfl⟩ := map_eq_some_iff.mp h
    exact congrArg (!·) (ih hvariable hresp hrel hdecided)
  | @both span op lhs rhs hop _ _ ihl ihr =>
    -- the second operand counts only if the first one is decided and lets it
    have hright : ∀ isAnd, lhs.decision host typeOf = some isAnd →
        (∀ name, Sound valuation ((lhs.refinements typeOf).on isAnd) name) →
        rhs.Reliable host valuation (lhs.typesAfter isAnd typeOf) →
        rhs.decision host (lhs.typesAfter isAnd typeOf) = some known →
        rhs.outcome valuation = known := fun isAnd _ hsound hrhs =>
      ihr (fun name hname => RefinementMap.isSome_apply (hvariable name hname))
        (hresp.apply hsound) hrhs
    rcases hop with rfl | rfl
    all_goals
      rw [decision, decideBoth] at h
      rw [Reliable] at hrel
      rw [outcome]
      split at h
      next hleft =>
        obtain ⟨hsound, hrhs⟩ := hrel.2 hleft
        rw [ihl hvariable hresp hrel.1 hleft]
        exact hright _ hleft hsound hrhs h
      next hleft =>
        rw [ihl hvariable hresp hrel.1 h]
        cases known <;> simp_all

end Decisions

/-! ## Reading variables -/

theorem Scope.typeOf?_recordRefined (scope : Scope) (hfs : scope.frames ≠ []) (name : String)
    (ty : Ty) (other : String) : (scope.recordRefined name ty).typeOf? other =
      if other = name then some ty else scope.typeOf? other := by
  split
  next heq =>
    subst heq
    obtain ⟨_ | ⟨frame, outer⟩⟩ := scope
    · exact absurd rfl hfs
    · simp [typeOf?, find?, findFrom, recordRefined, bindCurrent, get?, Frame.bind,
        NameMap.get?_insert, Slot.binding]
  next hne =>
    have hfind :=
      (kept_recordRefined scope name ty).find? (slot?_bindCurrent scope (.refined ty) hne)
    rw [typeOf?, hfind, typeOf?]

namespace Graph

variable {g g' : Graph}

/-- The values are the same, and so are the nodes but for where they are placed. -/
def SameParts (g g' : Graph) : Prop :=
  g'.values = g.values ∧ ∀ m, (g'.node? m).map (fun node => { node with owner := none }) =
    (g.node? m).map fun node => { node with owner := none }

theorem sameParts_owned {b : BlockId} {f : Block → Block} (h : (do
      let g ← g.modifyNode n fun node => { node with owner := some b }
      g.modifyBlock b f) = some g') : g.SameParts g' := by
  obtain ⟨middle, hmid, hlast⟩ := bind_eq_some_iff.mp h
  rw [modifyBlock_eq_some hlast, modifyNode_eq_some hmid]
  refine ⟨rfl, fun m => ?_⟩
  rw [node?_mapBlock, node?_mapNode]
  split
  · rw [Option.map_map]
    rfl
  · rfl

theorem sameParts_insertBefore (h : g.insertBefore before n = some g') : g.SameParts g' := by
  obtain ⟨anchor, -, h⟩ := bind_eq_some_iff.mp h
  cases hown : anchor.owner with simp only [hown] at h
  | none =>
    cases h
    exact ⟨rfl, fun _ => rfl⟩
  | some b =>
    obtain ⟨_, -, h⟩ := bind_eq_some_iff.mp h
    exact sameParts_owned h

end Graph

namespace Build

variable {builder builder' : Builder} {v : ValueId} {op : Op} {inputs : List ValueId} {ty : Ty}
  {span : Span} {key : String} {value : Literal}

theorem place_parts (h : place n builder = some (a, builder')) :
    builder.graph.SameParts builder'.graph := by
  unfold place at h
  obtain ⟨_, _, hget, h⟩ := bind_some.mp h
  cases hget
  cases hbef : builder.point.before with simp only [hbef] at h
  | some before =>
    obtain ⟨g, hg, rfl⟩ := update_some.mp h
    exact Graph.sameParts_insertBefore hg
  | none =>
    obtain ⟨g, hg, rfl⟩ := update_some.mp h
    exact Graph.sameParts_owned hg

theorem insert_parts {types : List Ty}
    (h : insert op inputs types span builder = some (n, builder')) :
    n = builder.graph.freshNode ∧
      (builder.graph.withNode { op, inputs, span } types).SameParts builder'.graph := by
  obtain ⟨made, created, hcreate, h⟩ := bind_some.mp h
  obtain ⟨_, _, hplace, h⟩ := bind_some.mp h
  obtain ⟨rfl, rfl⟩ := pure_some.mp h
  obtain ⟨g, hg, rfl⟩ := create_some.mp hcreate
  rw [createNode_eq] at hg
  obtain ⟨rfl, rfl⟩ := Prod.mk.inj (Option.some.inj hg)
  exact ⟨rfl, place_parts hplace⟩

theorem insertWith_parts (h : insertWith op inputs ty key value span builder = some (v, builder')) :
    v = builder.graph.freshValue ∧ builder'.graph.values = builder.graph.values ++
        [{ ty, origin := .output builder.graph.freshNode 0 }] ∧
      ∃ node, builder'.graph.node? builder.graph.freshNode = some node ∧ node.op = op ∧
        node.attrs = [(key, value)] := by
  obtain ⟨n, placed, hinsert, h⟩ := bind_some.mp h
  obtain ⟨_, attributed, hattr, h⟩ := bind_some.mp h
  obtain ⟨hout, rfl⟩ := query_some.mp h
  obtain ⟨rfl, hvs, hns⟩ := insert_parts hinsert
  obtain ⟨final, hfinal, rfl⟩ := update_some.mp hattr
  obtain rfl := Graph.modifyNode_eq_some hfinal
  have hm := hns builder.graph.freshNode
  rw [node?_withNode, if_pos rfl] at hm
  obtain ⟨node, hn, heq⟩ := map_eq_some_iff.mp hm
  obtain ⟨hop, -, houts, -, hattrs, -⟩ := NodeOf.mk.inj heq
  have hset : (placed.graph.mapNode builder.graph.freshNode fun node =>
      node.setAttr key value).node? builder.graph.freshNode =
        some { node with attrs := [(key, value)] } := by
    rw [Graph.node?_mapNode, if_pos rfl, hn, map_some]
    simp [NodeOf.setAttr, hattrs]
  refine ⟨?_, hvs, _, hset, hop, rfl⟩
  rw [output?, hset, bind_eq_bind, Option.bind_some, houts] at hout
  exact (Option.some.inj hout).symm

end Build

namespace Lower

variable {ctx : LowerContext} {s t u : LowerState} {v : ValueId} {ty : Ty} {span place : Span}
  {name key : String} {outcome : Outcome} {expr : Expr} {negated verdict value known isAnd : Bool}

/-- There is one more value, and it has the type. -/
def Makes (ty : Ty) (s : LowerState) (v : ValueId) (t : LowerState) : Prop :=
  v = s.graph.freshValue ∧ t.graph.types = s.graph.types ++ [ty]

theorem Makes.typeOf? (h : Makes ty s v t) : t.graph.typeOf? v = some ty := by
  obtain ⟨rfl, htys⟩ := h
  rw [typeOf?_eq, htys, getElem?_append_right (by simp [Graph.types, freshValue])]
  simp [Graph.types, freshValue]

theorem insertWith_makes {op : Op} {value : Literal}
    (h : build (Build.insertWith op [] ty key value span) ctx s = .ok (v, t)) : Makes ty s v t := by
  obtain ⟨builder, hsteps, rfl⟩ := build_ok h
  obtain ⟨hv, hvs, -⟩ := Build.insertWith_parts hsteps
  exact ⟨hv, (congrArg (List.map Value.ty) hvs).trans map_append⟩

theorem load_makes {frame : Nat} (h : load name ty frame span ctx s = .ok (v, t)) :
    Makes ty s v t := by
  have hread : ∀ {s v t}, (do
      let v ← build (Build.insertWith .load [] ty "name" (.str name) span)
      nameValue v name
      return v : Lower ValueId) ctx s = .ok (v, t) → Makes ty s v t := by
    intro s v t h
    obtain ⟨made, u, hm, h⟩ := bind_ok h
    obtain ⟨_, hname, rfl⟩ := map_ok h
    obtain ⟨label, rfl⟩ := nameValue_ok hname
    obtain ⟨rfl, htys⟩ := insertWith_makes hm
    exact ⟨rfl, (types_named ..).trans htys⟩
  replace h := getScope_run h
  cases hcr : s.scope.closureCrossedFrom? frame with simp only [hcr] at h
  | none => exact hread h
  | some closure =>
    obtain ⟨point, u, henter, h⟩ := bind_ok h
    obtain ⟨made, w, hm, h⟩ := bind_ok h
    obtain ⟨_, hback, rfl⟩ := map_ok h
    obtain ⟨entered, hsteps, rfl⟩ := build_ok henter
    obtain ⟨_, hback, rfl⟩ := build_ok hback
    cases hback
    obtain ⟨node, _, hn, hsteps⟩ := Build.bind_some.mp hsteps
    obtain ⟨-, rfl⟩ := Build.query_some.mp hn
    cases hsteps
    obtain ⟨hv, htys⟩ := hread hm
    exact ⟨hv, htys⟩

theorem lower_subject (hty : subject.subjectType s.scope.typeOf? = some ty)
    (h : subject.lower none ctx s = .ok (outcome, t)) :
    ∃ v, outcome.entity = .value v ∧ Makes ty s v t := by
  unfold Expr.subjectType at hty
  split at hty
  next place name =>
    obtain ⟨frame, hfd⟩ : ∃ frame, s.scope.find? name = some ⟨frame, .plain ty⟩ := by
      unfold Scope.typeOf? at hty
      split at hty
      next frame found hfd => exact ⟨frame, Option.some.inj hty ▸ hfd⟩
      next => cases hty
    rw [lower] at h
    obtain ⟨entity, u, hlook, h⟩ := bind_ok h
    obtain ⟨rfl, rfl⟩ := pure_ok h
    replace hlook := getScope_run hlook
    simp only [hfd] at hlook
    obtain ⟨v, hload, rfl⟩ := map_ok hlook
    exact ⟨v, rfl, load_makes hload⟩
  next place =>
    cases hty
    rw [lower] at h
    obtain ⟨v, hconstant, rfl⟩ := map_ok h
    exact ⟨v, rfl, insertWith_makes hconstant⟩
  next => cases hty

theorem typeOf?_lower {hint : Option Ty} (h : expr.lower hint ctx s = .ok (outcome, t)) :
    t.scope.typeOf? = s.scope.typeOf? := by
  have hq := (expr.lower_quiet.lower hint).run h
  exact funext fun name => hq.bindings.kept.typeOf? (hq.bindings.slot? name)

theorem noneStatus_ok {status : NoneStatus} (hty : s.graph.typeOf? v = some ty)
    (h : noneStatus (.value v) ctx s = .ok (status, t)) : status = ty.noneStatus ∧ s = t := by
  obtain ⟨found, hfd, h⟩ := typeOf_run h
  cases hty.symm.trans hfd
  cases ty
  all_goals
    obtain ⟨rfl, rfl⟩ := pure_ok h
    exact ⟨rfl, rfl⟩

theorem knownOutcome_ok (h : knownOutcome known span ctx s = .ok (outcome, t)) :
    outcome.known = some known := by
  obtain ⟨_, _, -, h⟩ := bind_ok h
  obtain ⟨rfl, -⟩ := pure_ok h
  rfl

theorem identity_known {lhs rhs : Expr} {left right : Ty}
    (hleft : lhs.subjectType s.scope.typeOf? = some left)
    (hright : rhs.subjectType s.scope.typeOf? = some right)
    (h : identity span negated ⟨lhs, lhs.lower⟩ ⟨rhs, rhs.lower⟩ ctx s = .ok (outcome, t)) :
    outcome.known = (knownIdentity? left.noneStatus right.noneStatus).map (· != negated) := by
  obtain ⟨_, _, hlhs, h⟩ := bind_ok h
  obtain ⟨first, hfirst, rfl⟩ := map_ok hlhs
  obtain ⟨_, _, hrhs, h⟩ := bind_ok h
  obtain ⟨second, s₂, hsnd, hent⟩ := bind_ok hrhs
  obtain ⟨rfl, rfl⟩ := pure_ok hent
  obtain ⟨v, hv, hmakes⟩ := lower_subject hleft hfirst
  obtain ⟨w, hw, hmakes'⟩ := lower_subject (typeOf?_lower hfirst ▸ hright) hsnd
  have hkept : s₂.graph.typeOf? v = some left :=
    typeOf?_of_types hmakes'.2 hmakes.typeOf?
  rw [hv, hw] at h
  obtain ⟨_, _, hstatus, h⟩ := bind_ok h
  obtain ⟨rfl, rfl⟩ := noneStatus_ok hkept hstatus
  obtain ⟨_, _, hstatus', h⟩ := bind_ok h
  obtain ⟨rfl, rfl⟩ := noneStatus_ok hmakes'.typeOf? hstatus'
  cases hknown : knownIdentity? left.noneStatus right.noneStatus with simp only [hknown] at h
  | some known => exact knownOutcome_ok h
  | none =>
    obtain ⟨_, _, -, h⟩ := bind_ok h
    obtain ⟨_, _, -, h⟩ := bind_ok h
    obtain ⟨rfl, -⟩ := pure_ok h
    rfl

/-! ## Instances -/

theorem isInstance_eq (ty : Ty) (candidate : Expr) (span : Span) : isInstance ty candidate span =
    match candidate.container? with
    | some container => pure (container.hasType ty)
    | none => do
      let target ← surfaceType candidate
      match ty.asOptional? with
      | some inner =>
        if inner.isSubtype target && !Ty.nothing.isSubtype target then
          fail (.unsupported span (.optionalInstance ty))
      | none => pure ()
      return ty.isSubtype target := by
  unfold isInstance
  split
  case h_7 =>
    have hnone : candidate.container? = none := by
      unfold container?
      split <;> simp_all
    exact hnone ▸ rfl
  all_goals simp_all [container?, Container.hasType]

theorem isInstance_ok (h : isInstance ty candidate span ctx s = .ok (verdict, t)) :
    verdict = ty.isInstanceOf ctx.host candidate ∧ s = t := by
  rw [isInstance_eq] at h
  unfold Ty.isInstanceOf
  cases hcontainer : candidate.container? with rw [hcontainer] at h
  | some container =>
    obtain ⟨rfl, rfl⟩ := pure_ok h
    exact ⟨rfl, rfl⟩
  | none =>
    obtain ⟨target, u, hsurface, hr⟩ := bind_ok h
    obtain ⟨context, _, hread, hexcept⟩ := bind_ok hsurface
    cases hread
    obtain ⟨htgt, hs⟩ := ofExcept_ok hexcept
    have hverdict : ty.isSubtype target = verdict ∧ u = t := by
      cases hopt : ty.asOptional? with simp only [hopt] at hr
      | none => exact pure_ok hr
      | some inner =>
        split at hr
        · exact absurd hr fail_bind_ok
        · exact pure_ok hr
    simp only [htgt]
    exact ⟨hverdict.1.symm, hs.symm.trans hverdict.2⟩

theorem verdicts_ok {candidates : List Expr} {verdicts : List Bool}
    (h : (candidates.mapM fun candidate => isInstance ty candidate span) ctx s =
      .ok (verdicts, t)) : verdicts = candidates.map (ty.isInstanceOf ctx.host) ∧ s = t := by
  induction candidates generalizing verdicts t with
  | nil =>
    obtain ⟨rfl, rfl⟩ := pure_ok h
    exact ⟨rfl, rfl⟩
  | cons candidate rest ih =>
    rw [mapM_cons] at h
    obtain ⟨verdict, _, hfirst, h⟩ := bind_ok h
    obtain ⟨rfl, rfl⟩ := isInstance_ok hfirst
    obtain ⟨others, _, hothers, h⟩ := bind_ok h
    obtain ⟨rfl, rfl⟩ := ih hothers
    obtain ⟨rfl, rfl⟩ := pure_ok h
    exact ⟨rfl, rfl⟩

theorem knownBool?_ok {known : Option Bool} (hm : build (Build.bool value span) ctx s = .ok (v, u))
    (h : knownBool? v ctx u = .ok (known, t)) : known = some value := by
  obtain ⟨builder, hsteps, rfl⟩ := build_ok hm
  obtain ⟨rfl, hvs, node, hn, hop, hattrs⟩ := Build.insertWith_parts hsteps
  obtain ⟨constant, _, hconstant, h⟩ := bind_ok h
  obtain ⟨rfl, -⟩ := pure_ok h
  obtain ⟨_, hquery, rfl⟩ := build_ok hconstant
  obtain ⟨hquery, -⟩ := Build.query_some.mp hquery
  have hprod : builder.graph.producer? s.builder.graph.freshValue =
      some (some s.builder.graph.freshNode) := by
    simp [producer?, value?, hvs, freshValue]
  rw [hprod] at hquery
  simp only [bind_eq_bind, Option.bind_some, hn, hop, if_true, NodeOf.attr?, hattrs] at hquery
  cases hquery
  rfl

theorem callIsInstance_ok (hty : s.scope.typeOf? name = some ty)
    (h : callIsInstance span (Expr.items [.var place name, types]) ctx s = .ok (v, t)) :
    ∃ u,
      build (Build.bool ((candidates types).any (ty.unshaped.isInstanceOf ctx.host)) span) ctx u =
      .ok (v, t) := by
  obtain ⟨⟨object, second⟩, _, htwo, h⟩ := bind_ok h
  obtain ⟨heq, rfl⟩ := pure_ok htwo
  obtain ⟨rfl, rfl⟩ := Prod.mk.inj heq
  obtain ⟨value, u, hv, h⟩ := bind_ok h
  obtain ⟨found, hfd, h⟩ := typeOf_run h
  obtain ⟨outcome, _, hlower, hv⟩ := bind_ok hv
  have hsubject : (var place name).subjectType s.scope.typeOf? = some ty := hty
  obtain ⟨made, hent, hmakes⟩ := lower_subject hsubject hlower
  obtain ⟨hm, rfl⟩ := ofExcept_ok hv
  rw [hent] at hm
  obtain rfl := Except.ok.inj hm
  cases hmakes.typeOf?.symm.trans hfd
  obtain ⟨verdicts, _, hverdicts, h⟩ := bind_ok h
  obtain ⟨rfl, rfl⟩ := verdicts_ok hverdicts
  rw [List.any_map] at h
  exact ⟨_, h⟩

/-! ## Conditions -/

variable {condition : Condition}

theorem condition_of_isTest (htest : expr.isTest = true)
    (h : expr.operand.condition ctx s = .ok (condition, t)) :
    ∃ outcome u, expr.lower none ctx s = .ok (outcome, u) ∧ condition.known = outcome.known := by
  replace h := getScope_run h
  rw [Expr.operand, if_pos htest] at h
  obtain ⟨outcome, u, hlower, h⟩ := bind_ok h
  obtain ⟨_, _, -, h⟩ := bind_ok h
  obtain ⟨rfl, -⟩ := pure_ok h
  exact ⟨outcome, u, hlower, rfl⟩

theorem preludeCallee?_var {entry : PreludeEntry} (hfree : s.scope.find? name = none)
    (he : ctx.settings.builtins.get? name = some entry) :
    preludeCallee? (.var place name) ctx s = .ok (some entry, s) := by
  have hsc : getScope ctx s = .ok (s.scope, s) := rfl
  rw [preludeCallee?]
  simp only [asName?]
  rw [bind_of_ok hsc, hfree, ← he]
  rfl

section IsInstance

variable {here place : Span} {checker : String} {types : Expr}

theorem lower_isInstance
    (hcal : preludeCallee? (.var here checker) ctx s = .ok (some .isInstance, s))
    (h : (Expr.call span (.var here checker) [.var place name, types] []).lower none ctx s =
      .ok (outcome, t)) :
    ∃ v, callIsInstance span (Expr.items [.var place name, types]) ctx s = .ok (v, t) ∧
      outcome.entity = .value v := by
  rw [lower] at h
  obtain ⟨entity, hcall, rfl⟩ := map_ok h
  unfold callExpression at hcall
  replace hcall : (preludeCallee? (.var here checker) >>= _) ctx s = _ := hcall
  rw [bind_of_ok hcal] at hcall
  obtain ⟨v, hv, rfl⟩ := map_ok hcall
  exact ⟨v, hv, rfl⟩

theorem isInstance_known (hfree : s.scope.find? checker = none)
    (he : ctx.settings.builtins.get? checker = some .isInstance)
    (hty : s.scope.typeOf? name = some ty)
    (h : (Expr.call span (.var here checker) [.var place name, types] []).operand.condition ctx s =
      .ok (condition, t)) :
    condition.known = some ((candidates types).any (ty.unshaped.isInstanceOf ctx.host)) := by
  have hcal : preludeCallee? (.var here checker) ctx s = .ok (some .isInstance, s) :=
    preludeCallee?_var hfree he
  have hcall : isInstanceCall (Expr.call span (.var here checker) [.var place name, types] [])
      ctx s = .ok (true, s) := by
    rw [isInstanceCall, bind_of_ok hcal]
    rfl
  replace h := getScope_run h
  rw [if_neg (by simp [Expr.operand, isTest]), Expr.operand, bind_of_ok hcall, if_pos rfl] at h
  obtain ⟨v, u, hvalue, hr⟩ := bind_ok h
  obtain ⟨known, _, hknown, hlast⟩ := bind_ok hr
  obtain ⟨rfl, -⟩ := pure_ok hlast
  obtain ⟨outcome, w, hlower, hent⟩ := bind_ok hvalue
  obtain ⟨made, hm, hmadeEntity⟩ := lower_isInstance hcal hlower
  obtain ⟨hv, rfl⟩ := ofExcept_ok hent
  rw [hmadeEntity] at hv
  obtain rfl := Except.ok.inj hv
  obtain ⟨_, hbool⟩ := callIsInstance_ok hty hm
  exact knownBool?_ok hbool hknown

end IsInstance

/-! ## Narrowed types -/

theorem narrow_types {narrowing : Narrowing} (hfs : s.scope.frames ≠ [])
    (h : narrow name narrowing ctx s = .ok (a, t)) : t.scope.frames ≠ [] ∧
      t.scope.typeOf? = Narrowing.apply s.scope.typeOf? (name, narrowing) := by
  rcases narrow_scope h with ⟨hsc, hskip⟩ | ⟨hsc, hsomething, current, hcur, hne⟩
  · refine ⟨hsc ▸ hfs, funext fun other => ?_⟩
    rw [hsc, Narrowing.apply]
    split
    next hother =>
      obtain ⟨rfl, hsomething⟩ := hother
      have heq := hskip.resolve_left (by simp [hsomething])
      cases hty : s.scope.typeOf? other with
      | none => rfl
      | some current => simp [heq current hty]
    next => rfl
  · refine ⟨fun hempty => ?_, funext fun other => ?_⟩
    · rw [hsc] at hempty
      have hlen := congrArg List.length hempty
      rw [Scope.recordRefined, Scope.bindCurrent] at hlen
      split at hlen <;> simp_all
    · rw [hsc, typeOf?_recordRefined _ hfs, Narrowing.apply]
      by_cases hother : other = name
      · subst hother
        simp [hsomething, hcur, hne]
      · simp [hother]

theorem insertRefinements_types (hfs : s.scope.frames ≠ [])
    (h : insertRefinements map ctx s = .ok (a, t)) :
    t.scope.typeOf? = map.apply s.scope.typeOf? := by
  have hes : ∀ (entries : List (String × Narrowing)) {s : LowerState},
      s.scope.frames ≠ [] → entries.forM (fun entry => narrow entry.1 entry.2) ctx s = .ok (a, t) →
      t.scope.typeOf? = entries.foldl Narrowing.apply s.scope.typeOf? := by
    intro entries
    induction entries with
    | nil =>
      intro s _ h
      obtain ⟨-, rfl⟩ := pure_ok h
      rfl
    | cons entry rest ih =>
      intro s hfs h
      obtain ⟨_, u, hfirst, hr⟩ := bind_ok h
      obtain ⟨hframes', htys⟩ := narrow_types hfs hfirst
      rw [ih hframes' hr, htys, foldl_cons]
  exact hes map.entries hfs h

/-! ## What lowering knows -/

/-- The name stands for an entry of the prelude. -/
def StandsFor (ctx : LowerContext) (scope : Scope) (entry : PreludeEntry) (name : String) : Prop :=
  scope.find? name = none ∧ ctx.settings.builtins.get? name = some entry

theorem identity_decided {lhs rhs : Expr} (hleft : (lhs.subjectType s.scope.typeOf?).isSome)
    (hright : (rhs.subjectType s.scope.typeOf?).isSome)
    (h : identity span negated ⟨lhs, lhs.lower⟩ ⟨rhs, rhs.lower⟩ ctx s = .ok (outcome, t)) :
    outcome.known = (Expr.identityDecision s.scope.typeOf? lhs rhs).map (· != negated) := by
  obtain ⟨left, hleft⟩ := isSome_iff_exists.mp hleft
  obtain ⟨right, hright⟩ := isSome_iff_exists.mp hright
  rw [identity_known hleft hright h]
  simp [Expr.identityDecision, hleft, hright]

theorem negation_known {operand : Operand} (h : negation span operand ctx s = .ok (outcome, t)) :
    ∃ inner u, operand.condition ctx s = .ok (inner, u) ∧ outcome.known = inner.known.map (!·) := by
  obtain ⟨inner, u, hin, hr⟩ := bind_ok h
  refine ⟨inner, u, hin, ?_⟩
  cases hknown : inner.known with simp only [hknown] at hr
  | some known => exact knownOutcome_ok hr
  | none =>
    obtain ⟨_, _, -, hlast⟩ := bind_ok hr
    obtain ⟨rfl, -⟩ := pure_ok hlast
    rfl

/-- What an `and`, or an `or`, knows: the second operand is lowered with what the first one
narrows. -/
theorem shortCircuit_known {lhs rhs : Operand}
    (h : shortCircuit span isAnd lhs rhs ctx s = .ok (outcome, t)) :
    ∃ left u, lhs.condition ctx s = .ok (left, u) ∧
      ((left.known ≠ some isAnd ∧ outcome.known = left.known) ∨
        (left.known = some isAnd ∧ ∃ right v,
          refined (left.refinements.on isAnd) rhs.condition ctx u =
          .ok (right, v) ∧ outcome.known = right.known)) := by
  obtain ⟨left, u, hleft, hr⟩ := bind_ok h
  refine ⟨left, u, hleft, ?_⟩
  cases hknown : left.known with simp only [hknown] at hr
  | none =>
    obtain ⟨_, _, -, hr⟩ := bind_ok hr
    obtain ⟨_, _, -, hr⟩ := bind_ok hr
    obtain ⟨_, _, -, hr⟩ := bind_ok hr
    obtain ⟨_, _, -, hr⟩ := bind_ok hr
    obtain ⟨_, _, -, hr⟩ := bind_ok hr
    obtain ⟨_, _, -, hr⟩ := bind_ok hr
    obtain ⟨rfl, -⟩ := pure_ok hr
    exact Or.inl ⟨by simp, rfl⟩
  | some known =>
    split at hr
    next heq =>
      subst heq
      obtain ⟨right, v, hright, hlast⟩ := bind_ok hr
      obtain ⟨rfl, -⟩ := pure_ok hlast
      refine Or.inr ⟨rfl, right, v, ?_, rfl⟩
      cases known <;> exact hright
    next hne =>
      obtain ⟨rfl, -⟩ := pure_ok hr
      exact Or.inl ⟨by simpa using hne, rfl⟩

theorem refined_ok {α : Type} {action : Lower α} {a : α}
    (h : refined map action ctx s = .ok (a, t)) :
    ∃ u v, u.scope.typeOf? = map.apply s.scope.typeOf? ∧
      (∀ name, s.scope.find? name = none → u.scope.find? name = none) ∧
      action ctx u = .ok (a, v) := by
  obtain ⟨_, _, hget, h⟩ := bind_ok h
  obtain ⟨⟨answer, frame⟩, _, hf, h⟩ := bind_ok h
  obtain ⟨rfl, -⟩ := pure_ok h
  cases hget
  obtain ⟨v, hinside, -, -⟩ := withFrame_ok hf
  obtain ⟨_, u, hnarrow, haction⟩ := bind_ok hinside
  have htys := insertRefinements_types (cons_ne_nil _ _) hnarrow
  exact ⟨u, v, htys,
    fun name hname => ((insertRefinements_narrows.run hnarrow).unfound name hname).1, haction⟩

/-- Lowering knows the outcome of a test exactly as far as the types of variables decide it. -/
theorem condition_known (htest : expr.IsTest isChecker isVariable)
    (hchecker : ∀ name, isChecker name → StandsFor ctx s.scope .isInstance name)
    (hvariable : ∀ name, isVariable name → (s.scope.typeOf? name).isSome)
    (h : expr.operand.condition ctx s = .ok (condition, t)) :
    condition.known = expr.decision ctx.host s.scope.typeOf? := by
  induction htest generalizing s t condition with
  | @isNone _ place _ name _ hop hname | @noneIs _ place _ name _ hop hname =>
    have hsubject : ((var place name).subjectType s.scope.typeOf?).isSome := hvariable name hname
    rcases hop with rfl | rfl
    all_goals
      obtain ⟨outcome, u, hlower, hknown⟩ := condition_of_isTest rfl h
      rw [lower] at hlower
      rw [hknown, identity_decided (by first | exact hsubject | rfl)
        (by first | exact hsubject | rfl) hlower, Expr.decision]
      simp
  | @isInstance span place here checker name types hcheckerName hname =>
    obtain ⟨ty, hty⟩ := isSome_iff_exists.mp (hvariable name hname)
    obtain ⟨hfree, he⟩ := hchecker checker hcheckerName
    rw [isInstance_known hfree he hty h, Expr.decision, hty, map_some]
  | not _ ih =>
    obtain ⟨outcome, u, hlower, hknown⟩ := condition_of_isTest rfl h
    rw [lower] at hlower
    obtain ⟨inner, v, hin, houtcome⟩ := negation_known hlower
    rw [hknown, houtcome, ih hchecker hvariable hin, Expr.decision]
  | @both span op lhs rhs hop _ _ ihl ihr =>
    have hboth : ∀ {isAnd outcome u}, shortCircuit span isAnd lhs.operand rhs.operand ctx s =
        .ok (outcome, u) → outcome.known = decideBoth isAnd (lhs.decision ctx.host s.scope.typeOf?)
          (rhs.decision ctx.host (lhs.typesAfter isAnd s.scope.typeOf?)) := by
      intro isAnd outcome u hrun
      obtain ⟨left, v, hleft, hcases⟩ := shortCircuit_known hrun
      have hdecided := ihl hchecker hvariable hleft
      rw [decideBoth, ← hdecided]
      rcases hcases with ⟨hne, houtcome⟩ | ⟨heq, right, w, hright, houtcome⟩
      · rw [if_neg hne, houtcome]
      · -- the second operand sees the types that the first one narrows
        have hkeeps : Keeps Quiet lhs.operand.condition := .condition lhs.lower_quiet
        have hq := hkeeps.run hleft
        have htys : v.scope.typeOf? = s.scope.typeOf? := funext hq.bindings.typeOf?
        obtain ⟨before, after, hnarrowed, hunfound, hcond⟩ := refined_ok hright
        rw [condition_refinements hleft, htys] at hnarrowed
        have hright := ihr (fun name hname => ⟨hunfound name
            ((hq.bindings.find? name).trans (hchecker name hname).1), (hchecker name hname).2⟩)
          (fun name hname => hnarrowed ▸ RefinementMap.isSome_apply (hvariable name hname)) hcond
        rw [if_pos heq, houtcome, hright, hnarrowed]
        rfl
    rcases hop with rfl | rfl
    all_goals
      obtain ⟨outcome, u, hlower, hknown⟩ := condition_of_isTest rfl h
      rw [lower] at hlower
      rw [hknown, hboth hlower, Expr.decision]

end Lower

/-- A test that is lowered to a constant comes out as that constant, whatever the values of the
variables are, where its decision can be relied on. -/
theorem Expr.known_sound {expr : Expr} {ctx : LowerContext} {s t : LowerState}
    {condition : Condition} {valuation : Valuation} {known : Bool}
    (htest : expr.IsTest (Lower.StandsFor ctx s.scope .isInstance)
      fun name => (s.scope.typeOf? name).isSome)
    (hrun : expr.operand.condition ctx s = .ok (condition, t))
    (hknown : condition.known = some known)
    (hchecks : valuation.Checks ctx.host (Lower.StandsFor ctx s.scope .isInstance))
    (hrespects : valuation.Respects s.scope.typeOf?)
    (hreliable : expr.Reliable ctx.host valuation s.scope.typeOf?) :
    expr.outcome valuation = known :=
  decision_sound htest hchecks (fun _ => id) hrespects hreliable
    ((Lower.condition_known htest (fun _ => id) (fun _ => id) hrun).symm.trans hknown)

/-! ## Two tests -/

open Classical in
/-- The valuation under which calls of `isinstance` come out as the values of variables say. -/
noncomputable def Valuation.checking (host : Host) (valueOf : String → Datum) : Valuation where
  valueOf := valueOf
  outcomeOf
    | .call _ _ [.var _ name, types] _ =>
      decide (∃ candidate ∈ candidates types, (valueOf name).InstanceOf host candidate)
    | _ => false

theorem Valuation.checking_checks (host : Host) (valueOf : String → Datum)
    (isChecker : String → Prop) : (Valuation.checking host valueOf).Checks host isChecker := by
  intro span here place checker name types _
  simp [checking]

/-- One variable is in scope. -/
def LowerState.withVariable (name : String) (ty : Ty) : LowerState where
  scope := (push {} root true none).recordPlain name ty

theorem LowerState.typeOf?_withVariable (name : String) (ty : Ty) (other : String) :
    (withVariable name ty).scope.typeOf? other = if other = name then some ty else none := by
  have hempty : (NameMap.empty : NameMap Slot).get? other = none := rfl
  simp only [withVariable, push, Scope.recordPlain, clearDeferred, modifyBodyFrame,
    Scope.bindCurrent, Scope.typeOf?, Scope.find?, Scope.findFrom, get?, Frame.bind, if_true,
    NameMap.get?_insert, hempty]
  by_cases hother : other = name
  · simp [hother, Slot.binding]
  · simp [hother]

theorem LowerState.respects_withVariable {name : String} (h : ty.Holds datum) (host : Host) :
    (Valuation.checking host fun _ => datum).Respects (withVariable name ty).scope.typeOf? := by
  intro other found hfd
  rw [typeOf?_withVariable] at hfd
  split at hfd
  · exact Option.some.inj hfd ▸ h
  · cases hfd

/-- `isinstance(x, ty)` -/
def checkOf (ty : String) : Expr :=
  .call .null (.var .null "isinstance") [.var .null "x", .var .null ty] []

/-- `not isinstance(x, str) and x is not None` -/
def textCheck : Expr :=
  .binary .null .and (.unary .null .not (checkOf "str"))
    (.binary .null .isNot (.var .null "x") (.const .null .nothing))

theorem textCheck_holds :
    ∃ condition t, textCheck.operand.condition .bare (.withVariable "x" .int) =
        .ok (condition, t) ∧ condition.known = some true ∧
      textCheck.outcome (.checking .empty fun _ => .int) = true := by
  obtain ⟨condition, t, hrun, hknown⟩ :
      ∃ condition t, textCheck.operand.condition .bare (.withVariable "x" .int) =
        .ok (condition, t) ∧ condition.known = some true := by
    decide +kernel
  have hchecker : Lower.StandsFor .bare (LowerState.withVariable "x" .int).scope .isInstance
      "isinstance" := ⟨rfl, rfl⟩
  refine ⟨condition, t, hrun, hknown,
    Expr.known_sound ?_ hrun hknown (Valuation.checking_checks _ _ _)
    (LowerState.respects_withVariable (by simp [Ty.Holds]) _) ?_⟩
  · exact .both (.inl rfl) (.not (.isInstance hchecker (by decide +kernel)))
      (.isNone (.inr rfl) (by decide +kernel))
  · refine ⟨fun ty hty _ datum hdatum candidate hcandidate hinstance => ?_, fun _ => ⟨?_, trivial⟩⟩
    · -- no value of type `int` has type `str`
      obtain rfl : Ty.int = ty := Option.some.inj hty
      obtain rfl := List.mem_singleton.mp hcandidate
      rw [Datum.instanceOf_iff rfl rfl] at hinstance
      cases datum <;> simp_all [Ty.Holds]
    · intro name narrowing hnarrowing
      cases hnarrowing

/-- A `number` is decided to be no `int`, and its value may be one. -/
theorem numberCheck_decided :
    ∃ condition t, (checkOf "int").operand.condition .bare (.withVariable "x" .number) =
        .ok (condition, t) ∧ condition.known = some false ∧
      ∃ valuation : Valuation,
        valuation.Respects (LowerState.withVariable "x" .number).scope.typeOf? ∧
        valuation.Checks .empty (Lower.StandsFor .bare
          (LowerState.withVariable "x" .number).scope .isInstance) ∧
        (checkOf "int").outcome valuation = true := by
  obtain ⟨condition, t, hrun, hknown⟩ :
      ∃ condition t, (checkOf "int").operand.condition .bare (.withVariable "x" .number) =
        .ok (condition, t) ∧ condition.known = some false := by
    decide +kernel
  refine ⟨condition, t, hrun, hknown, .checking .empty fun _ => .int,
    LowerState.respects_withVariable (by simp [Ty.Holds]) _, Valuation.checking_checks _ _ _, ?_⟩
  have hinstance : Datum.int.InstanceOf .empty (.var .null "int") :=
    (Datum.instanceOf_iff rfl rfl).mpr (by simp [Ty.Holds])
  exact (Valuation.checking_checks _ _ (fun _ => True) _ _ _ "isinstance" "x" _ trivial).mpr
    ⟨_, List.mem_singleton_self _, hinstance⟩

end Flowgraph
