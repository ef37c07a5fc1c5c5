import Flowgraph.NameMap
import Flowgraph.Syntax.Expr
import Flowgraph.Ty.Join

/-!
# Refinements

A test such as `x is None` narrows the type of an optional variable on each of its two outcomes.
`Expr.refinements` finds what a boolean expression says about optional variables when it is true
and when it is false, without lowering anything.
-/

namespace Flowgraph

/-- A narrowed type, with the place of the variable in the test. -/
structure Narrowing where
  ty : Ty
  span : Span
  deriving Repr, Inhabited

/-- The variables narrowed on one outcome of a test. -/
abbrev RefinementMap := NameMap Narrowing

namespace RefinementMap

def single (name : String) (ty : Ty) (span : Span) : RefinementMap :=
  NameMap.empty.insert name ⟨ty, span⟩

/-- Both at once: the types joined, if they join, at the first place. -/
def merge? (a b : Narrowing) : Option Narrowing :=
  (Ty.join a.ty b.ty).map fun ty => ⟨ty, a.span⟩

/-- What both maps narrow. -/
def intersect (a b : RefinementMap) : RefinementMap :=
  a.filterMap fun name narrowing => (b.get? name).bind fun other => merge? narrowing other

/-- What either map narrows.  A name of both is merged, and dropped if its types do not join. -/
def union (a b : RefinementMap) : RefinementMap :=
  let merged : RefinementMap := a.filterMap fun name narrowing =>
    match b.get? name with
    | some other => merge? narrowing other
    | none => some narrowing
  b.entries.foldl (fun map entry =>
    if a.contains entry.1 then map else map.insert entry.1 entry.2) merged

def sameEntries : List (String × Narrowing) → List (String × Narrowing) → Bool
  | [], [] => true
  | a :: as, b :: bs =>
    a.1 = b.1 && a.2.ty == b.2.ty && a.2.span = b.2.span && sameEntries as bs
  | _, _ => false

end RefinementMap

/-- What holds when a test is true, and when it is false. -/
structure Refinements where
  onTrue : RefinementMap := .empty
  onFalse : RefinementMap := .empty
  deriving Repr, Inhabited

namespace Refinements

def none : Refinements := ⟨.empty, .empty⟩

def negate (refinements : Refinements) : Refinements :=
  ⟨refinements.onFalse, refinements.onTrue⟩

def and (a b : Refinements) : Refinements :=
  ⟨a.onTrue.intersect b.onTrue, a.onFalse.union b.onFalse⟩

def or (a b : Refinements) : Refinements :=
  ⟨a.onTrue.union b.onTrue, a.onFalse.intersect b.onFalse⟩

def same (a b : Refinements) : Bool :=
  RefinementMap.sameEntries a.onTrue.entries b.onTrue.entries &&
    RefinementMap.sameEntries a.onFalse.entries b.onFalse.entries

/-- The test that a variable of an optional type is, or is not, `None`. -/
def ofNoneTest (typeOf : String → Option Ty) (isNone : Bool) (name : String) (span : Span) :
    Refinements :=
  match typeOf name with
  | some (.optional inner) =>
    let nothing := RefinementMap.single name .nothing span
    let something := RefinementMap.single name inner span
    if isNone then ⟨nothing, something⟩ else ⟨something, nothing⟩
  | _ => none

/-- A comparison by identity, which says something if one side is a variable and the other side
is the literal `None`. -/
def ofIdentity (typeOf : String → Option Ty) (isNone : Bool) (lhs rhs : Expr) : Refinements :=
  match lhs.asName?, rhs.isNoneLiteral, rhs.asName?, lhs.isNoneLiteral with
  | some name, true, _, _ => ofNoneTest typeOf isNone name lhs.span
  | _, _, some name, true => ofNoneTest typeOf isNone name rhs.span
  | _, _, _, _ => none

end Refinements

/-- What a boolean expression says about optional variables.  `typeOf` gives the type of a
variable at this point. -/
def Expr.refinements (typeOf : String → Option Ty) : Expr → Refinements
  | .binary _ .is lhs rhs => .ofIdentity typeOf true lhs rhs
  | .binary _ .isNot lhs rhs => .ofIdentity typeOf false lhs rhs
  | .binary _ .and lhs rhs => (lhs.refinements typeOf).and (rhs.refinements typeOf)
  | .binary _ .or lhs rhs => (lhs.refinements typeOf).or (rhs.refinements typeOf)
  | .unary _ .not operand => (operand.refinements typeOf).negate
  | _ => .none

end Flowgraph
