import Flowgraph.Proofs.TypeOrder
import Flowgraph.Refinement

/-!
# What a test says about the variables it narrows

Variables have values while the program runs, and a type holds some of them.  Subtypes hold less,
and a join holds whatever either of its arguments holds.

A test narrows a variable soundly when the value that the variable has, given that the test came
out as it did, lies in the narrowed type.  Where the maps of two operands are intersected this
follows from either operand.  Where they are united (an `and` that is false, an `or` that is
true) only the operand that decided the outcome is known to have come out that way, and the map
also has the names of the other one: `false_and_narrows_unsoundly` shows such an entry failing.
`refinements_sound` says that an entry holds whenever each united map on the way was decided by
an operand that narrows the variable itself.
-/

namespace Flowgraph

open List RefinementMap

variable {name key : String} {a b : RefinementMap} {datum : Datum} {narrowing : Narrowing}
  {α : Type} {expr : Expr} {value : α}

/-- A value of the running program.  What a scalar or tensor holds does not matter to types. -/
inductive Datum where
  | tensor (rank : Nat)
  | int
  | float
  | bool
  | str
  | nothing
  | list (items : List Datum)
  | tuple (items : List Datum)
  | dict (entries : List (Datum × Datum))
  | future (inner : Datum)
  | object (cls : String)

def Datum.isNothing : Datum → Bool
  | .nothing => true
  | _ => false

namespace Ty

mutual

/-- The value belongs to the type. -/
def Holds : Ty → Datum → Prop
  | .tensor, .tensor _ => True
  | .ranked rank, .tensor dims => dims = rank
  | .int, .int => True
  | .float, .float => True
  | .bool, .bool => True
  | .str, .str => True
  | .nothing, .nothing => True
  | .number, .int => True
  | .number, .float => True
  | .optional inner, datum => datum = .nothing ∨ Holds inner datum
  | .list elem, .list items => ∀ item ∈ items, Holds elem item
  | .tuple elems, .tuple items => HoldsAll elems items
  | .dict key value, .dict entries => ∀ entry ∈ entries, Holds key entry.1 ∧ Holds value entry.2
  | .future inner, .future datum => Holds inner datum
  | .object cls, .object name => name = cls.name
  | _, _ => False

/-- Elementwise, for lists of the same length. -/
def HoldsAll : List Ty → List Datum → Prop
  | [], [] => True
  | elem :: elems, item :: items => Holds elem item ∧ HoldsAll elems items
  | _, _ => False

end

/-! ## Larger types hold more -/

mutual

theorem holds_erased : (a : Ty) → ∀ {datum : Datum}, a.erased.Holds datum ↔ a.Holds datum
  | .optional a, datum => by simp [erased, Holds, holds_erased a]
  | .list a, datum | .future a, datum => by cases datum <;> simp [erased, Holds, holds_erased a]
  | .tuple as, datum => by cases datum <;> simp [erased, Holds, holdsAll_erasedAll as]
  | .dict key value, datum => by
      cases datum <;> simp [erased, Holds, holds_erased key, holds_erased value]
  | .tensor, datum | .ranked _, datum | .int, datum | .float, datum | .bool, datum | .str, datum
  | .nothing, datum | .number, datum | .object _, datum => by
      cases datum <;> simp [erased, Holds]

theorem holdsAll_erasedAll : (as : List Ty) → ∀ {items : List Datum},
    HoldsAll (erasedAll as) items ↔ HoldsAll as items
  | [], items => by simp [erasedAll]
  | a :: as, items => by
      cases items <;> simp [erasedAll, HoldsAll, holds_erased a, holdsAll_erasedAll as]

end

theorem payload_holds {a : Ty} (h : a.Holds datum) : datum = .nothing ∨ a.payload.Holds datum := by
  cases a with
  | optional inner => simpa only [Holds, payload] using h
  | _ => exact Or.inr h

theorem holds_of_isSubtype (b : Ty) {a : Ty} {datum : Datum} (h : isSubtype a b = true)
    (ha : a.Holds datum) : b.Holds datum := by
  induction b, h using isSubtype_induction generalizing datum with
  | rigid _ _ hsame => rwa [← holds_erased, ← (same_iff _).mp hsame, holds_erased]
  | nothing => cases datum <;> simp_all [Holds]
  | optional _ _ ih =>
    rw [Holds]
    exact (payload_holds ha).imp_right ih
  | tuple h ih =>
    cases datum <;> simp only [Holds] at ha ⊢
    case tuple items =>
      clear h
      induction ih generalizing items with
      | nil => exact ha
      | cons hfirst _ ih =>
        cases items <;> simp only [HoldsAll] at ha ⊢
        exact ⟨hfirst.choose_spec ha.1, ih _ ha.2⟩
  | future _ _ ih =>
    cases datum <;> simp only [Holds] at ha ⊢
    exact ih ha
  | @tensor a _ hkind | @number a _ hkind =>
    cases a <;> simp only [isTensor, isNumber, Bool.false_eq_true] at hkind <;>
      cases datum <;> simp_all [Holds]

theorem holds_orNone {a : Ty} (h : datum = .nothing ∨ a.Holds datum) : a.orNone.Holds datum := by
  cases a with
  | nothing =>
    rcases h with rfl | h
    · simp [orNone, Holds]
    · exact h
  | optional inner =>
    simp only [orNone, Holds] at h ⊢
    exact h.elim Or.inl id
  | _ => simpa only [orNone, Holds] using h

theorem eq_nothing_of_holds (h : Ty.nothing.Holds datum) : datum = .nothing := by
  cases datum <;> simp_all [Holds]

mutual

theorem holds_joins {a b c : Ty} {datum : Datum} (hj : Joins a b c)
    (h : a.Holds datum ∨ b.Holds datum) : c.Holds datum := by
  match hj, h with
  | .right hsub, h => exact h.elim (holds_of_isSubtype _ hsub) id
  | .left _ hsub, h => exact h.elim id (holds_of_isSubtype _ hsub)
  | .tensors ha hb _, h =>
    exact h.elim (holds_of_isSubtype _ ((isSubtype_tensor_iff a).mpr ha))
      (holds_of_isSubtype _ ((isSubtype_tensor_iff b).mpr hb))
  | .nothingLeft _, h => exact holds_orNone (h.imp_left eq_nothing_of_holds)
  | .nothingRight _, h => exact holds_orNone (h.symm.imp_left eq_nothing_of_holds)
  | .optionalLeft hin _, h =>
    rw [Holds, or_assoc] at h
    exact holds_orNone (h.imp_right (holds_joins hin))
  | .optionalRight hin _ _, h =>
    rw [Holds, or_left_comm, or_comm (a := a.Holds datum)] at h
    exact holds_orNone (h.imp_right (holds_joins hin))
  | .tuples helems _, h =>
    cases datum <;> simp only [Holds, or_self] at h ⊢
    exact holdsAll_joinsAll helems h
  | .lists hx hy _, h =>
    cases datum <;> simp only [Holds, or_self] at h ⊢
    intro item hit
    exact h.elim (fun ha => holds_of_isSubtype _ ((isSubtype_tensor_iff _).mpr hx) (ha item hit))
      (fun hb => holds_of_isSubtype _ ((isSubtype_tensor_iff _).mpr hy) (hb item hit))

theorem holdsAll_joinsAll {as bs cs : List Ty} {items : List Datum} (hj : JoinsAll as bs cs)
    (h : HoldsAll as items ∨ HoldsAll bs items) : HoldsAll cs items := by
  match hj, h with
  | .nil, h => exact (or_self _).mp h
  | .cons hfirst hr, h =>
    cases items <;> simp only [HoldsAll, or_self] at h ⊢
    exact ⟨holds_joins hfirst (h.imp And.left And.left),
      holdsAll_joinsAll hr (h.imp And.right And.right)⟩

end

theorem holds_join (a b : Ty) {c : Ty} {datum : Datum} (hj : join a b = some c)
    (h : a.Holds datum ∨ b.Holds datum) : c.Holds datum :=
  holds_joins (joins_of_join a b hj) h

end Ty

/-! ## Running a test -/

/-- What a test reads: the values of variables, and the outcomes of the subexpressions whose inside
it does not look at. -/
structure Valuation where
  valueOf : String → Datum
  outcomeOf : Expr → Bool

/-- Every variable has a value of its type. -/
def Valuation.Respects (valuation : Valuation) (typeOf : String → Option Ty) : Prop :=
  ∀ name ty, typeOf name = some ty → ty.Holds (valuation.valueOf name)

namespace Expr

/-- The variable that a comparison by identity tests for being `None`. -/
def testedForNone? : Expr → Expr → Option String
  | .var _ name, .const _ .nothing => some name
  | .const _ .nothing, .var _ name => some name
  | _, _ => none

/-- The outcome of a test, with the short-circuiting `and` and `or`. -/
def outcome (valuation : Valuation) : Expr → Bool
  | .binary span .is lhs rhs =>
    match testedForNone? lhs rhs with
    | some name => (valuation.valueOf name).isNothing
    | none => valuation.outcomeOf (.binary span .is lhs rhs)
  | .binary span .isNot lhs rhs =>
    match testedForNone? lhs rhs with
    | some name => !(valuation.valueOf name).isNothing
    | none => valuation.outcomeOf (.binary span .isNot lhs rhs)
  | .binary _ .and lhs rhs => if outcome valuation lhs then outcome valuation rhs else false
  | .binary _ .or lhs rhs => if outcome valuation lhs then true else outcome valuation rhs
  | .unary _ .not operand => !outcome valuation operand
  | expr => valuation.outcomeOf expr

end Expr

/-- The map for one outcome. -/
def Refinements.on (refinements : Refinements) : Bool → RefinementMap
  | true => refinements.onTrue
  | false => refinements.onFalse

namespace Expr

/-- What the test says about variables, given how it came out. -/
def narrowed (typeOf : String → Option Ty) (valuation : Valuation) (expr : Expr) : RefinementMap :=
  (expr.refinements typeOf).on (expr.outcome valuation)

/-- The outcome speaks about the variable: wherever the maps of two operands are united, the
operand that decided the outcome narrows the variable itself; where they are intersected, one of
the operands speaks about it. -/
def speaksOf (typeOf : String → Option Ty) (valuation : Valuation) (name : String) : Expr → Bool
  | .binary _ .and lhs rhs =>
    if outcome valuation lhs then
      if outcome valuation rhs then
        speaksOf typeOf valuation name lhs || speaksOf typeOf valuation name rhs
      else
        (narrowed typeOf valuation rhs).contains name && speaksOf typeOf valuation name rhs
    else
      (narrowed typeOf valuation lhs).contains name && speaksOf typeOf valuation name lhs
  | .binary _ .or lhs rhs =>
    if outcome valuation lhs then
      (narrowed typeOf valuation lhs).contains name && speaksOf typeOf valuation name lhs
    else if outcome valuation rhs then
      (narrowed typeOf valuation rhs).contains name && speaksOf typeOf valuation name rhs
    else
      speaksOf typeOf valuation name lhs || speaksOf typeOf valuation name rhs
  | .unary _ .not operand => speaksOf typeOf valuation name operand
  | _ => true

end Expr

/-! ## Entries of merged maps -/

theorem NameMap.mem_of_get? {map : NameMap α} (h : map.get? name = some value) :
    (name, value) ∈ map.entries := by
  obtain ⟨before, after, hes, -⟩ := lookup_eq_some_iff.mp h
  exact hes ▸ mem_append_right _ (.head _)

theorem NameMap.mem_insertEntry {entry : String × α} {entries : List (String × α)}
    (h : entry ∈ NameMap.insertEntry name value entries) :
    entry = (name, value) ∨ entry ∈ entries := by
  induction entries with
  | nil => simpa [NameMap.insertEntry] using h
  | cons first rest ih =>
    obtain ⟨key, old⟩ := first
    simp only [NameMap.insertEntry] at h
    split at h
    · exact (mem_cons.mp h).imp_right (mem_cons_of_mem _)
    split at h
    · exact mem_cons.mp h
    · rcases mem_cons.mp h with rfl | hr
      · exact Or.inr (.head _)
      · exact (ih hr).imp_right (mem_cons_of_mem _)

namespace RefinementMap

theorem mem_intersect (h : (name, narrowing) ∈ (a.intersect b).entries) :
    ∃ ours theirs, (name, ours) ∈ a.entries ∧ (name, theirs) ∈ b.entries ∧
      Ty.join ours.ty theirs.ty = some narrowing.ty ∧ ours.span = narrowing.span := by
  obtain ⟨⟨key, ours⟩, hours, hselect⟩ := mem_filterMap.mp h
  obtain ⟨merged, hmerged, heq⟩ := Option.map_eq_some_iff.mp hselect
  obtain ⟨rfl, rfl⟩ := Prod.mk.inj heq
  obtain ⟨theirs, htheirs, hmerge⟩ := Option.bind_eq_some_iff.mp hmerged
  obtain ⟨ty, hj, rfl⟩ := Option.map_eq_some_iff.mp hmerge
  exact ⟨ours, theirs, hours, NameMap.mem_of_get? htheirs, hj, rfl⟩

/-- An entry of a united map is an entry of one map alone, or joins entries of both. -/
theorem mem_union (h : (name, narrowing) ∈ (a.union b).entries) :
    ((name, narrowing) ∈ a.entries ∧ b.contains name = false) ∨
    ((name, narrowing) ∈ b.entries ∧ a.contains name = false) ∨
    ∃ ours theirs, (name, ours) ∈ a.entries ∧ (name, theirs) ∈ b.entries ∧
      Ty.join ours.ty theirs.ty = some narrowing.ty ∧ ours.span = narrowing.span := by
  unfold union at h
  -- the entries that only `b` has are inserted one after another
  have hinserted : ∀ (entries : List (String × Narrowing)) (map : RefinementMap),
      (name, narrowing) ∈ (entries.foldl (fun map entry =>
        if a.contains entry.1 then map else map.insert entry.1 entry.2) map).entries →
      (name, narrowing) ∈ map.entries ∨
        ((name, narrowing) ∈ entries ∧ a.contains name = false) := by
    refine fun entries map => foldlRecOn (motive := fun later : RefinementMap =>
      (name, narrowing) ∈ later.entries → _) entries _ Or.inl fun later ih entry he h => ?_
    split at h
    next => exact ih h
    next hout =>
      rcases NameMap.mem_insertEntry h with heq | hold
      · obtain ⟨rfl, rfl⟩ := Prod.mk.inj heq
        exact Or.inr ⟨he, by simpa using hout⟩
      · exact ih hold
  rcases hinserted _ _ h with hmerged | ⟨hb, hout⟩
  · obtain ⟨⟨key, ours⟩, hours, hselect⟩ := mem_filterMap.mp hmerged
    obtain ⟨merged, hmerge, heq⟩ := Option.map_eq_some_iff.mp hselect
    obtain ⟨rfl, rfl⟩ := Prod.mk.inj heq
    cases htheirs : b.get? key with
    | none =>
      simp only [htheirs, Option.some.injEq] at hmerge
      subst hmerge
      exact Or.inl ⟨hours, by simp [NameMap.contains, htheirs]⟩
    | some theirs =>
      simp only [htheirs] at hmerge
      obtain ⟨ty, hj, rfl⟩ := Option.map_eq_some_iff.mp hmerge
      exact Or.inr (Or.inr ⟨ours, theirs, hours, NameMap.mem_of_get? htheirs, hj, rfl⟩)
  · exact Or.inr (Or.inl ⟨hb, hout⟩)

end RefinementMap

/-! ## Soundness -/

namespace Expr

variable {typeOf : String → Option Ty} {valuation : Valuation}

/-- The narrowings of one name in the map hold of its value. -/
def Sound (valuation : Valuation) (map : RefinementMap) (name : String) : Prop :=
  ∀ narrowing, (name, narrowing) ∈ map.entries → narrowing.ty.Holds (valuation.valueOf name)

theorem sound_intersect (h : Sound valuation a name ∨ Sound valuation b name) :
    Sound valuation (a.intersect b) name := by
  intro narrowing he
  obtain ⟨ours, theirs, hours, htheirs, hj, -⟩ := mem_intersect he
  exact Ty.holds_join _ _ hj (h.imp (· ours hours) (· theirs htheirs))

theorem sound_union_left (hname : a.contains name = true) (h : Sound valuation a name) :
    Sound valuation (a.union b) name := by
  intro narrowing he
  rcases mem_union he with ⟨ha, -⟩ | ⟨-, hout⟩ | ⟨ours, theirs, hours, -, hj, -⟩
  · exact h narrowing ha
  · simp [hname] at hout
  · exact Ty.holds_join _ _ hj (Or.inl (h ours hours))

theorem sound_union_right (hname : b.contains name = true) (h : Sound valuation b name) :
    Sound valuation (a.union b) name := by
  intro narrowing he
  rcases mem_union he with ⟨-, hout⟩ | ⟨hb, -⟩ | ⟨ours, theirs, -, htheirs, hj, -⟩
  · simp [hname] at hout
  · exact h narrowing hb
  · exact Ty.holds_join _ _ hj (Or.inr (h theirs htheirs))

theorem isNothing_iff (datum : Datum) : datum.isNothing = true ↔ datum = .nothing := by
  cases datum <;> simp [Datum.isNothing]

theorem mem_single {ty : Ty} {span : Span}
    (h : (name, narrowing) ∈ (single key ty span).entries) : name = key ∧ narrowing.ty = ty := by
  simp only [single, NameMap.insert, NameMap.empty, NameMap.insertEntry,
    mem_singleton, Prod.mk.injEq] at h
  exact ⟨h.1, by rw [h.2]⟩

theorem sound_none (outcome : Bool) (name : String) :
    Sound valuation (Refinements.none.on outcome) name := by
  intro narrowing he
  cases outcome <;> cases he

theorem sound_ofNoneTest (hresp : valuation.Respects typeOf) (isNone : Bool)
    (tested : String) (span : Span) (name : String) :
    Sound valuation ((Refinements.ofNoneTest typeOf isNone tested span).on
      (isNone == (valuation.valueOf tested).isNothing)) name := by
  unfold Refinements.ofNoneTest
  split
  next inner htype =>
    have hholds := hresp tested _ htype
    have hnil : (valuation.valueOf tested).isNothing = true →
        Sound valuation (single tested .nothing span) name := by
      intro hisNothing narrowing he
      obtain ⟨rfl, hty⟩ := mem_single he
      rw [hty, (isNothing_iff _).mp hisNothing]
      simp [Ty.Holds]
    have hsomething : (valuation.valueOf tested).isNothing = false →
        Sound valuation (single tested inner span) name := by
      intro hisNothing narrowing he
      obtain ⟨rfl, hty⟩ := mem_single he
      rw [hty]
      rw [Ty.Holds, ← isNothing_iff, hisNothing] at hholds
      exact hholds.resolve_left (by simp)
    cases isNone <;> cases hv : (valuation.valueOf tested).isNothing
    · exact hsomething hv
    · exact hnil hv
    · exact hsomething hv
    · exact hnil hv
  next => exact sound_none _ name

theorem asName?_eq_some (h : expr.asName? = some name) : ∃ span, expr = .var span name := by
  cases expr <;> simp_all [asName?]

theorem eq_none_of_isNoneLiteral (h : expr.isNoneLiteral = true) :
    ∃ span, expr = .const span .nothing := by
  unfold isNoneLiteral at h
  split at h
  next span => exact ⟨span, rfl⟩
  next => cases h

theorem ofIdentity_eq (typeOf : String → Option Ty) (isNone : Bool) (lhs rhs : Expr) :
    (∃ name span, testedForNone? lhs rhs = some name ∧
      Refinements.ofIdentity typeOf isNone lhs rhs =
        Refinements.ofNoneTest typeOf isNone name span) ∨ (testedForNone? lhs rhs = none ∧
      Refinements.ofIdentity typeOf isNone lhs rhs = Refinements.none) := by
  unfold Refinements.ofIdentity
  split
  case h_1 name hname hliteral | h_2 name hname hliteral _ =>
    obtain ⟨place, rfl⟩ := asName?_eq_some hname
    obtain ⟨_, rfl⟩ := eq_none_of_isNoneLiteral hliteral
    exact Or.inl ⟨name, _, rfl, rfl⟩
  next hleft hright =>
    refine Or.inr ⟨?_, rfl⟩
    unfold testedForNone?
    split
    next => exact (hleft _ rfl rfl).elim
    next => exact (hright _ rfl rfl).elim
    next => rfl

/-- The narrowings of a name that the outcome of a test speaks about hold of its value. -/
theorem sound_narrowed (hresp : valuation.Respects typeOf) (name : String) (expr : Expr)
    (hspeaks : speaksOf typeOf valuation name expr = true) :
    Sound valuation (narrowed typeOf valuation expr) name := by
  unfold narrowed
  induction expr using Expr.refinements.induct with
  | case1 span lhs rhs =>
    rw [refinements, outcome]
    rcases ofIdentity_eq typeOf true lhs rhs with ⟨tested, place, htest, heq⟩ | ⟨htest, heq⟩
    · simpa [htest, heq] using sound_ofNoneTest hresp true tested place name
    · simpa [htest, heq] using sound_none _ name
  | case2 span lhs rhs =>
    rw [refinements, outcome]
    rcases ofIdentity_eq typeOf false lhs rhs with ⟨tested, place, htest, heq⟩ | ⟨htest, heq⟩
    · simpa [htest, heq] using sound_ofNoneTest hresp false tested place name
    · simpa [htest, heq] using sound_none _ name
  | case3 span lhs rhs ihl ihr =>
    rw [refinements, outcome]
    rw [speaksOf] at hspeaks
    cases hl : lhs.outcome valuation <;> cases hr : rhs.outcome valuation <;>
      simp only [hl, hr, narrowed, if_true, Bool.false_eq_true, if_false, Bool.and_eq_true,
        Bool.or_eq_true] at hspeaks ihl ihr ⊢
    · exact sound_union_left hspeaks.1 (ihl hspeaks.2)
    · exact sound_union_left hspeaks.1 (ihl hspeaks.2)
    · exact sound_union_right hspeaks.1 (ihr hspeaks.2)
    · exact sound_intersect (hspeaks.imp ihl ihr)
  | case4 span lhs rhs ihl ihr =>
    rw [refinements, outcome]
    rw [speaksOf] at hspeaks
    cases hl : lhs.outcome valuation <;> cases hr : rhs.outcome valuation <;>
      simp only [hl, hr, narrowed, if_true, Bool.false_eq_true, if_false, Bool.and_eq_true,
        Bool.or_eq_true] at hspeaks ihl ihr ⊢
    · exact sound_intersect (hspeaks.imp ihl ihr)
    · exact sound_union_right hspeaks.1 (ihr hspeaks.2)
    · exact sound_union_left hspeaks.1 (ihl hspeaks.2)
    · exact sound_union_left hspeaks.1 (ihl hspeaks.2)
  | case5 span operand ih =>
    rw [refinements, outcome]
    rw [speaksOf] at hspeaks
    cases ho : operand.outcome valuation <;> simp only [ho] at ih <;> exact ih hspeaks
  | case6 expr his hisNot hand hor hnot =>
    rw [refinements] <;> first | exact sound_none _ name | assumption

/-- A test narrows soundly every variable that its outcome speaks about: when it is true, the
values lie in the types of the one map, and when it is false, in those of the other. -/
theorem refinements_sound (typeOf : String → Option Ty) (valuation : Valuation)
    (hrespects : valuation.Respects typeOf) (expr : Expr) (name : String)
    (hspeaks : expr.speaksOf typeOf valuation name = true) :
    (expr.outcome valuation = true → ∀ narrowing,
      (name, narrowing) ∈ (expr.refinements typeOf).onTrue.entries →
        narrowing.ty.Holds (valuation.valueOf name)) ∧
    (expr.outcome valuation = false → ∀ narrowing,
      (name, narrowing) ∈ (expr.refinements typeOf).onFalse.entries →
        narrowing.ty.Holds (valuation.valueOf name)) := by
  have hsound := sound_narrowed hrespects name expr hspeaks
  unfold narrowed at hsound
  constructor <;> intro houtcome <;> rw [houtcome] at hsound <;> exact hsound

/-! ## A united map with an entry that fails -/

/-- `a is None and b is None` -/
def bothNone : Expr := binop .and (isNone (named "a")) (isNone (named "b"))

def optionalInts : String → Option Ty := fun _ => some (.optional .int)

/-- Everything is an int but the variable, which is `None`. -/
def onlyNone (name : String) : Valuation where
  valueOf other := if other = name then .nothing else .int
  outcomeOf _ := false

theorem onlyNone_respects (name : String) : (onlyNone name).Respects optionalInts := by
  intro other ty hty
  cases hty
  unfold onlyNone
  dsimp only
  split <;> simp [Ty.Holds]

theorem bothNone_onFalse : (bothNone.refinements optionalInts).onFalse.entries =
    [("a", ⟨.int, .null⟩), ("b", ⟨.int, .null⟩)] := by
  rfl

/-- When `b` alone is `None`, it is `a` that makes the test false, and `a` is an int. -/
theorem refinements_sound_bothNone : bothNone.outcome (onlyNone "b") = false ∧ ∃ narrowing,
      ("a", narrowing) ∈ (bothNone.refinements optionalInts).onFalse.entries ∧
        narrowing.ty.Holds ((onlyNone "b").valueOf "a") := by
  have hfalse : bothNone.outcome (onlyNone "b") = false := by decide
  have hentry : ("a", ⟨.int, .null⟩) ∈ (bothNone.refinements optionalInts).onFalse.entries := by
    simp [bothNone_onFalse]
  refine ⟨hfalse, ⟨.int, .null⟩, hentry, ?_⟩
  exact (refinements_sound optionalInts (onlyNone "b") (onlyNone_respects "b") bothNone "a"
    (by decide)).2 hfalse _ hentry

/-- When `a` alone is `None`, the test is false because of `b`, and yet `a` is taken to be an
int. -/
theorem false_and_narrows_unsoundly :
    (onlyNone "a").Respects optionalInts ∧ bothNone.outcome (onlyNone "a") = false ∧
      ∃ narrowing, ("a", narrowing) ∈ (bothNone.refinements optionalInts).onFalse.entries ∧
        ¬ narrowing.ty.Holds ((onlyNone "a").valueOf "a") := by
  refine ⟨onlyNone_respects "a", by decide, ⟨.int, .null⟩, by simp [bothNone_onFalse], ?_⟩
  simp [onlyNone, Ty.Holds]

end Expr

end Flowgraph
