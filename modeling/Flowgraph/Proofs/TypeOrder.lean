import Flowgraph.Ty.Join
import Mathlib.Data.List.Forall2

/-!
# The order of types

`Ty.isSubtype` is reflexive, transitive and antisymmetric, and it survives forgetting the ranks of
tensors.

Types are compared through `Ty.same`, which looks at the names of classes only, so equality of types
never enters: `same` is what two types have in common that lie below each other.  Everything about
an optional supertype goes through `isSubtype_optional_iff`, which replaces the three overlapping
rules of the definition by one case distinction on the smaller type.
-/

namespace Flowgraph.Ty

open List

-- Their equations are made here, once, for all the proofs that go through them at the same time.
variable {b a : Ty}

section
attribute [local simp] same sameAll isSubtype areSubtypes
end

/-! ## Equality by class name -/

mutual

/-- The type with nothing kept of its classes but their names. -/
def erased : Ty → Ty
  | .optional inner => .optional inner.erased
  | .list elem => .list elem.erased
  | .tuple elems => .tuple (erasedAll elems)
  | .dict key value => .dict key.erased value.erased
  | .future inner => .future inner.erased
  | .object cls => .object ⟨cls.name, [], []⟩
  | ty => ty

def erasedAll : List Ty → List Ty
  | [] => []
  | elem :: elems => elem.erased :: erasedAll elems

end

mutual

theorem same_iff : (a : Ty) → ∀ {b : Ty}, same a b = true ↔ a.erased = b.erased
  | .optional a, b | .list a, b | .future a, b => by
      cases b <;> simp [same, erased, same_iff a]
  | .tuple as, b => by cases b <;> simp [same, erased, sameAll_iff as]
  | .dict key value, b => by cases b <;> simp [same, erased, same_iff key, same_iff value]
  | .tensor, b | .ranked _, b | .int, b | .float, b | .bool, b | .str, b | .nothing, b
  | .number, b | .object _, b => by cases b <;> simp [same, erased]

theorem sameAll_iff : (as : List Ty) → ∀ {bs : List Ty},
    sameAll as bs = true ↔ erasedAll as = erasedAll bs
  | [], bs => by cases bs <;> simp [sameAll, erasedAll]
  | a :: as, bs => by cases bs <;> simp [sameAll, erasedAll, same_iff a, sameAll_iff as]

end

theorem same_refl (a : Ty) : same a a = true := (same_iff a).mpr rfl

theorem same_symm (a : Ty) (h : same a b = true) : same b a = true :=
  (same_iff b).mpr ((same_iff a).mp h).symm

theorem same_trans (a b c : Ty) (hab : same a b = true) (hbc : same b c = true) : same a c = true :=
  (same_iff a).mpr (((same_iff a).mp hab).trans ((same_iff b).mp hbc))

/-! ## What lies below each kind of type -/

theorem beq_eq_same (a b : Ty) : (a == b) = same a b := rfl

theorem isSubtype_of_same (h : same a b = true) : isSubtype a b = true := by
  unfold isSubtype
  simp [beq_eq_same, h]

theorem isSubtype_refl (a : Ty) : isSubtype a a = true := isSubtype_of_same (same_refl a)

theorem areSubtypes_iff {as bs : List Ty} :
    areSubtypes as bs = true ↔ Forall₂ (fun a b => isSubtype a b = true) as bs := by
  induction as generalizing bs with
  | nil => cases bs <;> simp [areSubtypes]
  | cons a as ih => cases bs <;> simp [areSubtypes, ih]

theorem areSubtypes_of_sameAll {as bs : List Ty} (h : sameAll as bs = true) :
    areSubtypes as bs = true := by
  induction as generalizing bs with
  | nil => cases bs <;> simp_all [sameAll, areSubtypes]
  | cons a as ih =>
    cases bs with
    | nil => simp [sameAll] at h
    | cons b bs =>
      rw [sameAll, Bool.and_eq_true] at h
      rw [areSubtypes, Bool.and_eq_true]
      exact ⟨isSubtype_of_same h.1, ih h.2⟩

@[simp] theorem isSubtype_nothing_iff (a : Ty) : isSubtype a .nothing = true ↔ a = .nothing := by
  cases a <;> simp [isSubtype, beq_eq_same, same]

@[simp] theorem isSubtype_tuple_iff (a : Ty) (bs : List Ty) :
    isSubtype a (.tuple bs) = true ↔ ∃ as, a = .tuple as ∧ areSubtypes as bs = true := by
  cases a <;> simp [isSubtype, beq_eq_same, same]
  exact areSubtypes_of_sameAll

@[simp] theorem isSubtype_future_iff (a b : Ty) :
    isSubtype a (.future b) = true ↔ ∃ inner, a = .future inner ∧ isSubtype inner b = true := by
  cases a <;> simp [isSubtype, beq_eq_same, same]
  exact isSubtype_of_same

@[simp] theorem isSubtype_tensor_iff (a : Ty) : isSubtype a .tensor = true ↔ a.isTensor = true := by
  cases a <;> simp [isSubtype, beq_eq_same, same, isTensor]

@[simp] theorem isSubtype_number_iff (a : Ty) : isSubtype a .number = true ↔ a.isNumber = true := by
  cases a <;> simp [isSubtype, beq_eq_same, same, isNumber]

/-- What an optional holds when it is not `None`; other types hold themselves. -/
def payload : Ty → Ty
  | .optional inner => inner
  | ty => ty

theorem isSubtype_optional_iff (a b : Ty) :
    isSubtype a (.optional b) = true ↔ a = .nothing ∨ isSubtype a.payload b = true := by
  cases a <;> simp [isSubtype, beq_eq_same, same, payload]
  exact isSubtype_of_same

/-- The types that only an equal type lies below. -/
def isRigid : Ty → Bool
  | .tensor | .number | .optional _ | .tuple _ | .future _ => false
  | _ => true

theorem isSubtype_rigid_iff (hb : b.isRigid = true) (a : Ty) :
    isSubtype a b = true ↔ same a b = true := by
  cases b <;> first | (simp [isRigid] at hb; done) | skip
  all_goals cases a <;> simp [isSubtype, beq_eq_same, same]

theorem isRigid_of_same (h : same a b = true) (hb : b.isRigid = true) : a.isRigid = true := by
  cases b <;> first | (simp [isRigid] at hb; done) | skip
  all_goals cases a <;> simp_all [same, isRigid]

section

variable {motive : (b a : Ty) → isSubtype a b = true → Prop}
  (rigid : ∀ {a b} h, b.isRigid = true → same a b = true → motive b a h)
  (nothing : ∀ {b} h, motive (.optional b) .nothing h)
  (optional : ∀ {a b} h hpayload, motive b a.payload hpayload → motive (.optional b) a h)
  (tuple : ∀ {as bs} h, Forall₂ (fun a b => ∃ h, motive b a h) as bs →
    motive (.tuple bs) (.tuple as) h)
  (future : ∀ {a b} h hinner, motive b a hinner → motive (.future b) (.future a) h)
  (tensor : ∀ {a} h, a.isTensor = true → motive .tensor a h)
  (number : ∀ {a} h, a.isNumber = true → motive .number a h)

include rigid nothing optional tuple future tensor number

set_option linter.unusedSectionVars false in
mutual

/-- Induction along the order, by what the larger type is. -/
theorem isSubtype_induction : (b : Ty) → ∀ {a : Ty} (h : isSubtype a b = true), motive b a h
  | .optional b, a, h => by
      rcases (isSubtype_optional_iff a b).mp h with rfl | hpayload
      · exact nothing h
      · exact optional h hpayload (isSubtype_induction b hpayload)
  | .tuple bs, a, h => by
      obtain ⟨as, rfl, has⟩ := (isSubtype_tuple_iff a bs).mp h
      exact tuple h (areSubtypes_induction bs has)
  | .future b, a, h => by
      obtain ⟨inner, rfl, hinner⟩ := (isSubtype_future_iff a b).mp h
      exact future h hinner (isSubtype_induction b hinner)
  | .tensor, a, h => tensor h ((isSubtype_tensor_iff a).mp h)
  | .number, a, h => number h ((isSubtype_number_iff a).mp h)
  | .ranked _, a, h | .int, a, h | .float, a, h | .bool, a, h | .str, a, h | .nothing, a, h
  | .list _, a, h | .dict _ _, a, h
  | .object _, a, h => rigid h rfl ((isSubtype_rigid_iff rfl a).mp h)

theorem areSubtypes_induction : (bs : List Ty) → ∀ {as : List Ty}, areSubtypes as bs = true →
    Forall₂ (fun a b => ∃ h, motive b a h) as bs
  | [], as, h => by cases as <;> simp_all [areSubtypes]
  | b :: bs, as, h => by
      cases as <;> simp only [areSubtypes, Bool.false_eq_true] at h
      rw [Bool.and_eq_true] at h
      exact .cons ⟨h.1, isSubtype_induction b h.1⟩ (areSubtypes_induction bs h.2)

end

end

/-! ## Transitivity -/

theorem isSubtype_payload (h : isSubtype a b = true) :
    a = .nothing ∨ isSubtype a.payload b.payload = true := by
  cases b with
  | optional b => exact (isSubtype_optional_iff a b).mp h
  | _ =>
    refine .inr ?_
    cases a <;> simp_all [payload, isSubtype, beq_eq_same, same]

theorem isSubtype_optional : (b : Ty) → ∀ {a : Ty}, isSubtype a b = true →
    isSubtype a (.optional b) = true
  | .optional b, a, h => by
      rw [isSubtype_optional_iff] at h ⊢
      rcases h with hnil | hpayload
      · exact .inl hnil
      · exact .inr (isSubtype_optional b hpayload)
  | .tensor, a, h | .ranked _, a, h | .int, a, h | .float, a, h | .bool, a, h | .str, a, h
  | .nothing, a, h | .number, a, h | .list _, a, h | .tuple _, a, h | .dict _ _, a, h
  | .future _, a, h | .object _, a, h =>
    (isSubtype_optional_iff a _).mpr (isSubtype_payload h)

theorem isSubtype_trans (c : Ty) (hab : isSubtype a b = true)
    (hbc : isSubtype b c = true) : isSubtype a c = true := by
  induction c, hbc using isSubtype_induction generalizing a with
  | rigid _ hrigid hsame =>
    have hab := (isSubtype_rigid_iff (isRigid_of_same hsame hrigid) a).mp hab
    exact isSubtype_of_same (same_trans _ _ _ hab hsame)
  | nothing => exact (isSubtype_optional_iff a _).mpr (.inl ((isSubtype_nothing_iff a).mp hab))
  | optional _ _ ih => exact (isSubtype_optional_iff a _).mpr ((isSubtype_payload hab).imp_right ih)
  | @tuple bs cs h ih =>
    obtain ⟨as, rfl, has⟩ := (isSubtype_tuple_iff a bs).mp hab
    refine (isSubtype_tuple_iff _ cs).mpr ⟨as, rfl, ?_⟩
    clear h hab
    induction ih generalizing as with
    | nil => exact has
    | cons hfirst _ ih =>
      cases as <;> simp only [areSubtypes, Bool.false_eq_true, Bool.and_eq_true] at has ⊢
      exact ⟨hfirst.choose_spec has.1, ih _ has.2⟩
  | @future b c _ _ ih =>
    obtain ⟨inner, rfl, hinner⟩ := (isSubtype_future_iff a b).mp hab
    exact (isSubtype_future_iff _ c).mpr ⟨inner, rfl, ih hinner⟩
  | @tensor b _ hb =>
    cases b <;> simp only [isTensor, Bool.false_eq_true] at hb
    · exact hab
    · cases a <;> simp_all [isSubtype, beq_eq_same, same]
  | @number b _ hb =>
    cases b <;> simp only [isNumber, Bool.false_eq_true] at hb
    case number => exact hab
    all_goals cases a <;> simp_all [isSubtype, beq_eq_same, same]

/-! ## Antisymmetry -/

theorem isSubtype_antisymm (b : Ty) (hab : isSubtype a b = true)
    (hba : isSubtype b a = true) : same a b = true := by
  induction b, hab using isSubtype_induction with
  | rigid _ _ hsame => exact hsame
  | nothing => simp at hba
  | @optional a b _ _ ih =>
    cases a with
    | optional a =>
      rw [isSubtype_optional_iff] at hba
      simpa [same, payload] using ih (hba.resolve_left (by simp))
    | _ => simp [isSubtype, beq_eq_same, same] at hba
  | tuple h ih =>
    simp only [isSubtype_tuple_iff, tuple.injEq, exists_eq_left', same] at hba ⊢
    clear h
    induction ih with
    | nil => rfl
    | cons hfirst _ ih =>
      rw [areSubtypes, Bool.and_eq_true] at hba
      simp [sameAll, hfirst.choose_spec hba.1, ih hba.2]
  | future _ _ ih =>
    simp only [isSubtype_future_iff, future.injEq, exists_eq_left', same] at hba ⊢
    exact ih hba
  | @tensor a _ ha => cases a <;> simp_all [isSubtype, beq_eq_same, same, isTensor]
  | @number a _ ha => cases a <;> simp_all [isSubtype, beq_eq_same, same, isNumber]

/-! ## Forgetting ranks -/

mutual

theorem erased_unshaped : (a : Ty) → a.unshaped.erased = a.erased.unshaped
  | .tensor | .ranked _ | .int | .float | .bool | .str | .nothing | .number | .object _ => by
      simp [unshaped, erased]
  | .optional a | .list a | .future a => by simp [unshaped, erased, erased_unshaped a]
  | .tuple as => by simp [unshaped, erased, erasedAll_unshapedAll as]
  | .dict key value => by simp [unshaped, erased, erased_unshaped key, erased_unshaped value]

theorem erasedAll_unshapedAll : (as : List Ty) →
    erasedAll (unshapedAll as) = unshapedAll (erasedAll as)
  | [] => by simp [unshapedAll, erasedAll]
  | a :: as => by simp [unshapedAll, erasedAll, erased_unshaped a, erasedAll_unshapedAll as]

end

theorem same_unshaped (a : Ty) (h : same a b = true) : same a.unshaped b.unshaped = true := by
  rw [same_iff] at h ⊢
  rw [erased_unshaped, erased_unshaped, h]

mutual

theorem unshaped_unshaped : (a : Ty) → a.unshaped.unshaped = a.unshaped
  | .tensor | .ranked _ | .int | .float | .bool | .str | .nothing | .number | .object _ => by
      simp [unshaped]
  | .optional a | .list a | .future a => by simp [unshaped, unshaped_unshaped a]
  | .tuple as => by simp [unshaped, unshapedAll_unshapedAll as]
  | .dict key value => by simp [unshaped, unshaped_unshaped key, unshaped_unshaped value]

theorem unshapedAll_unshapedAll : (as : List Ty) → unshapedAll (unshapedAll as) = unshapedAll as
  | [] => by simp [unshapedAll]
  | a :: as => by simp [unshapedAll, unshaped_unshaped a, unshapedAll_unshapedAll as]

end

theorem unshaped_payload (a : Ty) : a.payload.unshaped = a.unshaped.payload := by
  cases a <;> simp [payload, unshaped]

theorem unshaped_of_isTensor (h : a.isTensor = true) : a.unshaped = .tensor := by
  cases a <;> simp_all [isTensor, unshaped]

theorem unshapedAll_eq_map (as : List Ty) : unshapedAll as = as.map unshaped := by
  induction as with
  | nil => rfl
  | cons a as ih => rw [unshapedAll, ih, map_cons]

theorem isSubtype_unshaped (b : Ty) (h : isSubtype a b = true) :
    isSubtype a.unshaped b.unshaped = true := by
  induction b, h using isSubtype_induction with
  | rigid _ _ hsame => exact isSubtype_of_same (same_unshaped _ hsame)
  | nothing => simp [unshaped, isSubtype_optional_iff]
  | @optional a b _ _ ih =>
    rw [unshaped, isSubtype_optional_iff, ← unshaped_payload]
    exact .inr ih
  | tuple _ ih =>
    simp only [unshaped, isSubtype_tuple_iff, tuple.injEq, exists_eq_left', unshapedAll_eq_map,
      areSubtypes_iff, forall₂_map_left_iff, forall₂_map_right_iff]
    exact ih.imp fun _ _ => Exists.choose_spec
  | future _ _ ih => simpa [unshaped] using ih
  | tensor _ ha =>
    rw [unshaped_of_isTensor ha]
    exact isSubtype_refl _
  | @number a _ ha => cases a <;> simp_all [isNumber, unshaped]

/-- The order of types is a partial order, equality being that of class names, and forgetting ranks
is an idempotent map that keeps it. -/
theorem isSubtype_partialOrder (a b c : Ty) : isSubtype a a = true ∧
    (isSubtype a b = true → isSubtype b c = true → isSubtype a c = true) ∧
    (isSubtype a b = true → isSubtype b a = true → (a == b) = true) ∧
    a.unshaped.unshaped = a.unshaped ∧
    (isSubtype a b = true → isSubtype a.unshaped b.unshaped = true) :=
  ⟨isSubtype_refl a, isSubtype_trans c, isSubtype_antisymm b, unshaped_unshaped a,
    isSubtype_unshaped b⟩

theorem isSubtype_partialOrder_sameName :
    isSubtype (.object ⟨"A", [], []⟩) (.optional (.optional (.object ⟨"A", [("x", .int)], []⟩))) =
      true ∧ ((.object ⟨"A", [], []⟩ : Ty) == .object ⟨"A", [("x", .int)], []⟩) = true :=
  have h := isSubtype_partialOrder (.object ⟨"A", [], []⟩) (.object ⟨"A", [("x", .int)], []⟩)
    (.optional (.optional (.object ⟨"A", [("x", .int)], []⟩)))
  ⟨h.2.1 (by decide) (by decide), h.2.2.1 (by decide) (by decide)⟩

/-! ## How joins come about -/

/-- Being below a type, ranks forgotten on both sides. -/
def Below (a b : Ty) : Prop := a.unshaped.isSubtype b.unshaped = true

theorem Below.refl (a : Ty) : a.Below a := isSubtype_refl _

/-- Neither type lies below the other. -/
def Apart (a b : Ty) : Prop := ¬isSubtype a b = true ∧ ¬isSubtype b a = true

mutual

/-- How a join comes about, one constructor for each way through the definition. -/
inductive Joins : Ty → Ty → Ty → Prop
  | right {a b : Ty} : isSubtype a b = true → Joins a b b
  | left {a b : Ty} : ¬isSubtype a b = true → isSubtype b a = true → Joins a b a
  | tensors {a b : Ty} : a.isTensor = true → b.isTensor = true → Apart a b → Joins a b .tensor
  | nothingLeft {b : Ty} : Apart .nothing b → Joins .nothing b b.orNone
  | nothingRight {a : Ty} : Apart a .nothing → Joins a .nothing a.orNone
  | optionalLeft {inner b c : Ty} : Joins inner b c → Apart (.optional inner) b →
      Joins (.optional inner) b c.orNone
  | optionalRight {a inner c : Ty} : Joins inner a c → Apart a (.optional inner) →
      a.asOptional? = none → Joins a (.optional inner) c.orNone
  | tuples {as bs cs : List Ty} : JoinsAll as bs cs → Apart (.tuple as) (.tuple bs) →
      Joins (.tuple as) (.tuple bs) (.tuple cs)
  | lists {x y : Ty} : x.isTensor = true → y.isTensor = true → Apart (.list x) (.list y) →
      Joins (.list x) (.list y) (.list .tensor)

inductive JoinsAll : List Ty → List Ty → List Ty → Prop
  | nil : JoinsAll [] [] []
  | cons {a b c : Ty} {as bs cs : List Ty} : Joins a b c → JoinsAll as bs cs →
      JoinsAll (a :: as) (b :: bs) (c :: cs)

end

mutual

theorem joins_of_join (a b : Ty) {c : Ty} (h : join a b = some c) : Joins a b c := by
  unfold join at h
  by_cases hright : isSubtype a b = true
  · rw [if_pos hright] at h
    exact Option.some.inj h ▸ .right hright
  by_cases hleft : isSubtype b a = true
  · rw [if_neg hright, if_pos hleft] at h
    exact Option.some.inj h ▸ .left hright hleft
  have hapart : Apart a b := ⟨hright, hleft⟩
  by_cases htensors : (a.isTensor && b.isTensor) = true
  · rw [if_neg hright, if_neg hleft, if_pos htensors] at h
    rw [Bool.and_eq_true] at htensors
    exact Option.some.inj h ▸ .tensors htensors.1 htensors.2 hapart
  rw [if_neg hright, if_neg hleft, if_neg htensors] at h
  split at h
  · exact Option.some.inj h ▸ .nothingLeft hapart
  · exact Option.some.inj h ▸ .nothingRight hapart
  · obtain ⟨inner, hin, rfl⟩ := Option.map_eq_some_iff.mp h
    exact .optionalLeft (joins_of_join _ _ hin) hapart
  next hnotOptional _ =>
    obtain ⟨inner, hin, rfl⟩ := Option.map_eq_some_iff.mp h
    refine .optionalRight (joins_of_join _ _ hin) hapart ?_
    cases a <;> simp_all [asOptional?]
  · obtain ⟨elems, helems, rfl⟩ := Option.map_eq_some_iff.mp h
    exact .tuples (joinsAll_of_joinAll _ _ helems) hapart
  · split at h
    next hlists =>
      rw [Bool.and_eq_true] at hlists
      exact Option.some.inj h ▸ .lists hlists.1 hlists.2 hapart
    next => cases h
  · cases h
termination_by sizeOf a + sizeOf b
decreasing_by all_goals subst_vars; simp +arith

theorem joinsAll_of_joinAll (as bs : List Ty) {cs} (h : joinAll as bs = some cs) :
    JoinsAll as bs cs := by
  match as, bs with
  | [], [] =>
    rw [joinAll] at h
    exact Option.some.inj h ▸ .nil
  | a :: as, b :: bs =>
    rw [joinAll] at h
    split at h
    next c cs' hc hcs =>
      exact Option.some.inj h ▸ .cons (joins_of_join a b hc) (joinsAll_of_joinAll as bs hcs)
    next => cases h
  | [], _ :: _ => simp [joinAll] at h
  | _ :: _, [] => simp [joinAll] at h
termination_by sizeOf as + sizeOf bs

end

/-- The type under every optional around it. -/
def core : Ty → Ty
  | .optional inner => core inner
  | ty => ty

theorem isSubtype_of_optional {d} (h : isSubtype (.optional a) d = true) :
    isSubtype .nothing d = true ∧ isSubtype a d = true := by
  cases d with
  | optional d =>
    rcases (isSubtype_optional_iff _ d).mp h with hnil | ha
    · cases hnil
    · exact ⟨(isSubtype_optional_iff _ d).mpr (.inl rfl), isSubtype_optional d ha⟩
  | _ => simp [isSubtype, beq_eq_same, same] at h

theorem unshaped_eq_nothing (h : a.unshaped = .nothing) : a = .nothing := by
  cases a <;> simp_all [unshaped]

end Flowgraph.Ty
