import Flowgraph.Proofs.Regular

/-!
# What primitives make of ranks and of tensors

The rules of primitives are meant for types without ranks.  A value that is stored in a list or a
dict keeps its ranks when its type is compared with the erased type of the elements, so that it is
refused if there are ranks below a list or a dict in it; nothing else depends on ranks.

An operator that meets a tensor takes tensors and scalars only, except that the bitwise operators
and the shifts take anything.
-/

namespace Flowgraph

namespace Ty

/-! ## Forgetting ranks as a step up -/

/-- The type lies below what is left of it without its ranks: none stands in a list or a dict. -/
def Widens (ty : Ty) : Prop := ty.isSubtype ty.unshaped = true

instance (ty : Ty) : Decidable ty.Widens := inferInstanceAs (Decidable (_ = true))

theorem widens_of_payload {a : Ty} (h : a.payload.Widens) : a.Widens := by
  cases a with
  | optional inner => exact (isSubtype_optional_iff _ _).mpr (Or.inr h)
  | _ => exact h

/-- Whatever lies below a type without ranks widens. -/
theorem widens_of_isSubtype (b : Ty) {a : Ty} (hb : b.unshaped = b) (h : isSubtype a b = true) :
    a.Widens := by
  induction b, h using isSubtype_induction with
  | rigid _ _ hsame =>
    refine isSubtype_of_same (same_trans _ _ _ hsame ?_)
    rw [← hb]
    exact same_symm _ (same_unshaped _ hsame)
  | nothing => exact isSubtype_refl _
  | optional _ _ ih =>
    rw [unshaped, optional.injEq] at hb
    exact widens_of_payload (ih hb)
  | tuple h ih =>
    rw [unshaped, tuple.injEq] at hb
    rw [Widens, unshaped, isSubtype_tuple_iff]
    refine ⟨_, rfl, ?_⟩
    clear h
    induction ih with
    | nil => rfl
    | cons hfirst _ ih =>
      rw [unshapedAll, List.cons.injEq] at hb
      rw [unshapedAll, areSubtypes, Bool.and_eq_true]
      exact ⟨hfirst.choose_spec hb.1, ih hb.2⟩
  | future _ _ ih =>
    rw [unshaped, future.injEq] at hb
    simpa [Widens, unshaped] using ih hb
  | tensor h ha =>
    rw [Widens, unshaped_of_isTensor ha]
    exact h
  | @number a _ ha => cases a <;> simp_all [isNumber, Widens, unshaped, isSubtype_refl]

/-- Being below a type without ranks is being so without ranks, for types that widen. -/
theorem isSubtype_unshaped_iff (a b : Ty) :
    isSubtype a b.unshaped = true ↔ isSubtype a.unshaped b.unshaped = true ∧ a.Widens := by
  constructor
  · intro h
    refine ⟨?_, widens_of_isSubtype _ (unshaped_unshaped b) h⟩
    simpa only [unshaped_unshaped] using isSubtype_unshaped _ h
  · rintro ⟨h, ha⟩
    exact isSubtype_trans _ ha h

@[simp] theorem isTensor_unshaped (a : Ty) : a.unshaped.isTensor = a.isTensor := by
  cases a <;> rfl

@[simp] theorem isScalar_unshaped (a : Ty) : a.unshaped.isScalar = a.isScalar := by
  cases a <;> rfl

@[simp] theorem unshaped_beq_int (a : Ty) : (a.unshaped == .int) = (a == .int) := by
  cases a <;> rfl

end Ty

namespace Primitive

open Ty

variable {primitive : Primitive} {args : List Ty} {a b ty : Ty} {span : Span}

/-- The type of the value that a primitive puts into a container. -/
def stored? : Primitive → List Ty → Option Ty
  | .append, [_, value] => some value
  | .setItem, [_, _, value] => some value
  | _, _ => none

theorem setItemType?_unshaped (a position value : Ty) :
    setItemType? a.unshaped position value = some ty ↔
      setItemType? a.unshaped position value.unshaped = some ty ∧ value.Widens := by
  cases a with
  | list elem | dict _ elem =>
    simp only [unshaped, setItemType?, given_eq_some_iff, Bool.and_eq_true]
    rw [isSubtype_unshaped_iff value elem]
    grind
  | _ => simp [unshaped, setItemType?]

theorem check_eq_ok_iff : primitive.check args span = .ok ty ↔
    (primitive.arity.1 ≤ args.length ∧ args.length ≤ primitive.arity.2) ∧
      primitive.resultType? args = some ty := by
  unfold check
  dsimp only
  split
  · simp
    omega
  · cases hty : primitive.resultType? args with
    | none => simp
    | some found =>
      simp
      omega

theorem resultType?_unshaped : primitive.resultType? args = some ty ↔
    primitive.resultType? (args.map unshaped) = some ty ∧
      ∀ value ∈ primitive.stored? args, value.Widens := by
  fun_cases resultType? primitive args
  case case1 elem value =>
    simp only [resultType?, stored?, unshaped, given_eq_some_iff, List.map_cons, List.map_nil,
      unshaped_unshaped, Option.mem_some_iff, forall_eq']
    rw [isSubtype_unshaped_iff value elem]
    grind
  case case2 hshape =>
    have hnone : resultType? .append (args.map unshaped) = none := by
      rcases args with _ | ⟨a, _ | ⟨b, _ | _⟩⟩ <;> try cases a
      all_goals simp_all [resultType?, unshaped]
    simp [hnone]
  case case3 | case4 | case5 => simp [resultType?, stored?, List.all_map, Function.comp_def]
  case case6 a bounds =>
    simp [resultType?, stored?, sliceType?, List.all_map, Function.comp_def, unshaped_unshaped]
  case case7 => simp [resultType?, stored?, unshaped_unshaped]
  case case8 a position value =>
    simp only [resultType?, stored?, List.map_cons, List.map_nil, unshaped_unshaped,
      Option.mem_some_iff, forall_eq']
    exact setItemType?_unshaped a _ value
  case case9 a _ _ _ _ _ =>
    have hstored : primitive.stored? [a] = none := by cases primitive <;> rfl
    simp only [hstored, List.map_cons, List.map_nil]
    simp_all [resultType?, unshaped_unshaped]
  case case10 a b _ _ _ _ _ _ =>
    have hstored : primitive.stored? [a, b] = none := by
      unfold stored?
      split <;> simp_all
    simp only [hstored, List.map_cons, List.map_nil]
    simp_all [resultType?, unshaped_unshaped]
  case case11 =>
    have hnone : resultType? primitive (args.map unshaped) = none := by
      unfold resultType?
      split <;> simp_all [List.map_eq_cons_iff]
    simp [hnone]

/-- A primitive gives the same type with and without ranks, except that a value that is stored has
to widen. -/
theorem check_ignores_ranks (primitive : Primitive) (args : List Ty) (span : Span) :
    (∀ ty, primitive.check args span = .ok ty ↔ primitive.check (args.map unshaped) span = .ok ty ∧
      ∀ value ∈ primitive.stored? args, value.Widens) ∧
    ∀ elem, (check .append [.list elem, elem] span = .ok (.list elem.unshaped) ↔ elem.Widens) ∧
      (check .setItem [.list elem, .int, elem] span = .ok (.list elem.unshaped) ↔ elem.Widens) := by
  refine ⟨fun ty => ?_, fun elem => ?_⟩
  · rw [check_eq_ok_iff, check_eq_ok_iff, resultType?_unshaped, List.length_map,
      and_assoc (b := _ = some ty)]
  · have hself : (Ty.int == Ty.int) = true := rfl
    simp [check_eq_ok_iff, arity, resultType?, setItemType?, unshaped, given_eq_some_iff, hself,
      Widens]

/-- A list of vectors cannot be appended to a list of such lists. -/
theorem append_refuses_vectors :
    let args := [.list (.list (.ranked 1)), .list (.ranked 1)]
    check .append (args.map unshaped) .null = .ok (.list (.list .tensor)) ∧
      check .append args .null = .error (.type .null (.primitiveOperands .append args)) :=
  ⟨rfl, rfl⟩

/-! ## Tensors and their partners -/

def isArithmetic : Primitive → Bool
  | .add | .sub | .mul | .div | .floorDiv | .remainder | .pow | .matmul => true
  | _ => false

def isInPlace : Primitive → Bool
  | .addInPlace | .subInPlace | .mulInPlace | .divInPlace => true
  | _ => false

def isComparison : Primitive → Bool
  | .eq | .ne | .lt | .le | .gt | .ge => true
  | _ => false

/-- The bitwise operators and the shifts. -/
def isBitwise : Primitive → Bool
  | .bitAnd | .bitOr | .bitXor | .leftShift | .rightShift => true
  | _ => false

/-- A tensor is combined with tensors and scalars, and a scalar is neither changed in place nor an
operand of `matmul`; but a bitwise operator or a shift combines a tensor with anything. -/
theorem check_tensor_operands (hop : primitive.isArithmetic ∨ primitive.isInPlace ∨
      primitive.isComparison ∨ primitive.isBitwise)
    (htensor : a.isTensor ∨ b.isTensor) (span : Span) :
    (primitive.isBitwise = false → ∀ ty, primitive.check [a, b] span = .ok ty ↔
      ty = .tensor ∧ (isTensorPartner a ∧ isTensorPartner b) ∧
        (primitive.isInPlace → a.isTensor) ∧ (primitive = .matmul → a.isTensor ∧ b.isTensor)) ∧
    (primitive.isBitwise → primitive.check [a, b] span = .ok .tensor) := by
  have hmeets : (a.unshaped.isTensor || b.unshaped.isTensor) = true := by simpa using htensor
  have harithmetic : arithmeticType? primitive a.unshaped b.unshaped = _ := if_pos hmeets
  have hcomparison : comparisonType? primitive a.unshaped b.unshaped = _ := if_pos hmeets
  cases primitive <;>
    simp [isArithmetic, isInPlace, isComparison, isBitwise, check_eq_ok_iff, arity, resultType?,
      binaryType?, bitwiseType?, harithmetic, hcomparison, given_eq_some_iff, isTensorPartner,
      htensor] at hop ⊢
  all_goals grind

theorem scaled_matrix_operands : (check .mul [.ranked 2, .number] .null = .ok .tensor) ∧
    isTensorPartner (.ranked 2) ∧ isTensorPartner .number :=
  have h := @check_tensor_operands .mul (.ranked 2) .number (.inl rfl) (.inl rfl) .null
  ⟨rfl, ((h.1 rfl .tensor).mp rfl).2.1⟩

theorem bitAnd_takes_text : check .bitAnd [.tensor, .str] .null = .ok .tensor ∧
    isTensorPartner .str = false :=
  ⟨rfl, rfl⟩

end Primitive

end Flowgraph
