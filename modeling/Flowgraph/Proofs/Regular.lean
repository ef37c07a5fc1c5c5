import Flowgraph.Entity
import Flowgraph.Overload
import Flowgraph.Proofs.Joins
import Flowgraph.SurfaceType

/-!
# Regular types

A type is regular if it is in normal form at every depth, also in what the attributes of its classes
hold and their methods return, and if a method `__bool__` returns a bool.  A host whose types are
regular hands out nothing else, and whatever a program makes of regular types is regular again:
primitives, joins and the types that programs write.
-/

namespace Flowgraph

open Entity List

variable {cls : Class} {elems args : List Ty} {name : String} {span : Span} {key value : Ty}
  {method : Method Ty} {ε α β : Type} {answer : Except ε α} {primitive : Primitive} {b : β}

/-! ## Types -/

namespace Ty

inductive Regular : Ty → Prop
  | tensor : Regular .tensor
  | ranked (rank : Nat) : Regular (.ranked rank)
  | int : Regular .int
  | float : Regular .float
  | bool : Regular .bool
  | str : Regular .str
  | nothing : Regular .nothing
  | number : Regular .number
  | optional {inner : Ty} (hinner : Regular inner) (hnothing : inner ≠ .nothing)
      (hoptional : inner.asOptional? = none) : Regular (.optional inner)
  | list {elem : Ty} (helem : Regular elem) : Regular (.list elem)
  | tuple {elems : List Ty} (helems : ∀ elem ∈ elems, Regular elem) : Regular (.tuple elems)
  | dict {key value : Ty} (hkey : Regular key) (hvalue : Regular value) : Regular (.dict key value)
  | future {inner : Ty} (hinner : Regular inner) : Regular (.future inner)
  | object {cls : Class} (hattributes : ∀ entry ∈ cls.attributes, Regular entry.2)
      (hresults : ∀ method ∈ cls.methods, Regular method.result)
      (htruth : ∀ method ∈ cls.methods, method.name = "__bool__" → method.result = .bool) :
      Regular (.object cls)

namespace Regular

variable {ty : Ty}

theorem inner_of_optional {inner : Ty} (h : Regular (.optional inner)) : inner.Regular := by
  cases h
  assumption

theorem elem_of_list {elem : Ty} (h : Regular (.list elem)) : elem.Regular := by
  cases h
  assumption

theorem elems_of_tuple (h : Regular (.tuple elems)) : ∀ elem ∈ elems, Regular elem := by
  cases h
  assumption

theorem key_of_dict (h : Regular (.dict key value)) : key.Regular := by
  cases h
  assumption

theorem value_of_dict (h : Regular (.dict key value)) : value.Regular := by
  cases h
  assumption

theorem class_of_asClass? (h : ty.Regular) (hcls : ty.asClass? = some cls) :
    Regular (.object cls) := by
  cases ty <;> simp_all [asClass?]

theorem class_of_classWith? {method : String} (h : ty.Regular)
    (hcls : ty.classWith? method = some cls) : Regular (.object cls) :=
  h.class_of_asClass? (Option.filter_eq_some_iff.mp hcls).1

theorem attributeType (h : Regular (.object cls))
    (hname : cls.attribute? name = some ty) : ty.Regular := by
  obtain ⟨before, after, heq, -⟩ := lookup_eq_some_iff.mp hname
  cases h with
  | object hattributes => exact hattributes (name, ty) (heq ▸ mem_append_right _ (.head _))

theorem resultType (h : Regular (.object cls)) (hname : cls.method? name = some method) :
    method.result.Regular := by
  cases h with
  | object _ hres => exact hres method (mem_of_find?_eq_some hname)

theorem truth (h : Regular (.object cls)) (hname : cls.method? "__bool__" = some method) :
    method.result = .bool := by
  cases h with
  | object _ _ htruth =>
    exact htruth method (mem_of_find?_eq_some hname) (by simpa using find?_some hname)

/-! ### Normal form -/

theorem areNormal_of_forall (h : ∀ elem ∈ elems, elem.Normal) : areNormal elems = true := by
  induction elems with
  | nil => rfl
  | cons elem rest ih =>
    rw [areNormal, Bool.and_eq_true]
    exact ⟨h elem (.head _), ih fun other hother => h other (.tail _ hother)⟩

theorem normal (h : ty.Regular) : ty.Normal := by
  induction h with
  | optional _ hnil hopt ih => exact (normal_optional_iff _).mpr ⟨hnil, hopt, ih⟩
  | list _ ih => exact ih
  | tuple _ ih => exact areNormal_of_forall ih
  | dict _ _ ihkey ihvalue => exact Bool.and_eq_true_iff.mpr ⟨ihkey, ihvalue⟩
  | future _ ih => exact ih
  | _ => rfl

/-! ### Operations on types -/

theorem orNone (h : ty.Regular) : ty.orNone.Regular := by
  cases ty with
  | nothing | optional _ => exact h
  | _ => exact .optional h (by simp) rfl

theorem mem_unshapedAll (h : ty ∈ unshapedAll elems) : ∃ elem ∈ elems, elem.unshaped = ty := by
  induction elems with
  | nil => cases h
  | cons elem rest ih =>
    rcases mem_cons.mp h with rfl | h
    · exact ⟨elem, (.head _), rfl⟩
    · obtain ⟨other, hother, heq⟩ := ih h
      exact ⟨other, mem_cons_of_mem _ hother, heq⟩

theorem unshaped (h : ty.Regular) : ty.unshaped.Regular := by
  induction h with
  | ranked => exact .tensor
  | optional _ hnil hopt ih =>
    exact .optional ih (fun heq => hnil (unshaped_eq_nothing heq)) (asOptional?_unshaped hopt)
  | list _ ih => exact .list ih
  | @tuple elems _ ih =>
    refine .tuple fun ty hty => ?_
    obtain ⟨elem, helem, rfl⟩ := mem_unshapedAll hty
    exact ih elem helem
  | dict _ _ ihkey ihvalue => exact .dict ihkey ihvalue
  | future _ ih => exact .future ih
  | object hattributes hres htruth => exact .object hattributes hres htruth
  | _ => constructor

mutual

theorem joins {a b c : Ty} (hj : Joins a b c) (ha : a.Regular) (hb : b.Regular) : c.Regular := by
  match hj, ha, hb with
  | .right _, _, hb => exact hb
  | .left _ _, ha, _ => exact ha
  | .tensors _ _ _, _, _ => exact .tensor
  | .nothingLeft _, _, hb => exact hb.orNone
  | .nothingRight _, ha, _ => exact ha.orNone
  | .optionalLeft hin _, ha, hb => exact (joins hin ha.inner_of_optional hb).orNone
  | .optionalRight hin _ _, ha, hb => exact (joins hin hb.inner_of_optional ha).orNone
  | .tuples helems _, ha, hb => exact .tuple (joinsAll helems ha.elems_of_tuple hb.elems_of_tuple)
  | .lists _ _ _, _, _ => exact .list .tensor

theorem joinsAll {as bs cs : List Ty} (hj : JoinsAll as bs cs) (has : ∀ a ∈ as, Regular a)
    (hbs : ∀ b ∈ bs, Regular b) : ∀ c ∈ cs, Regular c := by
  match hj, has, hbs with
  | .nil, has, _ => exact has
  | .cons hfirst hr, has, hbs =>
    rw [forall_mem_cons] at has hbs ⊢
    exact ⟨joins hfirst has.1 hbs.1, joinsAll hr has.2 hbs.2⟩

end

theorem join (a b : Ty) {c : Ty} (ha : a.Regular) (hb : b.Regular)
    (hj : Ty.join a b = some c) : c.Regular :=
  joins (joins_of_join a b hj) ha hb

end Regular

end Ty

/-! ## Primitives -/

namespace Primitive

variable {ty : Ty}

open Ty

theorem given_eq_some_iff {condition : Bool} {found : Ty} :
    given condition ty = some found ↔ condition = true ∧ ty = found := by
  rw [given]
  split <;> simp_all

theorem regular_scalarResult (a b : Ty) : (scalarResult a b).Regular := by
  unfold scalarResult
  split <;> constructor

section Families

variable {primitive : Primitive} {a b c ty : Ty} {bounds args : List Ty}

theorem arithmeticType?_regular (ha : a.Regular) (h : arithmeticType? primitive a b = some ty) :
    ty.Regular := by
  unfold arithmeticType? at h
  split at h
  · obtain ⟨-, rfl⟩ := given_eq_some_iff.mp h
    exact .tensor
  · split at h
    · cases h
      exact .str
    · obtain ⟨-, rfl⟩ := given_eq_some_iff.mp h
      exact ha
    · split at h
      · cases h
        split
        · exact .float
        · exact regular_scalarResult a b
      · cases h

theorem bitwiseType?_regular (h : bitwiseType? primitive a b = some ty) : ty.Regular := by
  unfold bitwiseType? at h
  split at h
  · cases h
    exact .tensor
  · split at h
    · cases h
      exact .bool
    · obtain ⟨-, rfl⟩ := given_eq_some_iff.mp h
      exact .int

theorem comparisonType?_regular (h : comparisonType? primitive a b = some ty) : ty.Regular := by
  unfold comparisonType? at h
  split at h
  · obtain ⟨-, rfl⟩ := given_eq_some_iff.mp h
    exact .tensor
  · split at h
    · cases h
      exact .bool
    · split at h
      · cases h
        exact .bool
      · obtain ⟨-, rfl⟩ := given_eq_some_iff.mp h
        exact .bool

theorem containsType?_regular (h : containsType? a b = some ty) : ty.Regular := by
  unfold containsType? at h
  split at h
  all_goals first | cases h | exact (given_eq_some_iff.mp h).2 ▸ .bool

theorem getItemType?_regular (ha : a.Regular) (h : getItemType? a b = some ty) : ty.Regular := by
  unfold getItemType? at h
  split at h
  · exact (given_eq_some_iff.mp h).2 ▸ ha.elem_of_list
  · exact (given_eq_some_iff.mp h).2 ▸ .str
  · exact (given_eq_some_iff.mp h).2 ▸ ha.value_of_dict
  · cases h

theorem setItemType?_regular (ha : a.Regular) (h : setItemType? a b c = some ty) : ty.Regular := by
  unfold setItemType? at h
  split at h
  · exact (given_eq_some_iff.mp h).2 ▸ ha
  · exact (given_eq_some_iff.mp h).2 ▸ ha
  · cases h

theorem lenType?_eq (h : lenType? a = some ty) : ty = .int := by
  unfold lenType? at h
  split at h
  all_goals first | exact (Option.some.inj h).symm | exact (given_eq_some_iff.mp h).2.symm

theorem extremumType?_regular (h : extremumType? a b = some ty) : ty.Regular := by
  unfold extremumType? at h
  split at h
  · exact Option.some.inj h ▸ .tensor
  · exact (given_eq_some_iff.mp h).2 ▸ regular_scalarResult a b

theorem sliceType?_regular (ha : a.Regular) (h : sliceType? a bounds = some ty) : ty.Regular := by
  unfold sliceType? at h
  split at h
  · exact (given_eq_some_iff.mp h).2 ▸ .tensor
  · split at h
    · exact (given_eq_some_iff.mp h).2 ▸ ha
    · exact (given_eq_some_iff.mp h).2 ▸ ha
    · cases h

theorem unaryType?_regular (ha : a.Regular) (h : unaryType? primitive a = some ty) :
    ty.Regular := by
  unfold unaryType? at h
  split at h
  all_goals try split at h
  all_goals first
    | cases h; done
    | exact lenType?_eq h ▸ .int
    | exact Option.some.inj h ▸ ha
    | exact Option.some.inj h ▸ .list .str
    | exact Option.some.inj h ▸ .list ha.key_of_dict
    | exact (given_eq_some_iff.mp h).2 ▸ .list .int
    | exact (given_eq_some_iff.mp h).2 ▸ ha
    | exact (given_eq_some_iff.mp h).2 ▸ ha.elem_of_list
    | exact Option.some.inj h ▸ (by constructor)
    | exact (given_eq_some_iff.mp h).2 ▸ (by constructor)

theorem binaryType?_regular (ha : a.Regular) (h : binaryType? primitive a b = some ty) :
    ty.Regular := by
  unfold binaryType? at h
  split at h
  all_goals first
    | cases h; done
    | exact arithmeticType?_regular ha h
    | exact bitwiseType?_regular h
    | exact comparisonType?_regular h
    | exact containsType?_regular h
    | exact getItemType?_regular ha h
    | exact extremumType?_regular h
    | exact Option.some.inj h ▸ .bool
    | exact (given_eq_some_iff.mp h).2 ▸ .tensor
    | exact (given_eq_some_iff.mp h).2 ▸ .tuple (by simp [regular_scalarResult])

theorem resultType?_regular (hargs : ∀ arg ∈ args, arg.Regular)
    (h : primitive.resultType? args = some ty) : ty.Regular := by
  unfold resultType? at h
  split at h
  · obtain ⟨-, rfl⟩ := given_eq_some_iff.mp h
    exact .list (hargs _ (.head _)).elem_of_list.unshaped
  · cases h
  · exact (given_eq_some_iff.mp h).2 ▸ .int
  · exact (given_eq_some_iff.mp h).2 ▸ .int
  · exact (given_eq_some_iff.mp h).2 ▸ .tensor
  · exact sliceType?_regular (hargs _ (.head _)).unshaped h
  · exact (given_eq_some_iff.mp h).2 ▸ .tensor
  · exact setItemType?_regular (hargs _ (.head _)).unshaped h
  · exact unaryType?_regular (hargs _ (.head _)).unshaped h
  · exact binaryType?_regular (hargs _ (.head _)).unshaped h
  · cases h

end Families

theorem resultType?_of_check (h : primitive.check args span = .ok ty) :
    primitive.resultType? args = some ty ∧ ∀ here, primitive.check args here = .ok ty := by
  unfold check at h ⊢
  dsimp only at h ⊢
  split at h
  · cases h
  next harity =>
    cases hret : primitive.resultType? args with simp only [hret] at h
    | none => cases h
    | some found =>
      obtain rfl := Except.ok.inj h
      refine ⟨rfl, fun here => ?_⟩
      rw [if_neg harity]

theorem check_regular (hargs : ∀ arg ∈ args, arg.Regular)
    (h : primitive.check args span = .ok ty) : ty.Regular :=
  resultType?_regular hargs (resultType?_of_check h).1

end Primitive

/-! ## Hosts -/

/-- What the host calls by a name hands out regular types only. -/
inductive HostValue.Regular : HostValue → Prop
  | function {signature : Signature} (hresult : signature.result.Regular) :
      Regular (.function signature)
  | cls {cls : Class} (hcls : (Ty.object cls).Regular) : Regular (.cls cls)
  | module {module : Module}
      (hmembers : ∀ name member, module.members.get? name = some member → Regular member) :
      Regular (.module module)
  | constant (value : Literal) : Regular (.constant value)

structure Host.Regular (host : Host) : Prop where
  value : ∀ name span value, host.value? name span = some value → value.Regular
  type : ∀ name span ty, host.type? name span = some ty → ty.Regular

theorem Host.regular_empty : Host.empty.Regular :=
  ⟨fun _ _ _ h => (nomatch h), fun _ _ _ h => (nomatch h)⟩

section SurfaceType

variable {host : Host}

theorem Except.map_eq_ok {f : α → β} (h : answer.map f = .ok b) :
    ∃ a, answer = .ok a ∧ f a = b := by
  cases answer with
  | error failure => cases h
  | ok a => exact ⟨a, rfl, Except.ok.inj h⟩

theorem Except.bind_eq_ok {f : α → Except ε β} (h : (answer >>= f) = .ok b) :
    ∃ a, answer = .ok a ∧ f a = .ok b := by
  cases answer with
  | error failure => cases h
  | ok a => exact ⟨a, rfl, h⟩

/-- Names and constructors give types with a property only. -/
structure SurfaceClosed (host : Host) (P : Ty → Prop) : Prop where
  builtin : ∀ name ty, builtinType? name = some ty → P ty
  named : ∀ name span ty, host.type? name span = some ty → P ty
  orNone : ∀ inner, P inner → P inner.orNone
  list : ∀ elem, P elem → P (.list elem)
  future : ∀ inner, P inner → P (.future inner)
  tuple : ∀ elems, (∀ elem ∈ elems, P elem) → P (.tuple elems)
  dict : ∀ key value, isSurfaceKey key = true → P key → P value → P (.dict key value)

variable {P : Ty → Prop}

theorem SurfaceClosed.namedType (hP : SurfaceClosed host P) {ty : Ty}
    (h : namedType host name span = .ok ty) : P ty := by
  unfold Flowgraph.namedType at h
  split at h
  next found hbuiltin => exact Except.ok.inj h ▸ hP.builtin _ _ hbuiltin
  next =>
    split at h
    next found hfd => exact Except.ok.inj h ▸ hP.named _ _ _ hfd
    next => cases h

mutual

/-- The types that programs write have the property. -/
theorem SurfaceClosed.surfaceType (hP : SurfaceClosed host P) (expr : Expr) {ty : Ty}
    (h : expr.surfaceType host = .ok ty) : P ty := by
  unfold Expr.surfaceType at h
  split at h
  · exact Except.ok.inj h ▸ hP.builtin "None" _ rfl
  · exact hP.namedType h
  · split at h
    · exact hP.namedType h
    · cases h
  · split at h
    · cases h
    · split at h
      next elem =>
        obtain ⟨found, hfd, rfl⟩ := Except.map_eq_ok h
        exact hP.list _ (hP.surfaceType elem hfd)
      next => cases h
    · split at h
      next inner =>
        obtain ⟨found, hfd, rfl⟩ := Except.map_eq_ok h
        exact hP.orNone _ (hP.surfaceType inner hfd)
      next => cases h
    · split at h
      next inner =>
        obtain ⟨found, hfd, rfl⟩ := Except.map_eq_ok h
        exact hP.future _ (hP.surfaceType inner hfd)
      next => cases h
    · split at h
      next key value =>
        obtain ⟨keyType, hkey, h⟩ := Except.bind_eq_ok h
        split at h
        next hsurface =>
          obtain ⟨valueType, hv, h⟩ := Except.bind_eq_ok h
          exact Except.ok.inj h ▸ hP.dict _ _ hsurface (hP.surfaceType key hkey)
            (hP.surfaceType value hv)
        next => cases h
      next => cases h
    · obtain ⟨found, hfd, rfl⟩ := Except.map_eq_ok h
      exact hP.tuple _ (hP.surfaceTypes _ hfd)
    · cases h
  · cases h

theorem SurfaceClosed.surfaceTypes (hP : SurfaceClosed host P) (exprs : List Expr)
    {types : List Ty} (h : Expr.surfaceTypes host exprs = .ok types) : ∀ ty ∈ types, P ty := by
  match exprs with
  | [] => exact Except.ok.inj h ▸ fun _ hty => absurd hty not_mem_nil
  | expr :: rest =>
    obtain ⟨ty, hty, h⟩ := Except.bind_eq_ok h
    obtain ⟨others, hothers, h⟩ := Except.bind_eq_ok h
    obtain rfl := Except.ok.inj h
    exact forall_mem_cons.mpr ⟨hP.surfaceType expr hty, hP.surfaceTypes rest hothers⟩

end

theorem Host.Regular.surfaceClosed (hhost : host.Regular) : SurfaceClosed host Ty.Regular where
  builtin name ty h := by
    unfold builtinType? at h
    split at h
    all_goals first | cases h; done | exact Option.some.inj h ▸ (by constructor)
  named := hhost.type
  orNone _ h := h.orNone
  list _ := .list
  future _ := .future
  tuple _ := .tuple
  dict _ _ _ := .dict

end SurfaceType

/-! ## Entities -/

mutual

/-- The graph values that an entity keeps. -/
def Entity.values : Entity → List ValueId
  | .value v | .closure v | .method v _ _ | .primitiveMethod v _ => [v]
  | .range start stop step => start.toList ++ stop :: step.toList
  | .zip items => valuesAll items
  | .enumerate inner => inner.values
  | .builtin _ | .function _ | .cls _ | .fork | .module _ => []

def Entity.valuesAll : List Entity → List ValueId
  | [] => []
  | entity :: rest => entity.values ++ valuesAll rest

end

mutual

/-- What an entity hands out is regular, and a range goes between ints. -/
def Entity.Regular (g : Graph) : Entity → Prop
  | .function signature => signature.result.Regular
  | .method _ owner _ | .cls owner => (Ty.object owner).Regular
  | .range start stop step =>
    ∀ v ∈ start.toList ++ stop :: step.toList, g.typeOf? v = some .int
  | .zip items => AreRegular g items
  | .enumerate inner => Entity.Regular g inner
  | .module found => (HostValue.module found).Regular
  | .value _ | .builtin _ | .primitiveMethod .. | .closure _ | .fork => True

def Entity.AreRegular (g : Graph) : List Entity → Prop
  | [] => True
  | entity :: rest => Entity.Regular g entity ∧ AreRegular g rest

end

mutual

theorem Entity.Regular.mono {g g' : Graph} : (entity : Entity) →
    (∀ v ∈ entity.values, ∀ ty, g.typeOf? v = some ty → g'.typeOf? v = some ty) →
    entity.Regular g → entity.Regular g'
  | .range _ _ _, hkeep, h => fun v hv => hkeep v hv .int (h v hv)
  | .zip items, hkeep, h => AreRegular.mono items hkeep h
  | .enumerate inner, hkeep, h => Entity.Regular.mono inner hkeep h
  | .function _, _, h | .method _ _ _, _, h | .cls _, _, h | .module _, _, h
  | .value _, _, h | .builtin _, _, h | .primitiveMethod _ _, _, h | .closure _, _, h
  | .fork, _, h => h

theorem Entity.AreRegular.mono {g g' : Graph} : (entities : List Entity) →
    (∀ v ∈ valuesAll entities, ∀ ty, g.typeOf? v = some ty → g'.typeOf? v = some ty) →
    AreRegular g entities → AreRegular g' entities
  | [], _, h => h
  | entity :: rest, hkeep, h =>
    ⟨Entity.Regular.mono entity (fun v hv => hkeep v (mem_append_left _ hv)) h.1,
      AreRegular.mono rest (fun v hv => hkeep v (mem_append_right _ hv)) h.2⟩

end

end Flowgraph
