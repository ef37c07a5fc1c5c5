import Flowgraph.Proofs.TypeOrder

/-!
# The join as a least upper bound

On types in normal form, `Ty.join` does not depend on the order of its arguments, gives types in
normal form, commutes with forgetting ranks and is the least upper bound of its arguments: least
among all types above both, and above both once ranks are forgotten.  It is not above them as they
stand, because lists are invariant: lists of tensors of rank 1 and 2 join to lists of tensors.

Normal form enters where an optional is taken apart.  The join of two optionals goes on with the
joined payloads in the other order; that the payloads are neither `None` nor optionals themselves
is what brings it back to the join of the payloads.
-/

namespace Flowgraph.Ty

open List

variable {a b c x y d inner : Ty}

/-! ## Normal form -/

theorem normal_optional_iff (a : Ty) :
    Normal (.optional a) ↔ a ≠ .nothing ∧ a.asOptional? = none ∧ a.Normal := by
  cases a <;> simp [Normal, isNormal, asOptional?]

theorem Normal.of_optional (h : Normal (.optional a)) : a.Normal :=
  ((normal_optional_iff a).mp h).2.2

theorem payload_of_asOptional? (h : a.asOptional? = none) : a.payload = a := by
  cases a <;> simp_all [asOptional?, payload]

theorem eq_optional_of_asOptional? (h : a.asOptional? = some inner) : a = .optional inner := by
  cases a <;> simp_all [asOptional?]

theorem asOptional?_unshaped (h : a.asOptional? = none) : a.unshaped.asOptional? = none := by
  cases a <;> simp_all [asOptional?, unshaped]

theorem Normal.orNone (h : a.Normal) : a.orNone.Normal := by
  cases a <;> simp_all [Ty.orNone, Normal, isNormal]

mutual

theorem Normal.joins {a b c : Ty} (hj : Joins a b c) (ha : a.Normal) (hb : b.Normal) :
    c.Normal := by
  match hj, ha, hb with
  | .right _, _, hb => exact hb
  | .left _ _, ha, _ => exact ha
  | .tensors _ _ _, _, _ => rfl
  | .nothingLeft _, _, hb => exact hb.orNone
  | .nothingRight _, ha, _ => exact ha.orNone
  | .optionalLeft hin _, ha, hb =>
    exact (Normal.joins hin ha.of_optional hb).orNone
  | .optionalRight hin _ _, ha, hb =>
    exact (Normal.joins hin hb.of_optional ha).orNone
  | .tuples helems _, ha, hb => exact areNormal_joinsAll helems ha hb
  | .lists _ _ _, _, _ => rfl

theorem areNormal_joinsAll {as bs cs : List Ty} (hj : JoinsAll as bs cs)
    (has : areNormal as = true) (hbs : areNormal bs = true) : areNormal cs = true := by
  match hj, has, hbs with
  | .nil, has, _ => exact has
  | .cons hfirst hr, has, hbs =>
    rw [areNormal, Bool.and_eq_true] at has hbs ⊢
    exact ⟨Normal.joins hfirst has.1 hbs.1, areNormal_joinsAll hr has.2 hbs.2⟩

end

theorem Normal.join (a b : Ty) {c : Ty} (ha : a.Normal) (hb : b.Normal)
    (hj : join a b = some c) : c.Normal :=
  Normal.joins (joins_of_join a b hj) ha hb

/-! ## Bounds of optionals -/

theorem nothing_isSubtype_orNone (a : Ty) : isSubtype .nothing a.orNone = true := by
  cases a <;> simp [orNone, isSubtype_optional_iff]

theorem isSubtype_orNone_self (a : Ty) : isSubtype a a.orNone = true := by
  cases a with
  | nothing | optional _ => exact isSubtype_refl _
  | _ => exact isSubtype_optional _ (isSubtype_refl _)

theorem optional_isSubtype_orNone (hnil : a ≠ .nothing) (hopt : a.asOptional? = none)
    (h : isSubtype a c = true) : isSubtype (.optional a) c.orNone = true := by
  cases c with
  | nothing => exact absurd ((isSubtype_nothing_iff a).mp h) hnil
  | optional c =>
    have hpayload := ((isSubtype_optional_iff a c).mp h).resolve_left hnil
    rw [payload_of_asOptional? hopt] at hpayload
    exact (isSubtype_optional_iff _ c).mpr (Or.inr hpayload)
  | _ => exact (isSubtype_optional_iff _ _).mpr (Or.inr h)

/-! ## Bounds of tensors and lists -/

theorem asOptional?_core : (d : Ty) → d.core.asOptional? = none
  | .optional d => asOptional?_core d
  | .tensor | .ranked _ | .int | .float | .bool | .str | .nothing | .number | .list _ | .tuple _
  | .dict _ _ | .future _ | .object _ => rfl

/-- What is neither `None` nor an optional lies below the type under the optionals. -/
theorem isSubtype_core_iff (hnil : a ≠ .nothing) (hopt : a.asOptional? = none) : (d : Ty) →
    (isSubtype a d = true ↔ isSubtype a d.core = true)
  | .optional d => by
      rw [isSubtype_optional_iff, core, ← isSubtype_core_iff hnil hopt d,
        payload_of_asOptional? hopt]
      simp [hnil]
  | .tensor | .ranked _ | .int | .float | .bool | .str | .nothing | .number | .list _ | .tuple _
  | .dict _ _ | .future _ | .object _ => Iff.rfl

theorem ranked_isSubtype_iff (rank : Nat) (d : Ty) :
    isSubtype (.ranked rank) d = true ↔ d.core = .tensor ∨ d.core = .ranked rank := by
  rw [isSubtype_core_iff (by simp) rfl]
  have hcore := asOptional?_core d
  generalize d.core = e at hcore ⊢
  cases e <;> first | cases hcore; done | simp [isSubtype, beq_eq_same, same, eq_comm]

theorem tensor_isSubtype_iff (d : Ty) : isSubtype .tensor d = true ↔ d.core = .tensor := by
  rw [isSubtype_core_iff (by simp) rfl]
  have hcore := asOptional?_core d
  generalize d.core = e at hcore ⊢
  cases e <;> first | cases hcore; done | simp [isSubtype, beq_eq_same, same]

theorem list_isSubtype_iff (elem d : Ty) :
    isSubtype (.list elem) d = true ↔ ∃ other, d.core = .list other ∧ same elem other = true := by
  rw [isSubtype_core_iff (by simp) rfl]
  have hcore := asOptional?_core d
  generalize d.core = e at hcore ⊢
  cases e <;> first | cases hcore; done | simp [isSubtype, beq_eq_same, same]

theorem tuple_isSubtype_iff (as : List Ty) (d : Ty) :
    isSubtype (.tuple as) d = true ↔ ∃ ds, d.core = .tuple ds ∧ areSubtypes as ds = true := by
  rw [isSubtype_core_iff (by simp) rfl]
  have hcore := asOptional?_core d
  generalize d.core = e at hcore ⊢
  cases e <;> first | cases hcore; done | simp; done | simp [isSubtype, beq_eq_same, same]

theorem future_isSubtype_iff (a d : Ty) :
    isSubtype (.future a) d = true ↔
      ∃ other, d.core = .future other ∧ isSubtype a other = true := by
  rw [isSubtype_core_iff (by simp) rfl]
  have hcore := asOptional?_core d
  generalize d.core = e at hcore ⊢
  cases e <;> first | cases hcore; done | simp; done | simp [isSubtype, beq_eq_same, same]

theorem tensor_isSubtype (hne : ¬same a b = true) (hta : a.isTensor = true)
    (htb : b.isTensor = true) (ha : isSubtype a d = true) (hb : isSubtype b d = true) :
    isSubtype .tensor d = true := by
  cases a <;> simp only [isTensor, Bool.false_eq_true] at hta
  case tensor => exact ha
  case ranked m =>
    cases b <;> simp only [isTensor, Bool.false_eq_true] at htb
    case tensor => exact hb
    case ranked n =>
      rw [tensor_isSubtype_iff]
      rcases (ranked_isSubtype_iff m d).mp ha with htensor | hm
      · exact htensor
      rcases (ranked_isSubtype_iff n d).mp hb with htensor | hn
      · exact htensor
      · obtain rfl : m = n := by simpa [hm] using hn
        exact absurd (same_refl _) hne

theorem Apart.not_same (hapart : Apart a b) : ¬same a b = true := fun hs =>
  hapart.1 (isSubtype_of_same hs)

theorem Apart.lists_unbounded (hapart : Apart (.list x) (.list y))
    (hx : isSubtype (.list x) d = true) (hy : isSubtype (.list y) d = true) : False := by
  obtain ⟨other, hother, hsameX⟩ := (list_isSubtype_iff x d).mp hx
  obtain ⟨other', hother', hsameY⟩ := (list_isSubtype_iff y d).mp hy
  obtain rfl : other = other' := by simpa [hother] using hother'
  refine hapart.not_same ?_
  simpa [same] using same_trans x other y hsameX (same_symm y hsameY)

theorem orNone_isSubtype (hnil : isSubtype .nothing d = true) (ha : isSubtype a d = true) :
    isSubtype a.orNone d = true := by
  cases d with
  | optional d =>
    have hcases := (isSubtype_optional_iff _ d).mp ha
    cases a <;> simp_all [orNone, isSubtype_optional_iff, payload]
  | nothing =>
    obtain rfl := (isSubtype_nothing_iff _).mp ha
    exact ha
  | _ => simp [isSubtype, beq_eq_same, same] at hnil

/-! ## Views -/

/-- A view of types along which joins can be followed: `None`, optionals and tuples stay what they
are, and the bounds of two tensors, or of two lists of tensors, stay bounds of their join. -/
structure View (view : Ty → Ty) : Prop where
  nothing_iff (a : Ty) : view a = .nothing ↔ a = .nothing
  optional (inner : Ty) : view (.optional inner) = .optional (view inner)
  plain {a : Ty} : a.asOptional? = none → (view a).asOptional? = none
  tuple (elems : List Ty) : view (.tuple elems) = .tuple (elems.map view)
  tensors {a b d : Ty} : a.isTensor = true → b.isTensor = true → Apart a b →
    isSubtype (view a) d = true → isSubtype (view b) d = true → isSubtype (view .tensor) d = true
  lists {x y d : Ty} : x.isTensor = true → y.isTensor = true → Apart (.list x) (.list y) →
    isSubtype (view (.list x)) d = true → isSubtype (view (.list y)) d = true →
      isSubtype (view (.list .tensor)) d = true

/-- A view that keeps the order, and in which lists of tensors are below each other. -/
structure Covariant (view : Ty → Ty) : Prop extends View view where
  mono {a b : Ty} : isSubtype a b = true → isSubtype (view a) (view b) = true
  list {x : Ty} : x.isTensor = true → isSubtype (view (.list x)) (view (.list .tensor)) = true

theorem orNone_of_plain (hnil : a ≠ .nothing) (hopt : a.asOptional? = none) :
    a.orNone = .optional a := by
  cases a <;> simp_all [orNone, asOptional?]

section Views

variable {view : Ty → Ty}

theorem View.orNone (h : View view) (a : Ty) : view a.orNone = (view a).orNone := by
  cases hopt : a.asOptional? with
  | some inner =>
    obtain rfl := eq_optional_of_asOptional? hopt
    rw [Ty.orNone, h.optional, Ty.orNone]
  | none =>
    by_cases hnil : a = .nothing
    · rw [hnil, Ty.orNone, (h.nothing_iff _).mpr rfl, Ty.orNone]
    · rw [orNone_of_plain hnil hopt, h.optional,
        orNone_of_plain (fun heq => hnil ((h.nothing_iff a).mp heq)) (h.plain hopt)]

mutual

theorem View.least (h : View view) {a b c d : Ty} (hj : Joins a b c)
    (ha : isSubtype (view a) d = true) (hb : isSubtype (view b) d = true) :
    isSubtype (view c) d = true := by
  match hj, ha, hb with
  | .right _, _, hb => exact hb
  | .left _ _, ha, _ => exact ha
  | .tensors hta htb hapart, ha, hb => exact h.tensors hta htb hapart ha hb
  | .nothingLeft _, ha, hb =>
    rw [h.orNone]
    exact orNone_isSubtype ((h.nothing_iff _).mpr rfl ▸ ha) hb
  | .nothingRight _, ha, hb =>
    rw [h.orNone]
    exact orNone_isSubtype ((h.nothing_iff _).mpr rfl ▸ hb) ha
  | .optionalLeft hin _, ha, hb =>
    rw [h.optional] at ha
    obtain ⟨hnil, hbelow⟩ := isSubtype_of_optional ha
    rw [h.orNone]
    exact orNone_isSubtype hnil (h.least hin hbelow hb)
  | .optionalRight hin _ _, ha, hb =>
    rw [h.optional] at hb
    obtain ⟨hnil, hbelow⟩ := isSubtype_of_optional hb
    rw [h.orNone]
    exact orNone_isSubtype hnil (h.least hin hbelow ha)
  | .tuples helems _, ha, hb =>
    rw [h.tuple] at ha hb ⊢
    obtain ⟨ds, hcore, has⟩ := (tuple_isSubtype_iff _ d).mp ha
    obtain ⟨ds', hcore', hbs⟩ := (tuple_isSubtype_iff _ d).mp hb
    obtain rfl : ds = ds' := by simpa [hcore] using hcore'
    exact (tuple_isSubtype_iff _ d).mpr ⟨ds, hcore, h.leastAll helems has hbs⟩
  | .lists hx hy hapart, ha, hb => exact h.lists hx hy hapart ha hb

theorem View.leastAll (h : View view) {as bs cs ds : List Ty} (hj : JoinsAll as bs cs)
    (has : areSubtypes (as.map view) ds = true) (hbs : areSubtypes (bs.map view) ds = true) :
    areSubtypes (cs.map view) ds = true := by
  match hj, ds with
  | .nil, _ => exact has
  | .cons _ _, [] => simp [areSubtypes] at has
  | .cons hfirst hr, d :: ds =>
    simp only [List.map_cons, areSubtypes, Bool.and_eq_true] at has hbs ⊢
    exact ⟨h.least hfirst has.1 hbs.1, h.leastAll hr has.2 hbs.2⟩

end

theorem Covariant.orNone_above (h : Covariant view) (hnormal : Normal (.optional inner))
    (hin : isSubtype (view inner) (view c) = true) (hb : isSubtype (view b) (view c) = true) :
    isSubtype (view (.optional inner)) (view c.orNone) = true ∧
      isSubtype (view b) (view c.orNone) = true := by
  obtain ⟨hnil, hopt, -⟩ := (normal_optional_iff inner).mp hnormal
  rw [h.orNone, h.optional]
  refine ⟨?_, isSubtype_trans _ hb (isSubtype_orNone_self _)⟩
  exact optional_isSubtype_orNone (fun heq => hnil ((h.nothing_iff _).mp heq)) (h.plain hopt) hin

mutual

theorem Covariant.above (h : Covariant view) {a b c : Ty} (hj : Joins a b c) (ha : a.Normal)
    (hb : b.Normal) : isSubtype (view a) (view c) = true ∧ isSubtype (view b) (view c) = true := by
  match hj, ha, hb with
  | .right hab, _, _ => exact ⟨h.mono hab, isSubtype_refl _⟩
  | .left _ hba, _, _ => exact ⟨isSubtype_refl _, h.mono hba⟩
  | .tensors hta htb _, _, _ =>
    exact ⟨h.mono ((isSubtype_tensor_iff a).mpr hta), h.mono ((isSubtype_tensor_iff b).mpr htb)⟩
  | .nothingLeft _, _, _ =>
    exact ⟨h.mono (nothing_isSubtype_orNone b), h.mono (isSubtype_orNone_self b)⟩
  | .nothingRight _, _, _ =>
    exact ⟨h.mono (isSubtype_orNone_self a), h.mono (nothing_isSubtype_orNone a)⟩
  | .optionalLeft hin _, ha, hb =>
    obtain ⟨hbelow, hb'⟩ := h.above hin ha.of_optional hb
    exact h.orNone_above ha hbelow hb'
  | .optionalRight hin _ _, ha, hb =>
    obtain ⟨hbelow, ha'⟩ := h.above hin hb.of_optional ha
    exact (h.orNone_above hb hbelow ha').symm
  | .tuples helems _, ha, hb =>
    obtain ⟨has, hbs⟩ := h.aboveAll helems ha hb
    simpa [h.tuple] using ⟨has, hbs⟩
  | .lists hx hy _, _, _ => exact ⟨h.list hx, h.list hy⟩

theorem Covariant.aboveAll (h : Covariant view) {as bs cs : List Ty} (hj : JoinsAll as bs cs)
    (has : areNormal as = true) (hbs : areNormal bs = true) :
    areSubtypes (as.map view) (cs.map view) = true ∧
      areSubtypes (bs.map view) (cs.map view) = true := by
  match hj, has, hbs with
  | .nil, _, _ => exact ⟨rfl, rfl⟩
  | .cons hfirst hr, has, hbs =>
    rw [areNormal, Bool.and_eq_true] at has hbs
    obtain ⟨ha, hb⟩ := h.above hfirst has.1 hbs.1
    obtain ⟨has', hbs'⟩ := h.aboveAll hr has.2 hbs.2
    simp only [List.map_cons, areSubtypes, Bool.and_eq_true]
    exact ⟨⟨ha, has'⟩, hb, hbs'⟩

end

end Views

theorem view_id : View id where
  nothing_iff _ := Iff.rfl
  optional _ := rfl
  plain h := h
  tuple elems := by simp
  tensors ha hb hapart := tensor_isSubtype hapart.not_same ha hb
  lists _ _ hapart hx hy := (hapart.lists_unbounded hx hy).elim

theorem covariant_unshaped : Covariant unshaped where
  nothing_iff a := ⟨unshaped_eq_nothing, by rintro rfl; rfl⟩
  optional _ := rfl
  plain := asOptional?_unshaped
  tuple elems := by rw [unshaped, unshapedAll_eq_map]
  tensors ha _ _ hd _ := by rwa [unshaped_of_isTensor ha] at hd
  lists hx _ _ hd _ := by rwa [unshaped, unshaped_of_isTensor hx] at hd
  mono := isSubtype_unshaped _
  list hx := by rw [unshaped, unshaped, unshaped_of_isTensor hx]; exact isSubtype_refl _

theorem below_join (a b : Ty) {c : Ty} (ha : a.Normal) (hb : b.Normal)
    (hj : join a b = some c) : a.Below c ∧ b.Below c :=
  covariant_unshaped.above (joins_of_join a b hj) ha hb

/-! ## Lists of tensors -/

mutual

/-- Lists of tensors read as containers that are covariant, as futures are.  Futures stand one level
deeper, so that the types remain different. -/
def relaxed : Ty → Ty
  | .list elem => if elem.isTensor then .future elem else .list elem
  | .future inner => .future (.future inner)
  | .optional inner => .optional (relaxed inner)
  | .tuple elems => .tuple (relaxedAll elems)
  | ty => ty

def relaxedAll : List Ty → List Ty
  | [] => []
  | elem :: elems => relaxed elem :: relaxedAll elems

end

theorem relaxedAll_eq_map (as : List Ty) : relaxedAll as = as.map relaxed := by
  induction as with
  | nil => rfl
  | cons a as ih => rw [relaxedAll, ih, List.map_cons]

theorem relaxed_lists (hx : x.isTensor = true) : relaxed (.list x) = .future x := by
  rw [relaxed, if_pos hx]

theorem relaxed_payload (a : Ty) : a.payload.relaxed = a.relaxed.payload := by
  cases a <;> simp only [payload, relaxed]
  split <;> rfl

theorem isTensor_of_same (h : same x y = true) : x.isTensor = y.isTensor := by
  cases x <;> cases y <;> simp_all [same, isTensor]

theorem isSubtype_relaxed (b : Ty) {a : Ty} (h : isSubtype a b = true) :
    isSubtype a.relaxed b.relaxed = true := by
  induction b, h using isSubtype_induction with
  | @rigid a b h hb hsame =>
    cases b <;> simp only [isRigid, Bool.false_eq_true] at hb
    case list y =>
      cases a <;> simp only [same, Bool.false_eq_true] at hsame
      rw [relaxed, relaxed, isTensor_of_same hsame]
      split
      · simpa using isSubtype_of_same hsame
      · exact h
    all_goals cases a <;> simp_all [isSubtype, beq_eq_same, same, relaxed]
  | nothing => simp [relaxed, isSubtype_optional_iff]
  | optional _ _ ih =>
    rw [relaxed, isSubtype_optional_iff, ← relaxed_payload]
    exact Or.inr ih
  | tuple _ ih =>
    simp only [relaxed, isSubtype_tuple_iff, tuple.injEq, exists_eq_left', relaxedAll_eq_map,
      areSubtypes_iff, forall₂_map_left_iff, forall₂_map_right_iff]
    exact ih.imp fun _ _ => Exists.choose_spec
  | future h => simpa [relaxed] using h
  | @tensor a | @number a => cases a <;> simp_all [relaxed, isTensor, isNumber]

mutual

theorem same_of_relaxed : (a : Ty) → ∀ {b : Ty}, same a.relaxed b.relaxed = true → same a b = true
  | .optional a, b, h => by
      cases b <;> simp only [relaxed, same, Bool.false_eq_true] at h ⊢
      case optional => exact same_of_relaxed a h
      case list => split at h <;> simp [same] at h
  | .tuple as, b, h => by
      cases b <;> simp only [relaxed, same, Bool.false_eq_true] at h ⊢
      case tuple => exact sameAll_of_relaxedAll as h
      case list => split at h <;> simp [same] at h
  | .list x, b, h => by
      rw [relaxed] at h
      split at h
      next hx =>
        cases b <;> simp only [relaxed, same, Bool.false_eq_true] at h ⊢
        case list =>
          split at h
          · exact h
          · simp [same] at h
        case future => cases x <;> simp_all [same, isTensor]
      next =>
        cases b <;> simp only [relaxed, same, Bool.false_eq_true] at h ⊢
        split at h
        · simp [same] at h
        · exact h
  | .future x, b, h => by
      cases b <;> simp only [relaxed, same, Bool.false_eq_true] at h ⊢
      case future => exact h
      case list y =>
        split at h
        next hy => cases y <;> simp_all [same, isTensor]
        next => simp [same] at h
  | .tensor, b, h | .number, b, h | .ranked _, b, h | .int, b, h | .float, b, h | .bool, b, h
  | .str, b, h | .nothing, b, h | .dict _ _, b, h | .object _, b, h => by
      cases b <;> simp only [relaxed, same, Bool.false_eq_true] at h ⊢ <;>
        first | assumption | (split at h <;> simp [same] at h)

theorem sameAll_of_relaxedAll : (as : List Ty) → ∀ {bs : List Ty},
    sameAll (relaxedAll as) (relaxedAll bs) = true → sameAll as bs = true
  | [], bs, h => by cases bs <;> simp_all [sameAll, relaxedAll]
  | a :: as, bs, h => by
      cases bs <;> simp only [relaxedAll, sameAll, Bool.false_eq_true] at h
      rw [Bool.and_eq_true] at h
      simp [sameAll, same_of_relaxed a h.1, sameAll_of_relaxedAll as h.2]

end

theorem covariant_relaxed : Covariant relaxed where
  nothing_iff a := by
    cases a <;> simp only [relaxed, reduceCtorEq]
    split <;> simp
  optional inner := by rw [relaxed]
  plain {a} h := by
    cases a with
    | optional => cases h
    | list => rw [relaxed]; split <;> rfl
    | _ => simp only [relaxed, asOptional?]
  tuple elems := by rw [relaxed, relaxedAll_eq_map]
  tensors {a b d} ha hb hapart hd hd' := by
    have hview : ∀ {c : Ty}, c.isTensor = true → c.relaxed = c := fun {c} hc => by
      cases c <;> simp_all [isTensor, relaxed]
    rw [hview ha] at hd
    rw [hview hb] at hd'
    exact tensor_isSubtype hapart.not_same ha hb hd hd'
  lists {x y d} hx hy hapart hd hd' := by
    rw [relaxed_lists hx, future_isSubtype_iff] at hd
    rw [relaxed_lists hy, future_isSubtype_iff] at hd'
    obtain ⟨⟨elem, hcore, hxe⟩, elem', hcore', hye⟩ := And.intro hd hd'
    obtain rfl : elem = elem' := by simpa [hcore] using hcore'
    rw [relaxed_lists rfl, future_isSubtype_iff]
    exact ⟨elem, hcore, tensor_isSubtype (by simpa [same] using hapart.not_same) hx hy hxe hye⟩
  mono := isSubtype_relaxed _
  list hx := by
    rw [relaxed_lists hx, relaxed_lists rfl, isSubtype_future_iff]
    exact ⟨_, rfl, (isSubtype_tensor_iff _).mpr hx⟩

/-! ## Joins of sequences -/

section Sequences

variable {view : Ty → Ty} {first : Ty} {rest rest' : List Ty}

theorem foldlM_join_cons {second : Ty} (h : (second :: rest).foldlM join first = some c) :
    ∃ joined, join first second = some joined ∧ rest.foldlM join joined = some c :=
  Option.bind_eq_some_iff.mp h

theorem Covariant.foldlM_above (h : Covariant view) (hnormal : ∀ x ∈ first :: rest, x.Normal)
    (hj : rest.foldlM join first = some c) :
    ∀ x ∈ first :: rest, isSubtype (view x) (view c) = true := by
  induction rest generalizing first with
  | nil =>
    cases hj
    simpa using isSubtype_refl _
  | cons second rest ih =>
    obtain ⟨joined, hfirst, hr⟩ := foldlM_join_cons hj
    simp only [List.forall_mem_cons] at hnormal ih ⊢
    obtain ⟨ha, hb⟩ := h.above (joins_of_join _ _ hfirst) hnormal.1 hnormal.2.1
    obtain ⟨hjoined, habove⟩ :=
      ih ⟨Normal.join _ _ hnormal.1 hnormal.2.1 hfirst, hnormal.2.2⟩ hr
    exact ⟨isSubtype_trans _ ha hjoined, isSubtype_trans _ hb hjoined, habove⟩

theorem View.foldlM_least (h : View view) (hj : rest.foldlM join first = some c)
    (hd : ∀ x ∈ first :: rest, isSubtype (view x) d = true) : isSubtype (view c) d = true := by
  induction rest generalizing first with
  | nil =>
    cases hj
    exact hd _ (.head _)
  | cons second rest ih =>
    obtain ⟨joined, hfirst, hr⟩ := foldlM_join_cons hj
    simp only [List.forall_mem_cons] at hd ih
    exact ih hr ⟨h.least (joins_of_join _ _ hfirst) hd.1 hd.2.1, hd.2.2⟩

theorem foldlM_join_perm {first' : Ty} (hnormal : ∀ x ∈ first :: rest, x.Normal)
    (hperm : (first :: rest).Perm (first' :: rest')) (hc : rest.foldlM join first = some c)
    (hd : rest'.foldlM join first' = some d) : same c d = true := by
  have hnormal' : ∀ x ∈ first' :: rest', x.Normal := fun x hx => hnormal x (hperm.mem_iff.mpr hx)
  have hcd := covariant_relaxed.foldlM_least hc fun x hx =>
    covariant_relaxed.foldlM_above hnormal' hd x (hperm.mem_iff.mp hx)
  have hdc := covariant_relaxed.foldlM_least hd fun x hx =>
    covariant_relaxed.foldlM_above hnormal hc x (hperm.mem_iff.mpr hx)
  exact same_of_relaxed c (isSubtype_antisymm _ hcd hdc)

end Sequences

/-! ## Joins of types that are apart -/

theorem join_of_isSubtype (h : isSubtype a b = true) : join a b = some b := by
  unfold join
  rw [if_pos h]

theorem join_of_isSubtype_right (hab : ¬isSubtype a b = true) (hba : isSubtype b a = true) :
    join a b = some a := by
  unfold join
  rw [if_neg hab, if_pos hba]

theorem join_nothing_left (h : Apart .nothing b) : join .nothing b = some b.orNone := by
  unfold join
  rw [if_neg h.1, if_neg h.2, if_neg (by simp [isTensor])]

theorem join_nothing_right (h : Apart a .nothing) : join a .nothing = some a.orNone := by
  unfold join
  rw [if_neg h.1, if_neg h.2, if_neg (by simp [isTensor])]
  cases a <;> rfl

theorem join_optional_left (h : Apart (.optional x) b) :
    join (.optional x) b = (join x b).map orNone := by
  have hb : b ≠ .nothing := by
    rintro rfl
    exact h.2 ((isSubtype_optional_iff _ x).mpr (Or.inl rfl))
  rw [join, if_neg h.1, if_neg h.2, if_neg (by simp [isTensor])]
  exact hb

theorem join_optional_right (h : Apart a (.optional y)) (ha : a.asOptional? = none) :
    join a (.optional y) = (join y a).map orNone := by
  have hnil : a ≠ .nothing := by
    rintro rfl
    exact h.1 ((isSubtype_optional_iff _ y).mpr (Or.inl rfl))
  rw [join, if_neg h.1, if_neg h.2, if_neg (by simp [isTensor])]
  · exact hnil
  · rintro inner rfl
    cases ha

theorem join_tuples {as bs : List Ty} (h : Apart (.tuple as) (.tuple bs)) :
    join (.tuple as) (.tuple bs) = (joinAll as bs).map .tuple := by
  rw [join, if_neg h.1, if_neg h.2, if_neg (by simp [isTensor])]

theorem join_lists (h : Apart (.list x) (.list y)) (hx : x.isTensor = true)
    (hy : y.isTensor = true) : join (.list x) (.list y) = some (.list .tensor) := by
  rw [join, if_neg h.1, if_neg h.2, if_neg (by simp [isTensor])]
  simp [hx, hy]

theorem join_tensors (h : Apart a b) (ha : a.isTensor = true) (hb : b.isTensor = true) :
    join a b = some .tensor := by
  unfold join
  rw [if_neg h.1, if_neg h.2, if_pos (by simp [ha, hb])]

mutual

theorem Joins.join_eq {a b c : Ty} (hj : Joins a b c) : join a b = some c := by
  match hj with
  | .right h => exact join_of_isSubtype h
  | .left hab hba => exact join_of_isSubtype_right hab hba
  | .tensors ha hb hapart => exact join_tensors hapart ha hb
  | .nothingLeft hapart => exact join_nothing_left hapart
  | .nothingRight hapart => exact join_nothing_right hapart
  | .optionalLeft hin hapart => rw [join_optional_left hapart, hin.join_eq, Option.map]
  | .optionalRight hin hapart hnone =>
    rw [join_optional_right hapart hnone, hin.join_eq, Option.map]
  | .tuples helems hapart => rw [join_tuples hapart, helems.joinAll_eq, Option.map]
  | .lists hx hy hapart => exact join_lists hapart hx hy

theorem JoinsAll.joinAll_eq {as bs cs : List Ty} (hj : JoinsAll as bs cs) :
    joinAll as bs = some cs := by
  match hj with
  | .nil => rw [joinAll]
  | .cons hfirst hr => simp only [joinAll, hfirst.join_eq, hr.joinAll_eq]

end

theorem Apart.symm (h : Apart a b) : Apart b a := ⟨h.2, h.1⟩

theorem comparable_or_apart (a b : Ty) :
    (isSubtype a b = true ∨ isSubtype b a = true) ∨ Apart a b := by
  by_cases hab : isSubtype a b = true
  · exact Or.inl (Or.inl hab)
  by_cases hba : isSubtype b a = true
  · exact Or.inl (Or.inr hba)
  · exact Or.inr ⟨hab, hba⟩

theorem same_orNone (h : same a b = true) : same a.orNone b.orNone = true := by
  cases a <;> cases b <;> simp_all [orNone, same]

/-- The join of two optionals is the join of their payloads, taken in the other order. -/
theorem join_optionals (h : Apart (.optional x) (.optional y)) (hx : Normal (.optional x)) :
    join (.optional x) (.optional y) = (join y x).map orNone := by
  obtain ⟨hnil, hopt, -⟩ := (normal_optional_iff x).mp hx
  have hpayload := payload_of_asOptional? hopt
  have hapart : Apart x (.optional y) := by
    refine ⟨fun hle => h.1 ?_, fun hge => ?_⟩
    · have hxy := ((isSubtype_optional_iff x y).mp hle).resolve_left hnil
      rw [hpayload] at hxy
      exact (isSubtype_optional_iff _ y).mpr (Or.inr hxy)
    · cases x <;> simp_all [isSubtype, beq_eq_same, same, asOptional?]
  rw [join_optional_left h, join_optional_right hapart hopt, Option.map_map]
  congr 1
  funext c
  cases c <;> rfl

/-! ## The join does not depend on the order of its arguments -/

theorem isSome_join_of_comparable (h : isSubtype a b = true ∨ isSubtype b a = true) :
    (join a b).isSome := by
  by_cases hab : isSubtype a b = true
  · rw [join_of_isSubtype hab, Option.isSome_some]
  · rw [join_of_isSubtype_right hab (h.resolve_left hab), Option.isSome_some]

mutual

theorem isSome_join_swap (a b : Ty) {c : Ty} (ha : a.Normal) (hb : b.Normal)
    (hj : join a b = some c) : (join b a).isSome := by
  cases joins_of_join a b hj with
  | right h => exact isSome_join_of_comparable (Or.inr h)
  | left _ h => exact isSome_join_of_comparable (Or.inl h)
  | tensors hta htb hapart => rw [join_tensors hapart.symm htb hta, Option.isSome_some]
  | nothingLeft hapart => rw [join_nothing_right hapart.symm, Option.isSome_some]
  | nothingRight hapart => rw [join_nothing_left hapart.symm, Option.isSome_some]
  | @optionalLeft x b c hin hapart =>
    cases hboth : b.asOptional? with
    | none =>
      rw [join_optional_right hapart.symm hboth, hin.join_eq, Option.map, Option.isSome_some]
    | some y =>
      -- both joins of the optionals are joins of the payloads, which swap by induction
      have hopt : b = .optional y := eq_optional_of_asOptional? hboth
      subst hopt
      rw [join_optionals hapart ha] at hj
      obtain ⟨m, hm, -⟩ := Option.map_eq_some_iff.mp hj
      rw [join_optionals hapart.symm hb, Option.isSome_map]
      exact isSome_join_swap y x hb.of_optional ha.of_optional hm
  | @optionalRight a y c hin hapart hnone =>
    rw [join_optional_left hapart.symm, hin.join_eq, Option.map, Option.isSome_some]
  | @tuples as bs cs helems hapart =>
    rw [join_tuples hapart.symm, Option.isSome_map]
    exact isSome_joinAll_swap as bs ha hb helems.joinAll_eq
  | lists hx hy hapart => rw [join_lists hapart.symm hy hx, Option.isSome_some]
termination_by sizeOf a + sizeOf b
decreasing_by all_goals subst_vars; simp +arith

theorem isSome_joinAll_swap (as bs : List Ty) {cs : List Ty} (has : areNormal as = true)
    (hbs : areNormal bs = true) (hj : joinAll as bs = some cs) : (joinAll bs as).isSome := by
  cases joinsAll_of_joinAll as bs hj with
  | nil => rw [hj, Option.isSome_some]
  | @cons a b c as bs cs hfirst hr =>
    rw [areNormal, Bool.and_eq_true] at has hbs
    obtain ⟨d, hd⟩ := Option.isSome_iff_exists.mp (isSome_join_swap a b has.1 hbs.1 hfirst.join_eq)
    obtain ⟨ds, hds⟩ :=
      Option.isSome_iff_exists.mp (isSome_joinAll_swap as bs has.2 hbs.2 hr.joinAll_eq)
    simp [joinAll, hd, hds]
termination_by sizeOf as + sizeOf bs
decreasing_by all_goals subst_vars; simp +arith

end

/-- If one join exists the other does, and both are joins of the same sequence of two types. -/
theorem join_comm (ha : a.Normal) (hb : b.Normal) : (join a b == join b a) = true := by
  cases hj : join a b with
  | some c =>
    obtain ⟨d, hd⟩ := Option.isSome_iff_exists.mp (isSome_join_swap a b ha hb hj)
    have hperm : [a, b].Perm [b, a] := .swap ..
    rw [hd]
    exact foldlM_join_perm (by simp [ha, hb]) hperm (by simp [hj]) (by simp [hd])
  | none =>
    cases hswapped : join b a with
    | none => rfl
    | some d => simpa [hj] using isSome_join_swap b a hb ha hswapped

/-! ## The join commutes with forgetting ranks -/

theorem join_unshaped_of_comparable (ha : a.Normal) (hb : b.Normal) (hj : Joins a b c)
    (h : a.Below b ∨ b.Below a) :
    ∃ c', join a.unshaped b.unshaped = some c' ∧ same c' c.unshaped = true := by
  obtain ⟨hac, hbc⟩ := covariant_unshaped.above hj ha hb
  by_cases hab : a.Below b
  · exact ⟨_, join_of_isSubtype hab,
      isSubtype_antisymm _ hbc (covariant_unshaped.least hj hab (isSubtype_refl _))⟩
  · have hba := h.resolve_left hab
    exact ⟨_, join_of_isSubtype_right hab hba,
      isSubtype_antisymm _ hac (covariant_unshaped.least hj (isSubtype_refl _) hba)⟩

mutual

theorem Joins.unshaped {a b c : Ty} (hj : Joins a b c) (ha : a.Normal) (hb : b.Normal) :
    ∃ c', join a.unshaped b.unshaped = some c' ∧ same c' c.unshaped = true := by
  rcases comparable_or_apart a.unshaped b.unshaped with hcomparable | hapart
  · exact join_unshaped_of_comparable ha hb hj hcomparable
  -- the ranks forgotten, the arguments are still apart, so the join takes the same way
  match hj, ha, hb, hapart with
  | .right h, _, _, hapart => exact absurd (isSubtype_unshaped b h) hapart.1
  | .left _ h, _, _, hapart => exact absurd (isSubtype_unshaped a h) hapart.2
  | .tensors hta htb _, _, _, hapart =>
    rw [unshaped_of_isTensor hta, unshaped_of_isTensor htb] at hapart
    exact absurd (isSubtype_refl _) hapart.1
  | .nothingLeft _, _, _, hapart =>
    exact ⟨_, join_nothing_left hapart, by rw [covariant_unshaped.orNone]; exact same_refl _⟩
  | .nothingRight _, _, _, hapart =>
    exact ⟨_, join_nothing_right hapart, by rw [covariant_unshaped.orNone]; exact same_refl _⟩
  | .optionalLeft hin _, ha, hb, hapart =>
    obtain ⟨m, hm, hs⟩ := hin.unshaped ha.of_optional hb
    refine ⟨m.orNone, ?_, by rw [covariant_unshaped.orNone]; exact same_orNone hs⟩
    rw [Ty.unshaped, join_optional_left hapart, hm]
    rfl
  | @Joins.optionalRight _ y _ hin _ hnone, ha, hb, hapart =>
    obtain ⟨m, hm, hs⟩ := hin.unshaped hb.of_optional ha
    refine ⟨m.orNone, ?_, by rw [covariant_unshaped.orNone]; exact same_orNone hs⟩
    rw [unshaped.eq_def (.optional y)]
    rw [join_optional_right hapart (asOptional?_unshaped hnone), hm]
    rfl
  | .tuples helems _, ha, hb, hapart =>
    obtain ⟨cs', hcs', hs⟩ := helems.unshapedAll ha hb
    refine ⟨.tuple cs', ?_, by simpa [same, Ty.unshaped] using hs⟩
    rw [Ty.unshaped, Ty.unshaped, join_tuples hapart, hcs']
    rfl
  | .lists hx hy _, _, _, hapart =>
    rw [Ty.unshaped, Ty.unshaped, unshaped_of_isTensor hx, unshaped_of_isTensor hy] at hapart
    exact absurd (isSubtype_refl _) hapart.1

theorem JoinsAll.unshapedAll {as bs cs : List Ty} (hj : JoinsAll as bs cs)
    (has : areNormal as = true) (hbs : areNormal bs = true) :
    ∃ cs', joinAll (unshapedAll as) (unshapedAll bs) = some cs' ∧
      sameAll cs' (unshapedAll cs) = true := by
  match hj, has, hbs with
  | .nil, _, _ => exact ⟨[], by simp [Ty.unshapedAll, joinAll], rfl⟩
  | .cons hfirst hr, has, hbs =>
    rw [areNormal, Bool.and_eq_true] at has hbs
    obtain ⟨d, hd, hs⟩ := hfirst.unshaped has.1 hbs.1
    obtain ⟨ds, hds, hsameAll⟩ := hr.unshapedAll has.2 hbs.2
    exact ⟨d :: ds, by simp [Ty.unshapedAll, joinAll, hd, hds],
      by simp [Ty.unshapedAll, sameAll, hs, hsameAll]⟩

end

/-- On types in normal form the join is a commutative least upper bound up to the ranks of
tensors, and gives types in normal form again. -/
theorem join_least_upper_bound {a b : Ty} (ha : a.Normal) (hb : b.Normal) :
    (join a b == join b a) = true ∧ ∀ c, join a b = some c → c.Normal ∧
        (join a.unshaped b.unshaped == some c.unshaped) = true ∧
        isSubtype a.unshaped c.unshaped = true ∧ isSubtype b.unshaped c.unshaped = true ∧
        ∀ d, isSubtype a d = true → isSubtype b d = true → isSubtype c d = true := by
  refine ⟨join_comm ha hb, fun c hjoin => ?_⟩
  have hjoins := joins_of_join a b hjoin
  obtain ⟨hac, hbc⟩ := below_join a b ha hb hjoin
  refine ⟨Normal.join a b ha hb hjoin, ?_, hac, hbc, fun d => view_id.least hjoins⟩
  obtain ⟨c', hc', hsame⟩ := hjoins.unshaped ha hb
  rw [hc']
  exact hsame

/-- An optional list of tensors of rank 1 and a list of tensors of rank 2 have a join. -/
theorem join_least_upper_bound_lists : ∃ c,
    join (.optional (.list (.ranked 1))) (.list (.ranked 2)) = some c ∧
      (some c == join (.list (.ranked 2)) (.optional (.list (.ranked 1)))) = true ∧ c.Normal ∧
      isSubtype (.optional (.list .tensor)) c.unshaped = true ∧
      isSubtype (.list .tensor) c.unshaped = true := by
  have hjoin : join (.optional (.list (.ranked 1))) (.list (.ranked 2)) =
      some (.optional (.list .tensor)) := by
    rw [join_optional_left ⟨by decide, by decide⟩, join_lists ⟨by decide, by decide⟩ rfl rfl]
    rfl
  obtain ⟨hcomm, hbound⟩ := join_least_upper_bound (a := .optional (.list (.ranked 1)))
    (b := .list (.ranked 2)) (by decide) (by decide)
  obtain ⟨hnormal, -, hleft, hright, -⟩ := hbound _ hjoin
  rw [hjoin] at hcomm
  exact ⟨_, hjoin, hcomm, hnormal, hleft, hright⟩

end Flowgraph.Ty
