import Flowgraph.Lower.Operand
import Flowgraph.Proofs.Joins
import Flowgraph.Proofs.Narrowing
import Mathlib.Data.List.Sort

/-!
# What tests say about optional variables

A test narrows a variable of an optional type to `None`, to what the optional holds, or back to the
optional (`Ty.NarrowsTo`).  These types join with one another, so merging two maps drops no name and
is associative.  Pushing negations inward (`Expr.nnf`) leaves the maps as they are.
-/

namespace Flowgraph

open List Option RefinementMap

/-! ## Maps in order -/

namespace NameMap

variable {α β : Type} {map other : NameMap α} {name : String} {value : α}

/-- The entries stand in strictly increasing order of their names. -/
def Sorted (map : NameMap α) : Prop :=
  map.entries.Pairwise fun entry other => entry.1 < other.1

theorem Sorted.nodup (h : map.Sorted) : (map.entries.map Prod.fst).Nodup := by
  refine pairwise_map.mpr (h.imp fun hlt heq => ?_)
  exact String.lt_irrefl _ (heq ▸ hlt)

theorem Sorted.filterMap (h : map.Sorted) (select : String → α → Option β) :
    (map.filterMap select).Sorted := by
  refine Pairwise.filterMap _ (fun entry other hlt => ?_) h
  intro selected hselected selected' hselected'
  obtain ⟨_, -, rfl⟩ := map_eq_some_iff.mp hselected
  obtain ⟨_, -, rfl⟩ := map_eq_some_iff.mp hselected'
  exact hlt

theorem Sorted.insert (h : map.Sorted) (name : String) (value : α) :
    (map.insert name value).Sorted := by
  obtain ⟨entries⟩ := map
  show (insertEntry name value entries).Pairwise _
  replace h : entries.Pairwise fun entry other => entry.1 < other.1 := h
  induction entries with
  | nil => exact pairwise_singleton _ _
  | cons entry rest ih =>
    obtain ⟨key, old⟩ := entry
    obtain ⟨hfirst, hr⟩ := pairwise_cons.mp h
    rw [insertEntry]
    split
    next heq =>
      subst heq
      exact pairwise_cons.mpr ⟨hfirst, hr⟩
    next hne =>
      split
      next hlt =>
        refine pairwise_cons.mpr ⟨fun other hother => ?_, h⟩
        rcases mem_cons.mp hother with rfl | hother
        · exact hlt
        · exact String.lt_trans hlt (hfirst other hother)
      next hnot =>
        refine pairwise_cons.mpr ⟨fun other hother => ?_, ih hr⟩
        rcases mem_insertEntry hother with rfl | hother
        · refine Decidable.byContradiction fun hle => hne ?_
          exact String.le_antisymm (String.not_lt.mp hle) (String.not_lt.mp hnot)
        · exact hfirst other hother

theorem lookup_of_mem {entries : List (String × α)} (hnodup : (entries.map Prod.fst).Nodup)
    (h : (name, value) ∈ entries) : entries.lookup name = some value := by
  induction entries with
  | nil => cases h
  | cons entry rest ih =>
    rw [map_cons, nodup_cons] at hnodup
    rcases mem_cons.mp h with rfl | h
    · exact lookup_cons_self
    · have hne : (name == entry.1) = false :=
        beq_eq_false_iff_ne.mpr fun heq => hnodup.1 (heq ▸ mem_map_of_mem (f := Prod.fst) h)
      rw [lookup_cons, hne]
      exact ih hnodup.2 h

theorem Sorted.mem_iff (h : map.Sorted) :
    (name, value) ∈ map.entries ↔ map.get? name = some value :=
  ⟨lookup_of_mem h.nodup, mem_of_get?⟩

/-- Maps in order are equal if they say the same about every name. -/
theorem Sorted.ext (h : map.Sorted) (h' : other.Sorted)
    (hget : ∀ name, map.get? name = other.get? name) : map = other := by
  have hperm : map.entries.Perm other.entries := by
    refine (perm_ext_iff_of_nodup (Nodup.of_map _ h.nodup) (Nodup.of_map _ h'.nodup)).mpr ?_
    rintro ⟨name, value⟩
    rw [h.mem_iff, h'.mem_iff, hget]
  obtain ⟨entries⟩ := map
  refine congrArg _ (hperm.eq_of_pairwise (fun entry entry' _ _ hlt hgt => ?_) h h')
  exact absurd (String.lt_trans hlt hgt) (String.lt_irrefl _)

theorem Sorted.get?_filterMap (h : map.Sorted) (select : String → α → Option β) (name : String) :
    (map.filterMap select).get? name = (map.get? name).bind (select name) := by
  refine Option.ext fun value => ?_
  rw [← (h.filterMap select).mem_iff, bind_eq_some_iff]
  constructor
  · intro hmem
    obtain ⟨⟨key, found⟩, hfd, hselect⟩ := mem_filterMap.mp hmem
    obtain ⟨_, hselected, heq⟩ := map_eq_some_iff.mp hselect
    obtain ⟨rfl, rfl⟩ := Prod.mk.inj heq
    exact ⟨found, h.mem_iff.mp hfd, hselected⟩
  · rintro ⟨found, hfd, hselected⟩
    exact mem_filterMap.mpr ⟨(name, found), h.mem_iff.mpr hfd, by simp [hselected]⟩

end NameMap

/-! ## Narrowed types -/

/-- What tests narrow an optional to: `None`, what it holds, or the optional again. -/
inductive Ty.NarrowsTo (inner : Ty) : Ty → Prop
  | nothing : NarrowsTo inner .nothing
  | inner : NarrowsTo inner inner
  | orNone : NarrowsTo inner inner.orNone

namespace Ty.NarrowsTo

variable {inner a b c : Ty}

theorem cases_eq (h : NarrowsTo inner a) : a = .nothing ∨ a = inner ∨ a = .optional inner := by
  cases h with
  | nothing => exact Or.inl rfl
  | inner => exact Or.inr (Or.inl rfl)
  | orNone => cases inner <;> simp [Ty.orNone]

theorem isSubtype_orNone (h : NarrowsTo inner a) : isSubtype a inner.orNone = true := by
  cases h with
  | nothing => exact nothing_isSubtype_orNone inner
  | inner => exact isSubtype_orNone_self inner
  | orNone => exact isSubtype_refl _

theorem eq_orNone (h : NarrowsTo inner a) (hsub : isSubtype inner.orNone a = true) :
    a = inner.orNone := by
  cases h with
  | nothing => exact ((isSubtype_nothing_iff _).mp hsub).symm
  | inner => cases inner <;> simp_all [Ty.orNone, isSubtype, beq_eq_same, same]
  | orNone => rfl

theorem join_nothing (h : inner ≠ .nothing) :
    Ty.join .nothing inner = some inner.orNone ∧ Ty.join inner .nothing = some inner.orNone := by
  have hnot : ¬isSubtype inner .nothing = true := fun hsub => h ((isSubtype_nothing_iff _).mp hsub)
  by_cases hbelow : isSubtype .nothing inner = true
  · have horNone : inner.orNone = inner := by
      cases inner <;> simp_all [Ty.orNone, isSubtype, beq_eq_same, same]
    rw [horNone]
    exact ⟨join_of_isSubtype hbelow, join_of_isSubtype_right hnot hbelow⟩
  · exact ⟨join_nothing_left ⟨hbelow, hnot⟩, join_nothing_right ⟨hnot, hbelow⟩⟩

open Classical in
/-- Different types join to the optional. -/
theorem join (ha : NarrowsTo inner a) (hb : NarrowsTo inner b) :
    Ty.join a b = some (if a = b then a else inner.orNone) := by
  split
  next heq => exact heq ▸ join_of_isSubtype (isSubtype_refl a)
  next hne =>
    cases ha with
    | orNone =>
      refine join_of_isSubtype_right (fun hsub => hne ?_) hb.isSubtype_orNone
      exact (hb.eq_orNone hsub).symm
    | nothing =>
      cases hb with
      | nothing => exact absurd rfl hne
      | inner => exact (join_nothing (Ne.symm hne)).1
      | orNone => exact join_of_isSubtype (nothing_isSubtype_orNone inner)
    | inner =>
      cases hb with
      | nothing => exact (join_nothing hne).2
      | inner => exact absurd rfl hne
      | orNone => exact join_of_isSubtype (isSubtype_orNone_self inner)

theorem of_join (ha : NarrowsTo inner a) (hb : NarrowsTo inner b) (h : Ty.join a b = some c) :
    NarrowsTo inner c := by
  rw [ha.join hb] at h
  split at h
  · exact Option.some.inj h ▸ ha
  · exact Option.some.inj h ▸ .orNone

end Ty.NarrowsTo

/-! ## Merging maps -/

namespace RefinementMap

/-- Variables are narrowed, each from an optional type. -/
structure Narrows (typeOf : String → Option Ty) (map : RefinementMap) : Prop where
  sorted : NameMap.Sorted map
  types : ∀ entry ∈ map.entries, ∃ inner, typeOf entry.1 = some (.optional inner) ∧
    inner.NarrowsTo entry.2.ty

section Narrows

variable {typeOf : String → Option Ty} {a b c : RefinementMap} {name : String}

theorem narrows_empty : Narrows typeOf .empty :=
  ⟨Pairwise.nil, fun _ he => absurd he not_mem_nil⟩

theorem narrows_single {ty inner : Ty} {span : Span}
    (hopt : typeOf name = some (.optional inner)) (hty : inner.NarrowsTo ty) :
    (single name ty span).Narrows typeOf where
  sorted := NameMap.Sorted.insert Pairwise.nil name _
  types entry he := by
    obtain ⟨rfl, hty'⟩ := Expr.mem_single he
    exact ⟨inner, hopt, hty' ▸ hty⟩

/-- What two maps say about one name is narrowed from the same type. -/
theorem Narrows.common (ha : a.Narrows typeOf) (hb : b.Narrows typeOf) {x y : Narrowing}
    (hx : (name, x) ∈ a.entries) (hy : (name, y) ∈ b.entries) :
    ∃ inner, typeOf name = some (.optional inner) ∧ inner.NarrowsTo x.ty ∧
      inner.NarrowsTo y.ty := by
  obtain ⟨inner, hin, hx⟩ := ha.types _ hx
  obtain ⟨inner', hinner', hy⟩ := hb.types _ hy
  cases hin.symm.trans hinner'
  exact ⟨inner, hin, hx, hy⟩

theorem sorted_union (h : NameMap.Sorted a) : NameMap.Sorted (a.union b) := by
  refine foldlRecOn _ _ (h.filterMap _) fun map hsorted entry _ => ?_
  split
  · exact hsorted
  · exact hsorted.insert _ _

theorem Narrows.intersect (ha : a.Narrows typeOf) (hb : b.Narrows typeOf) :
    (a.intersect b).Narrows typeOf where
  sorted := ha.sorted.filterMap _
  types entry he := by
    obtain ⟨ours, theirs, hours, htheirs, hj, -⟩ := mem_intersect he
    obtain ⟨inner, hin, hx, hy⟩ := ha.common hb hours htheirs
    exact ⟨inner, hin, hx.of_join hy hj⟩

theorem Narrows.union (ha : a.Narrows typeOf) (hb : b.Narrows typeOf) :
    (a.union b).Narrows typeOf where
  sorted := sorted_union ha.sorted
  types entry he := by
    rcases mem_union he with ⟨hours, -⟩ | ⟨htheirs, -⟩ | ⟨ours, theirs, hours, htheirs, hj, -⟩
    · exact ha.types _ hours
    · exact hb.types _ htheirs
    · obtain ⟨inner, hin, hx, hy⟩ := ha.common hb hours htheirs
      exact ⟨inner, hin, hx.of_join hy hj⟩

theorem get?_intersect (h : NameMap.Sorted a) (name : String) :
    (a.intersect b).get? name = (a.get? name).bind fun x => (b.get? name).bind (merge? x) :=
  h.get?_filterMap _ name

/-- What either map says, or both at once. -/
def either : Option Narrowing → Option Narrowing → Option Narrowing
  | some x, some y => merge? x y
  | some x, none => some x
  | none, y => y

theorem get?_union (ha : NameMap.Sorted a) (hb : NameMap.Sorted b) (name : String) :
    (a.union b).get? name = either (a.get? name) (b.get? name) := by
  -- the entries that only `b` has are inserted one after another
  have hinserted : ∀ (entries : List (String × Narrowing)) (map : RefinementMap),
      (entries.map Prod.fst).Nodup → (entries.foldl (fun map entry =>
        if a.contains entry.1 then map else map.insert entry.1 entry.2) map).get? name =
      if a.contains name then map.get? name else (entries.lookup name).or (map.get? name) := by
    intro entries
    induction entries with
    | nil => simp
    | cons entry rest ih =>
      intro map hnodup
      rw [map_cons, nodup_cons] at hnodup
      rw [foldl_cons, ih _ hnodup.2, lookup_cons]
      by_cases hname : name = entry.1
      · have hr : rest.lookup name = none := by
          refine lookup_eq_none_iff.mpr fun other hother => ?_
          simpa using fun heq : name = other.1 =>
            hnodup.1 (hname ▸ heq ▸ mem_map_of_mem (f := Prod.fst) hother)
        cases hcontains : a.contains name <;> simp [← hname, hcontains, hr, NameMap.get?_insert]
      · have hbeq : (name == entry.1) = false := beq_eq_false_iff_ne.mpr hname
        cases a.contains entry.1 <;> simp [hbeq, NameMap.get?_insert, hname]
  unfold union
  rw [hinserted _ _ hb.nodup, ha.get?_filterMap]
  show (if _ then _ else (b.get? name).or _) = _
  rw [NameMap.contains]
  cases a.get? name with
  | none => simp [either]
  | some x => cases b.get? name <;> simp [either]

section Assoc

variable (ha : a.Narrows typeOf) (hb : b.Narrows typeOf) (hc : c.Narrows typeOf)
include ha hb

theorem Narrows.merges {x y : Narrowing} (hx : a.get? name = some x) (hy : b.get? name = some y) :
    ∃ merged, merge? x y = some merged := by
  obtain ⟨inner, -, hxty, hyty⟩ := ha.common hb (NameMap.mem_of_get? hx) (NameMap.mem_of_get? hy)
  exact ⟨_, by rw [merge?, hxty.join hyty]; rfl⟩

/-- Names of both maps stay in the merged maps. -/
theorem Narrows.keeps (hname : a.contains name = true) (hname' : b.contains name = true) :
    (a.intersect b).contains name = true ∧ (a.union b).contains name = true := by
  obtain ⟨x, hx⟩ := isSome_iff_exists.mp hname
  obtain ⟨y, hy⟩ := isSome_iff_exists.mp hname'
  obtain ⟨merged, hmerged⟩ := ha.merges hb hx hy
  rw [NameMap.contains, NameMap.contains, get?_intersect ha.sorted, get?_union ha.sorted hb.sorted,
    hx, hy]
  simp [either, hmerged]

include hc

theorem Narrows.merge_assoc {x y z : Narrowing} (hx : a.get? name = some x)
    (hy : b.get? name = some y) (hz : c.get? name = some z) :
    (merge? x y).bind (merge? · z) = (merge? y z).bind (merge? x) := by
  obtain ⟨inner, hin, hxty, hyty⟩ :=
    ha.common hb (NameMap.mem_of_get? hx) (NameMap.mem_of_get? hy)
  obtain ⟨inner', hinner', -, hzty⟩ :=
    hb.common hc (NameMap.mem_of_get? hy) (NameMap.mem_of_get? hz)
  cases hin.symm.trans hinner'
  have hxy := hxty.of_join hyty (hxty.join hyty)
  have hyz := hyty.of_join hzty (hyty.join hzty)
  simp only [merge?, hxty.join hyty, hyty.join hzty, map_some, bind_some,
    hxy.join hzty, hxty.join hyz]
  by_cases hfirst : x.ty = y.ty <;> by_cases hsnd : y.ty = z.ty <;> simp_all

theorem Narrows.intersect_assoc : (a.intersect b).intersect c = a.intersect (b.intersect c) := by
  refine ((ha.intersect hb).intersect hc).sorted.ext
    (ha.intersect (hb.intersect hc)).sorted fun name => ?_
  rw [get?_intersect (ha.intersect hb).sorted, get?_intersect ha.sorted, get?_intersect ha.sorted,
    get?_intersect hb.sorted]
  cases hx : a.get? name with
  | none => rfl
  | some x =>
    cases hy : b.get? name with
    | none => rfl
    | some y =>
      cases hz : c.get? name with
      | none => simp
      | some z => simpa using ha.merge_assoc hb hc hx hy hz

theorem Narrows.union_assoc : (a.union b).union c = a.union (b.union c) := by
  refine ((ha.union hb).union hc).sorted.ext (ha.union (hb.union hc)).sorted fun name => ?_
  rw [get?_union (ha.union hb).sorted hc.sorted, get?_union ha.sorted hb.sorted,
    get?_union ha.sorted (hb.union hc).sorted, get?_union hb.sorted hc.sorted]
  cases hx : a.get? name with
  | none => rfl
  | some x =>
    cases hy : b.get? name with
    | none => rfl
    | some y =>
      obtain ⟨_, hxy⟩ := ha.merges hb hx hy
      cases hz : c.get? name with
      | none => simp [either, hxy]
      | some z =>
        obtain ⟨_, hyz⟩ := hb.merges hc hy hz
        simpa [either, hxy, hyz] using ha.merge_assoc hb hc hx hy hz

end Assoc

end Narrows

end RefinementMap

/-! ## Tests -/

/-- Both outcomes of a test narrow. -/
structure Refinements.Narrows (typeOf : String → Option Ty) (refinements : Refinements) : Prop where
  onTrue : refinements.onTrue.Narrows typeOf
  onFalse : refinements.onFalse.Narrows typeOf

namespace Refinements

variable {typeOf : String → Option Ty}

/-- The maps of both outcomes. -/
def maps (refinements : Refinements) : List RefinementMap :=
  [refinements.onTrue, refinements.onFalse]

theorem Narrows.of_mem {refinements : Refinements} (h : refinements.Narrows typeOf)
    {map : RefinementMap} (hmap : map ∈ refinements.maps) : map.Narrows typeOf := by
  rcases mem_pair.mp hmap with rfl | rfl
  · exact h.onTrue
  · exact h.onFalse

theorem narrows_none : Refinements.Narrows typeOf .none :=
  ⟨narrows_empty, narrows_empty⟩

theorem narrows_ofNoneTest (isNone : Bool) {name : String} (span : Span) :
    (ofNoneTest typeOf isNone name span).Narrows typeOf := by
  unfold ofNoneTest
  split
  next inner hopt =>
    have hnone : (single name .nothing span).Narrows typeOf :=
      narrows_single hopt .nothing
    have hsome : (single name inner span).Narrows typeOf :=
      narrows_single hopt .inner
    split
    · exact ⟨hnone, hsome⟩
    · exact ⟨hsome, hnone⟩
  next => exact narrows_none

theorem narrows_ofIdentity (isNone : Bool) (lhs rhs : Expr) :
    (ofIdentity typeOf isNone lhs rhs).Narrows typeOf := by
  unfold ofIdentity
  split
  · exact narrows_ofNoneTest _ _
  · exact narrows_ofNoneTest _ _
  · exact narrows_none

end Refinements

theorem Expr.refinements_narrows (typeOf : String → Option Ty) (expr : Expr) :
    (expr.refinements typeOf).Narrows typeOf := by
  induction expr using refinements.induct with
  | case1 span lhs rhs | case2 span lhs rhs => exact Refinements.narrows_ofIdentity _ lhs rhs
  | case3 span lhs rhs ihl ihr =>
    exact ⟨ihl.onTrue.intersect ihr.onTrue, ihl.onFalse.union ihr.onFalse⟩
  | case4 span lhs rhs ihl ihr =>
    exact ⟨ihl.onTrue.union ihr.onTrue, ihl.onFalse.intersect ihr.onFalse⟩
  | case5 span operand ih => exact ⟨ih.onFalse, ih.onTrue⟩
  | case6 expr his hisNot hand hor hnot =>
    rw [refinements] <;> first | exact Refinements.narrows_none | assumption

/-! ## Negations pushed inward -/

namespace Refinements

theorem ofIdentity_negate (typeOf : String → Option Ty) (isNone : Bool) (lhs rhs : Expr) :
    ofIdentity typeOf (!isNone) lhs rhs = (ofIdentity typeOf isNone lhs rhs).negate := by
  have htest : ∀ name span, ofNoneTest typeOf (!isNone) name span =
      (ofNoneTest typeOf isNone name span).negate := by
    intro name span
    unfold ofNoneTest
    split
    · cases isNone <;> rfl
    · rfl
  unfold ofIdentity
  split
  · exact htest _ _
  · exact htest _ _
  · rfl

end Refinements

namespace Expr

mutual

/-- Negation normal form: negations stand only before what is no test itself. -/
def nnf : Expr → Expr
  | .unary place .not operand => operand.nnfNot place
  | .binary span .and lhs rhs => .binary span .and lhs.nnf rhs.nnf
  | .binary span .or lhs rhs => .binary span .or lhs.nnf rhs.nnf
  | expr => expr

/-- The negation normal form of `not expr`, where the negation stands at `place`. -/
def nnfNot (place : Span) : Expr → Expr
  | .unary _ .not operand => operand.nnf
  | .binary span .and lhs rhs => .binary span .or (lhs.nnfNot place) (rhs.nnfNot place)
  | .binary span .or lhs rhs => .binary span .and (lhs.nnfNot place) (rhs.nnfNot place)
  | .binary span .is lhs rhs => .binary span .isNot lhs rhs
  | .binary span .isNot lhs rhs => .binary span .is lhs rhs
  | expr => .unary place .not expr

end

/-- No negation stands before a test. -/
def isNnf : Expr → Bool
  | .unary _ .not operand => !operand.isTest
  | .binary _ .and lhs rhs | .binary _ .or lhs rhs => lhs.isNnf && rhs.isNnf
  | _ => true

/-- Pushing a negation inward exchanges the two outcomes. -/
theorem refinements_nnf_and_not (typeOf : String → Option Ty) (expr : Expr) :
    expr.nnf.refinements typeOf = expr.refinements typeOf ∧
      ∀ place, (expr.nnfNot place).refinements typeOf = (expr.refinements typeOf).negate := by
  induction expr using refinements.induct with
  | case1 span lhs rhs => exact ⟨rfl, fun _ => Refinements.ofIdentity_negate typeOf true lhs rhs⟩
  | case2 span lhs rhs => exact ⟨rfl, fun _ => Refinements.ofIdentity_negate typeOf false lhs rhs⟩
  | case3 span lhs rhs ihl ihr | case4 span lhs rhs ihl ihr =>
    refine ⟨?_, fun place => ?_⟩
    · simp only [nnf, refinements, ihl.1, ihr.1]
    · simp only [nnfNot, refinements, ihl.2 place, ihr.2 place]
      rfl
  | case5 span operand ih =>
    refine ⟨?_, fun place => ?_⟩
    · simp only [nnf, refinements, ih.2 span]
    · simp only [nnfNot, refinements, ih.1]
      rfl
  | case6 expr his hisNot hand hor hnot =>
    refine ⟨by rw [nnf] <;> assumption, fun place => ?_⟩
    rw [nnfNot] <;> first | rfl | assumption

theorem isNnf_nnf_and_not (expr : Expr) :
    expr.nnf.isNnf = true ∧ ∀ place, (expr.nnfNot place).isNnf = true := by
  induction expr using refinements.induct with
  | case1 | case2 => exact ⟨rfl, fun _ => rfl⟩
  | case3 span lhs rhs ihl ihr | case4 span lhs rhs ihl ihr =>
    refine ⟨?_, fun place => ?_⟩
    · simp [nnf, isNnf, ihl.1, ihr.1]
    · simp [nnfNot, isNnf, ihl.2 place, ihr.2 place]
  | case5 span operand ih =>
    exact ⟨by rw [nnf]; exact ih.2 span, fun place => by rw [nnfNot]; exact ih.1⟩
  | case6 expr his hisNot hand hor hnot =>
    have hnnf : expr.isNnf = true := by rw [isNnf] <;> assumption
    have htest : expr.isTest = false := by rw [isTest] <;> assumption
    refine ⟨by rw [nnf] <;> assumption, fun place => ?_⟩
    rw [nnfNot] <;> first | exact congrArg (!·) htest | assumption

/-- A test says the same about the variables when its negations are pushed inward. -/
theorem refinements_nnf (typeOf : String → Option Ty) (expr : Expr) :
    expr.nnf.isNnf = true ∧ expr.nnf.refinements typeOf = expr.refinements typeOf :=
  ⟨(isNnf_nnf_and_not expr).1, (refinements_nnf_and_not typeOf expr).1⟩

end Expr

end Flowgraph
