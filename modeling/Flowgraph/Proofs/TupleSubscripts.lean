import Flowgraph.Proofs.Constants
import Flowgraph.Proofs.Scopes.Keeps

/-!
# Subscripts of tuples

A tuple is indexed by numbers that are written down.  An index picks the element that it picks in
Python, and a slice the elements that it selects there, whatever the numbers are; both are worked
out while lowering, so that the node has the positions and the type of what it gives.
-/

namespace Flowgraph

open Flowgraph.Graph List

variable {H : List ValueId} {s t u : LowerState} {v : ValueId} {ctx : LowerContext}
  {span here : Span} {i : Int64} {expr base item : Expr} {es : List Ty} {start stop : Option Expr}
  {a b : Option Int64} {length k : Nat} {α : Type}

/-! ## Positions in a sequence -/

/-- The position that an index picks: the index itself, or counted from the end. -/
def Picks (length : Nat) (index : Int) (k : Nat) : Prop :=
  k < length ∧ ((k : Int) = index ∨ (k : Int) = index + length)

/-- The bound of a slice, counted from the start. -/
def boundFrom (length : Nat) (bound : Int) : Int :=
  if bound < 0 then bound + length else bound

/-- Whether a position is selected by the bounds of a slice. -/
def isSelected (length : Nat) (a b : Option Int) (k : Nat) : Bool :=
  a.all (fun a => boundFrom length a ≤ k) && b.all fun b => k < boundFrom length b

/-- The elements whose positions the bounds select, in order. -/
def selection {α : Type} (es : List α) (a b : Option Int) : List α :=
  (es.zipIdx.filter fun entry => isSelected es.length a b entry.2).map Prod.fst

/-- The number is one that a machine word of 64 bits has. -/
def FitsWord (x : Int) : Prop := Int64.minValue.toInt ≤ x ∧ x ≤ Int64.maxValue.toInt

theorem filter_zipIdx_between (es : List α) (offset first last : Nat) :
    ((es.zipIdx offset).filter fun entry => first ≤ entry.2 && entry.2 < last).map Prod.fst =
      (es.take (last - offset)).drop (first - offset) := by
  induction es generalizing offset with
  | nil => simp
  | cons e rest ih =>
    rw [zipIdx_cons, filter_cons]
    by_cases hlast : offset < last
    · have hstep : last - offset = last - (offset + 1) + 1 := by omega
      rw [hstep, take_succ_cons]
      by_cases hfirst : first ≤ offset
      · have hzero : first - offset = 0 ∧ first - (offset + 1) = 0 := by omega
        simp [hfirst, hlast, ih, hzero]
      · have hskip : first - offset = first - (offset + 1) + 1 := by omega
        simp [hfirst, ih, hskip]
    · have hdone : last - offset = 0 ∧ last - (offset + 1) = 0 := by omega
      simp [hlast, ih, hdone]

namespace Lower

theorem clampedBound_le_iff (hk : k < length) (x : Int) :
    clampedBound length x ≤ k ↔ boundFrom length x ≤ k := by
  show min (boundFrom length x).toNat length ≤ k ↔ boundFrom length x ≤ k
  omega

/-- Moving the bounds into the tuple does not change what they select. -/
theorem selection_eq (es : List α) (a b : Option Int) :
    let first := (a.map (clampedBound es.length)).getD 0
    let last := max ((b.map (clampedBound es.length)).getD es.length) first
    selection es a b = (es.take last).drop first := by
  intro first last
  have hbetween := filter_zipIdx_between es 0 first last
  rw [Nat.sub_zero, Nat.sub_zero] at hbetween
  rw [← hbetween, selection]
  refine congrArg (map Prod.fst) (filter_congr fun entry hentry => ?_)
  have hlt := (List.getElem?_eq_some_iff.mp (mem_zipIdx_iff_getElem?.mp hentry)).1
  rw [Bool.eq_iff_iff, isSelected, Bool.and_eq_true, Bool.and_eq_true, decide_eq_true_iff,
    decide_eq_true_iff]
  have hlow : a.all (fun a => decide (boundFrom es.length a ≤ entry.2)) = true ↔
      first ≤ entry.2 := by
    cases a with
    | none => simp [first]
    | some a =>
      rw [Option.all_some, decide_eq_true_iff]
      exact (clampedBound_le_iff hlt a).symm
  rw [hlow]
  refine and_congr_right fun hfirst => ?_
  cases b with
  | none => simpa [last] using Or.inl hlt
  | some b =>
    have hclamped := clampedBound_le_iff hlt b
    rw [Option.all_some, decide_eq_true_iff]
    show _ ↔ entry.2 < max (clampedBound es.length b) first
    omega

theorem picks_iff {index : Int} : Picks length index k ↔ k < length ∧ wrapped length index = k := by
  unfold Picks wrapped
  split <;> omega

theorem fitsWord_wrapped (hlength : length ≤ Int64.maxValue.toInt) (i : Int64) :
    FitsWord (wrapped length i.toInt) := by
  have hlow := i.minValue_le_toInt
  have hhigh := i.toInt_le
  have hends : Int64.minValue.toInt = -Int64.maxValue.toInt - 1 := rfl
  unfold FitsWord wrapped
  split <;> omega

/-! ## Numbers as indices -/

/-- The expression is a number that is written down, possibly with a minus sign before it. -/
inductive Writes : Expr → Int64 → Prop
  | literal (span : Span) (i : Int64) : Writes (.const span (.int i)) i
  | negated (span here : Span) {i : Int64} (hmin : i ≠ Int64.minValue) :
      Writes (.unary span .neg (.const here (.int i))) (-i)

theorem Writes.itemForm (h : Writes expr i) : expr.itemForm = .plain := by
  cases h <;> rfl

theorem Writes.supplies (h : Writes expr i) (hs : Stocked H s) (ctx : LowerContext) :
    ∃ v t, Operand.value ⟨expr, expr.lower⟩ none ctx s = .ok (v, t) ∧
      Supplied H s (.int i) v t := by
  obtain ⟨v, t, hrun, hv⟩ := int_supplies hs ctx i
  refine ⟨v, t, ?_, hv⟩
  have hlower : expr.lower none ctx s = .ok (.ofValue v, t) := by
    cases h with rw [Expr.lower]
    | literal => exact bind_iff.mpr ⟨v, t, hrun, rfl⟩
    | negated _ _ hmin =>
      refine bind_iff.mpr ⟨v, t, ?_, rfl⟩
      simpa [unary, negatedLiteral?, hmin, Build.literal] using hrun
  exact bind_iff.mpr ⟨_, t, hlower, rfl⟩

theorem constantIndex_reads (h : Writes expr i) (hs : Stocked H s) (ctx : LowerContext)
    (what : String) : ∃ t, constantIndex ⟨expr, expr.lower⟩ what ctx s = .ok (i.toInt, t) ∧
      Stocked H t ∧ Advances H s t := by
  obtain ⟨v, t, hrun, hv⟩ := h.supplies hs ctx
  refine ⟨t, bind_iff.mpr ⟨v, t, hrun, bind_iff.mpr ⟨.int, t, ?_, ?_⟩⟩, hv.stocked,
    (hv.emission.sound hs.toWellFormed).2⟩
  · exact build_eq_ok (Build.query_some.mpr ⟨hv.typed, rfl⟩)
  · exact bind_iff.mpr ⟨_, t, build_eq_ok (hv.number.constantOf? hv.stocked.coherent), rfl⟩

theorem tupleBound_reads (h : Option.Rel Writes start a) (hs : Stocked H s) (ctx : LowerContext)
    (length default : Nat) : ∃ t, tupleBound length (Expr.operand? start) default ctx s =
        .ok (((a.map Int64.toInt).map (clampedBound length)).getD default, t) ∧
      Stocked H t ∧ Advances H s t := by
  cases h with
  | none => exact ⟨s, rfl, hs, .refl H s⟩
  | some h =>
    obtain ⟨t, hrun, ht⟩ := constantIndex_reads h hs ctx "tuple slice indices"
    exact ⟨t, bind_iff.mpr ⟨_, t, hrun, rfl⟩, ht⟩

/-! ## The nodes -/

/-- The node that gives an element of a tuple. -/
def indexNode (v : ValueId) (k : Nat) (span : Span) : Node :=
  { op := .tupleIndex, inputs := [v], attrs := [("index", .int (Int64.ofNat k))], span }

/-- The node that gives a part of a tuple. -/
def sliceNode (v : ValueId) (first last : Nat) (span : Span) : Node :=
  { op := .tupleSlice, inputs := [v], span,
    attrs := [("begin", .int (Int64.ofNat first)), ("end", .int (Int64.ofNat last))] }

/-- A subscript gives one new node, placed after the constants that it needed. -/
def GivesNode (H : List ValueId) (s : LowerState) (node : Node) (ty : Ty)
    (result : Except Failure (ValueId × LowerState)) : Prop :=
  ∃ t, Advances H s t ∧ result = .ok (t.graph.freshValue, t.place node [ty])

theorem tupleItem_reads (h : Writes expr i) (hs : Stocked H s) (ctx : LowerContext) (v : ValueId)
    (es : List Ty) (span : Span) :
    let result := tupleItem v es ⟨⟨expr, expr.lower⟩, expr.itemForm⟩ span ctx s
    (∃ k ty, Picks es.length i.toInt k ∧ es[k]? = some ty ∧
        GivesNode H s (indexNode v k span) ty result) ∨ (∀ k, ¬Picks es.length i.toInt k) ∧
        result = .error (.fault (.type expr.span (.tupleIndexRange es.length i.toInt))) := by
  intro result
  obtain ⟨t, hrun, ht, hadv⟩ := constantIndex_reads h hs ctx "tuple indices"
  have hstep : result = _ := bind_of_ok hrun
  by_cases hpicks : ∃ k, Picks es.length i.toInt k
  · obtain ⟨k, hk⟩ := hpicks
    obtain ⟨hlt, hwrapped⟩ := picks_iff.mp hk
    refine Or.inl ⟨k, es[k], hk, getElem?_eq_getElem hlt, t, hadv, hstep.trans ?_⟩
    have hnot : ¬(k : Int) < 0 := by omega
    simp only [hwrapped, hnot, if_false, Int.toNat_natCast, getElem?_eq_getElem hlt,
      Int64.ofInt_eq_ofNat]
    exact build_eq_ok (Build.insertWith_eq ht.coherent ht.anchored)
  · refine Or.inr ⟨fun k hk => hpicks ⟨k, hk⟩, hstep.trans ?_⟩
    have hnone : (if wrapped es.length i.toInt < 0 then none
        else es[(wrapped es.length i.toInt).toNat]?) = none := by
      split
      · rfl
      next hneg =>
        refine getElem?_eq_none (Nat.not_lt.mp fun hlt => hpicks ⟨_, picks_iff.mpr ⟨hlt, ?_⟩⟩)
        omega
    simp only [hnone]
    rfl

theorem tupleSlice_reads {item : Item} (hstart : Option.Rel Writes start a)
    (hstop : Option.Rel Writes stop b) (hs : Stocked H s) (ctx : LowerContext) (v : ValueId)
    (es : List Ty) (span : Span) : ∃ first last, first ≤ last ∧ last ≤ es.length ∧
      (es.take last).drop first = selection es (a.map Int64.toInt) (b.map Int64.toInt) ∧
      GivesNode H s (sliceNode v first last span)
        (.tuple (selection es (a.map Int64.toInt) (b.map Int64.toInt)))
        (tupleSlice v es item (Expr.operand? start) (Expr.operand? stop) none span ctx s) := by
  obtain ⟨t, hfirst, ht, hadv⟩ := tupleBound_reads hstart hs ctx es.length 0
  obtain ⟨u, hlast, hu, hadv'⟩ := tupleBound_reads hstop ht ctx es.length es.length
  have hselection := selection_eq es (a.map Int64.toInt) (b.map Int64.toInt)
  dsimp only at hselection
  have hbounds : ∀ (x : Option Int) (default : Nat), default ≤ es.length →
      (x.map (clampedBound es.length)).getD default ≤ es.length := by
    intro x default hdefault
    cases x with
    | none => exact hdefault
    | some x => exact Nat.min_le_right _ _
  refine ⟨_, _, Nat.le_max_right _ _, Nat.max_le.mpr ⟨hbounds _ _ (Nat.le_refl _),
    hbounds _ _ (Nat.zero_le _)⟩, hselection.symm, u, hadv.trans hadv' hs.anchored, ?_⟩
  rw [tupleSlice]
  refine bind_iff.mpr ⟨_, t, hfirst, bind_iff.mpr ⟨_, u, hlast, ?_⟩⟩
  rw [← hselection]
  exact bind_iff.mpr ⟨_, _, build_eq_ok (Build.insert_eq hu.coherent hu.anchored),
    bind_iff.mpr ⟨(), _, build_eq_ok (Build.update_some.mpr ⟨_, setAttr_place, rfl⟩),
    bind_iff.mpr ⟨(), _, build_eq_ok (Build.update_some.mpr ⟨_, setAttr_place, rfl⟩),
    build_eq_ok (Build.query_some.mpr ⟨output?_place .., rfl⟩)⟩⟩⟩

/-- How the subscripts of a tuple with the given types are lowered. -/
structure ReadsTuple (H : List ValueId) (ctx : LowerContext) (base : Expr) (s u : LowerState)
    (v : ValueId) (es : List Ty) : Prop where
  /-- An index gives the element that it picks, and is refused if it picks none. -/
  index : ∀ span index i, Writes index i →
    let result := (Expr.subscript span base [index]).operand.value none ctx s
    (∃ k ty, Picks es.length i.toInt k ∧ es[k]? = some ty ∧
        GivesNode H u (indexNode v k span) ty result) ∨ (∀ k, ¬Picks es.length i.toInt k) ∧
        result = .error (.fault (.type index.span (.tupleIndexRange es.length i.toInt)))
  /-- A slice gives the elements that its bounds select. -/
  slice : ∀ span here start stop a b, Option.Rel Writes start a → Option.Rel Writes stop b →
    ∃ first last, first ≤ last ∧ last ≤ es.length ∧
      (es.take last).drop first = selection es (a.map Int64.toInt) (b.map Int64.toInt) ∧
      GivesNode H u (sliceNode v first last span)
        (.tuple (selection es (a.map Int64.toInt) (b.map Int64.toInt)))
        ((Expr.subscript span base [.slice here start stop none]).operand.value none ctx s)
  /-- The numbers on the way are words of the machine, and so are the positions in the nodes. -/
  words : es.length ≤ Int64.maxValue.toInt → (∀ i : Int64, FitsWord (wrapped es.length i.toInt)) ∧
    ∀ k ≤ es.length, (Int64.ofNat k).toInt = k

end Lower

open Lower

theorem subscript_value_eq (hbase : base.operand.entity ctx s = .ok (.value v, u))
    (hty : u.graph.typeOf? v = some (.tuple es)) :
    (Expr.subscript span base [item]).operand.value none ctx s =
      tupleSubscript v es ⟨⟨item, item.lower⟩, item.itemForm⟩ span ctx u := by
  have hsubscript : subscript span base.operand (Expr.items [item]) ctx s =
      tupleSubscript v es ⟨⟨item, item.lower⟩, item.itemForm⟩ span ctx u := by
    have htype : typeOf v ctx u = .ok (.tuple es, u) :=
      build_eq_ok (Build.query_some.mpr ⟨hty, rfl⟩)
    rw [subscript, bind_of_ok hbase]
    dsimp only
    rw [bind_of_ok htype]
    rfl
  show (Expr.lower (.subscript span base [item]) none >>= _) ctx s = _
  rw [Expr.lower]
  show Except.bind (Except.bind (subscript span base.operand (Expr.items [item]) ctx s) _) _ = _
  rw [hsubscript]
  cases tupleSubscript v es ⟨⟨item, item.lower⟩, item.itemForm⟩ span ctx u <;> rfl

/-- Subscripts of a tuple agree with Python. -/
theorem Expr.tuple_subscripts_agree (hbase : base.operand.entity ctx s = .ok (.value v, u))
    (hu : Stocked H u) (hty : u.graph.typeOf? v = some (.tuple es)) :
    ReadsTuple H ctx base s u v es where
  index span index i hi := by
    have hplain := hi.itemForm
    rw [subscript_value_eq hbase hty, tupleSubscript]
    simp only [hplain]
    simpa only [hplain] using tupleItem_reads hi hu ctx v es span
  slice span here start stop a b hstart hstop := by
    rw [subscript_value_eq hbase hty, tupleSubscript, Expr.itemForm]
    exact tupleSlice_reads hstart hstop hu ctx v es span
  words hlength := by
    have hmax : Int64.maxValue.toInt = 2 ^ 63 - 1 := rfl
    exact ⟨fitsWord_wrapped hlength, fun k hk => Int64.toInt_ofNat_of_lt (by omega)⟩

/-- `t[-1]`, `t[2]` and `t[-9223372036854775808:1]` for a parameter `t` of two elements -/
theorem pair_subscripts_agree : ∃ s v u,
    (Expr.var .null "t").operand.entity .bare s = .ok (.value v, u) ∧ Stocked [] u ∧
    u.graph.typeOf? v = some (.tuple [.int, .str]) ∧
    ReadsTuple [] .bare (.var .null "t") s u v [.int, .str] ∧
    Picks 2 (-1) 1 ∧ (∀ k, ¬Picks 2 2 k) ∧
    selection [Ty.int, .str] (some Int64.minValue.toInt) (some 1) = [.int] := by
  obtain ⟨v, u, hrun, hty⟩ : ∃ v u, (Expr.var .null "t").operand.entity .bare
      ((LowerState.start (.start "f" none)).declareAll root
        [⟨"t", .tuple [.int, .str], .null, none⟩]) = .ok (.value v, u) ∧
      u.graph.typeOf? v = some (.tuple [.int, .str]) := ⟨_, _, rfl, rfl⟩
  have hs := stocked_declareAll (.start "f" none) [⟨"t", .tuple [.int, .str], .null, none⟩]
  have hu : Stocked [] u := hs.of_emission
    (((Expr.var .null "t").operand_sound.entity (Γ := [])).apply (hs.ready _) (by simp) hrun).1
  refine ⟨_, v, u, hrun, hu, hty, Expr.tuple_subscripts_agree hrun hu hty, ?_, ?_, rfl⟩
  · exact ⟨by decide, by decide⟩
  · rintro k ⟨hlt, heq | heq⟩ <;> omega

end Flowgraph
