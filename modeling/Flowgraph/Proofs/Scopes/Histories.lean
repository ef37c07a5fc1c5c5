import Flowgraph.Proofs.Scopes.Quiet

/-!
# Histories of a scope

A scope comes about by pushing and popping frames, binding names in the current frame and deferring
faults.  `Scope.Move` lists these operations and `Scope.after` runs them.  Whatever they are, and
however bodies and plain blocks nest, the queries on the scope find what its frames say, and what
happens inside a frame leaves the frames around it alone (`Scope.after_orderly`).  An assignment
stays on record in its frame unless a refinement of the same name there takes its place
(`Scope.assignment_stays`).
-/

namespace Flowgraph.Scope

open List Option
open Flowgraph.Frame (core)

variable {scope scope' : Scope} {name : String} {found : Found} {frames older : List Frame}
  {startsBody : Bool} {change : Frame → Frame} {number : Nat} {slot : Slot}

/-! ## Operations -/

inductive Move where
  | push (block : BlockId) (startsBody : Bool) (closure : Option NodeId)
  | pop
  | plain (name : String) (ty : Ty)
  | refined (name : String) (ty : Ty)
  | entity (name : String) (denoted : Entity)
  | defer (name : String) (fault : Fault)

def move (scope : Scope) : Move → Scope
  | .push block startsBody closure => scope.push block startsBody closure
  | .pop => scope.pop
  | .plain name ty => scope.recordPlain name ty
  | .refined name ty => scope.recordRefined name ty
  | .entity name denoted => scope.recordEntity name denoted
  | .defer name fault => scope.defer name fault

/-- The scope after some operations. -/
def after (scope : Scope) (moves : List Move) : Scope :=
  moves.foldl move scope

/-- The oldest frames of a scope, as many as are asked for. -/
def oldest (scope : Scope) (count : Nat) : List Frame :=
  scope.frames.drop (scope.depth - count)

/-- The queries find what the frames say, and what happens in a new frame stays there. -/
structure Orderly (scope : Scope) : Prop where
  /-- A name means what the innermost frame that binds it says. -/
  find : ∀ name found, scope.find? name = some found ↔ ∃ inner frame outer,
    scope.frames = inner ++ frame :: outer ∧ (∀ f ∈ inner, f.get? name = none) ∧
      frame.get? name = some found.binding ∧ found.frame = outer.length
  /-- The search around the current frame ends with the frame that starts the body. -/
  enclosing : ∀ name found, scope.findEnclosing? name = some found ↔ ∃ current inner frame outer,
    scope.frames = current :: (inner ++ frame :: outer) ∧ current.startsBody = false ∧
      (∀ f ∈ inner, f.startsBody = false ∧ f.get? name = none) ∧
      frame.get? name = some found.binding ∧ found.frame = outer.length
  refined : ∀ frame ∈ scope.frames, ∀ name, frame.defines name = true →
    frame.assigned? name = none → ∃ ty, frame.get? name = some (.plain ty)
  deferred : ∀ frame ∈ scope.frames, frame.startsBody = false → frame.deferred = .empty
  /-- Of the closures whose bodies lie inside a frame, the outermost one is crossed. -/
  crossed : ∀ number closure, scope.closureCrossedFrom? number = some closure ↔
    ∃ inner frame outer, scope.frames = inner ++ frame :: outer ∧ number < outer.length ∧
      frame.startsBody = true ∧ frame.closure = some closure ∧
      ∀ f ∈ outer.take (outer.length - (number + 1)), f.startsBody = true → f.closure = none
  /-- As long as a new frame is not popped, the frames around it bind what they bound, and if it
  starts a body, also what they defer is the same; popping it gives these frames back. -/
  inside : ∀ block startsBody closure moves, (∀ earlier, earlier <+: moves →
      scope.depth < ((scope.push block startsBody closure).after earlier).depth) →
    let inner := (scope.push block startsBody closure).after moves
    (inner.oldest scope.depth).map core = scope.frames.map core ∧
      (startsBody = true → inner.oldest scope.depth = scope.frames) ∧
      (inner.depth = scope.depth + 1 → inner.pop.frames = inner.oldest scope.depth)

/-! ## Finding names -/

/-- The innermost binding of a name, not beyond the first frame that is a barrier. -/
def findUpTo (barrier : Frame → Bool) (name : String) : List Frame → Option Found
  | [] => none
  | frame :: outer =>
    match frame.get? name with
    | some binding => some ⟨outer.length, binding⟩
    | none => if barrier frame then none else findUpTo barrier name outer

theorem findFrom_eq_findUpTo : findFrom name frames = findUpTo (fun _ => false) name frames := by
  induction frames with
  | nil => rfl
  | cons frame outer ih => cases hget : frame.get? name <;> simp [findFrom, findUpTo, ih, hget]

theorem findWithinBody_eq_findUpTo :
    findWithinBody name frames = findUpTo Frame.startsBody name frames := by
  induction frames with
  | nil => rfl
  | cons frame outer ih =>
    cases hget : frame.get? name <;> simp [findWithinBody, findUpTo, ih, hget]

theorem findUpTo_eq_some_iff {barrier : Frame → Bool} :
    findUpTo barrier name frames = some found ↔ ∃ inner frame outer,
      frames = inner ++ frame :: outer ∧ (∀ f ∈ inner, barrier f = false ∧ f.get? name = none) ∧
        frame.get? name = some found.binding ∧ found.frame = outer.length := by
  induction frames with
  | nil => simp [findUpTo]
  | cons first rest ih =>
    obtain ⟨number, binding⟩ := found
    rw [findUpTo]
    constructor
    · intro h
      cases hget : first.get? name with
      | some bound =>
        simp only [hget, some.injEq, Found.mk.injEq] at h
        exact ⟨[], first, rest, rfl, by simp, hget.trans (congrArg some h.2), h.1.symm⟩
      | none =>
        simp only [hget, ite_none_left_eq_some, Bool.not_eq_true] at h
        obtain ⟨inner, frame, outer, rfl, hin, hf⟩ := ih.mp h.2
        exact ⟨first :: inner, frame, outer, rfl, forall_mem_cons.mpr ⟨⟨h.1, hget⟩, hin⟩, hf⟩
    · rintro ⟨_ | ⟨f, inner⟩, frame, outer, heq, hin, hf, hnum⟩
      · obtain ⟨rfl, rfl⟩ := cons.inj heq
        simp only [hf, ← hnum]
      · obtain ⟨rfl, rfl⟩ := cons.inj heq
        obtain ⟨⟨hbarrier, hget⟩, hin⟩ := forall_mem_cons.mp hin
        simp only [hget, hbarrier, Bool.false_eq_true, if_false]
        exact ih.mpr ⟨inner, frame, outer, rfl, hin, hf, hnum⟩

theorem findEnclosing?_eq_some_iff : scope.findEnclosing? name = some found ↔
    ∃ current inner frame outer, scope.frames = current :: (inner ++ frame :: outer) ∧
      current.startsBody = false ∧ (∀ f ∈ inner, f.startsBody = false ∧ f.get? name = none) ∧
      frame.get? name = some found.binding ∧ found.frame = outer.length := by
  obtain ⟨_ | ⟨current, rest⟩⟩ := scope
  · simp [findEnclosing?]
  · simp only [findEnclosing?, findWithinBody_eq_findUpTo, ite_none_left_eq_some,
      Bool.not_eq_true, findUpTo_eq_some_iff, cons.injEq]
    constructor
    · rintro ⟨hcur, inner, frame, outer, hr, hin⟩
      exact ⟨current, inner, frame, outer, ⟨rfl, hr⟩, hcur, hin⟩
    · rintro ⟨_, inner, frame, outer, ⟨rfl, hr⟩, hcur, hin⟩
      exact ⟨hcur, inner, frame, outer, hr, hin⟩

/-! ## Closures on the way -/

theorem take_split {inner outer : List Frame} {frame} (hnum : number < outer.length) :
    (inner ++ frame :: outer).take ((inner ++ frame :: outer).length - (number + 1)) =
      inner ++ frame :: outer.take (outer.length - (number + 1)) := by
  have hlen : (inner ++ frame :: outer).length - (number + 1) =
      inner.length + (outer.length - (number + 1) + 1) := by
    rw [length_append, length_cons]
    omega
  rw [hlen, take_length_add_append, take_succ_cons]

theorem closureCrossedFrom?_eq_some_iff {closure : NodeId} :
    scope.closureCrossedFrom? number = some closure ↔
      ∃ inner frame outer, scope.frames = inner ++ frame :: outer ∧ number < outer.length ∧
        frame.startsBody = true ∧ frame.closure = some closure ∧
        ∀ f ∈ outer.take (outer.length - (number + 1)), f.startsBody = true → f.closure = none := by
  have hwalk : scope.closureCrossedFrom? number =
      (scope.frames.take (scope.frames.length - (number + 1))).reverse.findSome?
        fun frame => if frame.startsBody then frame.closure else none := by
    simp [closureCrossedFrom?, filterMap_filter]
  rw [hwalk, findSome?_eq_some_iff]
  -- The frames are walked from the outermost one on, so the parts change places.
  constructor
  · rintro ⟨between, frame, inner, heq, hframe, hbetween⟩
    rw [reverse_eq_iff, reverse_append, reverse_cons, append_assoc, singleton_append] at heq
    have hsplit := (take_append_drop (scope.frames.length - (number + 1)) scope.frames).symm
    rw [heq, append_assoc, cons_append] at hsplit
    have hlen := congrArg length heq
    simp only [length_take, length_append, length_cons, length_reverse] at hlen
    refine ⟨inner.reverse, frame, _, hsplit, ?_, ?_⟩
    · simp only [length_append, length_reverse, length_drop]
      omega
    · rw [ite_none_right_eq_some] at hframe
      refine ⟨hframe.1, hframe.2, fun f hf hbody => ?_⟩
      have hmem : f ∈ between := by
        rw [take_append_of_le_length (by simp; omega)] at hf
        exact mem_reverse.mp (mem_of_mem_take hf)
      simpa [hbody] using hbetween f hmem
  · rintro ⟨inner, frame, outer, heq, hnum, hbody, hcl, hbetween⟩
    refine ⟨(outer.take (outer.length - (number + 1))).reverse, frame, inner.reverse, ?_, ?_, ?_⟩
    · rw [heq, take_split hnum]
      simp
    · simp [hbody, hcl]
    · simpa using hbetween

/-! ## What one operation changes -/

/-- Faults are deferred only in frames that start a body. -/
abbrev BodiesDefer (frames : List Frame) : Prop :=
  ∀ frame ∈ frames, frame.startsBody = false → frame.deferred = .empty

theorem deferred_modifyBodyFrame (hch : ∀ frame, (change frame).startsBody = frame.startsBody)
    (h : BodiesDefer frames) : BodiesDefer (modifyBodyFrame change frames) := by
  induction frames with
  | nil => exact h
  | cons frame outer ih =>
    obtain ⟨hf, houter⟩ := forall_mem_cons.mp h
    rw [modifyBodyFrame]
    split
    next hstarts =>
      refine forall_mem_cons.mpr ⟨fun hnot => ?_, houter⟩
      rw [hch, hstarts] at hnot
      cases hnot
    next => exact forall_mem_cons.mpr ⟨hf, ih houter⟩

theorem deferred_bindCurrent (h : BodiesDefer scope.frames) :
    BodiesDefer (scope.bindCurrent name slot).frames := by
  obtain ⟨_ | ⟨frame, outer⟩⟩ := scope
  · exact h
  · exact forall_mem_cons.mpr (forall_mem_cons.mp h)

theorem deferred_move (m : Move) (h : BodiesDefer scope.frames) :
    BodiesDefer (scope.move m).frames := by
  cases m with
  | push block startsBody closure => exact forall_mem_cons.mpr ⟨fun _ => rfl, h⟩
  | pop => exact fun frame hf => h frame (mem_of_mem_tail hf)
  | plain name ty | entity name denoted =>
    exact deferred_bindCurrent (deferred_modifyBodyFrame (fun _ => rfl) h)
  | refined name ty => exact deferred_bindCurrent h
  | defer name fault => exact deferred_modifyBodyFrame (fun _ => rfl) h

/-- The scope is inside a frame, around which are the older frames.  They bind what they bound, and
if the frame starts a body, they have not changed at all. -/
def Inside (older : List Frame) (startsBody : Bool) (frames : List Frame) : Prop :=
  ∃ newer frame around, frames = newer ++ frame :: around ∧ frame.startsBody = startsBody ∧
    around.map core = older.map core ∧ (startsBody = true → around = older)

theorem Inside.cons (frame : Frame) (h : Inside older startsBody frames) :
    Inside older startsBody (frame :: frames) := by
  obtain ⟨newer, pushed, around, rfl, h⟩ := h
  exact ⟨frame :: newer, pushed, around, rfl, h⟩

theorem Inside.modifyBodyFrame (hcore : ∀ frame, (change frame).core = frame.core)
    (h : Inside older startsBody frames) :
    Inside older startsBody (modifyBodyFrame change frames) := by
  obtain ⟨newer, pushed, around, rfl, hstarts, haround⟩ := h
  have hch : ∀ frame, (change frame).startsBody = frame.startsBody := fun frame => by
    simpa [core] using congrArg Frame.startsBody (hcore frame)
  induction newer with
  | nil =>
    rw [nil_append, Scope.modifyBodyFrame]
    split
    next => exact ⟨[], change pushed, around, rfl, (hch pushed).trans hstarts, haround⟩
    next hplain =>
      refine ⟨[], pushed, _, rfl, hstarts, ?_, fun hbody => absurd (hstarts.trans hbody) hplain⟩
      exact (sameBindings_modifyBodyFrame hcore around).trans haround.1
  | cons frame newer ih =>
    rw [cons_append, Scope.modifyBodyFrame]
    split
    · exact ⟨change frame :: newer, pushed, around, rfl, hstarts, haround⟩
    · exact ih.cons frame

theorem Inside.bindCurrent (h : Inside older startsBody scope.frames) :
    Inside older startsBody (scope.bindCurrent name slot).frames := by
  obtain ⟨newer, pushed, around, heq, h⟩ := h
  obtain ⟨frames⟩ := scope
  cases heq
  cases newer with
  | nil => exact ⟨[], pushed.bind name slot, around, rfl, h⟩
  | cons frame newer => exact ⟨frame.bind name slot :: newer, pushed, around, rfl, h⟩

theorem Inside.move (m : Move) (h : Inside older startsBody scope.frames)
    (hdepth : older.length < (scope.move m).depth) :
    Inside older startsBody (scope.move m).frames := by
  cases m with
  | push block startsBody closure => exact h.cons _
  | pop =>
    obtain ⟨newer, pushed, around, heq, hstarts, haround⟩ := h
    obtain ⟨frames⟩ := scope
    cases heq
    cases newer with
    | nil =>
      have hlen : around.length = older.length := by simpa using congrArg length haround.1
      exact absurd hdepth (by simp [Scope.move, pop, depth, hlen])
    | cons frame newer => exact ⟨newer, pushed, around, rfl, hstarts, haround⟩
  | plain name ty | entity name denoted =>
    have hcleared : Inside older startsBody (scope.clearDeferred name).frames :=
      h.modifyBodyFrame fun _ => rfl
    exact hcleared.bindCurrent
  | refined name ty => exact h.bindCurrent
  | defer name fault => exact h.modifyBodyFrame fun _ => rfl

/-! ## Histories -/

theorem deferred_after (moves : List Move) (h : BodiesDefer scope.frames) :
    BodiesDefer (scope.after moves).frames := by
  induction moves generalizing scope with
  | nil => exact h
  | cons m moves ih => exact ih (deferred_move m h)

theorem Inside.after (moves : List Move) (h : Inside older startsBody scope.frames)
    (hdepth : ∀ earlier, earlier <+: moves → older.length < (scope.after earlier).depth) :
    Inside older startsBody (scope.after moves).frames := by
  induction moves generalizing scope with
  | nil => exact h
  | cons m moves ih =>
    refine ih (h.move m (hdepth [m] (by simp))) fun earlier hearlier => ?_
    exact hdepth (m :: earlier) (prefix_cons_inj m |>.mpr hearlier)

theorem Inside.oldest (h : Inside older startsBody scope.frames) :
    (scope.oldest older.length).map core = older.map core ∧
      (startsBody = true → scope.oldest older.length = older) ∧
      (scope.depth = older.length + 1 → scope.pop.frames = scope.oldest older.length) := by
  obtain ⟨newer, pushed, around, heq, -, hcore, hs⟩ := h
  have hlen : around.length = older.length := by simpa using congrArg length hcore
  have holdest : scope.oldest older.length = around := by
    rw [Scope.oldest, depth, heq, ← hlen, append_cons, length_append, Nat.add_sub_cancel, drop_left]
  refine ⟨holdest ▸ hcore, fun hbody => holdest.trans (hs hbody), fun hdepth => ?_⟩
  have hnewer : newer = [] := by
    rw [depth, heq, ← hlen] at hdepth
    simpa using hdepth
  rw [holdest, pop, heq, hnewer]
  rfl

/-- Whatever was done to a scope that started empty, it is in order. -/
theorem after_orderly (moves : List Move) : (after {} moves).Orderly where
  find _ _ := by simp [find?, findFrom_eq_findUpTo, findUpTo_eq_some_iff]
  enclosing _ _ := findEnclosing?_eq_some_iff
  refined frame _ name hdefines hassigned := by
    obtain ⟨slot, hslot⟩ := Option.isSome_iff_exists.mp hdefines
    cases slot with
    | assigned binding => simp [Frame.assigned?, hslot, Slot.assigned?] at hassigned
    | refined ty => exact ⟨ty, by simp [Frame.get?, hslot, Slot.binding]⟩
  deferred := deferred_after moves (forall_mem_nil _)
  crossed _ _ := closureCrossedFrom?_eq_some_iff
  inside block startsBody closure inner hdepth := by
    have hinside : Inside (after {} moves).frames startsBody
        ((after {} moves).push block startsBody closure).frames :=
      ⟨[], _, _, rfl, rfl, rfl, fun _ => rfl⟩
    exact (hinside.after inner hdepth).oldest

/-- The body of a closure assigns a name of the body around it, and refines it in a block. -/
theorem after_orderly_closure : ∃ inner,
    ((after {} [.push ⟨0⟩ true none, .plain "x" (.optional .int)]).push ⟨1⟩ true (some ⟨0⟩)).after
        [.plain "x" (.optional .int), .push ⟨2⟩ false none, .refined "x" .int, .pop] = inner ∧
      inner.oldest 1 = (after {} [.push ⟨0⟩ true none, .plain "x" (.optional .int)]).frames ∧
      inner.pop.frames = inner.oldest 1 := by
  obtain ⟨-, hbody, hpop⟩ :=
    (after_orderly [.push ⟨0⟩ true none, .plain "x" (.optional .int)]).inside
    ⟨1⟩ true (some ⟨0⟩)
      [.plain "x" (.optional .int), .push ⟨2⟩ false none, .refined "x" .int, .pop] <| by
      simp only [prefix_cons_iff, prefix_nil]
      rintro _ (rfl | ⟨_, rfl, rfl | ⟨_, rfl, rfl | ⟨_, rfl, rfl | ⟨_, rfl, rfl⟩⟩⟩⟩) <;> decide
  exact ⟨_, rfl, hbody rfl, hpop rfl⟩

/-! ## Assignments that stay -/

/-- What the frame of that number has assigned to a name. -/
def assignedAt? (scope : Scope) (number : Nat) (name : String) : Option Binding :=
  (scope.frames.reverse[number]?).bind (·.assigned? name)

theorem SameBindings.assignedAt? (h : scope.SameBindings scope') :
    scope'.assignedAt? number name = scope.assignedAt? number name := by
  have hcore : ∀ s : Scope, s.assignedAt? number name =
      ((s.frames.map core).reverse[number]?).bind (·.assigned? name) := by
    intro s
    rw [← map_reverse, getElem?_map, Option.bind_map]
    rfl
  rw [hcore, hcore, h]

theorem assignedAt?_bindCurrent (other : String) :
    (scope.bindCurrent other slot).assignedAt? number name =
      if scope.depth = number + 1 ∧ name = other then slot.assigned?
      else scope.assignedAt? number name := by
  obtain ⟨_ | ⟨frame, around⟩⟩ := scope
  · rfl
  · rcases Nat.lt_trichotomy number around.length with hlt | rfl | hgt
    · simp [assignedAt?, bindCurrent, depth, getElem?_append_left, hlt, hlt.ne']
    · by_cases hname : name = other <;>
        simp [assignedAt?, bindCurrent, depth, Frame.assigned?, Frame.bind, NameMap.get?_insert,
          hname]
    · have hnone : ∀ top : Frame, (top :: around).reverse[number]? = none := by
        intro top
        rw [getElem?_eq_none_iff, length_reverse]
        exact hgt
      rw [if_neg fun h => hgt.ne (Nat.succ.inj h.1)]
      simp only [assignedAt?, bindCurrent, hnone]

theorem isSome_assignedAt?_move (m : Move) (h : (scope.assignedAt? number name).isSome)
    (hopen : number < (scope.move m).depth)
    (hm : scope.depth = number + 1 → ∀ ty, m ≠ .refined name ty) :
    ((scope.move m).assignedAt? number name).isSome := by
  cases m with
  | push block startsBody closure =>
    have hlt : number < scope.frames.reverse.length := by
      by_contra hge
      simp [assignedAt?, getElem?_eq_none (Nat.le_of_not_lt hge)] at h
    simpa [assignedAt?, move, push, getElem?_append_left hlt] using h
  | pop =>
    obtain ⟨_ | ⟨frame, around⟩⟩ := scope
    · exact h
    · have hlt : number < around.reverse.length := by simpa [move, pop, depth] using hopen
      simpa [assignedAt?, move, pop, getElem?_append_left hlt] using h
  | plain other ty | entity other denoted =>
    simp only [move, recordPlain, recordEntity, assignedAt?_bindCurrent]
    split
    · rfl
    · rwa [(sameBindings_clearDeferred scope other).assignedAt?]
  | refined other ty =>
    rw [move, recordRefined, assignedAt?_bindCurrent, if_neg]
    · exact h
    · rintro ⟨hdepth, rfl⟩
      exact hm hdepth ty rfl
  | defer other fault => rwa [move, (sameBindings_defer scope other fault).assignedAt?]

theorem isSome_assignedAt?_after (moves : List Move) (h : (scope.assignedAt? number name).isSome)
    (hopen : ∀ earlier, earlier <+: moves → number < (scope.after earlier).depth)
    (hrefined : ∀ earlier ty later, moves = earlier ++ .refined name ty :: later →
      (scope.after earlier).depth ≠ number + 1) :
    ((scope.after moves).assignedAt? number name).isSome := by
  induction moves generalizing scope with
  | nil => exact h
  | cons m moves ih =>
    have hstep := isSome_assignedAt?_move m h (hopen [m] (by simp)) fun hdepth ty hm =>
      hrefined [] ty moves (congrArg (· :: moves) hm) hdepth
    refine ih hstep (fun earlier hearlier => ?_) fun earlier ty later heq => ?_
    · exact hopen (m :: earlier) (prefix_cons_inj m |>.mpr hearlier)
    · exact hrefined (m :: earlier) ty later (congrArg (m :: ·) heq)

/-- A frame keeps an assignment on record as long as it is not popped and records no refinement of
that name. -/
theorem assignment_stays {assignment : Move} (moves : List Move) (hdepth : scope.depth = number + 1)
    (hassign : (∃ ty, assignment = .plain name ty) ∨ ∃ denoted, assignment = .entity name denoted)
    (hopen : ∀ earlier, earlier <+: moves → number < ((scope.move assignment).after earlier).depth)
    (hrefined : ∀ earlier ty later, moves = earlier ++ .refined name ty :: later →
      ((scope.move assignment).after earlier).depth ≠ number + 1) :
    ∃ frame binding, ((scope.move assignment).after moves).frames.reverse[number]? = some frame ∧
      name ∈ frame.definedNames ∧ frame.assigned? name = some binding := by
  have hcleared : (scope.clearDeferred name).depth = scope.depth := by
    simpa [depth] using congrArg length (sameBindings_clearDeferred scope name)
  have hstart : ((scope.move assignment).assignedAt? number name).isSome := by
    rcases hassign with ⟨ty, rfl⟩ | ⟨denoted, rfl⟩ <;>
      simp [move, recordPlain, recordEntity, assignedAt?_bindCurrent, hcleared, hdepth,
        Slot.assigned?]
  obtain ⟨binding, hafter⟩ :=
    isSome_iff_exists.mp (isSome_assignedAt?_after moves hstart hopen hrefined)
  obtain ⟨frame, hframe, hbind⟩ := bind_eq_some_iff.mp hafter
  exact ⟨frame, binding, hframe, mem_definedNames hbind, hbind⟩

/-- An inner block refines the name and is left again. -/
theorem refined_inside_stays : ∃ frame binding,
    ((move (push {} ⟨0⟩ true none) (.plain "x" (.optional .int))).after
      [.push ⟨1⟩ false none, .refined "x" .int, .pop]).frames.reverse[0]? = some frame ∧
        "x" ∈ frame.definedNames ∧ frame.assigned? "x" = some binding := by
  refine assignment_stays _ rfl (.inl ⟨.optional .int, rfl⟩) ?_ ?_
  · simp only [prefix_cons_iff, prefix_nil]
    rintro _ (rfl | ⟨_, rfl, rfl | ⟨_, rfl, rfl | ⟨_, rfl, rfl⟩⟩⟩) <;> decide
  · rintro (_ | ⟨m, _ | ⟨m', earlier⟩⟩) ty later h
    · cases h
    · cases h
      decide
    · cases earlier <;> simp at h

/-- A refinement in the frame of the assignment takes its place. -/
theorem refinement_hides_assignment : ∃ frame,
    (after {} [.push ⟨0⟩ true none, .plain "x" .int, .refined "x" .int]).frames = [frame] ∧
      frame.definedNames = [] ∧ (frame.assigned? "x").isNone := ⟨_, rfl, rfl, rfl⟩

end Flowgraph.Scope
