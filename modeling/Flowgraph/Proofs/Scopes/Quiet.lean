import Flowgraph.Proofs.Lowering.Brackets
import Mathlib.Order.Defs.Unbundled

/-!
# What happens to the names of a scope

Relations between the scopes before and after something was lowered.

* `Scope.Local` holds of all lowering: what is outside the current body stays as it is, and what the
  frames outside the innermost one bind stays bound.
* `Scope.Quiet` holds of expressions: no frame binds anything new.
* `Scope.Narrows` holds of refinements: they bind only names that were bound.
* `Scope.Tracks` holds of statements that are careful with a name: if the innermost frame assigned
  it, it stays assigned (`Scope.Holds`), and a deferred fault stays deferred until the name is
  assigned.
-/

namespace Flowgraph

open Flowgraph.Frame List Option

/-- The name for which a fault is deferred, if it is one of those that are. -/
def Fault.deferredFor? : Fault → Option String
  | .name _ (.undefinedOn subject _) | .name _ (.insideLoop subject) => some subject
  | .type _ (.branchMismatch subject _ _) | .type _ (.branchKinds subject _ _) => some subject
  | _ => none

def Fault.Defers (name : String) (fault : Fault) : Prop :=
  fault.deferredFor? = some name

theorem NameMap.get?_erase {α : Type} (map : NameMap α) {name other : String} (h : other ≠ name) :
    (map.erase name).get? other = map.get? other := by
  obtain ⟨entries⟩ := map
  simp only [erase, get?]
  induction entries with
  | nil => rfl
  | cons entry rest ih =>
    obtain ⟨key, value⟩ := entry
    by_cases hkey : key = name
    · have hmiss : (other == key) = false := beq_eq_false_iff_ne.mpr (hkey ▸ h)
      simpa [hkey, lookup_cons, hkey ▸ hmiss] using ih
    · simp only [filter_cons, ne_eq, hkey, not_false_eq_true, decide_true, if_true, lookup_cons]
      rw [ih]

namespace Scope

variable {name other : String} {scope scope' scope'' : Scope} {b : BlockId}
  {closure : Option NodeId} {fault : Fault} {frame : Frame} {change : Frame → Frame}
  {binding : Binding}

/-! ## The frames of the current body -/

/-- The frames outside the current body. -/
def outside : List Frame → List Frame
  | [] => []
  | frame :: outer => if frame.startsBody then outer else outside outer

/-- A fault is deferred for the name in the current body. -/
def Pending (scope : Scope) (name : String) : Prop :=
  ∃ fault, scope.deferredInBody? name = some fault ∧ fault.Defers name

instance : Decidable (scope.Pending name) :=
  match h : scope.deferredInBody? name with
  | none => .isFalse fun ⟨_, hsome, _⟩ => nomatch h.symm.trans hsome
  | some fault => decidable_of_iff (fault.deferredFor? = some name)
      ⟨fun hname => ⟨fault, h, hname⟩, fun ⟨_, hsome, hname⟩ =>
        Option.some.inj (h.symm.trans hsome) ▸ hname⟩

/-- The innermost frame assigns the name. -/
def AssignedHere (scope : Scope) (name : String) : Prop :=
  ∃ binding, scope.slot? name = some (.assigned binding)

/-- Some frame starts a body. -/
def HasBody (scope : Scope) : Prop :=
  (scope.frames.find? startsBody).isSome

theorem Pending.hasBody (h : scope.Pending name) : scope.HasBody := by
  obtain ⟨fault, hdfr, -⟩ := h
  obtain ⟨frame, hf, -⟩ := bind_eq_some_iff.mp hdfr
  exact isSome_of_eq_some hf

theorem SameBindings.hasBody (h : scope.SameBindings scope') (hbody : scope.HasBody) :
    scope'.HasBody := by
  have hcore : ∀ scope : Scope,
      scope.HasBody ↔ ((scope.frames.map core).find? startsBody).isSome := by
    intro scope
    rw [find?_map, isSome_map]
    rfl
  rw [hcore] at hbody ⊢
  rwa [h]

theorem HasBody.ne_nil (h : scope.HasBody) : scope.frames ≠ [] := by
  rintro hnil
  simp [HasBody, hnil] at h

theorem outside_modifyBodyFrame (hch : ∀ frame, (change frame).startsBody = frame.startsBody)
    (frames : List Frame) : outside (modifyBodyFrame change frames) = outside frames := by
  induction frames with
  | nil => rfl
  | cons frame outer ih =>
    rw [modifyBodyFrame, outside]
    split
    next h => rw [outside, hch, if_pos h]
    next h => rw [outside, if_neg h, ih]

theorem deferredInBody?_modifyBodyFrame
    (hch : ∀ frame, (change frame).startsBody = frame.startsBody)
    (frames : List Frame) : (⟨modifyBodyFrame change frames⟩ : Scope).deferredInBody? name =
      (frames.find? startsBody).bind fun frame => (change frame).deferred.get? name := by
  induction frames with
  | nil => rfl
  | cons frame outer ih =>
    rw [modifyBodyFrame]
    split
    next h => simp [deferredInBody?, hch, h]
    next h => simpa [deferredInBody?, h] using ih

theorem deferredInBody?_bindCurrent (scope : Scope) (slot : Slot) :
    (scope.bindCurrent other slot).deferredInBody? name = scope.deferredInBody? name := by
  obtain ⟨_ | ⟨frame, outer⟩⟩ := scope
  · rfl
  · simp only [deferredInBody?, bindCurrent, find?_cons, Frame.bind]
    cases frame.startsBody <;> rfl

theorem deferredInBody?_clearDeferred (scope : Scope) (h : name ≠ other) :
    (scope.clearDeferred other).deferredInBody? name = scope.deferredInBody? name := by
  rw [clearDeferred, deferredInBody?_modifyBodyFrame (by intro _; rfl), deferredInBody?]
  simp only [NameMap.get?_erase _ h]

theorem deferredInBody?_clearDeferred_self (scope : Scope) (name : String) :
    (scope.clearDeferred name).deferredInBody? name = none := by
  rw [clearDeferred, deferredInBody?_modifyBodyFrame (by intro _; rfl)]
  simp +contextual [NameMap.get?, NameMap.erase, lookup_eq_none_iff, eq_comm (a := name)]

theorem deferredInBody?_defer (scope : Scope) (fault : Fault) :
    (scope.defer other fault).deferredInBody? name =
      if name = other then (scope.frames.find? startsBody).map fun _ => fault
      else scope.deferredInBody? name := by
  rw [defer, deferredInBody?_modifyBodyFrame (by intro _; rfl), deferredInBody?]
  simp only [NameMap.get?_insert]
  split
  · cases scope.frames.find? startsBody <;> rfl
  · rfl

theorem HasBody.defer (h : scope.HasBody) (hfault : fault.Defers name) :
    (scope.defer name fault).Pending name := by
  obtain ⟨frame, hf⟩ := isSome_iff_exists.mp h
  exact ⟨fault, by rw [deferredInBody?_defer, if_pos rfl, hf]; rfl, hfault⟩

theorem Pending.defer (h : scope.Pending name)
    (hfault : fault.Defers other) : (scope.defer other fault).Pending name := by
  obtain ⟨old, hold, hdefers⟩ := h
  by_cases heq : name = other
  · subst heq
    exact Pending.hasBody ⟨old, hold, hdefers⟩ |>.defer hfault
  · exact ⟨old, by rw [deferredInBody?_defer, if_neg heq, hold], hdefers⟩

/-! ## The slot of a name -/

theorem slot?_bindCurrent_self (scope : Scope) (slot : Slot) (h : scope.frames ≠ []) :
    (scope.bindCurrent name slot).slot? name = some slot := by
  obtain ⟨_ | ⟨frame, outer⟩⟩ := scope
  · exact absurd rfl h
  · simp [slot?, current?, bindCurrent, Frame.bind, NameMap.get?_insert]

/-! ## Everything is local -/

structure Local (scope scope' : Scope) : Prop where
  kept : scope.Kept scope'
  outside : outside scope'.frames = outside scope.frames

instance : IsPreorder Scope Local where
  refl scope := ⟨.refl scope, rfl⟩
  trans _ _ _ h h' := ⟨h.kept.trans h'.kept, h'.outside.trans h.outside⟩

theorem Local.hasBody (h : scope.Local scope') (hbody : scope.HasBody) : scope'.HasBody := by
  have hshell : ∀ scope : Scope,
      scope.HasBody ↔ ((scope.frames.map shell).find? startsBody).isSome := by
    intro scope
    rw [find?_map, isSome_map]
    rfl
  rw [hshell] at hbody ⊢
  rwa [h.kept.shells]

theorem local_bindCurrent (scope : Scope) (name : String) (slot : Slot) :
    scope.Local (scope.bindCurrent name slot) :=
  ⟨kept_bindCurrent scope name slot, by obtain ⟨_ | ⟨frame, outer⟩⟩ := scope <;> rfl⟩

theorem local_clearDeferred (scope : Scope) (name : String) :
    scope.Local (scope.clearDeferred name) :=
  ⟨(scope.sameBindings_clearDeferred name).kept, outside_modifyBodyFrame (by intro _; rfl) _⟩

theorem Local.pop_body (h : (scope.push b true closure).Local scope') : scope'.pop = scope := by
  obtain ⟨frames⟩ := scope'
  obtain ⟨frame, outer, rfl, hshell, -⟩ := map_eq_cons_iff.mp h.kept.shells
  have hstarts : frame.startsBody = true := congrArg startsBody hshell
  have houter : outer = scope.frames := by simpa [Scope.outside, hstarts, push] using h.outside
  exact congrArg Scope.mk houter

theorem Local.outside_pop (h : (scope.push b false closure).Local scope') :
    Scope.outside scope'.pop.frames = Scope.outside scope.frames := by
  obtain ⟨frames⟩ := scope'
  obtain ⟨frame, outer, rfl, hshell, -⟩ := map_eq_cons_iff.mp h.kept.shells
  have hstarts : frame.startsBody = false := congrArg startsBody hshell
  simpa [Scope.outside, hstarts, push, pop] using h.outside

theorem Local.deferredInBody?_pop (h : (scope.push b false closure).Local scope') (name : String) :
    scope'.pop.deferredInBody? name = scope'.deferredInBody? name := by
  obtain ⟨frames⟩ := scope'
  obtain ⟨frame, outer, rfl, hshell, -⟩ := map_eq_cons_iff.mp h.kept.shells
  have hstarts : frame.startsBody = false := congrArg startsBody hshell
  simp [deferredInBody?, hstarts, pop]

/-- What a block does is not seen in the frames outside it. -/
structure Steady (scope scope' : Scope) : Prop where
  bindings : scope.SameBindings scope'
  outside : outside scope'.frames = outside scope.frames

instance : IsPreorder Scope Steady where
  refl scope := ⟨.refl scope, rfl⟩
  trans _ _ _ h h' := ⟨h.bindings.trans h'.bindings, h'.outside.trans h.outside⟩

theorem Steady.isLocal (h : scope.Steady scope') : scope.Local scope' :=
  ⟨h.bindings.kept, h.outside⟩

theorem Local.pop (h : (scope.push b false closure).Local scope') : scope.Steady scope'.pop :=
  ⟨h.kept.pop, h.outside_pop⟩

/-! ## Expressions are quiet -/

/-- No frame binds anything new, and a fault deferred for the name stays deferred. -/
structure QuietAbout (name : String) (scope scope' : Scope) : Prop extends Steady scope scope' where
  pending : scope.find? name = none → scope.Pending name → scope'.Pending name

structure Quiet (scope scope' : Scope) : Prop extends Steady scope scope' where
  pending : ∀ name, scope.find? name = none → scope.Pending name → scope'.Pending name

theorem quiet_of_forall (h : ∀ name, scope.QuietAbout name scope') : scope.Quiet scope' :=
  ⟨(h default).toSteady, fun name => (h name).pending⟩

theorem Quiet.about (h : scope.Quiet scope') (name : String) : scope.QuietAbout name scope' :=
  ⟨h.toSteady, h.pending name⟩

theorem SameBindings.find? (h : scope.SameBindings scope') (name : String) :
    scope'.find? name = scope.find? name :=
  h.kept.find? (h.slot? name)

instance : IsPreorder Scope Quiet where
  refl scope := ⟨refl_of Steady scope, fun _ _ h => h⟩
  trans _ _ _ h h' := ⟨trans_of Steady h.toSteady h'.toSteady, fun name hfind hpending =>
    h'.pending name ((h.bindings.find? name).trans hfind) (h.pending name hfind hpending)⟩

instance (name : String) : IsPreorder Scope (QuietAbout name) where
  refl scope := ⟨refl_of Steady scope, fun _ h => h⟩
  trans _ _ _ h h' := ⟨trans_of Steady h.toSteady h'.toSteady, fun hfind hpending =>
    h'.pending ((h.bindings.find? name).trans hfind) (h.pending hfind hpending)⟩

theorem Quiet.isLocal (h : scope.Quiet scope') : scope.Local scope' :=
  h.toSteady.isLocal

theorem quiet_defer (scope : Scope) (hfault : fault.Defers name) :
    scope.Quiet (scope.defer name fault) :=
  ⟨⟨scope.sameBindings_defer name fault, outside_modifyBodyFrame (by intro _; rfl) _⟩,
    fun _ _ hpend => hpend.defer hfault⟩

/-! ## Refinements narrow -/

structure Narrows (scope scope' : Scope) : Prop extends Local scope scope' where
  unfound : ∀ name, scope.find? name = none →
    scope'.find? name = none ∧ (scope.Pending name → scope'.Pending name)

instance : IsPreorder Scope Narrows where
  refl scope := ⟨refl_of Local scope, fun _ h => ⟨h, id⟩⟩
  trans _ _ _ h h' := ⟨trans_of Local h.toLocal h'.toLocal, fun name hfind =>
      have ⟨hfind', hpending⟩ := h.unfound name hfind
      have ⟨hfind'', hpending'⟩ := h'.unfound name hfind'
      ⟨hfind'', fun hp => hpending' (hpending hp)⟩⟩

theorem Quiet.narrows (h : scope.Quiet scope') : scope.Narrows scope' :=
  ⟨h.isLocal, fun name hfind => ⟨(h.bindings.find? name).trans hfind, h.pending name hfind⟩⟩

theorem found_of_typeOf? {ty : Ty} (h : scope.typeOf? name = some ty) :
    (scope.find? name).isSome := by
  unfold typeOf? at h
  split at h
  next hfind => rw [hfind]; rfl
  next => cases h

theorem narrows_recordRefined {current : Ty} (ty : Ty) (h : scope.typeOf? name = some current) :
    scope.Narrows (scope.recordRefined name ty) := by
  have hlocal := local_bindCurrent scope name (.refined ty)
  have hfind : ∀ other, other ≠ name →
      (scope.recordRefined name ty).find? other = scope.find? other := fun other hne =>
    hlocal.kept.find? (slot?_bindCurrent scope (.refined ty) hne)
  have hfd := found_of_typeOf? h
  refine ⟨hlocal, fun other hnone => ?_⟩
  have hne : other ≠ name := fun heq => by simp [heq ▸ hnone] at hfd
  refine ⟨(hfind other hne).trans hnone, ?_⟩
  rintro ⟨fault, hdfr, hdefers⟩
  exact ⟨fault, (deferredInBody?_bindCurrent ..).trans hdfr, hdefers⟩

theorem Narrows.pop (h : (scope.push b false closure).Narrows scope') : scope.Quiet scope'.pop := by
  refine ⟨h.toLocal.pop, fun other hfind hpend => ?_⟩
  obtain ⟨fault, hdfr, hdefers⟩ := (h.unfound other hfind).2 hpend
  exact ⟨fault, (h.toLocal.deferredInBody?_pop other).trans hdfr, hdefers⟩

/-! ## Careful statements keep track -/

/-- If the innermost frame assigns the name, it goes on to do so. -/
structure Holds (name : String) (scope scope' : Scope) : Prop extends Local scope scope' where
  assigned : scope.AssignedHere name → scope'.AssignedHere name

instance (name : String) : IsPreorder Scope (Holds name) where
  refl scope := ⟨refl_of Local scope, id⟩
  trans _ _ _ h h' := ⟨trans_of Local h.toLocal h'.toLocal, fun hassigned =>
    h'.assigned (h.assigned hassigned)⟩

theorem Steady.holds (h : scope.Steady scope') : scope.Holds name scope' :=
  ⟨h.isLocal, Exists.imp fun _ => (h.bindings.slot? name).trans⟩

structure Tracks (name : String) (scope scope' : Scope) : Prop extends Holds name scope scope' where
  pending : scope.find? name = none → scope.Pending name →
    (scope'.find? name = none ∧ scope'.Pending name) ∨ scope'.AssignedHere name

instance (name : String) : IsPreorder Scope (Tracks name) where
  refl scope := ⟨refl_of (Holds name) scope, fun hfind hpending => Or.inl ⟨hfind, hpending⟩⟩
  trans _ _ _ h h' := ⟨trans_of (Holds name) h.toHolds h'.toHolds, fun hfind hpending => by
    rcases h.pending hfind hpending with ⟨hfind', hpending'⟩ | hassigned
    · exact h'.pending hfind' hpending'
    · exact Or.inr (h'.assigned hassigned)⟩

theorem QuietAbout.tracks (h : scope.QuietAbout name scope') : scope.Tracks name scope' :=
  ⟨h.toSteady.holds, fun hfind hpend =>
    Or.inl ⟨(h.bindings.find? name).trans hfind, h.pending hfind hpend⟩⟩

theorem Quiet.tracks (h : scope.Quiet scope') : scope.Tracks name scope' :=
  (h.about name).tracks

/-- What becomes of a block when its frame is left: the bindings outside are as they were, and a
deferred fault is still deferred unless the block assigned the name. -/
theorem Tracks.leave (hnarr : (scope.push b false closure).Narrows scope')
    (htr : scope'.Tracks name scope'') :
    scope.Steady scope''.pop ∧ (scope.find? name = none → scope.Pending name →
      scope''.pop.Pending name ∨ scope''.AssignedHere name) := by
  have hlocal := trans_of Local hnarr.toLocal htr.toLocal
  refine ⟨hlocal.pop, fun hfind hpend => ?_⟩
  obtain ⟨hfind', hpending'⟩ := hnarr.unfound name hfind
  refine (htr.pending hfind' (hpending' hpend)).imp_left fun ⟨_, hstill⟩ => ?_
  obtain ⟨fault, hdfr, hdefers⟩ := hstill
  exact ⟨fault, (hlocal.deferredInBody?_pop name).trans hdfr, hdefers⟩

theorem tracks_bindAssigned (scope : Scope) (other : String) (binding : Binding) :
    scope.Tracks name ((scope.clearDeferred other).bindCurrent other (.assigned binding)) := by
  have hclear := scope.sameBindings_clearDeferred other
  have hlocal : scope.Local ((scope.clearDeferred other).bindCurrent other (.assigned binding)) :=
    trans_of Local (scope.local_clearDeferred other) (local_bindCurrent _ _ _)
  by_cases heq : name = other
  · subst heq
    -- The name is assigned from now on, unless there is no frame at all.
    have hnow : scope.frames ≠ [] → ((scope.clearDeferred name).bindCurrent name
        (.assigned binding)).AssignedHere name := fun hne =>
      ⟨binding, slot?_bindCurrent_self _ _ fun hnil => hne (by simpa [hnil] using hclear.symm)⟩
    refine ⟨⟨hlocal, fun hasgn => ?_⟩, fun _ hpend => Or.inr ?_⟩
    · obtain ⟨old, hold⟩ := hasgn
      exact hnow fun hnil => by simp [slot?, current?, hnil] at hold
    · obtain ⟨fault, hdfr, -⟩ := hpend
      exact hnow fun hnil => by simp [deferredInBody?, hnil] at hdfr
  · have hslot : ((scope.clearDeferred other).bindCurrent other (.assigned binding)).slot? name =
        scope.slot? name :=
      (slot?_bindCurrent _ _ heq).trans (hclear.slot? name)
    refine ⟨⟨hlocal, fun hasgn => hasgn.imp fun _ => hslot.trans⟩,
      fun hnone hpend => Or.inl ⟨(hlocal.kept.find? hslot).trans hnone, ?_⟩⟩
    obtain ⟨fault, hdfr, hdefers⟩ := hpend
    refine ⟨fault, ?_, hdefers⟩
    rw [deferredInBody?_bindCurrent, deferredInBody?_clearDeferred scope heq, hdfr]

/-! ## Assignments -/

/-- Some of the names are assigned in the innermost frame. -/
inductive Assigns (names : List String) : Scope → Scope → Prop
  | quiet {scope scope' : Scope} : scope.Quiet scope' → Assigns names scope scope'
  | plain (scope : Scope) {name : String} (ty : Ty) :
      name ∈ names → Assigns names scope (scope.recordPlain name ty)
  | entity (scope : Scope) {name : String} (entity : Entity) :
      name ∈ names → Assigns names scope (scope.recordEntity name entity)
  | trans {scope scope' scope'' : Scope} :
      Assigns names scope scope' → Assigns names scope' scope'' → Assigns names scope scope''

instance (names : List String) : IsPreorder Scope (Assigns names) where
  refl scope := .quiet (refl_of Quiet scope)
  trans _ _ _ := .trans

namespace Assigns

variable {names names' : List String}

theorem mono (h : scope.Assigns names scope') (hnms : names ⊆ names') :
    scope.Assigns names' scope' := by
  induction h with
  | quiet h => exact .quiet h
  | plain scope ty hname => exact .plain scope ty (hnms hname)
  | entity scope entity hname => exact .entity scope entity (hnms hname)
  | trans _ _ ih ih' => exact .trans ih ih'

theorem tracks (h : scope.Assigns names scope') : scope.Tracks name scope' := by
  induction h with
  | quiet h => exact h.tracks
  | plain scope ty _ => exact scope.tracks_bindAssigned _ (.plain ty)
  | entity scope entity _ => exact scope.tracks_bindAssigned _ (.entity entity)
  | trans _ _ ih ih' => exact trans_of (Tracks name) ih ih'

theorem isLocal (h : scope.Assigns names scope') : scope.Local scope' :=
  (tracks h : scope.Tracks default scope').toLocal

end Assigns

/-! ## Frames that assign a name -/

theorem AssignedHere.current? (h : scope.AssignedHere name) :
    ∃ frame, scope.current? = some frame := by
  obtain ⟨binding, hslot⟩ := h
  obtain ⟨frame, hf, -⟩ := bind_eq_some_iff.mp hslot
  exact ⟨frame, hf⟩

theorem assigned?_eq_some :
    frame.assigned? name = some binding ↔ frame.slots.get? name = some (.assigned binding) := by
  rw [Frame.assigned?]
  cases frame.slots.get? name with
  | none => simp
  | some slot => cases slot <;> simp [Slot.assigned?]

theorem assignedHere_iff (hf : scope.current? = some frame) :
    scope.AssignedHere name ↔ ∃ binding, frame.assigned? name = some binding := by
  simp [AssignedHere, slot?, hf, assigned?_eq_some]

theorem AssignedHere.assigned? (h : scope.AssignedHere name) (hf : scope.current? = some frame) :
    ∃ binding, frame.assigned? name = some binding :=
  (assignedHere_iff hf).mp h

theorem mem_definedNames (h : frame.assigned? name = some binding) : name ∈ frame.definedNames := by
  obtain ⟨slot, hget, hslot⟩ := bind_eq_some_iff.mp h
  have he : (name, slot) ∈ frame.slots.entries := by
    obtain ⟨before, after, heq, -⟩ := lookup_eq_some_iff.mp hget
    simp [heq]
  refine mem_map.mpr ⟨(name, binding), ?_, rfl⟩
  exact mem_filterMap.mpr ⟨(name, slot), he, by simp [hslot]⟩

end Scope

end Flowgraph
