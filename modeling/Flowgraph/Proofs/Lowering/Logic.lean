import Flowgraph.Proofs.Emission.Regularity
import Flowgraph.Proofs.Refinements

/-!
# A program logic for lowering

`Lower.Emits assumed hidden still Γ action Δ` says of an action: in a state that is ready for
lowering and in which the facts `Γ` hold, what the action does is an emission, it leaves the types
of the variables alone if it is `still`, and the facts `Δ` hold of its answer.

Facts are stable: what is held stays held, and a settled type stays.  So the rule for sequencing
keeps the facts that it starts from, and a proof about an action follows its text line by line.
-/

namespace Flowgraph

open List

/-! ## Facts -/

/-- What a proof about an action keeps track of. -/
inductive Fact where
  /-- The value is defined here, and its type is settled. -/
  | held (v : ValueId)
  | typed (v : ValueId) (ty : Ty)
  /-- The value has the type if the types from outside are regular. -/
  | settled (v : ValueId) (ty : Ty)
  | fits (v : ValueId) (ty : Ty)
  /-- The map narrows variables of optional types. -/
  | narrows (map : RefinementMap)
  | signed (closure : ValueId) (signature : Signature)
  /-- The entity has no elements that could be taken by their position. -/
  | refused (entity : Entity)
  /-- Something that does not depend on the state. -/
  | sure (claim : Prop)
  | either (first second : Fact)

theorem Scope.typeOf?_eq_some {scope : Scope} {name : String} {ty : Ty}
    (h : scope.typeOf? name = some ty) :
    ∃ found, scope.find? name = some found ∧ found.binding = .plain ty := by
  unfold Scope.typeOf? at h
  split at h
  next frame found hfd =>
    cases h
    exact ⟨_, hfd, rfl⟩
  next => cases h

/-- A value of the type has elements that can be taken by their position. -/
def Ty.isIndexable : Ty → Bool
  | .list _ | .str => true
  | ty => ty.isTensor

mutual

/-- Taking an element of the entity by its position fails. -/
def Entity.Refused (g : Graph) : Entity → Prop
  | .value v => ∃ ty, g.typeOf? v = some ty ∧ ty.isIndexable = false
  | .range _ _ _ => False
  | .zip items => Entity.SomeRefused g items
  | .enumerate inner => inner.Refused g
  | .closure _ | .method _ _ _ | .primitiveMethod _ _ | .builtin _ | .function _ | .cls _ | .fork
  | .module _ => True

def Entity.SomeRefused (g : Graph) : List Entity → Prop
  | [] => False
  | entity :: rest => entity.Refused g ∨ Entity.SomeRefused g rest

end

def Fact.Holds (A : Prop) (H : List ValueId) (s : LowerState) : Fact → Prop
  | .held v => Held H s v
  | .typed v ty => v ∉ H ∧ s.graph.typeOf? v = some ty
  | .settled v ty => A → v ∉ H ∧ s.graph.typeOf? v = some ty
  | .fits v ty => v ∉ H ∧ ∃ found, s.graph.typeOf? v = some found ∧ found.isSubtype ty = true
  | .narrows map =>
    (map.entries.map Prod.fst).Nodup ∧ ∀ entry ∈ map.entries,
      ∃ inner, s.scope.typeOf? entry.1 = some (.optional inner) ∧ inner.NarrowsTo entry.2.ty
  | .signed closure signature => (closure, signature) ∈ s.signatures
  | .refused entity => (∀ v ∈ entity.values, v ∉ H) ∧ entity.Refused s.graph
  | .sure claim => claim
  | .either first second => first.Holds A H s ∨ second.Holds A H s

@[simp] theorem Fact.holds_held {A : Prop} {H : List ValueId} {s : LowerState}
    {v : ValueId} : (Fact.held v).Holds A H s ↔ Held H s v := Iff.rfl

@[simp] theorem Fact.holds_sure {A : Prop} {H : List ValueId} {s : LowerState}
    {claim : Prop} : (Fact.sure claim).Holds A H s ↔ claim := Iff.rfl

/-- The fact outlives assignments. -/
def Fact.isLasting : Fact → Bool
  | .narrows _ => false
  | .either first second => first.isLasting && second.isLasting
  | _ => true

/-! ### Entities -/

namespace Entity

variable {A : Prop} {H : List ValueId} {s : LowerState}

mutual

/-- What is known about an entity that a program denotes. -/
def facts (A : Prop) : Entity → List Fact
  | .value v | .closure v | .primitiveMethod v _ => [.held v]
  | .method v owner _ => [.held v, .sure (A → (Ty.object owner).Regular)]
  | .function signature => [.sure (A → signature.result.Regular)]
  | .cls owner => [.sure (A → (Ty.object owner).Regular)]
  | .module found => [.sure (A → (HostValue.module found).Regular)]
  | .range start stop step =>
    (start.toList ++ stop :: step.toList).flatMap fun v => [.held v, .settled v .int]
  | .zip items => factsAll A items
  | .enumerate inner => inner.facts A
  | .builtin _ | .fork => []

def factsAll (A : Prop) : List Entity → List Fact
  | [] => []
  | entity :: rest => entity.facts A ++ factsAll A rest

end

mutual

theorem facts_hold_iff :
    (entity : Entity) → ((∀ fact ∈ entity.facts A, fact.Holds A H s) ↔
      (∀ v ∈ entity.values, Held H s v) ∧ (A → entity.Regular s.graph))
  | .value _ | .closure _ | .primitiveMethod _ _ | .method _ _ _ | .function _ | .cls _ | .module _
  | .builtin _ | .fork => by simp [facts, values, Regular, Fact.Holds]
  | .range start stop step => by
      simp only [facts, values, Regular, forall_mem_flatMap, forall_mem_cons, Fact.Holds]
      constructor
      · intro h
        exact ⟨fun v hv => (h v hv).1, fun hA v hv => ((h v hv).2.1 hA).2⟩
      · intro h v hv
        exact ⟨h.1 v hv, fun hA => ⟨(h.1 v hv).1, h.2 hA v hv⟩, by simp⟩
  | .zip items => factsAll_hold_iff items
  | .enumerate inner => facts_hold_iff inner

theorem factsAll_hold_iff :
    (entities : List Entity) → ((∀ fact ∈ factsAll A entities, fact.Holds A H s) ↔
      (∀ v ∈ valuesAll entities, Held H s v) ∧ (A → AreRegular s.graph entities))
  | [] => by simp [factsAll, valuesAll, AreRegular]
  | entity :: rest => by
      rw [factsAll, valuesAll, AreRegular, forall_mem_append, forall_mem_append,
        facts_hold_iff entity, factsAll_hold_iff rest]
      tauto

end

mutual

theorem isLasting_facts : (entity : Entity) →
    ∀ fact ∈ entity.facts A, fact.isLasting = true
  | .value _ | .closure _ | .primitiveMethod _ _ | .method _ _ _ | .function _ | .cls _ | .module _
  | .builtin _ | .fork => by simp [facts, Fact.isLasting]
  | .range _ _ _ => by
      intro fact hφ
      obtain ⟨v, -, hφ⟩ := mem_flatMap.mp hφ
      rcases mem_pair.mp hφ with rfl | rfl <;> rfl
  | .zip items => isLasting_factsAll items
  | .enumerate inner => isLasting_facts inner

theorem isLasting_factsAll : (entities : List Entity) →
    ∀ fact ∈ factsAll A entities, fact.isLasting = true
  | [] => by simp [factsAll]
  | entity :: rest => forall_mem_append.mpr
      ⟨isLasting_facts entity, isLasting_factsAll rest⟩

end

end Entity

/-! ## The types of the variables -/

/-- How the innermost frame binds a name. -/
def Scope.slot? (scope : Scope) (name : String) : Option Slot :=
  scope.current?.bind fun frame => frame.slots.get? name

/-- What an action does to the variables: if it is still, they have the types they had. -/
def Scope.Agrees (still : Prop) (scope scope' : Scope) : Prop :=
  still → ∀ name, scope'.typeOf? name = scope.typeOf? name

/-- The types of the variables stay. -/
def quiet : Prop := True

/-- Anything can be bound. -/
def loud : Prop := False

namespace Scope

variable {still : Prop} {scope scope' scope'' : Scope} {name other : String}

theorem Agrees.refl (still : Prop) (scope : Scope) : scope.Agrees still scope := fun _ _ => rfl

theorem Agrees.trans (h : scope.Agrees still scope') (h' : scope'.Agrees still scope'') :
    scope.Agrees still scope'' :=
  fun hstill name => (h' hstill name).trans (h hstill name)

theorem Agrees.of_quiet (h : scope.Agrees quiet scope') : scope.Agrees still scope' :=
  fun _ => h trivial

theorem agrees_loud (scope scope' : Scope) : scope.Agrees loud scope' := fun h => h.elim

theorem SameBindings.slot? (h : scope.SameBindings scope') (name : String) :
    scope'.slot? name = scope.slot? name := by
  have hhead : (scope'.frames.map Frame.core).head? = (scope.frames.map Frame.core).head? :=
    congrArg head? h
  rw [head?_map, head?_map] at hhead
  have hslots := congrArg (fun head => head.bind fun frame : Frame => frame.slots.get? name) hhead
  simpa [Scope.slot?, current?, Option.bind_map, Function.comp_def, Frame.core] using hslots

theorem slot?_bindCurrent (scope : Scope) (slot : Slot) (h : name ≠ other) :
    (scope.bindCurrent other slot).slot? name = scope.slot? name := by
  obtain ⟨_ | ⟨frame, outer⟩⟩ := scope
  · rfl
  · simp [slot?, current?, bindCurrent, Frame.bind, NameMap.get?_insert, h]

theorem findFrom_map_core (name : String) (frames : List Frame) :
    findFrom name (frames.map Frame.core) = findFrom name frames := by
  induction frames with
  | nil => rfl
  | cons frame outer ih => simp [findFrom, Frame.get?, Frame.core, ← ih]

theorem findWithinBody_map_core (name : String) (frames : List Frame) :
    findWithinBody name (frames.map Frame.core) = findWithinBody name frames := by
  induction frames with
  | nil => rfl
  | cons frame outer ih => simp [findWithinBody, Frame.get?, Frame.core, ← ih]

/-- A name whose slot did not change is found where it was. -/
theorem Kept.find? (h : scope.Kept scope') (hslot : scope'.slot? name = scope.slot? name) :
    scope'.find? name = scope.find? name := by
  obtain ⟨frames⟩ := scope
  obtain ⟨frames'⟩ := scope'
  cases frames with
  | nil =>
    obtain rfl : frames' = [] := map_eq_nil_iff.mp h.shells
    rfl
  | cons frame outer =>
    obtain ⟨frame', outer', rfl, -, -⟩ := map_eq_cons_iff.mp h.shells
    have houter : outer'.map Frame.core = outer.map Frame.core := h.outer
    have hlen : outer'.length = outer.length := by
      simpa using congrArg length houter
    have hslots : frame'.slots.get? name = frame.slots.get? name := hslot
    show findFrom name (frame' :: outer') = findFrom name (frame :: outer)
    rw [findFrom, findFrom, ← findFrom_map_core, houter, findFrom_map_core, hlen, Frame.get?,
      Frame.get?, hslots]

/-- The binding around the innermost frame stays. -/
theorem Kept.findEnclosing? (h : scope.Kept scope') (name : String) :
    scope'.findEnclosing? name = scope.findEnclosing? name := by
  obtain ⟨frames⟩ := scope
  obtain ⟨frames'⟩ := scope'
  cases frames with
  | nil =>
    obtain rfl : frames' = [] := map_eq_nil_iff.mp h.shells
    rfl
  | cons frame outer =>
    obtain ⟨frame', outer', rfl, hshell, -⟩ := map_eq_cons_iff.mp h.shells
    have houter : outer'.map Frame.core = outer.map Frame.core := h.outer
    have hstarts : frame'.shell.startsBody = frame.shell.startsBody :=
      congrArg Frame.startsBody hshell
    simp only [Frame.shell] at hstarts
    rw [findEnclosing?, findEnclosing?]
    simp only [hstarts]
    rw [← findWithinBody_map_core, houter, findWithinBody_map_core]

theorem Kept.typeOf? (h : scope.Kept scope') (hslot : scope'.slot? name = scope.slot? name) :
    scope'.typeOf? name = scope.typeOf? name := by
  rw [Scope.typeOf?, Scope.typeOf?, h.find? hslot]

theorem SameBindings.agrees (h : scope.SameBindings scope') (still : Prop) :
    scope.Agrees still scope' :=
  fun _ name => h.kept.typeOf? (h.slot? name)

end Scope

/-! ## Facts are stable -/

section Stable

variable {A : Prop} {H : List ValueId} {s t : LowerState} {fact : Fact}

theorem Held.mono (h : WellFormed H s) (hadv : Advances H s t) {v : ValueId}
    (hv : Held H s v) : Held H t v :=
  ⟨hv.1, hadv.point ▸ hv.2.mono hadv.grows h.hasAnchor⟩

mutual

theorem Entity.Refused.mono {g g' : Graph} : (entity : Entity) →
    (∀ v ∈ entity.values, ∀ ty, g.typeOf? v = some ty → g'.typeOf? v = some ty) →
    entity.Refused g → entity.Refused g'
  | .value v, hkeep, h => by
      obtain ⟨ty, hty, hindexable⟩ := h
      exact ⟨ty, hkeep v (mem_singleton.mpr rfl) ty hty, hindexable⟩
  | .zip items, hkeep, h => Entity.SomeRefused.mono items hkeep h
  | .enumerate inner, hkeep, h => Entity.Refused.mono inner hkeep h
  | .range _ _ _, _, h | .closure _, _, h | .method _ _ _, _, h | .primitiveMethod _ _, _, h
  | .builtin _, _, h | .function _, _, h | .cls _, _, h | .fork, _, h | .module _, _, h => h

theorem Entity.SomeRefused.mono {g g' : Graph} : (entities : List Entity) →
    (∀ v ∈ Entity.valuesAll entities, ∀ ty, g.typeOf? v = some ty → g'.typeOf? v = some ty) →
    Entity.SomeRefused g entities → Entity.SomeRefused g' entities
  | [], _, h => h
  | entity :: rest, hkeep, h => h.imp
      (Entity.Refused.mono entity fun v hv => hkeep v (mem_append_left _ hv))
      (Entity.SomeRefused.mono rest fun v hv => hkeep v (mem_append_right _ hv))

end

section

variable (htype : ∀ v, v ∉ H → ∀ ty, s.graph.typeOf? v = some ty → t.graph.typeOf? v = some ty)
  (hdefined : ∀ v, s.graph.Defined s.point v → t.graph.Defined t.point v)
  (hsignatures : s.signatures ⊆ t.signatures)
include htype hdefined hsignatures

/-- Lasting facts carry over to a state with the same signatures where held values are held and
settled types are the same. -/
theorem Fact.Holds.carry (hlast : fact.isLasting = true)
    (hφ : fact.Holds A H s) : fact.Holds A H t := by
  induction fact with
  | held v => exact ⟨hφ.1, hdefined v hφ.2⟩
  | typed v ty => exact ⟨hφ.1, htype v hφ.1 ty hφ.2⟩
  | settled v ty =>
    intro hA
    obtain ⟨hv, hty⟩ := hφ hA
    exact ⟨hv, htype v hv ty hty⟩
  | fits v ty =>
    obtain ⟨hv, found, hfd, hsub⟩ := hφ
    exact ⟨hv, found, htype v hv found hfd, hsub⟩
  | narrows map => cases hlast
  | signed closure signature => exact hsignatures hφ
  | refused entity =>
    exact ⟨hφ.1, Entity.Refused.mono entity (fun v hv => htype v (hφ.1 v hv)) hφ.2⟩
  | sure claim => exact hφ
  | either first second ih ih' =>
    rw [Fact.isLasting, Bool.and_eq_true] at hlast
    exact Or.imp (ih hlast.1) (ih' hlast.2) hφ

/-- Where the names mean the same, all facts carry over. -/
theorem Fact.Holds.carry_all (hsc : ∀ name, t.scope.typeOf? name = s.scope.typeOf? name)
    (hφ : fact.Holds A H s) : fact.Holds A H t := by
  induction fact with
  | narrows map =>
    refine ⟨hφ.1, fun entry he => ?_⟩
    rw [hsc]
    exact hφ.2 entry he
  | either first second ih ih' => exact Or.imp ih ih' hφ
  | _ => exact Fact.Holds.carry htype hdefined hsignatures rfl hφ

end

theorem Fact.Holds.mono (h : WellFormed H s) (hadv : Advances H s t)
    (hlast : fact.isLasting = true) (hφ : fact.Holds A H s) : fact.Holds A H t :=
  hφ.carry (fun _ hv _ hty => hadv.typeOf? hv hty)
    (fun _ hv => hadv.point ▸ hv.mono hadv.grows h.hasAnchor) hadv.signatures.subset hlast

/-- Quiet actions keep every fact. -/
theorem Fact.Holds.mono_quiet (h : WellFormed H s) (hadv : Advances H s t)
    (hq : s.scope.Agrees quiet t.scope) (hφ : fact.Holds A H s) : fact.Holds A H t :=
  hφ.carry_all (fun _ hv _ hty => hadv.typeOf? hv hty)
    (fun _ hv => hadv.point ▸ hv.mono hadv.grows h.hasAnchor) hadv.signatures.subset (hq trivial)

end Stable

/-! ## The judgement -/

namespace Lower

variable {α β : Type} {A : Prop} {H : List ValueId} {still : Prop} {Γ Γ' : List Fact}
  {action : Lower α} {Δ Δ' : α → List Fact} {f : α → Lower β} {Θ : β → List Fact} {items : List α}
  {steps : Build α} {a : α} {fault : Fault} {claim : α → Prop} {b : β} {ctx : LowerContext}

def Emits (A : Prop) (H : List ValueId) (still : Prop) (Γ : List Fact)
    (action : Lower α) (Δ : α → List Fact) : Prop :=
  ∀ ctx s a t, Ready A H ctx s → (∀ fact ∈ Γ, fact.Holds A H s) → action ctx s = .ok (a, t) →
      Emission A H s t ∧ s.scope.Agrees still t.scope ∧ ∀ fact ∈ Δ a, fact.Holds A H t

/-- The action emits something, and nothing is said of what it gives. -/
abbrev Acts (A : Prop) (H : List ValueId) (still : Prop) (Γ : List Fact)
    (action : Lower α) : Prop :=
  Emits A H still Γ action fun _ => []

/-- The action gives an entity that can be used, and leaves the scope as it was. -/
abbrev Denotes (A : Prop) (H : List ValueId) (Γ : List Fact) (action : Lower Entity) : Prop :=
  Emits A H quiet Γ action fun entity => entity.facts A

/-- The action gives a value that can be used, and leaves the scope as it was. -/
abbrev Produces (A : Prop) (H : List ValueId) (Γ : List Fact) (action : Lower ValueId) : Prop :=
  Emits A H quiet Γ action fun v => [.held v]

/-! ### Runs -/

section Run

variable {ctx : LowerContext} {s t : LowerState}

theorem bind_iff : (action >>= f) ctx s = .ok (b, t) ↔
    ∃ a u, action ctx s = .ok (a, u) ∧ f a ctx u = .ok (b, t) := by
  show (Except.bind (action ctx s) fun p => f p.1 ctx p.2) = _ ↔ _
  cases action ctx s with
  | error failure => simp [Except.bind]
  | ok answer =>
    obtain ⟨a, u⟩ := answer
    simp [Except.bind]

alias ⟨bind_ok, _⟩ := bind_iff

theorem pure_iff {b : α} : (pure a : Lower α) ctx s = .ok (b, t) ↔ a = b ∧ s = t := by
  show Except.ok (a, s) = _ ↔ _
  simp

alias ⟨pure_ok, _⟩ := pure_iff

theorem map_ok {f : α → β} (h : (action >>= fun a => pure (f a)) ctx s = .ok (b, t)) :
    ∃ a, action ctx s = .ok (a, t) ∧ f a = b := by
  obtain ⟨a, _, hrun, h⟩ := bind_ok h
  obtain ⟨rfl, rfl⟩ := pure_ok h
  exact ⟨a, hrun, rfl⟩

theorem getScope_run {f : Scope → Lower α} {result : Except Failure (α × LowerState)}
    (h : (getScope >>= f) ctx s = result) : f s.scope ctx s = result := h

/-- Whether an action succeeds with a given outcome can be evaluated. -/
instance decidableRuns {action : Lower α} {ctx : LowerContext} {s : LowerState}
    (P : α → LowerState → Prop) [∀ a t, Decidable (P a t)] :
    Decidable (∃ a t, action ctx s = .ok (a, t) ∧ P a t) :=
  match action ctx s with
  | .error _ => .isFalse fun ⟨_, _, heq, _⟩ => nomatch heq
  | .ok (a, t) => decidable_of_iff (P a t)
      ⟨fun hp => ⟨a, t, rfl, hp⟩, fun ⟨_, _, heq, hp⟩ => by cases heq; exact hp⟩

theorem fail_ok : ¬(fail fault : Lower α) ctx s = .ok (a, t) := by
  intro h
  cases h

theorem ofExcept_ok {answer : Except Fault α} (h : ofExcept answer ctx s = .ok (a, t)) :
    answer = .ok a ∧ t = s := by
  cases answer with
  | error fault => cases h
  | ok found =>
    obtain ⟨rfl, rfl⟩ := pure_ok h
    exact ⟨rfl, rfl⟩

theorem build_ok (h : build steps ctx s = .ok (a, t)) :
    ∃ builder, steps s.builder = some (a, builder) ∧ t = { s with builder } := by
  obtain ⟨_, _, hget, h⟩ := bind_ok h
  cases hget
  cases hsteps : steps s.builder with rw [hsteps] at h
  | none => cases h
  | some answer =>
    obtain ⟨_, _, hset, h⟩ := bind_ok h
    cases hset
    obtain ⟨rfl, rfl⟩ := pure_ok h
    exact ⟨answer.2, rfl, rfl⟩

theorem build_run (h : (build steps >>= f) ctx s = .ok (b, t)) : ∃ a builder,
      steps s.builder = some (a, builder) ∧ f a ctx { s with builder } = .ok (b, t) := by
  obtain ⟨a, _, hrun, h⟩ := bind_ok h
  obtain ⟨builder, hsteps, rfl⟩ := build_ok hrun
  exact ⟨a, builder, hsteps, h⟩

theorem build_eq_ok {builder : Builder} (h : steps s.builder = some (a, builder)) :
    build steps ctx s = .ok (a, { s with builder }) := by
  refine bind_iff.mpr ⟨s, s, rfl, ?_⟩
  rw [h]
  exact bind_iff.mpr ⟨(), _, rfl, pure_iff.mpr ⟨rfl, rfl⟩⟩

end Run

/-! ### Rules -/

namespace Emits

theorem apply {s t : LowerState} (h : Emits A H still Γ action Δ)
    (hready : Ready A H ctx s) (hΓ : ∀ fact ∈ Γ, fact.Holds A H s)
    (hrun : action ctx s = .ok (a, t)) :
    Emission A H s t ∧ s.scope.Agrees still t.scope ∧ ∀ fact ∈ Δ a, fact.Holds A H t :=
  h ctx s a t hready hΓ hrun

theorem weaken (h : Emits A H still Γ action Δ) (hΓ : Γ ⊆ Γ') : Emits A H still Γ' action Δ :=
  fun ctx s a t hready hfacts hrun =>
    h ctx s a t hready (fun fact hφ => hfacts fact (hΓ hφ)) hrun

theorem consequence (h : Emits A H still Γ action Δ) (hΔ : ∀ a, Δ' a ⊆ Δ a) :
    Emits A H still Γ action Δ' := by
  intro ctx s a t hready hΓ hrun
  obtain ⟨hemit, hagr, hafter⟩ := h ctx s a t hready hΓ hrun
  exact ⟨hemit, hagr, fun fact hφ => hafter fact (hΔ a hφ)⟩

/-- What follows from the facts after an action. -/
theorem imply (h : Emits A H still Γ action Δ) (hΔ : ∀ a s, (∀ fact ∈ Δ a, fact.Holds A H s) →
      ∀ fact ∈ Δ' a, fact.Holds A H s) : Emits A H still Γ action Δ' := by
  intro ctx s a t hready hΓ hrun
  obtain ⟨hemit, hagr, hafter⟩ := h ctx s a t hready hΓ hrun
  exact ⟨hemit, hagr, hΔ a t hafter⟩

theorem of_quiet (h : Emits A H quiet Γ action Δ) : Emits A H still Γ action Δ := by
  intro ctx s a t hready hΓ hrun
  obtain ⟨hemit, hagr, hafter⟩ := h ctx s a t hready hΓ hrun
  exact ⟨hemit, hagr.of_quiet, hafter⟩

/-- The first step of a run, after which all facts still hold if it is quiet. -/
theorem step {s t : LowerState} (h : Emits A H quiet Γ action Δ)
    (hready : Ready A H ctx s) (hΓ : ∀ fact ∈ Γ, fact.Holds A H s)
    (hrun : (action >>= f) ctx s = .ok (b, t)) :
    ∃ a u, Emission A H s u ∧ s.scope.Agrees quiet u.scope ∧
      Ready A H ctx u ∧ (∀ fact ∈ Δ a ++ Γ, fact.Holds A H u) ∧ f a ctx u = .ok (b, t) := by
  obtain ⟨a, u, hfirst, hr⟩ := bind_ok hrun
  obtain ⟨hemit, hq, hafter⟩ := h ctx s a u hready hΓ hfirst
  have hadv := (hemit.sound hready.toWellFormed).2
  exact ⟨a, u, hemit, hq, hemit.ready hready, forall_mem_append.mpr
    ⟨hafter, fun fact hφ => (hΓ fact hφ).mono_quiet hready.toWellFormed hadv hq⟩, hr⟩

/-- After a quiet action, all facts still hold. -/
theorem bind (h : Emits A H quiet Γ action Δ) (hf : ∀ a, Emits A H still (Δ a ++ Γ) (f a) Θ) :
    Emits A H still Γ (action >>= f) Θ := by
  intro ctx s b u hready hΓ hrun
  obtain ⟨a, t, hemit, hq, hready', hfacts', hr⟩ := h.step hready hΓ hrun
  obtain ⟨hemit', hagr, hlast⟩ := hf a ctx t b u hready' hfacts' hr
  exact ⟨hemit.trans hemit', hq.of_quiet.trans hagr, hlast⟩

/-- After any action, the lasting facts still hold. -/
theorem bind_loud (h : Emits A H still Γ action Δ)
    (hf : ∀ a, Emits A H still (Δ a ++ Γ.filter Fact.isLasting) (f a) Θ) :
    Emits A H still Γ (action >>= f) Θ := by
  intro ctx s b u hready hΓ hrun
  obtain ⟨a, t, hrun, hrun'⟩ := bind_ok hrun
  obtain ⟨hemit, hagr, hafter⟩ := h ctx s a t hready hΓ hrun
  obtain ⟨-, hadv⟩ := hemit.sound hready.toWellFormed
  obtain ⟨hemit', hagrees', hlast⟩ := hf a ctx t b u (hemit.ready hready) (fun fact hφ => by
    rcases mem_append.mp hφ with hnew | hold
    · exact hafter fact hnew
    · obtain ⟨hold, hlasting⟩ := mem_filter.mp hold
      exact (hΓ fact hold).mono hready.toWellFormed hadv hlasting) hrun'
  exact ⟨hemit.trans hemit', hagr.trans hagrees', hlast⟩

theorem pure (h : ∀ fact ∈ Δ a, fact ∈ Γ) : Emits A H still Γ (Pure.pure a) Δ := by
  intro ctx s b t hready hΓ hrun
  obtain ⟨rfl, rfl⟩ := pure_ok hrun
  exact ⟨.refl H s, .refl still s.scope, fun fact hφ => hΓ fact (h fact hφ)⟩

theorem fail : Emits A H still Γ (Lower.fail fault) Δ := by
  intro ctx s a t hready hΓ hrun
  exact absurd hrun fail_ok

theorem fail_bind {f : β → Lower α} : Emits A H still Γ (Lower.fail fault >>= f) Δ := by
  intro ctx s a t hready hΓ hrun
  obtain ⟨_, _, hfail, -⟩ := bind_ok hrun
  exact absurd hfail fail_ok

/-- A fact that follows from those at hand. -/
theorem derive (fact : Fact) (h : ∀ s, (∀ fact ∈ Γ, fact.Holds A H s) →
      fact.Holds A H s) (haction : Emits A H still (fact :: Γ) action Δ) :
    Emits A H still Γ action Δ := by
  intro ctx s a t hready hΓ hrun
  refine haction ctx s a t hready (fun other hother => ?_) hrun
  rcases mem_cons.mp hother with rfl | hother
  · exact h s hΓ
  · exact hΓ other hother

/-- A value of a type fits every supertype. -/
theorem derive_fits (v : ValueId) {ty target : Ty} (htyped : .typed v ty ∈ Γ)
    (hsub : ty.isSubtype target = true) (haction : Emits A H still (.fits v target :: Γ) action Δ) :
    Emits A H still Γ action Δ := by
  refine derive (.fits v target) (fun s hΓ => ?_) haction
  obtain ⟨hv, htype⟩ := hΓ _ htyped
  exact ⟨hv, ty, htype, hsub⟩

theorem of_sure {claim : Prop} (h : .sure claim ∈ Γ)
    (haction : claim → Emits A H still Γ action Δ) : Emits A H still Γ action Δ :=
  fun ctx s a t hready hΓ hrun => haction (hΓ _ h) ctx s a t hready hΓ hrun

/-- One of two facts holds, and either is enough. -/
theorem cases {first second : Fact} (h : .either first second ∈ Γ)
    (hfirst : Emits A H still (first :: Γ) action Δ)
    (hsnd : Emits A H still (second :: Γ) action Δ) : Emits A H still Γ action Δ := by
  intro ctx s a t hready hΓ hrun
  rcases hΓ _ h with hholds | hholds
  · exact hfirst ctx s a t hready (forall_mem_cons.mpr ⟨hholds, hΓ⟩) hrun
  · exact hsnd ctx s a t hready (forall_mem_cons.mpr ⟨hholds, hΓ⟩) hrun

/-- An action that cannot succeed has any facts after it. -/
theorem absurd (h : Emits A H still Γ action fun _ => [.sure False]) :
    Emits A H still Γ action Δ := by
  intro ctx s a t hready hΓ hrun
  exact (((h ctx s a t hready hΓ hrun).2.2 (.sure False) (by simp) : False)).elim

/-- A lasting fact that an action keeps. -/
theorem keep {fact : Fact} (h : fact ∈ Γ) (hlast : fact.isLasting = true)
    (haction : Emits A H still Γ action Δ) : Emits A H still Γ action fun a => fact :: Δ a := by
  intro ctx s a t hready hΓ hrun
  obtain ⟨hemit, hagr, hafter⟩ := haction ctx s a t hready hΓ hrun
  obtain ⟨-, hadv⟩ := hemit.sound hready.toWellFormed
  exact ⟨hemit, hagr, forall_mem_cons.mpr ⟨(hΓ fact h).mono hready.toWellFormed hadv hlast, hafter⟩⟩

/-- What is sure of an answer can be used to go on. -/
theorem bind_sure (h : Emits A H quiet Γ action fun a => .sure (claim a) :: Δ a)
    (hf : ∀ a, claim a → Emits A H still (Δ a ++ Γ) (f a) Θ) : Emits A H still Γ (action >>= f) Θ :=
  h.bind fun a => .of_sure (.head _) fun hclaim =>
    (hf a hclaim).weaken (subset_cons_self ..)

/-- Facts that hold of an answer whatever the state is. -/
theorem pure_sure (hclaim : claim a) (h : ∀ fact ∈ Δ a, fact ∈ Γ) :
    Emits A H still Γ (Pure.pure a) fun a => .sure (claim a) :: Δ a := by
  intro ctx s b t hready hΓ hrun
  obtain ⟨rfl, rfl⟩ := pure_ok hrun
  refine ⟨.refl H s, .refl still s.scope, ?_⟩
  rw [forall_mem_cons]
  exact ⟨hclaim, fun fact hφ => hΓ fact (h fact hφ)⟩

/-- An action that leaves the state alone. -/
theorem ask (h : ∀ ctx s a t, action ctx s = .ok (a, t) → t = s ∧
      (Ready A H ctx s → (∀ fact ∈ Γ, fact.Holds A H s) → ∀ fact ∈ Δ a, fact.Holds A H s)) :
    Emits A H still Γ action Δ := by
  intro ctx s a t hready hΓ hrun
  obtain ⟨rfl, hafter⟩ := h ctx s a t hrun
  exact ⟨.refl H t, .refl still t.scope, hafter hready hΓ⟩

/-! ### Asking for context and state -/

theorem read : Emits A H quiet Γ (MonadReader.read : Lower LowerContext)
    fun ctx => [.sure (A → ctx.Regular)] := by
  refine .ask fun ctx s a t h => ?_
  cases h
  refine ⟨rfl, fun hready _ => ?_⟩
  simpa using hready.context

theorem getScope : Acts A H quiet Γ Lower.getScope := by
  refine .ask fun ctx s a t h => ?_
  cases h
  exact ⟨rfl, fun _ _ => by simp⟩

/-! ### Lists -/

theorem mapM (h : ∀ a ∈ items, Emits A H quiet Γ (f a) Θ) :
    Emits A H quiet Γ (items.mapM f) fun answers => answers.flatMap Θ := by
  induction items generalizing Γ with
  | nil => exact .pure (by simp)
  | cons item rest ih =>
    rw [mapM_cons]
    refine (h item (.head _)).bind fun answer => ?_
    refine (ih fun a ha => ?_).bind fun answers => .pure ?_
    · exact (h a (mem_cons_of_mem item ha)).weaken (subset_append_right ..)
    · simp only [flatMap_cons, mem_append]
      rintro fact (hφ | hφ)
      · exact Or.inr (Or.inl hφ)
      · exact Or.inl hφ

theorem forM_quiet {f : α → Lower PUnit} (h : ∀ a ∈ items, Acts A H quiet Γ (f a)) :
    Acts A H quiet Γ (items.forM f) := by
  induction items with
  | nil => exact .pure (by simp)
  | cons item rest ih =>
    refine (h item (.head _)).bind fun _ => ?_
    exact ih fun a ha => h a (mem_cons_of_mem item ha)

theorem forM {f : α → Lower PUnit}
    (h : ∀ a ∈ items, Emits A H still (Γ.filter Fact.isLasting) (f a) fun _ => []) :
    Emits A H still Γ (items.forM f) fun _ => [] := by
  induction items generalizing Γ with
  | nil => exact .pure (by simp)
  | cons item rest ih =>
    refine ((h item (.head _)).weaken (filter_subset_self ..)).bind_loud fun _ => ?_
    refine ih fun a ha => ?_
    simpa using h a (mem_cons_of_mem item ha)

theorem foldlM {f : β → α → Lower β} {start : β} (hstart : Θ start ⊆ Γ)
    (h : ∀ b, ∀ a ∈ items, Emits A H quiet (Θ b ++ Γ) (f b a) Θ) :
    Emits A H quiet Γ (items.foldlM f start) Θ := by
  induction items generalizing Γ start with
  | nil => exact .pure fun fact hφ => hstart hφ
  | cons item rest ih =>
    rw [foldlM_cons]
    refine ((h start item (.head _)).weaken ?_).bind fun next => ?_
    · exact append_subset.mpr ⟨hstart, Subset.refl _⟩
    · refine ih (subset_append_left ..) fun b a ha => ?_
      refine (h b a (mem_cons_of_mem item ha)).weaken ?_
      intro fact hφ
      simp only [mem_append] at hφ ⊢
      exact hφ.imp_right Or.inr

end Emits

end Lower

end Flowgraph
