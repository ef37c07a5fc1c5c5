import Flowgraph.Proofs.Locations.Graphs
import Flowgraph.Proofs.Lowering.Logic
import Mathlib.Order.Defs.Unbundled

/-!
# What lowering keeps

A `Law` says how a run that starts in a state may end, and `Lower.Keeps L action` that all runs of
an action obey it.  A relation between scopes is such a law: it holds of the scopes before and after
every successful run.

That a law is kept follows the text of the action: whatever only works on the graph keeps every law
that admits the spans in the text, and sequences and case distinctions keep what their parts keep.
The rules are given to `grind`, which then goes through the text by itself.
-/

namespace Flowgraph

open List

/-- The fault says that a function does not return along all paths. -/
def Fault.saysMissingReturn : Fault → Bool
  | .name _ (.missingReturn _) => true
  | _ => false

/-- What is required of runs. -/
structure Law where
  /-- Where nodes may stand. -/
  span : Span → Prop
  /-- How a run that starts in a state may end. -/
  ends : LowerContext → LowerState → Except Failure LowerState → Prop

namespace Law

/-- The law is kept step by step, and by brackets around steps.  Of the graph only the places of the
nodes matter. -/
class Lawful (L : Law) : Prop where
  null : L.span .null
  internal : ∀ {ctx s cause}, L.ends ctx s (.error (.fault (.internal cause)))
  dangling : ∀ {ctx s}, L.ends ctx s (.error .dangling)
  deferred : ∀ {ctx s name fault}, s.scope.deferred? name = some fault →
    L.ends ctx s (.error (.fault fault))
  trans : ∀ {ctx s t e}, L.ends ctx s (.ok t) → L.ends ctx t e → L.ends ctx s e
  same : ∀ {ctx} {s t : LowerState}, (s.builder.Located L.span → t.builder.Located L.span) →
    t.scope = s.scope → t.bodies = s.bodies → t.point = s.point → L.ends ctx s (.ok t)
  elsewhere : ∀ {ctx s e point}, L.ends ctx (s.moveTo point) e →
    L.ends ctx s (e.map (·.moveTo s.point))
  within : ∀ {ctx} {s : LowerState} {e} {enter leave : List BodyContext → List BodyContext},
    leave (enter s.bodies) = s.bodies → L.ends ctx (s.mapBodies enter) e →
      L.ends ctx s (e.map (·.mapBodies leave))

/-- The bodies may change. -/
class BodiesFree (L : Law) : Prop where
  bodies : ∀ {ctx} {s : LowerState} {change : List BodyContext → List BodyContext},
    L.ends ctx s (.ok (s.mapBodies change))

/-- Nodes may stand at a span, and every fault but one may be reported there. -/
class At (L : Law) (span : Span) : Prop where
  node : L.span span
  fault : ∀ {ctx s} {fault : Fault}, fault.span? = some span → fault.saysMissingReturn = false →
    L.ends ctx s (.error (.fault fault))

attribute [grind ←] Lawful.null At.node

/-- All places of a list are admitted. -/
class Covers (L : Law) (spans : List Span) : Prop where
  mem : ∀ span ∈ spans, L.At span

theorem covers_cons {L : Law} {span : Span} {spans : List Span} :
    L.Covers (span :: spans) ↔ L.At span ∧ L.Covers spans :=
  ⟨fun h => ⟨h.mem span (.head _), ⟨fun a ha => h.mem a (mem_cons_of_mem span ha)⟩⟩,
    fun h => ⟨forall_mem_cons.mpr ⟨h.1, h.2.mem⟩⟩⟩

theorem covers_append {L : Law} {as bs : List Span} :
    L.Covers (as ++ bs) ↔ L.Covers as ∧ L.Covers bs :=
  ⟨fun h => ⟨⟨fun a ha => h.mem a (mem_append_left bs ha)⟩,
    ⟨fun b hb => h.mem b (mem_append_right as hb)⟩⟩,
    fun h => ⟨forall_mem_append.mpr ⟨h.1.mem, h.2.mem⟩⟩⟩

/-- The scopes before and after a successful run are related. -/
def scope (R : Scope → Scope → Prop) : Law where
  span _ := True
  ends _ s e := ∀ t, e = .ok t → R s.scope t.scope

instance : Coe (Scope → Scope → Prop) Law := ⟨scope⟩

variable {R : Scope → Scope → Prop}

instance [IsPreorder Scope R] : (scope R).Lawful where
  null := trivial
  internal _ h := nomatch h
  dangling _ h := nomatch h
  deferred _ _ h := nomatch h
  trans h h' t ht := trans_of R (h _ rfl) (h' t ht)
  same _ hscope _ _ _ ht := by
    cases ht
    exact hscope ▸ refl_of R _
  elsewhere {_ _ e _} h t ht := by
    cases e <;> cases ht
    have hend := h _ rfl
    exact hend
  within {_ _ e _ _} _ h t ht := by
    cases e <;> cases ht
    have hend := h _ rfl
    exact hend

instance [IsPreorder Scope R] : (scope R).BodiesFree where
  bodies t ht := by
    cases ht
    exact refl_of R _

instance {span : Span} : (scope R).At span where
  node := trivial
  fault _ _ _ h := nomatch h

instance {spans : List Span} : (scope R).Covers spans := ⟨fun _ _ => inferInstance⟩

end Law

namespace Lower

variable {α β : Type} {ctx : LowerContext} {s t s' : LowerState} {action default : Lower α}
  {f : α → Lower β} {change : BodyContext → BodyContext} {steps : Build α} {fault : Fault}
  {items : List α} {a : α}

/-- The runs of the action obey the law. -/
def Keeps (L : Law) (action : Lower α) : Prop :=
  ∀ ctx s, L.ends ctx s ((action ctx s).map Prod.snd)

theorem bind_error {failure : Failure} (h : action ctx s = .error failure) :
    (action >>= f) ctx s = .error failure := by
  show Except.bind (action ctx s) _ = _
  rw [h]
  rfl

theorem bind_of_ok (h : action ctx s = .ok (a, t)) : (action >>= f) ctx s = f a ctx t := by
  show Except.bind (action ctx s) _ = _
  rw [h]
  rfl

theorem get_self : (get : Lower LowerState) ctx s = .ok (s, s) := rfl

theorem build_none (h : steps s.builder = none) : build steps ctx s = .error .dangling := by
  rw [build, bind_of_ok get_self]
  simp only [h]
  rfl

theorem build_some {builder : Builder} (h : steps s.builder = some (a, builder)) :
    build steps ctx s = .ok (a, { s with builder }) := by
  rw [build, bind_of_ok get_self]
  simp only [h]
  rfl

theorem modifyBody_nil (h : s.bodies = []) :
    modifyBody change ctx s = .error (.fault (.internal .outsideBody)) := by
  rw [modifyBody, bind_of_ok get_self]
  simp only [h]
  rfl

theorem modifyBody_cons (h : s.bodies ≠ []) :
    modifyBody change ctx s = .ok ((), s.mapBodies (modifyHead change)) := by
  obtain ⟨body, outer, heq⟩ := exists_cons_of_ne_nil h
  rw [modifyBody, bind_of_ok get_self, LowerState.mapBodies]
  simp only [heq]
  rfl

theorem fail_bind_ok {b : β} : (Lower.fail fault >>= f) ctx s ≠ .ok (b, t) := by
  intro hrun
  obtain ⟨_, _, hfail, -⟩ := bind_ok hrun
  exact absurd hfail fail_ok

namespace Keeps

/-! ## Relations between scopes -/

section Scope

variable {R S : Scope → Scope → Prop}

theorem run (h : Keeps R action) (hrun : action ctx s = .ok (a, t)) : R s.scope t.scope :=
  h ctx s t (by rw [hrun]; rfl)

theorem of_run (h : ∀ ctx s a t, action ctx s = .ok (a, t) → R s.scope t.scope) :
    Keeps R action := by
  intro ctx s t hend
  cases hrun : action ctx s with rw [hrun] at hend
  | error failure => cases hend
  | ok answer =>
    cases hend
    exact h ctx s answer.1 answer.2 hrun

theorem mono (h : Keeps R action) (hle : ∀ scope scope', R scope scope' → S scope scope') :
    Keeps S action :=
  of_run fun _ _ _ _ hrun => hle _ _ (h.run hrun)

theorem fail : Keeps R (Lower.fail fault : Lower α) :=
  of_run fun _ _ _ _ hrun => absurd hrun fail_ok

theorem fail_bind : Keeps R (Lower.fail fault >>= f) :=
  of_run fun _ _ _ _ hrun => absurd hrun fail_bind_ok

theorem graph [IsPreorder Scope R] : Keeps R (Lower.build steps) := by
  refine of_run fun ctx s a t hrun => ?_
  obtain ⟨_, -, rfl⟩ := build_ok hrun
  exact refl_of R s.scope

theorem after (h : Keeps (.scope Eq) action) (hf : ∀ a, Keeps R (f a)) :
    Keeps R (action >>= f) := by
  refine of_run fun ctx s b u hrun => ?_
  obtain ⟨a, t, hfirst, hr⟩ := bind_ok hrun
  have hsc : s.scope = t.scope := h.run hfirst
  exact hsc ▸ (hf a).run hr

theorem of_eq [IsPreorder Scope R]
    (h : ∀ ctx s a t, action ctx s = .ok (a, t) → t.scope = s.scope) : Keeps R action := by
  refine of_run fun ctx s a t hrun => ?_
  rw [h ctx s a t hrun]
  exact refl_of R s.scope

end Scope

/-! ## Faults -/

section Faults

variable {L : Law} {span : Span} [hspan : L.At span]

@[grind ←] theorem shape {cause : ShapeCause} :
    Keeps L (Lower.fail (.shape span cause) : Lower α) :=
  fun _ _ => hspan.fault rfl rfl

@[grind ←] theorem type {cause : TypeCause} : Keeps L (Lower.fail (.type span cause) : Lower α) :=
  fun _ _ => hspan.fault rfl rfl

@[grind ←] theorem unsupported {cause : UnsupportedCause} :
    Keeps L (Lower.fail (.unsupported span cause) : Lower α) :=
  fun _ _ => hspan.fault rfl rfl

@[grind ←] theorem undefined {name : String} :
    Keeps L (Lower.fail (.name span (.undefined name)) : Lower α) :=
  fun _ _ => hspan.fault rfl rfl

@[grind ←] theorem noMember {module name : String} :
    Keeps L (Lower.fail (.name span (.noMember module name)) : Lower α) :=
  fun _ _ => hspan.fault rfl rfl

end Faults

/-! ## Sequences -/

variable {L : Law}

/-- The last steps of a bracket, after an action that may have been run from another state. -/
theorem ends_bind {leave : LowerState → LowerState}
    (h : L.ends ctx s (((action ctx s').map Prod.snd).map leave))
    (hf : ∀ a t, L.ends ctx s (.ok (leave t)) → L.ends ctx s ((f a ctx t).map Prod.snd)) :
    L.ends ctx s (((action >>= f) ctx s').map Prod.snd) := by
  cases hrun : action ctx s' with
  | error failure =>
    rw [bind_error hrun]
    rwa [hrun] at h
  | ok answer =>
    rw [bind_of_ok hrun]
    rw [hrun] at h
    exact hf answer.1 answer.2 h

variable [hL : L.Lawful]

@[grind ←] theorem pure : Keeps L (Pure.pure a : Lower α) :=
  fun _ _ => hL.same id rfl rfl rfl

@[grind ←] theorem bind (h : Keeps L action) (hf : ∀ a, Keeps L (f a)) :
    Keeps L (action >>= f) := by
  intro ctx s
  have hfirst := h ctx s
  cases hrun : action ctx s with
  | ok answer =>
    rw [hrun] at hfirst
    rw [bind_of_ok hrun]
    exact hL.trans hfirst (hf answer.1 ctx answer.2)
  | error failure =>
    rw [bind_error hrun]
    rwa [hrun] at hfirst

theorem guarded {condition : Prop} [Decidable condition] {action : Lower β}
    (hfault : Keeps L (Lower.fail fault : Lower α)) (h : Keeps L action) :
    Keeps L (if condition then (Lower.fail fault : Lower α) >>= fun _ => action else action) := by
  split
  · exact hfault.bind fun _ => h
  · exact h

@[grind ←] theorem mapM (h : ∀ a ∈ items, Keeps L (f a)) : Keeps L (items.mapM f) := by
  induction items with
  | nil => exact pure
  | cons item rest ih =>
    rw [mapM_cons]
    have hit := h item (.head _)
    have hr := ih fun a ha => h a (mem_cons_of_mem item ha)
    grind

@[grind ←] theorem forM {f : α → Lower PUnit} (h : ∀ a ∈ items, Keeps L (f a)) :
    Keeps L (items.forM f) := by
  induction items with
  | nil => exact pure
  | cons item rest ih =>
    exact (h item (.head _)).bind fun _ => ih fun a ha => h a (mem_cons_of_mem item ha)

@[grind ←] theorem foldlM {f : β → α → Lower β} {start : β}
    (h : ∀ b, ∀ a ∈ items, Keeps L (f b a)) : Keeps L (items.foldlM f start) := by
  induction items generalizing start with
  | nil => exact pure
  | cons item rest ih =>
    rw [foldlM_cons]
    exact (h start item (.head _)).bind fun _ =>
      ih fun b a ha => h b a (mem_cons_of_mem item ha)

@[grind ←] theorem getDM {value : Option α} (h : Keeps L default) :
    Keeps L (value.getDM default) := by
  cases value with
  | none => exact h
  | some a => exact pure

@[grind ←] theorem internal {cause : InternalCause} :
    Keeps L (Lower.fail (.internal cause) : Lower α) :=
  fun _ _ => hL.internal

theorem ofExcept {answer : Except Fault α}
    (h : ∀ fault, answer = .error fault → Keeps L (Lower.fail fault : Lower α)) :
    Keeps L (Lower.ofExcept answer) := by
  cases answer with
  | ok a => exact pure
  | error fault => exact h fault rfl

/-! ## The state -/

@[grind ←] theorem build (h : steps.Locates L.span) : Keeps L (Lower.build steps) := by
  intro ctx s
  cases hsteps : steps s.builder with
  | none =>
    rw [build_none hsteps]
    exact hL.dangling
  | some answer =>
    have ⟨hpoint, hns⟩ := h _ _ _ hsteps
    rw [build_some hsteps]
    exact hL.same hns rfl rfl hpoint

@[grind ←] theorem read : Keeps L (MonadReader.read : Lower LowerContext) :=
  fun _ _ => hL.same id rfl rfl rfl

@[grind ←] theorem get : Keeps L (MonadState.get : Lower LowerState) :=
  fun _ _ => hL.same id rfl rfl rfl

@[grind ←] theorem getScope : Keeps L Lower.getScope :=
  fun _ _ => hL.same id rfl rfl rfl

@[grind ←] theorem atPoint {enter : Build InsertPoint} (henter : enter.Moves) (h : Keeps L action) :
    Keeps L (Lower.atPoint enter action) := by
  intro ctx s
  cases hsteps : enter s.builder with
  | none =>
    rw [Lower.atPoint, bind_error (build_none hsteps)]
    exact hL.dangling
  | some answer =>
    obtain ⟨previous, builder⟩ := answer
    obtain ⟨rfl, point, rfl⟩ := henter _ _ _ hsteps
    rw [Lower.atPoint, bind_of_ok (build_some hsteps)]
    exact ends_bind (hL.elsewhere (h ctx (s.moveTo point))) fun _ _ hleft => hleft

@[grind ←] theorem inBlock {block : BlockId} (h : Keeps L action) :
    Keeps L (Lower.inBlock block action) :=
  atPoint .enterBlock h

@[grind ←] theorem modifyBody [hfree : L.BodiesFree] : Keeps L (Lower.modifyBody change) := by
  intro ctx s
  by_cases hbodies : s.bodies = []
  · rw [modifyBody_nil hbodies]
    exact hL.internal
  · rw [modifyBody_cons hbodies]
    exact hfree.bodies

@[grind ←] theorem getBody : Keeps L Lower.getBody := by
  unfold Lower.getBody
  grind

@[grind ←] theorem withLoop {kind : LoopKind} (h : Keeps L action) :
    Keeps L (Lower.withLoop kind action) := by
  intro ctx s
  by_cases hbodies : s.bodies = []
  · rw [Lower.withLoop, bind_error (modifyBody_nil hbodies)]
    exact hL.internal
  · rw [Lower.withLoop, bind_of_ok (modifyBody_cons hbodies)]
    have hback : modifyHead (fun body => { body with loops := body.loops.tail })
        (modifyHead (fun body => { body with loops := kind :: body.loops }) s.bodies) =
        s.bodies := by
      obtain ⟨body, outer, heq⟩ := exists_cons_of_ne_nil hbodies
      rw [heq]
      rfl
    refine ends_bind (hL.within hback (h ctx _)) fun a t hleft => ?_
    by_cases hnone : t.bodies = []
    · rw [bind_error (modifyBody_nil hnone)]
      exact hL.internal
    · rw [bind_of_ok (modifyBody_cons hnone)]
      exact hleft

@[grind ←] theorem withBody {body : BodyContext} (h : Keeps L action) :
    Keeps L (Lower.withBody body action) := by
  intro ctx s
  have hpush :
    (modify fun state => { state with bodies := body :: state.bodies } : Lower PUnit) ctx s =
      .ok (⟨⟩, s.mapBodies (body :: ·)) := rfl
  rw [Lower.withBody, bind_of_ok hpush]
  have hback : tail (body :: s.bodies) = s.bodies := rfl
  exact ends_bind (hL.within hback (h ctx _)) fun _ _ hleft => hleft

end Keeps

end Lower

end Flowgraph
