import Flowgraph.Proofs.Regular

/-!
# The types that programs can write

A type is denotable in a host if it is in normal form, has no ranks, has only keys that dicts can
have, and has only classes that the host knows by their names.  Reading an annotation gives
denotable types only, and each of them is read from the annotation that spells it.
-/

namespace Flowgraph

open List

/-- The types that a program can write. -/
inductive Ty.Denotable (host : Host) : Ty → Prop
  | tensor : Denotable host .tensor
  | int : Denotable host .int
  | float : Denotable host .float
  | bool : Denotable host .bool
  | str : Denotable host .str
  | nothing : Denotable host .nothing
  | number : Denotable host .number
  | optional {inner : Ty} (hinner : Denotable host inner) (hnil : inner ≠ .nothing)
      (hopt : inner.asOptional? = none) : Denotable host (.optional inner)
  | list {elem : Ty} (helem : Denotable host elem) : Denotable host (.list elem)
  | tuple {elems : List Ty} (helems : ∀ elem ∈ elems, Denotable host elem) :
      Denotable host (.tuple elems)
  | dict {key value : Ty} (hkey : isSurfaceKey key = true) (hvalue : Denotable host value) :
      Denotable host (.dict key value)
  | future {inner : Ty} (hinner : Denotable host inner) : Denotable host (.future inner)
  /-- The host answers with the class wherever it is asked for its name. -/
  | object {cls : Class} (hname : builtinType? cls.name = none)
      (hhost : ∀ span, host.type? cls.name span = some (.object cls)) : Denotable host (.object cls)

namespace Ty

mutual

/-- The expression that spells a type, at a place, with names written in a given way. -/
def toExpr (write : String → Expr) (span : Span) : Ty → Expr
  | .optional inner => .subscript span (.var span "Optional") [inner.toExpr write span]
  | .list elem => .subscript span (.var span "List") [elem.toExpr write span]
  | .tuple elems => .subscript span (.var span "Tuple") (toExprs write span elems)
  | .dict key value =>
    .subscript span (.var span "Dict") [key.toExpr write span, value.toExpr write span]
  | .future inner => .subscript span (.var span "Future") [inner.toExpr write span]
  | ty => write ty.render

def toExprs (write : String → Expr) (span : Span) : List Ty → List Expr
  | [] => []
  | elem :: elems => elem.toExpr write span :: toExprs write span elems

end

end Ty

variable {host : Host} {ty : Ty} {elems : List Ty} {write : String → Expr} {span : Span}

namespace Expr

/-- The expression is a name, with dots or without, or the constant `None`. -/
def Names (expr : Expr) (name : String) : Prop :=
  expr.dottedName? = some name ∨ name = "None" ∧ ∃ span, expr = .const span .nothing

mutual

/-- The text of an annotation that is made of names and brackets. -/
def spelling : Expr → String
  | .const _ .nothing => "None"
  | .subscript _ head args => head.spelling ++ "[" ++ ", ".intercalate (spellings args) ++ "]"
  | expr => expr.dottedName?.getD ""

def spellings : List Expr → List String
  | [] => []
  | expr :: rest => expr.spelling :: spellings rest

end

variable {expr : Expr} {name : String}

theorem Names.spelling_eq (h : expr.Names name) : expr.spelling = name := by
  obtain h | ⟨rfl, _, rfl⟩ := h
  · cases expr <;> first | cases h; done | simp [spelling, h]
  · rfl

theorem Names.surfaceType_eq (h : expr.Names name)
    (hty : ∀ span, namedType host name span = .ok ty) : expr.surfaceType host = .ok ty := by
  obtain h | ⟨rfl, _, rfl⟩ := h
  · rw [dottedName?.eq_def] at h
    split at h
    · exact Option.some.inj h ▸ hty _
    · rw [surfaceType, dottedName?, h]
      exact hty _
    · cases h
  · exact hty .null

end Expr

namespace Ty

theorem surfaceTypes_toExprs
    (h : ∀ elem ∈ elems, (elem.toExpr write span).surfaceType host = .ok elem) :
    Expr.surfaceTypes host (toExprs write span elems) = .ok elems := by
  induction elems with
  | nil => rfl
  | cons elem elems ih =>
    obtain ⟨helem, helems⟩ := forall_mem_cons.mp h
    rw [toExprs, Expr.surfaceTypes, helem, ih helems]
    rfl

theorem Denotable.orNone (h : ty.Denotable host) : ty.orNone.Denotable host := by
  cases h with
  | nothing => exact .nothing
  | optional hinner hnil hopt => exact .optional hinner hnil hopt
  | _ =>
    refine .optional ?_ (by simp) rfl
    constructor <;> assumption

theorem surfaceClosed_denotable
    (hhost : ∀ name span ty, host.type? name span = some ty → ty.Denotable host) :
    SurfaceClosed host (Denotable host) where
  builtin name ty h := by
    unfold builtinType? at h
    split at h
    all_goals first | cases h; done | exact Option.some.inj h ▸ (by constructor)
  named := hhost
  orNone _ h := h.orNone
  list _ := .list
  future _ := .future
  tuple _ := .tuple
  dict _ _ hkey _ := .dict hkey

variable (hwrite : ∀ name, (write name).Names name)

include hwrite

mutual

/-- An annotation reads as the type is printed. -/
theorem spelling_toExpr : (ty : Ty) → (ty.toExpr write span).spelling = ty.render
  | .optional a | .list a | .future a => by
      simp [toExpr, Expr.spelling, Expr.spellings, render, spelling_toExpr a, Expr.dottedName?]
  | .tuple as => by
      simp [toExpr, Expr.spelling, render, spellings_toExprs as, Expr.dottedName?]
  | .dict key value => by
      simp [toExpr, Expr.spelling, Expr.spellings, render, Expr.dottedName?,
        spelling_toExpr key, spelling_toExpr value, String.append_assoc]
  | .tensor | .ranked _ | .int | .float | .bool | .str | .nothing | .number | .object _ =>
      (hwrite _).spelling_eq

theorem spellings_toExprs : (tys : List Ty) →
    Expr.spellings (toExprs write span tys) = renderAll tys
  | [] => by simp [toExprs, Expr.spellings, renderAll]
  | ty :: tys => by
      simp [toExprs, Expr.spellings, renderAll, spelling_toExpr ty, spellings_toExprs tys]

end

theorem Denotable.surfaceType_toExpr (h : ty.Denotable host) :
    (ty.toExpr write span).surfaceType host = .ok ty := by
  induction h with
  | tensor | int | float | bool | str | nothing | number =>
    exact (hwrite _).surfaceType_eq fun _ => rfl
  | @optional inner _ hnil hopt ih =>
    have hnormal : inner.orNone = .optional inner := by
      cases inner <;> simp_all [Ty.orNone, asOptional?]
    simp only [toExpr, Expr.surfaceType, Expr.asName?, ih, Except.map, hnormal]
  | list _ ih | future _ ih => simp only [toExpr, Expr.surfaceType, Expr.asName?, ih, Except.map]
  | tuple _ ih =>
    show (Expr.surfaceTypes host (toExprs write span _)).map Ty.tuple = _
    rw [surfaceTypes_toExprs ih]
    rfl
  | @dict key _ hkey _ ih =>
    have hread : (key.toExpr write span).surfaceType host = .ok key := by
      cases key <;> first | cases hkey; done | exact (hwrite _).surfaceType_eq fun _ => rfl
    simp only [toExpr, Expr.surfaceType, Expr.asName?, ih, hread]
    simp [hkey, bind, Except.bind, pure, Except.pure]
  | object hname hhost =>
    refine (hwrite _).surfaceType_eq fun span => ?_
    simp only [render, namedType, hname, hhost]

end Ty

/-- Annotations denote exactly the denotable types, in a host that names such types only. -/
theorem surfaceType_denotable
    (hhost : ∀ name span ty, host.type? name span = some ty → ty.Denotable host) :
    (∀ expr ty, Expr.surfaceType host expr = .ok ty → ty.Denotable host) ∧
    ∀ ty : Ty, ty.Denotable host → ∀ write : String → Expr, (∀ name, (write name).Names name) →
      ∀ span, (ty.toExpr write span).spelling = ty.render ∧
        (ty.toExpr write span).surfaceType host = .ok ty :=
  ⟨fun expr _ => (Ty.surfaceClosed_denotable hhost).surfaceType expr, fun ty h _ hwrite _ =>
    ⟨ty.spelling_toExpr hwrite, h.surfaceType_toExpr hwrite⟩⟩

/-- A host that knows the class `Point` -/
def pointHost : Host where
  value? _ _ := none
  type? name _ := if name = "Point" then some (.object ⟨"Point", [], []⟩) else none

/-- `Dict[str, Optional[Tuple[Point, Tensor]]]` -/
theorem pointPairs_denotable :
    (∀ name span ty, pointHost.type? name span = some ty → ty.Denotable pointHost) ∧
    ∃ ty : Ty, ty.Denotable pointHost ∧ ty.render = "Dict[str, Optional[Tuple[Point, Tensor]]]" ∧
      (ty.toExpr (.var .null) .null).surfaceType pointHost = .ok ty := by
  have hpoint : Ty.Denotable pointHost (.object ⟨"Point", [], []⟩) := .object rfl fun _ => rfl
  have hhost : ∀ name span ty, pointHost.type? name span = some ty → ty.Denotable pointHost := by
    intro name span ty h
    simp only [pointHost, Option.ite_none_right_eq_some, Option.some.injEq] at h
    exact h.2 ▸ hpoint
  have hty : Ty.Denotable pointHost
      (.dict .str (.optional (.tuple [.object ⟨"Point", [], []⟩, .tensor]))) :=
    .dict rfl (.optional (.tuple (by simpa using ⟨hpoint, .tensor⟩)) (by simp) rfl)
  exact ⟨hhost, _, hty, rfl, ((surfaceType_denotable hhost).2 _ hty _ (fun _ => .inl rfl) .null).2⟩

end Flowgraph
