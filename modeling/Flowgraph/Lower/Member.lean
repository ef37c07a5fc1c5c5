import Flowgraph.Lower.Name

/-!
# Attributes, methods and parts

What can be taken out of an entity: the attributes of an object or of a module, its methods, the
elements of a tuple.
-/

namespace Flowgraph.Lower

/-- Arguments converted to the types of a method, numbered from `position`. -/
def coerceMethodArguments (method : String) (span : Span) :
    Nat → List ValueId → List Ty → Lower (List ValueId)
  | position, arg :: args, ty :: types => do
    let converted ← coerce arg ty span (.positional position method)
    return converted :: (← coerceMethodArguments method span (position + 1) args types)
  | _, _, _ => return []

/-- Call a method of a class on a receiver. -/
def callMethod (receiver : ValueId) (cls : Class) (name : String) (args : List ValueId)
    (span : Span) : Lower ValueId := do
  match cls.method? name with
  | none => fail (.type span (.noMethod cls.name name))
  | some method =>
    if args.length ≠ method.params.length then
      fail (.shape span (.methodArity cls.name name method.params.length args.length))
    else
      let inputs ← coerceMethodArguments name span 0 args method.params
      build (Build.insertWith .callMethod (receiver :: inputs) method.result "name" (.str name) span)

/-- A new object of a class, initialised if the class says how. -/
def construct (cls : Class) (args : List ValueId) (span : Span) : Lower ValueId := do
  let object ← build (Build.insertWith .createObject [] (.object cls) "class" (.str cls.name) span)
  if cls.hasMethod "__init__" then
    let _ ← callMethod object cls "__init__" args span
    return object
  else if args.isEmpty then return object
  else fail (.shape span (.constructorArity cls.name))

/-- The attribute of an entity.  An attribute of a value that is no object is a primitive in the
syntax of methods. -/
def getAttribute (entity : Entity) (span : Span) (name : String) : Lower Entity := do
  match entity with
  | .value v =>
    let ty ← typeOf v
    match ty.asClass? with
    | some cls =>
      match cls.attribute? name with
      | some attrType =>
        return .value (← build (Build.insertWith .getAttr [v] attrType "name" (.str name) span))
      | none =>
        if cls.hasMethod name then return .method v cls name
        else fail (.type span (.noAttribute cls.name name))
    | none =>
      match Primitive.ofName? name with
      | some operation => return .primitiveMethod v operation
      | none => fail (.type span (.noAttribute ty.render name))
  | .module module =>
    match module.members.get? name with
    | some member => ofHostValue member span
    | none => fail (.name span (.noMember module.name name))
  | other => fail (.type span (.kindNoAttribute other.kind name))

def setAttribute (entity : Entity) (span : Span) (name : String) (v : ValueId) : Lower Unit := do
  match entity with
  | .value object =>
    let ty ← typeOf object
    match ty.asClass? with
    | none => fail (.type span (.setOnType ty name))
    | some cls =>
      match cls.attribute? name with
      | none => fail (.type span (.noAttribute cls.name name))
      | some attrType =>
        let v ← coerce v attrType span (.attribute name)
        let n ← build (Build.insert .setAttr [object, v] [] span)
        build (Build.setAttr n "name" (.str name))
  | other => fail (.type span (.setOnKind other.kind name))

/-- The elements of a value of fixed length.  A tuple is not unpacked where its construction is
at hand, and a list is unpacked only if its length is `expected`. -/
def expand? (entity : Entity) (span : Span) (expected : Option Nat) :
    Lower (Option (List ValueId)) := do
  match entity with
  | .value v =>
    match ← typeOf v with
    | .tuple types =>
      let construction ← build <| Build.query fun graph => do
        match ← graph.producer? v with
        | some n =>
          let node ← graph.node? n
          some (if node.op = .tupleConstruct then some node.inputs else none)
        | none => some none
      match construction with
      | some elems => return some elems
      | none => return some (← unpack .tupleUnpack v types)
    | .list elem =>
      match expected with
      | some count => return some (← unpack .listUnpack v (List.replicate count elem))
      | none => return none
    | _ => return none
  | _ => return none
where
  /-- A node that gives the elements. -/
  unpack (op : Op) (v : ValueId) (types : List Ty) : Lower (List ValueId) := do
    let n ← build (Build.insert op [v] types span)
    build <| Build.query fun graph => (graph.node? n).map NodeOf.outputs

end Flowgraph.Lower
