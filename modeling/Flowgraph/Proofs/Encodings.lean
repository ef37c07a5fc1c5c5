import Flowgraph.Syntax.Decoding
import Mathlib.Data.List.Forall2

/-!
# Syntax trees are read back

Trees are read back from their JSON form, also if optional parts that are absent and null spans are
left out of it (`syntax_readsBack`).

`Json.Abridged` says what may be left out, `Json.Part` what a reader then finds under the name of a
field, and `Json.Reads` that a reader gets the same thing from every abridged form.
-/

namespace Flowgraph

open Flowgraph.Expr List

/-! ## Forms that leave fields out -/

namespace Json

/-- A field that may be left out: an optional part that is absent, or a span that is null. -/
def Droppable (field : String × Json) : Prop :=
  field = ("span", Span.null.toJson) ∨ field.2 = .null ∧
    field.1 ∈ ["start", "end", "step", "cond", "ty", "rhs", "msg", "ret_ty"]

/-- The second value is the first one, less some fields that may be left out. -/
inductive Abridged : Json → Json → Prop
  | same (json : Json) : Abridged json json
  | item {first first' rest rest'} (h : Abridged first first')
      (hrest : Abridged (.arr rest) (.arr rest')) :
      Abridged (.arr (first :: rest)) (.arr (first' :: rest'))
  | keep {key value value' rest rest'} (h : Abridged value value')
      (hrest : Abridged (.obj rest) (.obj rest')) :
      Abridged (.obj ((key, value) :: rest)) (.obj ((key, value') :: rest'))
  | drop {field rest rest'} (h : Droppable field) (hrest : Abridged (.obj rest) (.obj rest')) :
      Abridged (.obj (field :: rest)) (.obj rest')

attribute [local simp] Droppable Span.toJson

variable {json content full first : Json} {items : List Json}
  {fields fields' : List (String × Json)} {key tag text : String} {n : Nat} {α β : Type}
  {decode : Json → Option α} {x : α} {encode : α → Json} {within : Nat → Json → Option α}

theorem Abridged.of_item (h : Abridged (.arr (first :: items)) json) :
    ∃ first' rest, json = .arr (first' :: rest) ∧ first.Abridged first' ∧
      Abridged (.arr items) (.arr rest) := by
  cases h with
  | same => exact ⟨first, items, rfl, .same _, .same _⟩
  | item h hrest => exact ⟨_, _, rfl, h, hrest⟩

theorem Abridged.of_field (h : Abridged (.obj ((key, full) :: fields)) json) : ∃ fields',
    json = .obj fields' ∧ (Droppable (key, full) ∧ Abridged (.obj fields) (.obj fields') ∨
      ∃ value rest, fields' = (key, value) :: rest ∧ full.Abridged value ∧
        Abridged (.obj fields) (.obj rest)) := by
  cases h with
  | same => exact ⟨_, rfl, .inr ⟨full, fields, rfl, .same _, .same _⟩⟩
  | keep h hrest => exact ⟨_, rfl, .inr ⟨_, _, rfl, h, hrest⟩⟩
  | drop h hrest => exact ⟨_, rfl, .inl ⟨h, hrest⟩⟩

/-- What an abridged object has of a field. -/
def Part (n : Nat) (fields' : List (String × Json)) (field : String × Json) : Prop :=
  (fields'.lookup field.1 = none ∧ Droppable field) ∨
    ∃ json, fields'.lookup field.1 = some json ∧ field.2.Abridged json ∧ json.depth ≤ n

theorem Abridged.lookup (h : Abridged (.obj fields) json) (hkeys : (fields.map Prod.fst).Nodup)
    (hn : json.depth ≤ n + 1) : ∃ fields', json = .obj fields' ∧
      (∀ key ∉ fields.map Prod.fst, fields'.lookup key = none) ∧
        ∀ field ∈ fields, Part n fields' field := by
  induction fields generalizing json with
  | nil =>
    cases h
    exact ⟨[], rfl, by simp, by simp⟩
  | cons field fields ih =>
    obtain ⟨hfresh, hkeys⟩ := nodup_cons.mp hkeys
    obtain ⟨_, rfl, ⟨hdrop, hrest⟩ | ⟨value, rest, rfl, hvalue, hrest⟩⟩ := h.of_field
    · obtain ⟨fields', heq, hnone, hparts⟩ := ih hrest hkeys hn
      cases heq
      exact ⟨_, rfl, fun key hkey => hnone key (mt (mem_cons_of_mem _) hkey),
        forall_mem_cons.mpr ⟨.inl ⟨hnone _ hfresh, hdrop⟩, hparts⟩⟩
    · obtain ⟨hvaluen, hrestn⟩ := Nat.max_le.mp (Nat.le_of_succ_le_succ hn)
      obtain ⟨fields', heq, hnone, hparts⟩ := ih hrest hkeys (Nat.succ_le_succ hrestn)
      cases heq
      have hskip : ∀ key ≠ field.1, ((field.1, value) :: rest).lookup key = rest.lookup key :=
        fun key hne => by rw [lookup_cons, beq_eq_false_iff_ne.mpr hne]
      refine ⟨_, rfl, fun key hkey => ?_, forall_mem_cons.mpr
        ⟨.inr ⟨value, lookup_cons_self, hvalue, hvaluen⟩, fun other ho => ?_⟩⟩
      · obtain ⟨hne, hkey⟩ := not_or.mp (mt mem_cons.mpr hkey)
        rw [hskip key hne, hnone key hkey]
      · rw [Part, hskip _ fun heq => hfresh (mem_map.mpr ⟨other, ho, heq⟩)]
        exact hparts other ho

theorem Abridged.parts (h : Abridged (.obj fields) json) (hn : json.depth ≤ n + 1)
    (hkeys : (fields.map Prod.fst).Nodup) :
    ∃ fields', json = .obj fields' ∧ fields.Forall (Part n fields') := by
  obtain ⟨fields', rfl, -, hparts⟩ := h.lookup hkeys hn
  exact ⟨fields', rfl, forall_iff_forall_mem.mpr hparts⟩

/-! ## Reading them -/

/-- A value is never left out, and all its abridged forms that are not nested too deep read as the
same thing. -/
structure Reads (decode : Json → Option α) (n : Nat) (full : Json) (x : α) : Prop where
  kept : ∀ key, ¬ Droppable (key, full)
  reads : ∀ json, full.Abridged json → json.depth ≤ n → decode json = some x

theorem Part.bind (h : Part n fields' (key, full)) (hx : Reads decode n full x)
    (k : α → Option β) : ((fields'.lookup key).bind fun json => (decode json).bind k) = k x := by
  rcases h with ⟨-, hdrop⟩ | ⟨json, hlookup, hjson, hn⟩
  · exact absurd hdrop (hx.kept key)
  · simp [hlookup, hx.reads json hjson hn]

theorem reads_listOf {write : List α → List Json} {xs : List α} (hnil : write [] = [])
    (hcons : ∀ x xs, write (x :: xs) = encode x :: write xs)
    (h : ∀ x ∈ xs, Reads decode n (encode x) x) :
    Reads (listOf? decode) n (.arr (write xs)) xs := by
  refine ⟨by simp, fun json hjson hn => ?_⟩
  induction xs generalizing json with
  | nil =>
    cases hnil ▸ hjson
    rfl
  | cons x xs ih =>
    obtain ⟨hx, hxs⟩ := forall_mem_cons.mp h
    obtain ⟨item, rest, rfl, hitem, hrest⟩ := (hcons x xs ▸ hjson).of_item
    simp only [depth, depthOfItems] at hn
    have hread := ih hxs (.arr rest) hrest (by simp only [depth]; omega)
    simp only [listOf?, asItems?, Option.bind_eq_bind, Option.bind_some] at hread ⊢
    simp [hx.reads item hitem (by omega), hread]

theorem reads_str (h : decode (.str text) = some x) : Reads decode n (.str text) x := by
  refine ⟨by simp, fun json hjson _ => ?_⟩
  cases hjson
  exact h

theorem reads_int {value : Int} (h : decode (.int value) = some x) :
    Reads decode n (.int value) x := by
  refine ⟨by simp, fun json hjson _ => ?_⟩
  cases hjson
  exact h

theorem reads_tagged (htag : ¬ Droppable (tag, content))
    (h : ∀ json, content.Abridged json → json.depth ≤ n → decode (.tagged tag json) = some x) :
    Reads decode n (.tagged tag content) x := by
  refine ⟨by simp [Json.tagged], fun json hjson hn => ?_⟩
  obtain ⟨_, rfl, ⟨hdrop, -⟩ | ⟨value, _, rfl, hvalue, hrest⟩⟩ := hjson.of_field
  · exact absurd hdrop htag
  · cases hrest
    exact h value hvalue (by simp [depth, depthOfFields] at hn; omega)

@[simp] theorem variant?_tagged :
    (Json.tagged tag content).variant? = some (tag, some content) := rfl

theorem reads_record (record : String → Json → Option α)
    (hdecode : ∀ content, decode (.tagged tag content) = record tag content)
    (htag : tag ≠ "span") (hkeys : (fields.map Prod.fst).Nodup)
    (h : ∀ fields', fields.Forall (Part n fields') → record tag (.obj fields') = some x) :
    Reads decode n (.tagged tag (.obj fields)) x := by
  refine reads_tagged (by simp [htag]) fun json hjson hn => ?_
  obtain ⟨fields', rfl, hparts⟩ := hjson.parts (Nat.le_succ_of_le hn) hkeys
  exact (hdecode _).trans (h fields' hparts)

/-! ## Parts of trees -/

theorem reads_uint64 (value : UInt64) : Reads asUInt64? n (.int value.toNat) value :=
  reads_int ((if_pos ⟨Int.natCast_nonneg _, value.toNat_lt_size⟩).trans
    (congrArg some UInt64.ofNat_toNat))

theorem reads_uint32 (value : UInt32) : Reads asUInt32? n (.int value.toNat) value :=
  reads_int ((if_pos ⟨Int.natCast_nonneg _, value.toNat_lt_size⟩).trans
    (congrArg some UInt32.ofNat_toNat))

theorem reads_int64 (value : Int64) : Reads asInt64? n (.int value.toInt) value :=
  reads_int ((if_pos ⟨value.minValue_le_toInt, value.toInt_le⟩).trans
    (congrArg some value.ofInt_toInt))

theorem Abridged.span {span : Span} (h : span.toJson.Abridged json) :
    Span.ofJson? json = some span := by
  obtain ⟨fields', rfl, hfile, hlo, hhi⟩ := h.parts (Nat.le_succ _) (by simp)
  simp [Span.ofJson?, record?, hfile.bind (reads_uint64 _), hlo.bind (reads_uint32 _),
    hhi.bind (reads_uint32 _)]

theorem Part.span {span : Span} (h : Part n fields' ("span", span.toJson)) :
    Span.ofField? (fields'.lookup "span") = some span := by
  rcases h with ⟨hlookup, hdrop | hdrop⟩ | ⟨json, hlookup, hjson, -⟩
  · have heq : span.toJson = Span.null.toJson := congrArg Prod.snd hdrop
    have hnull := (heq ▸ Abridged.same span.toJson).span
    rw [hlookup, Span.ofField?, defaulted?, ← hnull, ← heq, (Abridged.same span.toJson).span]
  · cases hdrop.1
  · rw [hlookup]
    exact hjson.span

theorem reads_ident (ident : Ident) : Reads Ident.ofJson? n ident.toJson ident := by
  refine ⟨by simp [Ident.toJson], fun json hjson hn => ?_⟩
  obtain ⟨fields', rfl, hname, hspan⟩ := hjson.parts (Nat.le_succ_of_le hn) (by simp)
  have hstr : Reads asStr? n (.str ident.name) ident.name := reads_str rfl
  simp [Ident.ofJson?, record?, hname.bind hstr, hspan.span]

theorem reads_binaryOp (op : BinaryOp) : Reads BinaryOp.ofJson? n (.str op.tag) op :=
  reads_str (by cases op <;> rfl)

theorem reads_unaryOp (op : UnaryOp) : Reads UnaryOp.ofJson? n (.str op.tag) op :=
  reads_str (by cases op <;> rfl)

theorem reads_literal {value : Literal} (h : ∀ x, value ≠ .float x) :
    Reads Literal.ofJson? n value.toJson value := by
  cases value with
  | float x => exact absurd rfl (h x)
  | nothing => exact reads_str rfl
  | int value =>
    refine reads_tagged (by simp) fun json hjson hn => ?_
    simp [Literal.ofJson?, (reads_int64 value).reads json hjson hn]
  | str value | bool value =>
    refine reads_tagged (by simp) fun json hjson _ => ?_
    cases hjson
    rfl

/-- Expressions and statements are records of a form and a span. -/
theorem reads_node {form : (Json → Option α) → Span → Json → Option α} {span : Span}
    (hwithin : ∀ n json, within (n + 1) json = do
      let [kind, span] ← json.record? ["kind"] ["span"] | none
      form (within n) (← Span.ofField? span) (← kind))
    (h : ∀ n, Reads (form (within n) span) n content x) (n : Nat) :
    Reads (within n) n (node span content) x := by
  refine ⟨by simp [node], fun json hjson hn => ?_⟩
  cases n with
  | zero => cases json <;> simp [depth] at hn
  | succ n =>
    obtain ⟨fields', rfl, hkind, hspan⟩ := hjson.parts hn (by simp)
    simpa [hwithin, record?, hspan.span] using hkind.bind (h n) some

/-- The depth of a value is enough to read it. -/
theorem reads_unbounded (h : ∀ n, Reads (within n) n full x)
    (n : Nat) : Reads (fun json => within json.depth json) n full x where
  kept := (h n).kept
  reads json hjson _ := (h json.depth).reads json hjson (Nat.le_refl _)

section

variable {decode : Json → Option Expr} {part : Option Expr} {elems : List Expr}

theorem Abridged.optional (hjson : (optionToJson part).Abridged json) (hn : json.depth ≤ n)
    (hnull : decode .null = none) (h : ∀ e ∈ part, Reads decode n e.toJson e) :
    optional? decode (some json) = some part := by
  cases part with
  | none =>
    cases hjson
    rfl
  | some e =>
    have hdecode := (h e rfl).reads json hjson hn
    rw [optional?, hdecode, Option.map_some]
    rintro ⟨⟩
    simp [hnull] at hdecode

theorem Part.optional (hpart : Part n fields' (key, optionToJson part))
    (hnull : decode .null = none) (h : ∀ e ∈ part, Reads decode n e.toJson e) :
    optional? decode (fields'.lookup key) = some part := by
  rcases hpart with ⟨hlookup, hdrop⟩ | ⟨json, hlookup, hjson, hn⟩
  · cases part with
    | none => rw [hlookup, optional?]
    | some e => exact absurd hdrop ((h e rfl).kept key)
  · rw [hlookup]
    exact hjson.optional hn hnull h

theorem reads_exprs (h : ∀ e ∈ elems, Reads decode n e.toJson e) :
    Reads (listOf? decode) n (.arr (listToJson elems)) elems :=
  reads_listOf rfl (fun _ _ => rfl) h

theorem reads_entries {entries : List (Expr × Expr)}
    (h : ∀ e ∈ entries, Reads decode n e.1.toJson e.1 ∧ Reads decode n e.2.toJson e.2) :
    Reads (listOf? (decodeEntry decode)) n (.arr (entriesToJson entries)) entries := by
  have hentry : ∀ e ∈ entries, Reads (decodeEntry decode) n
      (.arr [e.1.toJson, e.2.toJson]) e := by
    refine fun e he => ⟨by simp, fun json hjson hn => ?_⟩
    obtain ⟨key, _, rfl, hkey, hrest⟩ := hjson.of_item
    obtain ⟨value, _, heq, hvalue, hnil⟩ := hrest.of_item
    cases heq
    cases hnil
    simp only [depth, depthOfItems] at hn
    simp [decodeEntry, asPair?, (h e he).1.reads key hkey (by omega),
      (h e he).2.reads value hvalue (by omega)]
  exact reads_listOf rfl (fun _ _ => rfl) hentry

theorem reads_keywords {keywords : List (Keyword Expr)}
    (h : ∀ k ∈ keywords, Reads decode n k.value.toJson k.value) :
    Reads (listOf? (decodeKeyword decode)) n (.arr (keywordsToJson keywords))
      keywords := by
  have hkeyword : ∀ k ∈ keywords, Reads (decodeKeyword decode) n
      (.obj [("name", k.name.toJson), ("value", k.value.toJson)]) k := by
    refine fun k hk => ⟨by simp, fun json hjson hn => ?_⟩
    obtain ⟨fields', rfl, hname, hvalue⟩ := hjson.parts (Nat.le_succ_of_le hn) (by simp)
    simp [decodeKeyword, record?, hname.bind (reads_ident _), hvalue.bind (h k hk)]
  exact reads_listOf rfl (fun _ _ => rfl) hkeyword

end

end Json

open Json

attribute [local simp] Droppable Span.toJson parts? record? decodeKind Stmt.decodeKind

/-! ## Expressions -/

namespace Expr

/-- The expressions that an expression is put together from. -/
def parts : Expr → List Expr
  | .var .. | .const .. | .ellipsis _ => []
  | .unary _ _ inner | .starred _ inner | .attribute _ inner _ => [inner]
  | .binary _ _ lhs rhs => [lhs, rhs]
  | .ternary _ first second third | .listComp _ first second third => [first, second, third]
  | .subscript _ value indices => value :: indices
  | .slice _ start stop step => start.toList ++ (stop.toList ++ step.toList)
  | .call _ callee args keywords => callee :: (args ++ keywords.map Keyword.value)
  | .list _ elems | .tuple _ elems => elems
  | .dict _ entries => entries.flatMap fun entry => [entry.1, entry.2]

/-- No literal of the expression is a floating-point number. -/
inductive Floatless : Expr → Prop
  | intro {expr : Expr} (hliteral : ∀ span x, expr ≠ .const span (.float x))
      (hparts : ∀ part ∈ expr.parts, Floatless part) : Floatless expr

theorem decodeWithin_null (n : Nat) : decodeWithin n .null = none := by cases n <;> rfl

theorem Floatless.reads {expr : Expr} (h : expr.Floatless) (n : Nat) :
    Reads (decodeWithin n) n expr.toJson expr := by
  induction h generalizing n with
  | @intro expr hliteral _ ih =>
  cases expr with
    (refine reads_node (fun _ _ => rfl) (fun n => ?_) n
     replace ih := fun part hpart => ih part hpart n
     simp only [parts, forall_mem_cons, not_mem_nil, IsEmpty.forall_iff, implies_true, and_true,
      forall_mem_append, forall_mem_map, forall_mem_flatMap, Option.mem_toList] at ih
     first
       | refine reads_record (decodeRecord (decodeWithin n) _) (fun _ => rfl) (by simp) (by simp) ?_
       | refine reads_tagged (by simp) fun json hjson hn => ?_
       | exact reads_str rfl)
  | var =>
    cases hjson
    rfl
  | const span value =>
    simp [(reads_literal fun x heq => hliteral span x (heq ▸ rfl)).reads json hjson hn]
  | starred => simp [ih.reads json hjson hn]
  | list | tuple => simp [(reads_exprs ih).reads json hjson hn]
  | dict => simp [(reads_entries ih).reads json hjson hn]
  | binary =>
    rintro fields' ⟨hop, hlhs, hrhs⟩
    simp [decodeRecord, hop.bind (reads_binaryOp _), hlhs.bind ih.1, hrhs.bind ih.2]
  | unary =>
    rintro fields' ⟨hop, hoperand⟩
    simp [decodeRecord, hop.bind (reads_unaryOp _), hoperand.bind ih]
  | ternary | listComp =>
    rintro fields' ⟨hfirst, hsecond, hthird⟩
    simp [decodeRecord, hfirst.bind ih.1, hsecond.bind ih.2.1, hthird.bind ih.2.2]
  | subscript =>
    rintro fields' ⟨hvalue, hindices⟩
    simp [decodeRecord, hvalue.bind ih.1, hindices.bind (reads_exprs ih.2)]
  | slice =>
    rintro fields' ⟨hstart, hstop, hstep⟩
    have hnull := decodeWithin_null n
    simp [decodeRecord, hstart.optional hnull ih.1, hstop.optional hnull ih.2.1,
      hstep.optional hnull ih.2.2]
  | call =>
    rintro fields' ⟨hcallee, hargs, hkeywords⟩
    simp [decodeRecord, hcallee.bind ih.1, hargs.bind (reads_exprs ih.2.1),
      hkeywords.bind (reads_keywords ih.2.2)]
  | «attribute» =>
    rintro fields' ⟨hvalue, hattr⟩
    simp [decodeRecord, hvalue.bind ih, hattr.bind (reads_ident _)]

end Expr

/-! ## Statements and definitions -/

namespace Stmt

/-- The expressions of a statement, those of nested statements left aside. -/
def exprs : Stmt → List Expr
  | .branch _ cond _ _ => [cond]
  | .whileLoop _ cond _ => cond.toList
  | .forLoop _ targets iters _ => targets ++ iters
  | .assign _ target ty value => target :: (ty.toList ++ value.toList)
  | .augment _ target _ value => [target, value]
  | .ret _ value | .raise _ value => value.toList
  | .assert _ test message => test :: message.toList
  | .eval _ value => [value]
  | .define _ definition =>
    definition.params.flatMap (fun param => param.ty.toList) ++ definition.result.toList
  | .leave _ | .next _ | .pass _ | .globals _ _ => []

/-- The statements nested in a statement. -/
def nested : Stmt → List Stmt
  | .branch _ _ body orelse => body ++ orelse
  | .whileLoop _ _ body | .forLoop _ _ _ body => body
  | .define _ definition => definition.body
  | _ => []

/-- No literal of the statement is a floating-point number. -/
inductive Floatless : Stmt → Prop
  | intro {stmt : Stmt} (hexprs : ∀ expr ∈ stmt.exprs, expr.Floatless)
      (hnested : ∀ inner ∈ stmt.nested, Floatless inner) : Floatless stmt

variable {n : Nat} {decode : Json → Option Stmt} {definition : Def}

theorem reads_stmts {stmts : List Stmt} (h : ∀ s ∈ stmts, Reads decode n s.toJson s) :
    Reads (listOf? decode) n (.arr (listToJson stmts)) stmts :=
  reads_listOf rfl (fun _ _ => rfl) h

theorem reads_param {param : Param} (h : ∀ e ∈ param.ty, Reads Expr.ofJson? n e.toJson e) :
    Reads Param.ofJson? n param.toJson param := by
  refine ⟨by simp [Param.toJson], fun json hjson hn => ?_⟩
  obtain ⟨fields', rfl, hname, hty⟩ := hjson.parts (Nat.le_succ_of_le hn) (by simp)
  simp [Param.ofJson?, hname.bind (reads_ident _), hty.optional rfl h]

theorem reads_def (hexprs : ∀ e ∈ (ofDef definition).exprs, Reads Expr.ofJson? n e.toJson e)
    (hbody : ∀ s ∈ definition.body, Reads decode n s.toJson s) :
    Reads (decodeDef decode) n definition.toJson definition := by
  rw [DefOf.toJson]
  refine ⟨by simp, fun json hjson hn => ?_⟩
  obtain ⟨fields', rfl, hname, hps, hres, hstmts, hspan⟩ :=
    hjson.parts (Nat.le_succ_of_le hn) (by simp)
  simp only [ofDef, exprs, forall_mem_append, forall_mem_flatMap, Option.mem_toList] at hexprs
  have hparams : Reads (listOf? Param.ofJson?) n (.arr (definition.params.map Param.toJson))
      definition.params :=
    reads_listOf rfl (fun _ _ => rfl) fun p hp => reads_param (hexprs.1 p hp)
  simp [decodeDef, hname.bind (reads_ident _), hspan.span, hres.optional rfl hexprs.2,
    hps.bind hparams, hstmts.bind (reads_stmts hbody)]

theorem Floatless.reads {stmt : Stmt} (h : stmt.Floatless) (n : Nat) :
    Reads (decodeWithin n) n stmt.toJson stmt := by
  induction h generalizing n with
  | @intro stmt hexprs _ ih =>
  have hexprs (n) : ∀ e ∈ stmt.exprs, Reads Expr.ofJson? n e.toJson e :=
    fun e he => reads_unbounded (hexprs e he).reads n
  cases stmt with
    (refine reads_node (fun _ _ => rfl) (fun n => ?_) n
     replace ih := fun s hs => ih s hs n
     replace hexprs := hexprs n
     simp only [exprs, nested, forall_mem_cons, not_mem_nil, IsEmpty.forall_iff, implies_true,
      and_true, forall_mem_append, Option.mem_toList] at hexprs ih
     first
       | refine reads_record (decodeRecord (decodeWithin n) _) (fun _ => rfl) (by simp) (by simp) ?_
       | refine reads_tagged (by simp) fun json hjson hn => ?_
       | exact reads_str rfl)
  | define =>
    have hdef := reads_def (by simpa [ofDef, exprs, or_imp, forall_and] using hexprs) ih
    simp [hdef.reads json hjson hn]
  | globals span names =>
    have hnames : Reads (listOf? Ident.ofJson?) n (.arr (names.map Ident.toJson)) names :=
      reads_listOf rfl (fun _ _ => rfl) fun ident _ => reads_ident ident
    simp [hnames.reads json hjson hn]
  | ret | raise => simp [hjson.optional hn rfl hexprs]
  | eval => simp [hexprs.reads json hjson hn]
  | branch =>
    rintro fields' ⟨hcond, hbody, horelse⟩
    simp [decodeRecord, hcond.bind hexprs, hbody.bind (reads_stmts ih.1),
      horelse.bind (reads_stmts ih.2)]
  | whileLoop =>
    rintro fields' ⟨hcond, hbody⟩
    simp [decodeRecord, hcond.optional rfl hexprs, hbody.bind (reads_stmts ih)]
  | forLoop =>
    rintro fields' ⟨htargets, hiters, hbody⟩
    simp [decodeRecord, htargets.bind (reads_exprs hexprs.1), hiters.bind (reads_exprs hexprs.2),
      hbody.bind (reads_stmts ih)]
  | assign =>
    rintro fields' ⟨htarget, hty, hvalue⟩
    simp [decodeRecord, htarget.bind hexprs.1, hty.optional rfl hexprs.2.1,
      hvalue.optional rfl hexprs.2.2]
  | augment =>
    rintro fields' ⟨htarget, hop, hvalue⟩
    simp [decodeRecord, htarget.bind hexprs.1, hop.bind (reads_binaryOp _), hvalue.bind hexprs.2]
  | assert =>
    rintro fields' ⟨htest, hmessage⟩
    simp [decodeRecord, htest.bind hexprs.1, hmessage.optional rfl hexprs.2]

theorem Floatless.reads_def (h : (ofDef definition).Floatless) (n : Nat) :
    Reads Def.ofJson? n definition.toJson definition := by
  obtain ⟨hexprs, hnested⟩ := h
  exact Stmt.reads_def (fun e he => reads_unbounded (hexprs e he).reads n) fun s hs =>
    reads_unbounded (hnested s hs).reads n

end Stmt

/-- Trees without floating-point literals are read back from their JSON form and from every form
that leaves out of it optional parts that are absent and spans that are null. -/
theorem syntax_readsBack : (∀ expr : Expr, expr.Floatless →
      ∀ json, expr.toJson.Abridged json → ofJson? json = some expr) ∧
    (∀ stmt : Stmt, stmt.Floatless →
      ∀ json, stmt.toJson.Abridged json → Stmt.ofJson? json = some stmt) ∧
    ∀ definition : Def, (Stmt.ofDef definition).Floatless →
      ∀ json, definition.toJson.Abridged json → Def.ofJson? json = some definition :=
  ⟨fun _ h json hjson => (h.reads _).reads json hjson (Nat.le_refl _),
    fun _ h json hjson => (h.reads _).reads json hjson (Nat.le_refl _),
    fun _ h json hjson => (h.reads_def _).reads json hjson (Nat.le_refl _)⟩

/-- An assignment without its type, its value and its spans. -/
theorem assignment_readsBack : Stmt.ofJson? (.obj [("kind", .tagged "Assign" (.obj
      [("lhs", .obj [("kind", .tagged "Var" (.str "x"))])]))]) =
      some (.assign .null (.var .null "x") none none) := by
  have hvar : (var .null "x").Floatless := .intro (by simp) (by simp [parts])
  have hfloatless : (Stmt.assign .null (.var .null "x") none none).Floatless :=
    .intro (forall_mem_singleton.mpr hvar) (by simp [Stmt.nested])
  exact syntax_readsBack.2.1 _ hfloatless _ (.keep (.keep (.keep (.keep (.same _)
    (.drop (.inl rfl) (.same _))) (.drop (.inr ⟨rfl, by simp⟩)
      (.drop (.inr ⟨rfl, by simp⟩) (.same _)))) (.same _)) (.drop (.inl rfl) (.same _)))

end Flowgraph
