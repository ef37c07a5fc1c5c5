import Flowgraph.Graph.Basic
import Mathlib.Data.List.DropRight
import Mathlib.Tactic.Lemma

/-!
# Names of values in a printed graph

A value is printed with the name that it was given, if it has one, and with its id.  Whatever names
values have, the printed name tells which value it is (`Graph.valueName?_unique`).
-/

namespace Flowgraph.Graph

/-- A printed name ends in the digits of the id, and what stands before them is no digit. -/
theorem valueName?_endsInDigits {graph : Graph} {v : ValueId} {name : String}
    (h : graph.valueName? v = some name) : ∃ label mark, mark.isDigit = false ∧
      name.toList = label ++ mark :: Nat.toDigits 10 v.index := by
  rw [valueName?, Option.bind_eq_bind, Option.bind_eq_some_iff] at h
  obtain ⟨value, -, h⟩ := h
  split at h
  next given _ =>
    cases h
    exact ⟨'%' :: given.toList, '.', rfl, by simp⟩
  next =>
    cases h
    exact ⟨[], '%', rfl, by simp [ValueId.render]⟩

theorem rtakeWhile_digits {label : List Char} {mark : Char} {n : Nat}
    (hmark : mark.isDigit = false) :
    (label ++ mark :: Nat.toDigits 10 n).rtakeWhile Char.isDigit = Nat.toDigits 10 n := by
  have hdigits : ∀ c ∈ (Nat.toDigits 10 n).reverse, c.isDigit = true := fun c hc =>
    Nat.isDigit_of_mem_toDigits (by decide) (by decide) (List.mem_reverse.mp hc)
  simp [List.rtakeWhile, List.takeWhile_append_of_pos hdigits, hmark]

/-- Every value of a graph has a name in the printed graph, and no two have the same. -/
theorem valueName?_unique (graph : Graph) :
    (∀ v, (graph.valueName? v).isSome ↔ v.index < graph.values.length) ∧
      ∀ v w name, graph.valueName? v = some name → graph.valueName? w = some name → v = w := by
  refine ⟨fun v => ?_, fun v w name hv hw => ?_⟩
  · have hvalue : (graph.value? v).isSome ↔ v.index < graph.values.length := by simp [value?]
    rw [← hvalue, valueName?]
    cases graph.value? v with
    | none => simp
    | some value => cases hname : value.name <;> simp [hname]
  · obtain ⟨label, mark, hmark, hname⟩ := valueName?_endsInDigits hv
    obtain ⟨label', mark', hmark', hname'⟩ := valueName?_endsInDigits hw
    have hdigits : Nat.toDigits 10 v.index = Nat.toDigits 10 w.index := by
      rw [← rtakeWhile_digits hmark, ← hname, hname', rtakeWhile_digits hmark']
    have hindex := congrArg (Nat.ofDigitChars 10 · 0) hdigits
    simp only [Nat.ofDigitChars_ten_toDigits] at hindex
    cases v
    cases w
    cases hindex
    rfl

/-- A value that is named like the id of another one. -/
theorem valueName?_mimic : let graph : Graph := { values := [⟨.int, .param root 0, none⟩,
      ⟨.int, .param root 1, some "0"⟩, ⟨.int, .param root 2, some ""⟩], nodes := [], blocks := [] }
    graph.valueName? ⟨1⟩ = some "%0.1" ∧ ∀ w, graph.valueName? w = some "%0.1" → w = ⟨1⟩ :=
  ⟨by decide, fun w hw => (valueName?_unique _).2 w ⟨1⟩ _ hw (by decide)⟩

end Flowgraph.Graph
