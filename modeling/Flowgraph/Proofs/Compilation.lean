import Flowgraph.Proofs.Lowering.Statements

/-!
# What a compilation gives

A definition whose closures stay in place compiles to the graph of one emission from the starting
state, and every property of emissions becomes one of compiled graphs: `Def.toGraph_emission`.
-/

namespace Flowgraph

variable {definition : Def} {host : Host} {settings : Settings} {compiled : Compiled}
  {signature : Signature} {g : Graph}

instance decidableCompiles (P : Compiled → Prop) [DecidablePred P] :
    Decidable (∃ compiled, definition.compile host settings = .ok compiled ∧ P compiled) :=
  match definition.compile host settings with
  | .error _ => .isFalse fun ⟨_, heq, _⟩ => nomatch heq
  | .ok compiled =>
    decidable_of_iff (P compiled)
      ⟨fun hp => ⟨compiled, rfl, hp⟩, fun ⟨_, heq, hp⟩ => Except.ok.inj heq ▸ hp⟩

theorem Def.compile_ok (h : definition.compile host settings = .ok compiled) :
    ∃ g, definition.toGraph host settings = .ok (compiled.signature, g) ∧
      (settings.liftClosures = false ∧ compiled.graph = g ∨
        settings.liftClosures = true ∧ g.liftClosures = .ok compiled.graph) := by
  obtain ⟨⟨signature, g⟩, hg, h⟩ := Except.bind_eq_ok h
  cases hlift : settings.liftClosures with simp only [hlift] at h
  | false =>
    obtain rfl := Except.ok.inj h
    exact ⟨g, hg, Or.inl ⟨rfl, rfl⟩⟩
  | true =>
    obtain ⟨lifted, hlifted, h⟩ := Except.bind_eq_ok h
    obtain rfl := Except.ok.inj h
    exact ⟨g, hg, Or.inr ⟨rfl, hlifted⟩⟩

theorem Def.toGraph_of_compile (hlift : settings.liftClosures = false)
    (h : definition.compile host settings = .ok compiled) :
    definition.toGraph host settings = .ok (compiled.signature, compiled.graph) := by
  obtain ⟨g, hg, ⟨-, heq⟩ | ⟨hlift', -⟩⟩ := Def.compile_ok h
  · rw [heq, hg]
  · simp [hlift] at hlift'

/-- The graph is that of a well-formed state that lowering has reached at the end of the root, with
the result attached there. -/
theorem Def.toGraph_emission (h : definition.toGraph host settings = .ok (signature, g)) :
    ∃ t output, WellFormed [] t ∧ t.point = ⟨Graph.root, none⟩ ∧ Held [] t output ∧
      g = t.graph.withResult Graph.root output := by
  obtain ⟨body, decls, t, output, -, hemit, hheld, -, -, hg⟩ :=
    Def.toGraph_ok (A := False) False.elim h
  obtain ⟨hstart, hpoint⟩ := Lower.wellFormed_declareAll (wellFormed_start body) rfl decls
  obtain ⟨hwf, hadv⟩ := hemit.sound hstart
  exact ⟨t, output, hwf, hadv.point.trans hpoint, hheld, hg⟩

theorem Def.toGraph_scoped (h : definition.toGraph host settings = .ok (signature, g)) :
    g.Scoped := by
  obtain ⟨t, output, hwf, hpoint, hheld, rfl⟩ := Def.toGraph_emission h
  exact hwf.uses.withResult (hpoint ▸ hheld.2)

end Flowgraph
