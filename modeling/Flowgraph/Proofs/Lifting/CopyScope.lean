import Flowgraph.Proofs.Lifting.Provenance

/-!
# The scopes of a copy

A copy of something in scope is in scope, and what it captures was visible around the original
(`MirrorsBody.inScope`).  While the copy is made, what is visible in the source is either called by
something visible in the copy, or it comes from around and was not met yet (`Aligned`).
-/

namespace Flowgraph

open Flowgraph.Graph Ledger List

variable {pairing : Pairing} {around : ValueId → Prop} {l l'' l' : Ledger}

section

variable {source copy : Graph} {l l' : Ledger} {vs ws : List ValueId} {v w : ValueId}

namespace Ledger

theorem renamed_addAll_of_not_mem (hv : v ∉ vs) : (l.addAll vs).renamed v = l.renamed v := by
  induction vs generalizing l with
  | nil => rfl
  | cons first rest ih =>
    rw [addAll_cons, ih fun hmem => hv (.tail _ hmem)]
    have hne : v ≠ first := fun heq => hv (heq ▸ (.head _))
    exact if_neg hne

theorem renamed_addAll_of_mem (hv : v ∈ vs) :
    ∃ w ∈ l.next vs.length, (l.addAll vs).renamed v = some w := by
  induction vs generalizing l with
  | nil => cases hv
  | cons first rest ih =>
    rw [addAll_cons, length_cons, l.next_succ first]
    by_cases hlater : v ∈ rest
    · obtain ⟨w, hw, heq⟩ := ih (l := l.add first) hlater
      exact ⟨w, mem_cons_of_mem _ hw, heq⟩
    · obtain rfl := (mem_cons.mp hv).resolve_right hlater
      exact ⟨_, (.head _), (renamed_addAll_of_not_mem hlater).trans (if_pos rfl)⟩

end Ledger

/-- The name of a value is kept, or it has one now and that is an input. -/
def KeepsName (copy : Graph) (l l' : Ledger) (v : ValueId) : Prop :=
  l'.renamed v = l.renamed v ∨ l.renamed v = none ∧ ∃ w, copy.IsInput w ∧ l'.renamed v = some w

theorem KeepsName.trans (h : KeepsName copy l l' v) (h' : KeepsName copy l' l'' v) :
    KeepsName copy l l'' v := by
  rcases h with heq | ⟨hnone, w, hw, hsome⟩
  · rcases h' with heq' | ⟨hnone', hsome'⟩
    · exact .inl (heq'.trans heq)
    · exact .inr ⟨heq ▸ hnone', hsome'⟩
  · rcases h' with heq' | ⟨hnone', -⟩
    · exact .inr ⟨hnone, w, hw, heq'.trans hsome⟩
    · cases hsome.symm.trans hnone'

theorem Reads.keepsName (h : Reads copy vs ws l l') (v : ValueId) : KeepsName copy l l' v := by
  induction h with
  | nil l => exact .inl rfl
  | known _ _ ih => exact ih
  | @captured u _ _ l _ hnone hinput _ ih =>
    refine KeepsName.trans ?_ ih
    by_cases heq : v = u
    · exact .inr ⟨heq ▸ hnone, _, hinput, if_pos heq⟩
    · exact .inl (if_neg heq)

/-- The value is not defined by what is copied. -/
def Pairing.Avoids (source : Graph) (v : ValueId) : Pairing → Prop
  | .nodes ns _ => ∀ n ∈ ns, ∀ node, source.node? n = some node →
      v ∉ node.outputs ∧ ∀ b ∈ node.blocks, ¬ source.Defines b v
  | .blocks bs _ => ∀ b ∈ bs, ¬ source.Defines b v

theorem Mirrors.keepsName (h : Mirrors source copy pairing l l') (hv : pairing.Avoids source v) :
    KeepsName copy l l' v := by
  induction h with
  | noNode l | noBlock l => exact .inl rfl
  | @node n node _ _ _ _ _ l l₁ l₂ l₃ hnode hins _ _ _ _ ihblocks ihrest =>
    obtain ⟨hout, hnest⟩ := hv n (.head _) node hnode
    refine (hins.keepsName v).trans (KeepsName.trans (.inl ?_)
      ((ihblocks hnest).trans (ihrest fun m hm => hv m (.tail _ hm))))
    exact renamed_addAll_of_not_mem (l := l₁.addNode n) hout
  | @block b block _ _ _ l l₁ l₂ l₃ hblock _ _ _ _ _ hres _ ihnodes ihrest =>
    have hb : ¬ source.Defines b v := hv b (.head _)
    refine KeepsName.trans (.inl (renamed_addAll_of_not_mem (l := l.addBlock b) fun hmem =>
      hb (.param hblock hmem))) ((ihnodes ?_).trans ((hres.keepsName v).trans
        (ihrest fun b' hb' => hv b' (.tail _ hb'))))
    exact fun n hn node hnode => ⟨fun hout => hb (.output hblock hn hnode hout),
      fun inner hin hdefs => hb (.nested hblock hn hnode hin hdefs)⟩

/-- The value is defined by the copies. -/
def Pairing.Makes (copy : Graph) (w : ValueId) : Pairing → Prop
  | .nodes _ ms => ∃ m ∈ ms, ∃ made, copy.node? m = some made ∧
      (w ∈ made.outputs ∨ ∃ b ∈ made.blocks, copy.Defines b w)
  | .blocks _ copies => ∃ b ∈ copies, copy.Defines b w

theorem Mirrors.makes (h : Mirrors source copy pairing l l')
    (hins : ∀ w, copy.IsInput w → copy.ParamOf w root) (hw : pairing.Makes copy w) :
    l.values.length ≤ w.index ∧ ¬ copy.IsInput w := by
  induction h with
  | noNode l =>
    obtain ⟨m, hnone, -⟩ := hw
    cases hnone
  | noBlock l =>
    obtain ⟨b, hnone, -⟩ := hw
    cases hnone
  | @node n node inputs bs owner _ _ l l₁ l₂ l₃ _ hreads hcopy horig hbs hr ihblocks ihrest =>
    have hle : l.values.length ≤ l₁.values.length := hreads.extends.values.length_le
    have hle' := (extends_addAll (l₁.addNode n) node.outputs).values.length_le
    obtain ⟨m, hm, made, hmade, hdefs⟩ := hw
    rcases mem_cons.mp hm with rfl | hlater
    · cases hcopy.symm.trans hmade
      rcases hdefs with hout | hnest
      · exact ⟨hle.trans (mem_next.mp hout).1,
          fun hinput => (horig w hout).not_paramOf (hins w hinput)⟩
      · obtain ⟨hnew, hnot⟩ := ihblocks hnest
        exact ⟨hle.trans (hle'.trans hnew), hnot⟩
    · obtain ⟨hnew, hnot⟩ := ihrest ⟨m, hlater, made, hmade, hdefs⟩
      exact ⟨hle.trans (hle'.trans (hbs.extends.values.length_le.trans hnew)), hnot⟩
  | @block old block made _ _ l l₁ l₂ l₃ _ hroot hcopy hps horig hns hres hr ihnodes ihrest =>
      have hopn := (extends_addAll (l.addBlock old) block.params).values.length_le
      obtain ⟨b, hb, hdefs⟩ := hw
      rcases mem_cons.mp hb with rfl | hlater
      · -- In the block itself: a parameter of it, or made by one of its nodes.
        have hp : w ∈ made.params → l.values.length ≤ w.index ∧ ¬ copy.IsInput w := by
          refine fun hw => ⟨(mem_next.mp (hps ▸ hw)).1, fun hinput => hroot ?_⟩
          exact length_eq_zero_iff.mp (congrArg BlockId.index ((horig w hw).unique (hins w hinput)))
        have hn : (Pairing.nodes block.nodes made.nodes).Makes copy w →
            l.values.length ≤ w.index ∧ ¬ copy.IsInput w := fun hmakes =>
          ⟨hopn.trans (ihnodes hmakes).1, (ihnodes hmakes).2⟩
        cases hdefs with
        | param hb' hw => exact hp (Option.some.inj (hcopy.symm.trans hb') ▸ hw)
        | output hb' hm hmade hw =>
          cases hcopy.symm.trans hb'
          exact hn ⟨_, hm, _, hmade, .inl hw⟩
        | nested hb' hm hmade hin hw =>
          cases hcopy.symm.trans hb'
          exact hn ⟨_, hm, _, hmade, .inr ⟨_, hin, hw⟩⟩
      · obtain ⟨hnew, hnot⟩ := ihrest ⟨b, hlater, hdefs⟩
        have hle := (hns.extends.trans hres.extends).values.length_le
        exact ⟨hopn.trans (hle.trans hnew), hnot⟩

end

/-! ## Alignment -/

/-- What is visible in the source is called by something visible in the copy, or it is visible
around the copied body and was not met yet; what is captured is visible around the body. -/
structure Aligned (copy : Graph) (around env visible : ValueId → Prop) (l : Ledger) : Prop where
  named : ∀ v w, env v → l.renamed v = some w → visible w
  unmet : ∀ v, env v → l.renamed v = none → around v
  inputs : ∀ w, copy.IsInput w → visible w
  bound : ∀ w, visible w → w.index < l.values.length ∨ copy.IsInput w
  captured : ∀ v ∈ l.captured, around v

section

variable {source copy : Graph} {around env visible : ValueId → Prop} {l l' : Ledger}
  {vs ws : List ValueId}

section

variable (h : Aligned copy around env visible l)
include h

theorem Aligned.keeps (hextends : Extends l l') (hcaptured : ∀ v ∈ l'.captured, around v)
    (hkeeps : ∀ v, env v → KeepsName copy l l' v) : Aligned copy around env visible l' where
  named v w hv hw := by
    rcases hkeeps v hv with heq | ⟨-, w', hinput, hw'⟩
    · exact h.named v w hv (heq ▸ hw)
    · cases hw.symm.trans hw'
      exact h.inputs w hinput
  unmet v hv hnone := by
    rcases hkeeps v hv with heq | ⟨hnone', -⟩
    · exact h.unmet v hv (heq ▸ hnone)
    · exact h.unmet v hv hnone'
  inputs := h.inputs
  bound w hw := (h.bound w hw).imp_left fun hlt =>
    hlt.trans_le hextends.values.length_le
  captured := hcaptured

theorem Aligned.addAll (vs : List ValueId) :
    Aligned copy around (fun v => env v ∨ v ∈ vs) (fun w => visible w ∨ w ∈ l.next vs.length)
      (l.addAll vs) where
  named v w hv hw := by
    by_cases hmem : v ∈ vs
    · obtain ⟨w', hw', heq⟩ := renamed_addAll_of_mem (l := l) hmem
      cases hw.symm.trans heq
      exact .inr hw'
    · rw [renamed_addAll_of_not_mem hmem] at hw
      exact .inl (h.named v w (hv.resolve_right hmem) hw)
  unmet v hv hnone := by
    by_cases hmem : v ∈ vs
    · obtain ⟨w', -, heq⟩ := renamed_addAll_of_mem (l := l) hmem
      cases hnone.symm.trans heq
    · rw [renamed_addAll_of_not_mem hmem] at hnone
      exact h.unmet v (hv.resolve_right hmem) hnone
  inputs w hw := .inl (h.inputs w hw)
  bound w hw := by
    rcases hw with hold | hnew
    · exact (h.bound w hold).imp_left fun hlt =>
        hlt.trans_le (extends_addAll l vs).values.length_le
    · refine .inl ?_
      rw [values_addAll, length_append]
      exact (mem_next.mp hnew).2
  captured := by simpa using h.captured

theorem Aligned.reads (hreads : Reads copy vs ws l l')
    (hvs : ∀ v ∈ vs, env v) : Aligned copy around env visible l' ∧ ∀ w ∈ ws, visible w := by
  induction hreads with
  | nil l => exact ⟨h, by simp⟩
  | known hknown hr ih =>
    obtain ⟨hv, hvs⟩ := forall_mem_cons.mp hvs
    obtain ⟨haligned, hvis⟩ := ih h hvs
    exact ⟨haligned, forall_mem_cons.mpr ⟨h.named _ _ hv hknown, hvis⟩⟩
  | @captured u _ _ l l' hnone hinput hr ih =>
    have hone : Reads copy [u] [⟨l.values.length⟩] l (l.capture u) :=
      .captured hnone hinput (.nil _)
    obtain ⟨hu, hvs⟩ := forall_mem_cons.mp hvs
    have hcaptured : ∀ v ∈ (l.capture u).captured, around v :=
      forall_mem_append.mpr ⟨h.captured, forall_mem_singleton.mpr (h.unmet u hu hnone)⟩
    obtain ⟨haligned, hvis⟩ :=
      ih (h.keeps hone.extends hcaptured fun v _ => hone.keepsName v) hvs
    exact ⟨haligned, forall_mem_cons.mpr ⟨h.inputs _ hinput, hvis⟩⟩

end

end

/-- The copies are in scope where the originals are, and capture what is visible around. -/
def Pairing.Scopes (source copy : Graph) (around : ValueId → Prop) (l l' : Ledger) : Pairing → Prop
  | .nodes ns ms => ∀ {env visible : ValueId → Prop} {results : List ValueId},
      source.InScope env (.nodes ns results) → Aligned copy around env visible l →
      ∃ env' visible' : ValueId → Prop, Aligned copy around env' visible' l' ∧
        (∀ v ∈ results, env' v) ∧ ∀ {results' : List ValueId}, (∀ w ∈ results', visible' w) →
          copy.InScope visible (.nodes ms results')
  | .blocks bs copies => ∀ {env visible : ValueId → Prop},
      (∀ b ∈ bs, source.InScope env (.block b)) →
      (∀ b ∈ bs, ∀ v, source.Defines b v → ¬ env v) → Aligned copy around env visible l →
      (∀ v ∈ l'.captured, around v) ∧ ∀ b ∈ copies, copy.InScope visible (.block b)

theorem Mirrors.scopes {source copy : Graph} (h : Mirrors source copy pairing l l')
    (around : ValueId → Prop) (hins : ∀ w, copy.IsInput w → copy.ParamOf w root) :
    pairing.Scopes source copy around l l' := by
  induction h with
  | noNode l =>
    intro env visible results hsc haligned
    cases hsc with
    | done hres => exact ⟨env, visible, haligned, hres, fun hvis => .done hvis⟩
  | noBlock l => exact fun _ _ haligned => ⟨haligned.captured, fun _ hnone => nomatch hnone⟩
  | @node n node inputs bs owner ns ms l l₁ l₂ l₃ hn hreads hcopy horig hbs hr ihblocks ihrest =>
      intro env visible results hsc haligned
      cases hsc with
      | node hn' huses hin hnew hfresh hlater =>
      cases hn.symm.trans hn'
      obtain ⟨haligned₁, hvis⟩ := haligned.reads hreads huses
      have hnamed : Aligned copy around env visible (l₁.addNode n) :=
        haligned₁.keeps (extends_addNode l₁ n) haligned₁.captured fun v _ => .inl rfl
      -- Inside the blocks of the node its outputs are named but not visible.
      have hinside : Aligned copy around env visible ((l₁.addNode n).addAll node.outputs) :=
        hnamed.keeps (extends_addAll _ _) (hnamed.addAll node.outputs).captured fun v hv =>
          .inl (renamed_addAll_of_not_mem fun hmem => hnew v hmem hv)
      obtain ⟨hcaptured, hcopies⟩ := ihblocks hin (fun b hb v hv => (hfresh b hb v hv).1) hinside
      -- After the node they are visible, and the blocks have not renamed them.
      have hafter : Aligned copy around (fun v => env v ∨ v ∈ node.outputs)
          (fun w => visible w ∨ w ∈ l₁.next node.outputs.length) l₂ := by
        refine (hnamed.addAll node.outputs).keeps hbs.extends hcaptured fun v hv =>
          hbs.keepsName ?_
        intro b hb hdefs
        rcases hv with henv | hout
        · exact (hfresh b hb v hdefs).1 henv
        · exact (hfresh b hb v hdefs).2 hout
      obtain ⟨env', visible', haligned', hres, hns⟩ := ihrest hlater hafter
      refine ⟨env', visible', haligned', hres, fun hvisible' => ?_⟩
      have hold : ∀ w, visible w → l₁.values.length ≤ w.index → copy.IsInput w := fun w hw hle =>
        (haligned₁.bound w hw).resolve_left hle.not_gt
      refine .node hcopy hvis hcopies (fun w hw hseen => ?_) (fun b hb w hw => ?_) (hns hvisible')
      · exact (horig w hw).not_paramOf (hins w (hold w hseen (mem_next.mp hw).1))
      · obtain ⟨hle, hnot⟩ := hbs.makes hins ⟨b, hb, hw⟩
        rw [values_addAll, length_append] at hle
        have hle' : l₁.values.length + node.outputs.length ≤ w.index := hle
        exact ⟨fun hseen => hnot (hold w hseen (by omega)),
          fun hout => absurd (mem_next.mp hout).2 hle'.not_gt⟩
  | @block b block made bs copies l l₁ l₂ l₃ hblock hroot hcopy hps horig hns hres hr
      ihnodes ihrest =>
      intro env visible hscopes hfresh haligned
      have hsc := hscopes b (.head _)
      cases hsc with
      | block hblock' hinside =>
      cases hblock.symm.trans hblock'
      have hopn : Aligned copy around env visible (l.addBlock b) :=
        haligned.keeps (extends_addBlock l b) haligned.captured fun v _ => .inl rfl
      obtain ⟨env', visible', haligned₁, hret, hcop⟩ :=
        ihnodes hinside (hopn.addAll block.params)
      obtain ⟨haligned₂, hvis⟩ := haligned₁.reads hres hret
      have hafter : Aligned copy around env visible l₂ := by
        refine haligned.keeps ((extends_addBlock l b).trans ((extends_addAll _ _).trans
          (hns.extends.trans hres.extends))) haligned₂.captured fun v hv => ?_
        have hone : Mirrors source copy (.blocks [b] [⟨l.blocks.length⟩]) l l₂ :=
          .block hblock hroot hcopy hps horig hns hres (.noBlock _)
        exact hone.keepsName fun b' hb' hdefs =>
          hfresh b' (by simp_all) v hdefs hv
      obtain ⟨hcaptured, hlater⟩ := ihrest (fun b' hb' => hscopes b' (.tail _ hb'))
        (fun b' hb' => hfresh b' (.tail _ hb')) hafter
      refine ⟨hcaptured, fun b' hb' => ?_⟩
      rcases mem_cons.mp hb' with rfl | hmem
      · refine .block hcopy ?_
        rw [hps]
        exact hcop hvis
      · exact hlater b' hmem

/-- The copy of a body that is in scope is in scope by itself, and it captures only what is visible
around the body. -/
theorem MirrorsBody.inScope {source copy : Graph} {body : BlockId}
    (h : MirrorsBody source copy body l) (hsc : source.InScope around (.block body)) :
    copy.InScope (fun _ => False) (.block Graph.root) ∧ ∀ v ∈ l.captured, around v := by
  obtain ⟨block, made, l₁, hb, hm, -, horig, hown, hmir, hreads⟩ := h.root
  have hins : ∀ w, copy.IsInput w → copy.ParamOf w Graph.root := by
    rintro w ⟨made', hmade', hw⟩
    cases hm.symm.trans hmade'
    exact horig w hw
  cases hsc with
  | block hb' hinside =>
  cases hb.symm.trans hb'
  have hstart : Aligned copy around around copy.IsInput (start body) :=
    { named := fun _ _ _ hnamed => nomatch hnamed
      unmet := fun _ haround _ => haround
      inputs := fun _ => id
      bound := fun _ => .inr
      captured := by simp [start] }
  obtain ⟨env', visible', haligned, hret, hcop⟩ :=
    hmir.scopes around hins hinside (hstart.addAll block.params)
  obtain ⟨haligned', hvis⟩ := haligned.reads hreads hret
  refine ⟨.block hm ?_, haligned'.captured⟩
  have hs : (fun w => False ∨ w ∈ made.params) =
      fun w => copy.IsInput w ∨ w ∈ (start body).next block.params.length := by
    funext w
    refine propext ⟨fun hw => .inl ⟨made, hm, hw.resolve_left id⟩, ?_⟩
    rintro (⟨made', hmade', hw⟩ | hw)
    · exact .inr (Option.some.inj (hm.symm.trans hmade') ▸ hw)
    · exact .inr (hown w hw)
  rw [hs]
  exact hcop hvis

end Flowgraph
