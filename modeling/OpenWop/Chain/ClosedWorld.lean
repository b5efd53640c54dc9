import OpenWop.Chain.Reads
import OpenWop.Chain.TokenFree

/-!
# Closed-world reads after a deferred expansion

A read of the fragment is the binding the expansion emits for a parameter, a read the chain is
written with, or one the substitution brought in.
-/

namespace OpenWop.Chain

open OpenWop.Js OpenWop.Template

section Substitution

variable {params : Params}

theorem PutIn.cons {v w : Json} {step : PathStep} {path : List PathStep} (h : PutIn w path)
    (hat : ∀ path, valueAt v (step :: path) = valueAt w path) : PutIn v (step :: path) := by
  obtain ⟨before, after, s, name, rfl, hbefore, hwhole⟩ := h
  exact ⟨step :: before, after, s, name, rfl, (hat before).trans hbefore, hwhole⟩

end Substitution

section Forms

variable {params : Params} {tag key : JsString}

end Forms

section Rewriting

variable {ctx : DeferredExpansionContext}

/-- The binding the expansion emits for a parameter. -/
def binding (name : JsString) : Json :=
  .obj [(js "source", .str (js "variable")), (js "variable", .str name)]

/-- Members of a config or of inputs after the expansion: substituted, prompts, or bindings to the
materialized parameters. -/
def Rewritten (ctx : DeferredExpansionContext) (materialized : List JsString)
    (fields fields' : Fields) : Prop :=
  ∀ k w, Record.get? fields' k = some w → ∃ v, Record.get? fields k = some v ∧
    (w = substitute ctx.params v ∨ (k ∈ promptConfigFields ∧ ∃ t, w = .str t) ∨
      ∃ name ∈ materialized, w = binding name)

end Rewriting

section Materialized

variable {ctx : DeferredExpansionContext}

/-- The parameters a site leaves open. -/
def Site.openNames (site : Site) : List JsString :=
  match site.handling with
  | .slots => mentions site.value
  | .bound name _ => [name]
  | _ => []

end Materialized

section Validated

end Validated

end OpenWop.Chain
