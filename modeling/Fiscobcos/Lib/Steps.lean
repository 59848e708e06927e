import Mathlib.Logic.Relation
import Mathlib.Tactic

/-! # Runs of a labelled step relation

`Reach` is reachability through steps that meet a condition on the state before the step. -/

namespace Fiscobcos.Steps

variable {σ α : Type*}

def Via (step : σ → α → σ → Prop) (ok : σ → α → Prop) (s s' : σ) : Prop :=
  ∃ a, ok s a ∧ step s a s'

/-- Reachability through steps that meet `ok`. -/
def Reach (step : σ → α → σ → Prop) (ok : σ → α → Prop) (s s' : σ) : Prop :=
  Relation.ReflTransGen (Via step ok) s s'

variable {step : σ → α → σ → Prop} {ok : σ → α → Prop} {s s' s'' : σ}

theorem Reach.refl (s : σ) : Reach step ok s s := Relation.ReflTransGen.refl

theorem Reach.tail {a : α} (h : Reach step ok s s') (hs : step s' a s'') (hok : ok s' a) :
    Reach step ok s s'' :=
  Relation.ReflTransGen.tail h ⟨a, hok, hs⟩

theorem Reach.trans (h : Reach step ok s s') (h' : Reach step ok s' s'') : Reach step ok s s'' :=
  Relation.ReflTransGen.trans h h'

theorem Reach.mono {ok' : σ → α → Prop} (h : Reach step ok s s')
    (himp : ∀ s a, ok s a → ok' s a) : Reach step ok' s s' := by
  induction h with
  | refl => exact .refl _
  | tail _ hlast ih =>
    obtain ⟨a, hok, hs⟩ := hlast
    exact Reach.tail ih hs (himp _ a hok)

theorem Reach.invariant {I : σ → Prop} (h : Reach step ok s s') (h0 : I s)
    (hstep : ∀ s a s', I s → ok s a → step s a s' → I s') : I s' := by
  induction h with
  | refl => exact h0
  | tail _ hlast ih =>
    obtain ⟨a, hok, hs⟩ := hlast
    exact hstep _ a _ ih hok hs

end Fiscobcos.Steps
