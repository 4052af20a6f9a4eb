import Mathlib.Logic.Basic

/-! Runs of a deterministic system that takes an event per step and may refuse it. A run
can be restricted to steps that meet a condition on the state and the event. -/

namespace EmmaNode

section
variable {σ ε : Type}

inductive Runs (step : σ → ε → Option σ) (ok : σ → ε → Prop) (s : σ) : σ → Prop
  | refl : Runs step ok s s
  | tail {t u : σ} {e : ε} : Runs step ok s t → ok t e → step t e = some u → Runs step ok s u

namespace Runs
variable {step : σ → ε → Option σ} {ok ok' : σ → ε → Prop} {s t u : σ}

theorem trans (r : Runs step ok s t) (r' : Runs step ok t u) : Runs step ok s u := by
  induction r' with
  | refl => exact r
  | tail _ hok hs ih => exact ih.tail hok hs

theorem weaken (h : ∀ t e, ok t e → ok' t e) (r : Runs step ok s t) : Runs step ok' s t := by
  induction r with
  | refl => exact .refl
  | tail _ hok hs ih => exact ih.tail (h _ _ hok) hs

theorem keeps {I : σ → Prop}
    (stable : ∀ t e u, ok t e → step t e = some u → I t → I u)
    (r : Runs step ok s t) (h : I s) : I t := by
  induction r with
  | refl => exact h
  | tail _ hok hs ih => exact stable _ _ _ hok hs ih

theorem strengthen {I : σ → Prop} (check : ∀ t e, I t → ok t e → ok' t e)
    (stable : ∀ t e u, ok' t e → step t e = some u → I t → I u)
    (r : Runs step ok s t) (h : I s) : Runs step ok' s t ∧ I t := by
  induction r with
  | refl => exact ⟨.refl, h⟩
  | tail _ hok hs ih =>
    obtain ⟨run, inv⟩ := ih
    have hok' := check _ _ inv hok
    exact ⟨run.tail hok' hs, stable _ _ _ hok' hs inv⟩

end Runs

def follow (step : σ → ε → Option σ) (ok : σ → ε → Prop) [∀ s e, Decidable (ok s e)] :
    List ε → σ → Option σ
  | [], s => some s
  | e :: rest, s => if ok s e then (step s e).bind (follow step ok rest) else none

theorem Runs.of_follow (step : σ → ε → Option σ) (ok : σ → ε → Prop) [∀ s e, Decidable (ok s e)]
    (Q : σ → Bool) (events : List ε) (s : σ) (h : (follow step ok events s).any Q = true) :
    ∃ t, Runs step ok s t ∧ Q t = true := by
  have reach : ∀ (events : List ε) (t u : σ), Runs step ok s t →
      follow step ok events t = some u → Runs step ok s u := by
    intro events
    induction events with
    | nil =>
      intro t u r h
      cases h
      exact r
    | cons e rest ih =>
      intro t u r h
      simp only [follow] at h
      split at h
      · rename_i hok
        obtain ⟨v, hs, hv⟩ := Option.bind_eq_some_iff.mp h
        exact ih v u (r.tail hok hs) hv
      · simp at h
  cases hf : follow step ok events s with
  | none => simp [hf] at h
  | some t => exact ⟨t, reach events s t .refl hf, by simpa [hf] using h⟩

end
end EmmaNode
