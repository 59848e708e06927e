import Mathlib.Tactic

/-! # Runs that may panic

A run panics, or returns an error, or returns a value. -/

namespace Fiscobcos.Panics

variable {π ε α β : Type}

abbrev Run (π ε : Type) := ExceptT ε (Except π)

def panics (p : π) : Run π ε α := ExceptT.mk (.error p)

def Total (x : Run π ε α) : Prop := ∃ r, x.run = .ok r

def Returns (x : Run π ε α) (a : α) : Prop := x.run = .ok (.ok a)

variable {x : Run π ε α} {a : α} {f : α → Run π ε β}

theorem Returns.total (h : Returns x a) : Total x := ⟨_, h⟩

theorem returns_pure {a b : α} : Returns (pure a : Run π ε α) b ↔ a = b := by
  unfold Returns
  rw [ExceptT.run_pure]
  simp [pure, Except.pure]

theorem total_pure (a : α) : Total (pure a : Run π ε α) := (returns_pure.mpr rfl).total

theorem not_returns_throw {e : ε} : ¬ Returns (throw e : Run π ε α) a := by
  intro h
  cases h

theorem total_throw (e : ε) : Total (throw e : Run π ε α) := ⟨.error e, rfl⟩

theorem not_total_panics (p : π) : ¬ Total (panics p : Run π ε α) := by
  intro h
  obtain ⟨r, hr⟩ := h
  cases hr

theorem not_returns_panics {p : π} : ¬ Returns (panics p : Run π ε α) a := by
  intro h
  cases h

theorem run_cases (x : Run π ε α) :
    (∃ p, x.run = .error p) ∨ (∃ e, x.run = .ok (.error e)) ∨ ∃ a, Returns x a := by
  unfold Returns
  cases x.run with
  | error p => exact .inl ⟨p, rfl⟩
  | ok r =>
    cases r with
    | error e => exact .inr (.inl ⟨e, rfl⟩)
    | ok a => exact .inr (.inr ⟨a, rfl⟩)

theorem run_bind_of_returns (h : Returns x a) (f : α → Run π ε β) : (x >>= f).run = (f a).run := by
  unfold Returns at h
  rw [ExceptT.run_bind, h]
  rfl

theorem total_bind : Total (x >>= f) ↔ Total x ∧ ∀ a, Returns x a → Total (f a) := by
  obtain ⟨p, hp⟩ | ⟨e, he⟩ | ⟨a, ha⟩ := run_cases x
  · have hrun : (x >>= f).run = .error p := by
      rw [ExceptT.run_bind, hp]
      rfl
    refine iff_of_false ?_ ?_
    · intro h
      obtain ⟨r, hr⟩ := h
      rw [hrun] at hr
      cases hr
    · intro h
      obtain ⟨r, hr⟩ := h.1
      rw [hp] at hr
      cases hr
  · have hrun : (x >>= f).run = .ok (.error e) := by
      rw [ExceptT.run_bind, he]
      rfl
    refine iff_of_true ⟨_, hrun⟩ ⟨⟨_, he⟩, ?_⟩
    intro a ha
    unfold Returns at ha
    rw [he] at ha
    cases ha
  · have hrun := run_bind_of_returns ha f
    unfold Total
    rw [hrun]
    constructor
    · intro h
      refine ⟨⟨_, ha⟩, ?_⟩
      intro b hb
      unfold Returns at ha hb
      rw [ha] at hb
      cases hb
      exact h
    · intro h
      exact h.2 a ha

theorem returns_bind {b : β} : Returns (x >>= f) b ↔ ∃ a, Returns x a ∧ Returns (f a) b := by
  constructor
  · intro h
    obtain ⟨p, hp⟩ | ⟨e, he⟩ | ⟨a, ha⟩ := run_cases x
    · unfold Returns at h
      rw [ExceptT.run_bind, hp] at h
      cases h
    · unfold Returns at h
      rw [ExceptT.run_bind, he] at h
      cases h
    · unfold Returns at h
      rw [run_bind_of_returns ha f] at h
      exact ⟨a, ha, h⟩
  · intro h
    obtain ⟨a, ha, hf⟩ := h
    unfold Returns
    rw [run_bind_of_returns ha f]
    exact hf

theorem total_bind_of_returns (h : Returns x a) : Total (x >>= f) ↔ Total (f a) := by
  unfold Total
  rw [run_bind_of_returns h f]

end Fiscobcos.Panics
