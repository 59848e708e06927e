import Fiscobcos.Lib.Steps

/-! # Fair runs

A run is fair to a class of actions if these are taken again and again provided they can be. What
it must reach is shown from single steps. -/

namespace Fiscobcos.Steps

variable {σ α : Type*} {step : σ → α → σ → Prop} {ok : σ → α → Prop} {s₀ : σ}

structure Run (step : σ → α → σ → Prop) (ok : σ → α → Prop) (s₀ : σ) where
  state : ℕ → σ
  action : ℕ → Option α
  start : state 0 = s₀
  next : ∀ n, match action n with
    | none => state (n + 1) = state n
    | some a => ok (state n) a ∧ step (state n) a (state (n + 1))

def Enabled (step : σ → α → σ → Prop) (A : α → Prop) (s : σ) : Prop := ∃ a s', A a ∧ step s a s'

namespace Run

variable (r : Run step ok s₀)

def Fair (A : α → Prop) : Prop :=
  (∀ n, ∃ m ≥ n, Enabled step A (r.state m)) → ∀ n, ∃ m ≥ n, ∃ a, A a ∧ r.action m = some a

def LeadsTo (P Q : σ → Prop) : Prop := ∀ n, P (r.state n) → ∃ m ≥ n, Q (r.state m)

variable {r} {A : α → Prop} {P Q R : σ → Prop}

theorem next_cases (n : ℕ) : r.state (n + 1) = r.state n ∨
    ∃ a, r.action n = some a ∧ ok (r.state n) a ∧ step (r.state n) a (r.state (n + 1)) := by
  have h := r.next n
  cases ha : r.action n with
  | none =>
    rw [ha] at h
    exact .inl h
  | some a =>
    rw [ha] at h
    exact .inr ⟨a, rfl, h⟩

theorem reach (n : ℕ) : Reach step ok s₀ (r.state n) := by
  induction n with
  | zero =>
    rw [r.start]
    exact .refl _
  | succ n ih =>
    rcases next_cases n with heq | ⟨a, -, hok, hstep⟩
    · exact heq ▸ ih
    · exact ih.tail hstep hok

theorem stable (hstep : ∀ s a s', P s → ok s a → step s a s' → P s') {n m : ℕ} (hn : P (r.state n))
    (hm : n ≤ m) : P (r.state m) := by
  induction m, hm using Nat.le_induction with
  | base => exact hn
  | succ m _ ih =>
    rcases next_cases m with heq | ⟨a, -, hok, hs⟩
    · exact heq ▸ ih
    · exact hstep _ a _ ih hok hs

theorem LeadsTo.trans (h₁ : r.LeadsTo P Q) (h₂ : r.LeadsTo Q R) : r.LeadsTo P R := by
  intro n hn
  obtain ⟨m, hm, hq⟩ := h₁ n hn
  obtain ⟨k, hk, hr⟩ := h₂ m hq
  exact ⟨k, hm.trans hk, hr⟩

theorem leadsTo_of_fair (hfair : r.Fair A)
    (hstay : ∀ s a s', P s → ok s a → step s a s' → P s' ∨ Q s')
    (hgo : ∀ s a s', P s → A a → ok s a → step s a s' → Q s')
    (hcan : r.LeadsTo P fun s => Q s ∨ Enabled step A s) : r.LeadsTo P Q := by
  intro n hn
  by_contra hnone
  have hnever : ∀ m ≥ n, ¬ Q (r.state m) := fun m hm hq => hnone ⟨m, hm, hq⟩
  have halways : ∀ m ≥ n, P (r.state m) := by
    intro m hm
    induction m, hm using Nat.le_induction with
    | base => exact hn
    | succ m hm ih =>
      rcases next_cases m with heq | ⟨a, -, hok, hstep⟩
      · exact heq ▸ ih
      · exact (hstay _ a _ ih hok hstep).resolve_right (hnever (m + 1) (by omega))
  have henabled : ∀ k, ∃ m ≥ k, Enabled step A (r.state m) := by
    intro k
    obtain ⟨m, hm, hq | hen⟩ := hcan (max k n) (halways _ (le_max_right k n))
    · exact absurd hq (hnever m ((le_max_right k n).trans hm))
    · exact ⟨m, (le_max_left k n).trans hm, hen⟩
  obtain ⟨m, hm, a, hA, ha⟩ := hfair henabled n
  have hnext := r.next m
  rw [ha] at hnext
  exact hnever (m + 1) (by omega) (hgo _ a _ (halways m hm) hA hnext.1 hnext.2)

theorem leadsTo_of_rank (rank : σ → ℕ) (A : ℕ → α → Prop) (hfair : ∀ k, r.Fair (A k))
    (hstay : ∀ s a s', P s → ok s a → step s a s' → Q s' ∨ P s' ∧ rank s' ≤ rank s)
    (hgo : ∀ s a s', P s → A (rank s) a → ok s a → step s a s' → Q s' ∨ P s' ∧ rank s' < rank s)
    (hcan : ∀ s, P s → Enabled step (A (rank s)) s) : r.LeadsTo P Q := by
  have hrank : ∀ k, r.LeadsTo (fun s => P s ∧ rank s = k) Q := by
    intro k
    induction k using Nat.strong_induction_on with
    | _ k ih =>
      have hdrop : r.LeadsTo (fun s => P s ∧ rank s = k) fun s => Q s ∨ P s ∧ rank s < k := by
        refine leadsTo_of_fair (hfair k) ?_ ?_ ?_
        · rintro s a s' ⟨hP, rfl⟩ hok hstep
          rcases hstay s a s' hP hok hstep with hq | ⟨hP', hle⟩
          · exact .inr (.inl hq)
          · rcases hle.eq_or_lt with heq | hlt
            · exact .inl ⟨hP', heq⟩
            · exact .inr (.inr ⟨hP', hlt⟩)
        · rintro s a s' ⟨hP, rfl⟩ hA hok hstep
          exact hgo s a s' hP hA hok hstep
        · rintro n ⟨hP, hk⟩
          exact ⟨n, le_rfl, .inr (hk ▸ hcan _ hP)⟩
      intro n hn
      obtain ⟨m, hm, hq | ⟨hP, hlt⟩⟩ := hdrop n hn
      · exact ⟨m, hm, hq⟩
      · obtain ⟨m', hm', hq⟩ := ih _ hlt m ⟨hP, rfl⟩
        exact ⟨m', hm.trans hm', hq⟩
  exact fun n hn => hrank _ n ⟨hn, rfl⟩

end Run

end Fiscobcos.Steps
