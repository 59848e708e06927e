import Mathlib.Data.Nat.Basic
import Mathlib.Order.Basic

/-! # Runs with fuel

A run returns a value or an error, or has used up its fuel. Runs are ordered by how much they answer
(`Le`), so a recursion on fuel has at most one answer (`Chain.unique`). -/

namespace Fiscobcos.Runs
open Option

variable {σ ε α β : Type}

/-- A computation that always ends. -/
abbrev Total (σ ε α : Type) := σ → Except ε α × σ

namespace Total

def handle (r : Total σ ε α) (catcher : ε → σ → Except ε β × σ) (k : α → Total σ ε β) :
    Total σ ε β := fun s =>
  match r s with
  | (.error e, s) => catcher e s
  | (.ok a, s) => k a s

def andThen (r : Total σ ε α) (k : α → Total σ ε β) : Total σ ε β :=
  handle r (fun e s => (.error e, s)) k

def map (f : α → β) (r : Total σ ε α) : Total σ ε β := andThen r fun a s => (.ok (f a), s)

end Total

/-- `none` stands for a run that has not ended. -/
abbrev Run (σ ε α : Type) := σ → Option (Except ε α × σ)

namespace Run

def lift (op : Total σ ε α) : Run σ ε α := fun s => some (op s)

def handle (r : Run σ ε α) (catcher : ε → σ → Except ε β × σ) (k : α → Run σ ε β) : Run σ ε β :=
  fun s =>
    match r s with
    | none => none
    | some (.error e, s) => some (catcher e s)
    | some (.ok a, s) => k a s

def andThen (r : Run σ ε α) (k : α → Run σ ε β) : Run σ ε β :=
  handle r (fun e s => (.error e, s)) k

def map (f : α → β) (r : Run σ ε α) : Run σ ε β :=
  andThen r fun a => lift fun s => (.ok (f a), s)

def Le (r r' : Run σ ε α) : Prop := ∀ s x, r s = some x → r' s = some x

theorem Le.refl (r : Run σ ε α) : Le r r := fun _ _ h => h

theorem Le.trans {r₁ r₂ r₃ : Run σ ε α} (h₁ : Le r₁ r₂) (h₂ : Le r₂ r₃) : Le r₁ r₃ :=
  fun s x h => h₂ s x (h₁ s x h)

variable {r r' : Run σ ε α} {catcher : ε → σ → Except ε β × σ} {k : α → Run σ ε β} {s s' : σ}
  {f : α → β}

theorem handle_some {x : Except ε β × σ} : handle r catcher k s = some x ↔
      (∃ e t, r s = some (.error e, t) ∧ catcher e t = x) ∨
      ∃ a t, r s = some (.ok a, t) ∧ k a t = some x := by
  unfold handle
  cases hr : r s with
  | none => simp
  | some y =>
    obtain ⟨res, t⟩ := y
    cases res with
    | error e =>
      simp only [some.injEq, Prod.mk.injEq, Except.error.injEq, reduceCtorEq, false_and,
        exists_false, or_false]
      constructor
      · exact fun h => ⟨e, t, ⟨rfl, rfl⟩, h⟩
      · rintro ⟨_, _, ⟨rfl, rfl⟩, h⟩
        exact h
    | ok a =>
      simp only [some.injEq, Prod.mk.injEq, Except.ok.injEq, reduceCtorEq, false_and,
        exists_false, false_or]
      constructor
      · exact fun h => ⟨a, t, ⟨rfl, rfl⟩, h⟩
      · rintro ⟨_, _, ⟨rfl, rfl⟩, h⟩
        exact h

theorem andThen_ok {b : β} : andThen r k s = some (.ok b, s') ↔
      ∃ a t, r s = some (.ok a, t) ∧ k a t = some (.ok b, s') := by
  rw [andThen, handle_some]
  simp

theorem map_ok {b : β} : map f r s = some (.ok b, s') ↔ ∃ a, r s = some (.ok a, s') ∧ f a = b := by
  rw [map, andThen_ok]
  constructor
  · rintro ⟨a, t, hr, hk⟩
    cases hk
    exact ⟨a, hr, rfl⟩
  · rintro ⟨a, hr, rfl⟩
    exact ⟨a, s', hr, rfl⟩

theorem map_error {e : ε} : map f r s = some (.error e, s') ↔ r s = some (.error e, s') := by
  rw [map, andThen, handle_some]
  constructor
  · rintro (⟨e', t, hr, hx⟩ | ⟨a, t, -, hk⟩)
    · cases hx
      exact hr
    · cases hk
  · intro hr
    exact .inl ⟨e, s', hr, rfl⟩

theorem handle_none (h : r s = none) : handle r catcher k s = none := by
  unfold handle
  rw [h]

theorem handle_ok {s t : σ} {a : α} (h : r s = some (.ok a, t)) : handle r catcher k s = k a t := by
  unfold handle
  rw [h]

theorem handle_congr (h : r s = r s') : handle r catcher k s = handle r catcher k s' := by
  unfold handle
  rw [h]

theorem map_isSome : (map f r s).isSome = (r s).isSome := by
  unfold map andThen handle lift
  cases hr : r s with
  | none => rfl
  | some y =>
    obtain ⟨res, t⟩ := y
    cases res <;> rfl

theorem handle_le {k k' : α → Run σ ε β} (hr : Le r r') (hk : ∀ a, Le (k a) (k' a)) :
    Le (handle r catcher k) (handle r' catcher k') := by
  intro s x h
  rw [handle_some] at h ⊢
  rcases h with ⟨e, t, hrs, hx⟩ | ⟨a, t, hrs, hka⟩
  · exact .inl ⟨e, t, hr s _ hrs, hx⟩
  · exact .inr ⟨a, t, hr s _ hrs, hk a t x hka⟩

theorem map_le (hr : Le r r') : Le (map f r) (map f r') :=
  handle_le hr fun _ => .refl _

theorem Le.isSome (h : Le r r') (hs : (r s).isSome) : (r' s).isSome := by
  obtain ⟨x, hx⟩ := isSome_iff_exists.mp hs
  exact isSome_iff_exists.mpr ⟨x, h s x hx⟩

theorem handle_isSome (hr : (r s).isSome) (hk : ∀ a t, r s = some (.ok a, t) → (k a t).isSome) :
    (handle r catcher k s).isSome := by
  unfold handle
  cases hrs : r s with
  | none => simp [hrs] at hr
  | some x =>
    obtain ⟨res, t⟩ := x
    cases res with
    | error e => rfl
    | ok a => exact hk a t hrs

/-- Whenever `r` ends on a state with `I`, the state it leaves has `I`. -/
def Keeps (I : σ → Prop) (r : Run σ ε α) : Prop := ∀ s x, I s → r s = some x → I x.2

variable {I : σ → Prop}

theorem lift_keeps {op : Total σ ε α} (h : ∀ s, I s → I (op s).2) : Keeps I (lift op) := by
  intro s x hs hx
  cases hx
  exact h s hs

theorem handle_keeps
    (hr : Keeps I r) (hc : ∀ e s, I s → I (catcher e s).2) (hk : ∀ a, Keeps I (k a)) :
    Keeps I (handle r catcher k) := by
  intro s x hs hx
  rcases handle_some.mp hx with ⟨e, t, hrs, rfl⟩ | ⟨a, t, hrs, hka⟩
  · exact hc e t (hr s _ hs hrs)
  · exact hk a t x (hr s _ hs hrs) hka

theorem andThen_keeps (hr : Keeps I r) (hk : ∀ a, Keeps I (k a)) : Keeps I (andThen r k) :=
  handle_keeps hr (fun _ _ h => h) hk

theorem map_keeps (hr : Keeps I r) : Keeps I (map f r) :=
  andThen_keeps hr fun _ => lift_keeps fun _ h => h

end Run

namespace Total

variable {r : Total σ ε α} {catcher : ε → σ → Except ε β × σ} {k : α → Total σ ε β} {f : α → β}
  {s t : σ} {x : Except ε β × σ} {b : β}

theorem lift_handle (r : Total σ ε α) (catcher : ε → σ → Except ε β × σ) (k : α → Total σ ε β) :
    Run.lift (handle r catcher k) = Run.handle (.lift r) catcher fun a => .lift (k a) := by
  funext s
  simp only [Run.lift, handle, Run.handle]
  rcases r s with ⟨_ | a, t⟩ <;> rfl

theorem lift_map (f : α → β) (r : Total σ ε α) : Run.lift (map f r) = Run.map f (.lift r) :=
  lift_handle r _ _

theorem handle_eq : handle r catcher k s = x ↔
    (∃ e t, r s = (.error e, t) ∧ catcher e t = x) ∨ ∃ a t, r s = (.ok a, t) ∧ k a t = x := by
  have h : Run.handle (.lift r) catcher (fun a => .lift (k a)) s = some x ↔ _ := Run.handle_some
  rw [← lift_handle] at h
  simpa only [Run.lift, some.injEq] using h

theorem handle_congr (h : r s = r t) : handle r catcher k s = handle r catcher k t := by
  unfold handle
  rw [h]

theorem andThen_ok : andThen r k s = (.ok b, t) ↔ ∃ a u, r s = (.ok a, u) ∧ k a u = (.ok b, t) := by
  rw [andThen, handle_eq]
  simp

theorem map_ok : map f r s = (.ok b, t) ↔ ∃ a, r s = (.ok a, t) ∧ f a = b := by
  have h : Run.map f (.lift r) s = some (.ok b, t) ↔ _ := Run.map_ok
  rw [← lift_map] at h
  simpa only [Run.lift, some.injEq] using h

theorem map_error {e : ε} : map f r s = (.error e, t) ↔ r s = (.error e, t) := by
  have h : Run.map f (.lift r) s = some (.error e, t) ↔ _ := Run.map_error
  rw [← lift_map] at h
  simpa only [Run.lift, some.injEq] using h

end Total

/-- On `s` the run ends as `p` does; `f` gives the values of `p` as values of the run. -/
def Follows (f : α → β) (r : Run σ ε β) (p : Total σ ε α) (s : σ) : Prop :=
  r s = some ((p s).1.map f, (p s).2)

namespace Follows

variable {γ δ : Type} {f : α → β} {g : γ → δ} {r : Run σ ε β} {p : Total σ ε α} {s : σ}

theorem lift (p : Total σ ε α) (s : σ) : Follows id (.lift p) p s := by
  unfold Follows Run.lift
  rcases p s with ⟨_ | a, t⟩ <;> rfl

theorem handle {c : ε → σ → Except ε δ × σ} {c' : ε → σ → Except ε γ × σ} {k : β → Run σ ε δ}
    {k' : α → Total σ ε γ} (h : Follows f r p s)
    (hc : ∀ e t, c e t = ((c' e t).1.map g, (c' e t).2))
    (hk : ∀ a t, p s = (.ok a, t) → Follows g (k (f a)) (k' a) t) :
    Follows g (.handle r c k) (.handle p c' k') s := by
  unfold Follows Run.handle Total.handle at *
  rw [h]
  rcases hp : p s with ⟨e | a, t⟩
  · exact congrArg some (hc e t)
  · exact hk a t hp

theorem andThen {k : β → Run σ ε δ} {k' : α → Total σ ε γ} (h : Follows f r p s)
    (hk : ∀ a t, p s = (.ok a, t) → Follows g (k (f a)) (k' a) t) :
    Follows g (.andThen r k) (.andThen p k') s :=
  h.handle (fun _ _ => rfl) hk

theorem map {u : β → δ} {v : α → γ} (h : Follows f r p s) (huv : ∀ a, u (f a) = g (v a)) :
    Follows g (.map u r) (.map v p) s :=
  h.andThen fun a t _ => congrArg (fun b => some (Except.ok b, t)) (huv a)

theorem map_left {u : β → δ} (h : Follows f r p s) : Follows (fun a => u (f a)) (.map u r) p s := by
  unfold Follows Run.map Run.andThen Run.handle Run.lift at *
  rw [h]
  rcases p s with ⟨_ | a, t⟩ <;> rfl

end Follows

/-- A recursion on fuel: more fuel never takes back an answer. -/
def Chain (r : ℕ → Run σ ε α) : Prop := ∀ n, Run.Le (r n) (r (n + 1))

variable {r : ℕ → Run σ ε α} {s : σ}

theorem Chain.le (h : Chain r) {m n : ℕ} (hmn : m ≤ n) : Run.Le (r m) (r n) := by
  induction hmn with
  | refl => exact .refl _
  | step _ ih => exact ih.trans (h _)

theorem Chain.handle_isSome {k : ℕ → α → Run σ ε β}
    {catcher : ε → σ → Except ε β × σ} (hr : Chain r) (hk : ∀ a, Chain fun n => k n a)
    (h : ∃ n, (r n s).isSome) (hnext : ∀ n a t, r n s = some (.ok a, t) → ∃ m, (k m a t).isSome) :
    ∃ n, (Run.handle (r n) catcher (k n) s).isSome := by
  obtain ⟨n, hn⟩ := h
  obtain ⟨x, hx⟩ := isSome_iff_exists.mp hn
  obtain ⟨res, t⟩ := x
  cases res with
  | error e =>
    refine ⟨n, Run.handle_isSome hn fun a u ha => ?_⟩
    rw [hx] at ha
    cases ha
  | ok a =>
    obtain ⟨m, hm⟩ := hnext n a t hx
    have hx' := hr.le (le_max_left n m) s _ hx
    refine ⟨max n m, Run.handle_isSome (isSome_iff_exists.mpr ⟨_, hx'⟩) fun b u hb => ?_⟩
    rw [hx'] at hb
    cases hb
    exact ((hk a).le (le_max_right n m)).isSome hm

theorem Chain.none_of_large (h : Chain r) {N : ℕ}
    (hN : ∀ n, N ≤ n → r n s = none) (n : ℕ) : r n s = none := by
  cases hr : r n s with
  | none => rfl
  | some x =>
    have hx := h.le (le_max_left n N) s x hr
    rw [hN _ (le_max_right n N)] at hx
    cases hx

theorem Chain.unique (h : Chain r) {m n : ℕ}
    {x y : Except ε α × σ} (hx : r m s = some x) (hy : r n s = some y) : x = y := by
  have h₁ := h.le (le_max_left m n) s x hx
  have h₂ := h.le (le_max_right m n) s y hy
  exact some.inj (h₁.symm.trans h₂)

end Fiscobcos.Runs
