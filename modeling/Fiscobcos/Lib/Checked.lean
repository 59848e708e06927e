import Mathlib.Tactic

/-! # Checked runs

A computation returns a value or an error, or faults: an index is out of range, an integer leaves
64 bits, or more memory is asked for than there are addresses. -/

namespace Fiscobcos.Checked

variable {ε α β γ : Type}

inductive Fault where
  | bounds
  | overflow
  | memory
  deriving DecidableEq, Repr

inductive Outcome (ε α : Type) where
  | ok (a : α)
  | err (e : ε)
  | fault (f : Fault)
  deriving DecidableEq, Repr

namespace Outcome

def bind (x : Outcome ε α) (k : α → Outcome ε β) : Outcome ε β :=
  match x with
  | .ok a => k a
  | .err e => .err e
  | .fault f => .fault f

instance : Monad (Outcome ε) where
  pure := .ok
  bind := bind

@[simp] theorem ok_bind (a : α) (k : α → Outcome ε β) : (Outcome.ok a >>= k) = k a := rfl

@[simp] theorem err_bind (e : ε) (k : α → Outcome ε β) : (Outcome.err e >>= k) = .err e := rfl

@[simp] theorem fault_bind (f : Fault) (k : α → Outcome ε β) :
    (Outcome.fault f >>= k) = .fault f := rfl

variable {x : Outcome ε α}

theorem bind_eq_ok {k : α → Outcome ε β} {b : β} :
    (x >>= k) = .ok b ↔ ∃ a, x = .ok a ∧ k a = .ok b := by
  cases x <;> simp

def attempt : Outcome ε α → Outcome ε (Except ε α)
  | .ok a => .ok (.ok a)
  | .err e => .ok (.error e)
  | .fault f => .fault f

def ofExcept : Except ε α → Outcome ε α
  | .ok a => .ok a
  | .error e => .err e

@[simp] theorem attempt_ok (a : α) : attempt (.ok a : Outcome ε α) = .ok (.ok a) := rfl

@[simp] theorem attempt_fault (f : Fault) : attempt (.fault f : Outcome ε α) = .fault f := rfl

theorem attempt_eq_ok {r : Except ε α} : x.attempt = .ok r ↔ x = ofExcept r := by
  cases x <;> cases r <;> simp [attempt, ofExcept]

def Safe : Outcome ε α → Prop
  | .fault _ => False
  | _ => True

theorem Safe.bind {k : α → Outcome ε β} (hx : Safe x)
    (hk : ∀ a, x = .ok a → Safe (k a)) : Safe (x >>= k) := by
  cases x with
  | ok a => exact hk a rfl
  | err e => trivial
  | fault f => exact hx

theorem Safe.attempt (hx : Safe x) : Safe x.attempt := by
  cases x with
  | ok a => trivial
  | err e => trivial
  | fault f => exact hx

theorem safe_ofExcept (r : Except ε α) : Safe (ofExcept r) := by
  cases r <;> trivial

theorem safe_ite {c : Prop} [Decidable c] {y : Outcome ε α} (hx : c → Safe x)
    (hy : ¬ c → Safe y) : Safe (if c then x else y) := by
  split
  · exact hx ‹c›
  · exact hy ‹¬ c›

theorem safe_unless {c : Prop} [Decidable c] {e : ε} (h : ¬ c → Safe x) :
    Safe (if c then .err e else x) := safe_ite (fun _ => trivial) h

end Outcome

def int64 (n : ℕ) : Outcome ε ℕ := if n < 2 ^ 63 then .ok n else .fault .overflow

@[simp] theorem int64_of_lt {n : ℕ} (h : n < 2 ^ 63) : (int64 n : Outcome ε ℕ) = .ok n := if_pos h

theorem int64_eq_ok {n m : ℕ} : (int64 n : Outcome ε ℕ) = .ok m ↔ n < 2 ^ 63 ∧ n = m := by
  unfold int64
  split
  · exact ⟨fun h => by cases h; exact ⟨‹_›, rfl⟩, fun h => congrArg _ h.2⟩
  · exact ⟨nofun, fun h => absurd h.1 ‹_›⟩

def slice (xs : List α) (lo hi : ℕ) : Outcome ε (List α) :=
  if lo ≤ hi ∧ hi ≤ xs.length then .ok ((xs.take hi).drop lo) else .fault .bounds

def sliceFrom (xs : List α) (lo : ℕ) : Outcome ε (List α) := slice xs lo xs.length

variable {xs : List α} {lo : ℕ}

theorem slice_of_le {hi : ℕ} (h₁ : lo ≤ hi) (h₂ : hi ≤ xs.length) :
    (slice xs lo hi : Outcome ε (List α)) = .ok ((xs.take hi).drop lo) := if_pos ⟨h₁, h₂⟩

theorem sliceFrom_of_le (h : lo ≤ xs.length) :
    (sliceFrom xs lo : Outcome ε (List α)) = .ok (xs.drop lo) := by
  rw [sliceFrom, slice_of_le h le_rfl, List.take_length]

theorem sliceFrom_of_lt (h : xs.length < lo) :
    (sliceFrom xs lo : Outcome ε (List α)) = .fault .bounds := if_neg (by omega)

theorem sliceFrom_eq_ok {ys : List α}
    (h : (sliceFrom xs lo : Outcome ε (List α)) = .ok ys) : lo ≤ xs.length ∧ ys = xs.drop lo := by
  rcases Nat.lt_or_ge xs.length lo with hlt | hle
  · rw [sliceFrom_of_lt hlt] at h
    cases h
  · rw [sliceFrom_of_le hle] at h
    cases h
    exact ⟨hle, rfl⟩

theorem slice_length {ys : List α} {hi : ℕ}
    (h : (slice xs lo hi : Outcome ε (List α)) = .ok ys) : ys.length = hi - lo := by
  unfold slice at h
  split at h
  · cases h
    simp only [List.length_drop, List.length_take]
    omega
  · cases h

end Fiscobcos.Checked
