import Mathlib.Algebra.BigOperators.Fin
import Mathlib.Algebra.Order.BigOperators.Group.Finset
import Mathlib.Tactic

/-! # Counting over processes

`tally f p` adds up what the states of finitely many processes are worth. -/

namespace Fiscobcos.Tally

variable {ι σ : Type*} [Fintype ι]

def tally (f : σ → ℕ) (p : ι → σ) : ℕ := ∑ i, f (p i)

theorem tally_update [DecidableEq ι] (f : σ → ℕ) (p : ι → σ) (i : ι) (x : σ) :
    tally f (Function.update p i x) + f (p i) = tally f p + f x := by
  have hnew : tally f (Function.update p i x) = f x + ∑ j ∈ Finset.univ.erase i, f (p j) := by
    rw [tally, ← Finset.add_sum_erase _ _ (Finset.mem_univ i), Function.update_self]
    congr 1
    apply Finset.sum_congr rfl
    intro j hj
    rw [Function.update_of_ne (Finset.ne_of_mem_erase hj)]
  have hold : tally f p = f (p i) + ∑ j ∈ Finset.univ.erase i, f (p j) := by
    rw [tally, ← Finset.add_sum_erase _ _ (Finset.mem_univ i)]
  omega

variable {f : σ → ℕ} {p : ι → σ}

theorem tally_update_of_eq [DecidableEq ι] {i : ι} {x : σ}
    (h : f x = f (p i)) : tally f (Function.update p i x) = tally f p := by
  have hsum := tally_update f p i x
  omega

theorem le_tally (f : σ → ℕ) (p : ι → σ) (i : ι) : f (p i) ≤ tally f p :=
  Finset.single_le_sum (f := fun i => f (p i)) (fun _ _ => Nat.zero_le _) (Finset.mem_univ i)

theorem tally_eq_zero : tally f p = 0 ↔ ∀ i, f (p i) = 0 := by
  rw [tally, Finset.sum_eq_zero_iff]
  exact ⟨fun h i => h i (Finset.mem_univ i), fun h i _ => h i⟩

theorem exists_of_tally_pos (h : 0 < tally f p) : ∃ i, 0 < f (p i) := by
  by_contra hnone
  have hzero : tally f p = 0 := by
    rw [tally_eq_zero]
    intro i
    by_contra hi
    exact hnone ⟨i, Nat.pos_of_ne_zero hi⟩
  omega

theorem unique_of_tally_le_one (h : tally f p ≤ 1) {i j : ι}
    (hi : 0 < f (p i)) (hj : 0 < f (p j)) : i = j := by
  classical
  by_contra hne
  have hpair : ∑ k ∈ {i, j}, f (p k) ≤ tally f p :=
    Finset.sum_le_sum_of_subset (Finset.subset_univ _)
  rw [Finset.sum_pair hne] at hpair
  omega

theorem tally_indicator {P : σ → Prop} [DecidablePred P] (p : ι → σ) :
    tally (fun x => if P x then 1 else 0) p = (Finset.univ.filter fun i => P (p i)).card := by
  rw [tally, Finset.card_filter]

end Fiscobcos.Tally
