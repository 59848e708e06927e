import Mathlib.Data.List.Perm.Basic
import Mathlib.Tactic

/-! # Lists with an active part

The first `n` entries are active. An entry leaves them by changing places with the last active one.
-/

namespace Fiscobcos.ActivePrefix
open scoped List

variable {α : Type*} {l : List α} {n i : ℕ} {a : α}

def deactivate (l : List α) (n i : ℕ) : List α :=
  match l[i]?, l[n - 1]? with
  | some a, some b => (l.set i b).set (n - 1) a
  | _, _ => l

theorem deactivate_perm (l : List α) (n i : ℕ) : (deactivate l n i).Perm l := by
  unfold deactivate
  split
  · rename_i a b ha hb
    obtain ⟨hi, rfl⟩ := List.getElem?_eq_some_iff.mp ha
    obtain ⟨hn, rfl⟩ := List.getElem?_eq_some_iff.mp hb
    exact List.set_set_perm hi hn
  · exact .refl l

theorem deactivate_length (l : List α) (n i : ℕ) : (deactivate l n i).length = l.length :=
  (deactivate_perm l n i).length_eq

theorem drop_deactivate (ha : l[i]? = some a) (hi : i < n) (hn : n ≤ l.length) :
    (deactivate l n i).drop (n - 1) = a :: l.drop n := by
  have hlast : n - 1 < l.length := by omega
  obtain ⟨b, hb⟩ : ∃ b, l[n - 1]? = some b := ⟨_, List.getElem?_eq_getElem hlast⟩
  have hswap : deactivate l n i = (l.set i b).set (n - 1) a := by
    unfold deactivate
    rw [ha, hb]
  have hlen : n - 1 < ((l.set i b).set (n - 1) a).length := by simpa using hlast
  have hnext : n - 1 + 1 = n := by omega
  rw [hswap, List.drop_eq_getElem_cons hlen, List.getElem_set_self, hnext,
    List.drop_set_of_lt (by omega), List.drop_set_of_lt hi]

theorem take_deactivate_perm (ha : l[i]? = some a) (hi : i < n) (hn : n ≤ l.length) :
    (a :: (deactivate l n i).take (n - 1)).Perm (l.take n) := by
  rw [← List.perm_append_right_iff (l.drop n), List.take_append_drop]
  calc a :: (deactivate l n i).take (n - 1) ++ l.drop n
      = a :: ((deactivate l n i).take (n - 1) ++ l.drop n) := rfl
    _ ~ (deactivate l n i).take (n - 1) ++ a :: l.drop n := List.perm_middle.symm
    _ = deactivate l n i := by rw [← drop_deactivate ha hi hn, List.take_append_drop]
    _ ~ l := deactivate_perm l n i

theorem deactivate_head (hi : 0 < i) (hn : 1 < n) : (deactivate l n i).head? = l.head? := by
  unfold deactivate
  split
  · rw [List.head?_eq_getElem?, List.head?_eq_getElem?, List.getElem?_set_ne (by omega),
      List.getElem?_set_ne (by omega)]
  · rfl

theorem erase_perm (ha : l[i]? = some a) : (a :: l.eraseIdx i).Perm l := by
  obtain ⟨hi, rfl⟩ := List.getElem?_eq_some_iff.mp ha
  exact List.getElem_cons_eraseIdx_perm hi

theorem erase_active (hi : i < n) (hn : n ≤ l.length) :
    (l.eraseIdx i).take (n - 1) = (l.take n).eraseIdx i ∧ (l.eraseIdx i).drop (n - 1) = l.drop n := by
  have hlen : (l.take n).length = n := by simpa using hn
  have hsplit : l.eraseIdx i = (l.take n).eraseIdx i ++ l.drop n := by
    conv_lhs => rw [← List.take_append_drop n l]
    exact List.eraseIdx_append_of_lt_length (by omega) _
  have hshort : ((l.take n).eraseIdx i).length = n - 1 := by
    rw [List.length_eraseIdx, if_pos (by omega), hlen]
  rw [hsplit]
  exact ⟨List.take_left' hshort, List.drop_left' hshort⟩

theorem erase_inactive (hi : n ≤ i) (hn : n ≤ l.length) :
    (l.eraseIdx i).take n = l.take n ∧ (l.eraseIdx i).drop n = (l.drop n).eraseIdx (i - n) := by
  have hlen : (l.take n).length = n := by simpa using hn
  have hsplit : l.eraseIdx i = l.take n ++ (l.drop n).eraseIdx (i - n) := by
    conv_lhs => rw [← List.take_append_drop n l]
    rw [List.eraseIdx_append_of_length_le (by omega), hlen]
  rw [hsplit]
  exact ⟨List.take_left' hlen, List.drop_left' hlen⟩

theorem erase_head (hi : 0 < i) : (l.eraseIdx i).head? = l.head? := by
  cases l with
  | nil => rfl
  | cons x l =>
    obtain ⟨j, rfl⟩ := Nat.exists_eq_succ_of_ne_zero (Nat.ne_of_gt hi)
    rfl

end Fiscobcos.ActivePrefix
