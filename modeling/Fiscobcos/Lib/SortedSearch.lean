import Mathlib.Data.List.Basic
import Mathlib.Data.List.Lex
import Mathlib.Tactic

/-! # Bisection

The smallest index at which a monotone test holds, and lists kept in order by inserting there. -/

namespace Fiscobcos.SortedSearch

/-- The answer is between `i` and `j`. -/
def bisect (f : ℕ → Bool) : ℕ → ℕ → ℕ → ℕ
  | 0, i, _ => i
  | fuel + 1, i, j =>
    if i < j then
      if f ((i + j) / 2) then bisect f fuel i ((i + j) / 2) else bisect f fuel ((i + j) / 2 + 1) j
    else i

/-- `sort.Search`. -/
def search (n : ℕ) (f : ℕ → Bool) : ℕ := bisect f n 0 n

structure Splits (n : ℕ) (f : ℕ → Bool) (r : ℕ) : Prop where
  le : r ≤ n
  below : ∀ k, k < r → f k = false
  above : ∀ k, r ≤ k → k < n → f k = true

theorem bisect_splits {n : ℕ} {f : ℕ → Bool}
    (hmono : ∀ i j, i ≤ j → j < n → f i = true → f j = true) (fuel i j : ℕ) (hfuel : j - i ≤ fuel)
    (hij : i ≤ j) (hj : j ≤ n) (hbelow : ∀ k, k < i → f k = false)
    (habove : ∀ k, j ≤ k → k < n → f k = true) : Splits n f (bisect f fuel i j) := by
  induction fuel generalizing i j with
  | zero =>
    have heq : i = j := by omega
    subst heq
    exact ⟨hj, hbelow, habove⟩
  | succ fuel ih =>
    unfold bisect
    split_ifs with hlt hf
    · refine ih i ((i + j) / 2) (by omega) (by omega) (by omega) hbelow fun k hk hkn => ?_
      exact hmono ((i + j) / 2) k hk hkn hf
    · refine ih ((i + j) / 2 + 1) j (by omega) (by omega) hj (fun k hk => ?_) habove
      cases hk' : f k with
      | false => rfl
      | true => exact absurd (hmono k ((i + j) / 2) (by omega) (by omega) hk') hf
    · have heq : i = j := by omega
      subst heq
      exact ⟨hj, hbelow, habove⟩

theorem search_splits {n : ℕ} {f : ℕ → Bool}
    (hmono : ∀ i j, i ≤ j → j < n → f i = true → f j = true) : Splits n f (search n f) :=
  bisect_splits hmono n 0 n (by omega) (by omega) (by omega) (fun k hk => absurd hk (by omega))
    (fun k hk hkn => absurd hkn (by omega))

section Lists
variable {α : Type*} {l : List α} {p : α → Bool}

def searchList (l : List α) (p : α → Bool) : ℕ := search l.length fun i => l[i]?.any p

theorem searchList_congr {q : α → Bool} (h : ∀ a ∈ l, p a = q a) :
    searchList l p = searchList l q := by
  have hany : (fun i : ℕ => l[i]?.any p) = fun i : ℕ => l[i]?.any q := by
    funext i
    cases hi : l[i]? with
    | none => rfl
    | some a => exact h a (List.mem_iff_getElem?.mpr ⟨i, hi⟩)
  rw [searchList, hany, searchList]

theorem searchList_splits (h : l.Pairwise fun a b => p a = true → p b = true) :
    Splits l.length (fun i => l[i]?.any p) (searchList l p) := by
  refine search_splits fun i j hij hj hi => ?_
  rcases Nat.lt_or_eq_of_le hij with hlt | rfl
  · have hstep := (List.pairwise_iff_getElem.mp h) i j (by omega) hj hlt
    rw [List.getElem?_eq_getElem hj]
    rw [List.getElem?_eq_getElem (by omega)] at hi
    exact hstep hi
  · exact hi

theorem searchList_take (h : l.Pairwise fun a b => p a = true → p b = true) :
    ∀ a ∈ l.take (searchList l p), p a = false := by
  intro a ha
  obtain ⟨k, hk⟩ := List.mem_iff_getElem?.mp ha
  rw [List.getElem?_take] at hk
  split_ifs at hk with hlt
  have hfalse := (searchList_splits h).below k hlt
  rwa [hk] at hfalse

theorem searchList_drop (h : l.Pairwise fun a b => p a = true → p b = true) :
    ∀ a ∈ l.drop (searchList l p), p a = true := by
  intro a ha
  obtain ⟨k, hk⟩ := List.mem_iff_getElem?.mp ha
  rw [List.getElem?_drop] at hk
  have hlen : searchList l p + k < l.length := (List.getElem?_eq_some_iff.mp hk).1
  have htrue := (searchList_splits h).above _ (Nat.le_add_right _ k) hlen
  rwa [hk] at htrue

def insertAt (l : List α) (i : ℕ) (a : α) : List α := l.take i ++ a :: l.drop i

theorem insertAt_perm (l : List α) (i : ℕ) (a : α) : (insertAt l i a).Perm (a :: l) := by
  have h : (insertAt l i a).Perm (a :: (l.take i ++ l.drop i)) := List.perm_middle
  rwa [List.take_append_drop] at h

variable {κ : Type*} [LinearOrder κ] {key : α → κ}

theorem insertAt_sorted {i : ℕ} {a : α} (h : l.Pairwise fun a b => key a ≤ key b)
    (htake : ∀ b ∈ l.take i, key b ≤ key a) (hdrop : ∀ b ∈ l.drop i, key a ≤ key b) :
    (insertAt l i a).Pairwise fun a b => key a ≤ key b := by
  rw [← List.take_append_drop i l, List.pairwise_append] at h
  obtain ⟨hleft, hright, hcross⟩ := h
  refine List.pairwise_append.mpr ⟨hleft, List.pairwise_cons.mpr ⟨hdrop, hright⟩, ?_⟩
  intro b hb c hc
  rcases List.mem_cons.mp hc with rfl | hc
  · exact htake b hb
  · exact hcross b hb c hc

section Keys
variable {q : α → Bool} {x : κ} {i : ℕ} (h : l.Pairwise fun a b => key a ≤ key b)
  (hp : ∀ a, p a = true ↔ x ≤ key a) (hi : i = searchList l p)
include h hp

theorem sorted_mono : l.Pairwise fun a b => p a = true → p b = true := by
  refine h.imp fun hab hx => ?_
  rw [hp] at hx ⊢
  exact hx.trans hab

include hi

theorem key_lt_of_take : ∀ a ∈ l.take i, key a < x := by
  intro a ha
  rw [hi] at ha
  have hlt := searchList_take (sorted_mono h hp) a ha
  rw [← Bool.not_eq_true, hp, not_le] at hlt
  exact hlt

theorem le_key_of_drop : ∀ a ∈ l.drop i, x ≤ key a := by
  intro a ha
  rw [hi] at ha
  exact (hp a).mp (searchList_drop (sorted_mono h hp) a ha)

variable (hq : ∀ a, q a = true ↔ key a = x)
include hq

theorem filter_take_key : (l.take i).filter q = [] := by
  rw [List.filter_eq_nil_iff]
  intro a ha
  rw [hq]
  exact ne_of_lt (key_lt_of_take h hp hi a ha)

theorem filter_key_cases : (l.filter q = [] ∧ ∀ a, l[i]? = some a → key a ≠ x) ∨
    ∃ a, l[i]? = some a ∧ key a = x ∧ l.filter q = a :: (l.eraseIdx i).filter q := by
  have hfilter : l.filter q = (l.drop i).filter q := by
    conv_lhs => rw [← List.take_append_drop i l, List.filter_append, filter_take_key h hp hi hq]
    rfl
  cases hget : l[i]? with
  | none =>
    rw [List.drop_of_length_le (List.getElem?_eq_none_iff.mp hget)] at hfilter
    exact .inl ⟨hfilter, fun a ha => by cases ha⟩
  | some a =>
    obtain ⟨hlen, ha⟩ := List.getElem?_eq_some_iff.mp hget
    have hdrop : l.drop i = a :: l.drop (i + 1) := by rw [List.drop_eq_getElem_cons hlen, ha]
    rw [hdrop] at hfilter
    by_cases hx : key a = x
    · refine .inr ⟨a, rfl, hx, ?_⟩
      rw [hfilter, List.filter_cons_of_pos ((hq a).mpr hx), List.eraseIdx_eq_take_drop_succ,
        List.filter_append, filter_take_key h hp hi hq, List.nil_append]
    · -- a larger key here, and so from here on
      have hge := le_key_of_drop h hp hi
      have hsorted := h.sublist (List.drop_sublist i l)
      rw [hdrop] at hge hsorted
      have hgt : x < key a := lt_of_le_of_ne (hge a List.mem_cons_self) (Ne.symm hx)
      refine .inl ⟨?_, fun b hb => ?_⟩
      · rw [hfilter, List.filter_eq_nil_iff]
        intro b hb
        rw [hq]
        rcases List.mem_cons.mp hb with rfl | hb
        · exact hx
        · exact ne_of_gt (lt_of_lt_of_le hgt ((List.pairwise_cons.mp hsorted).1 b hb))
      · cases hb
        exact hx

end Keys

end Lists

end Fiscobcos.SortedSearch
