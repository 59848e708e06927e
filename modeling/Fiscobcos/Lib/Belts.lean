import Mathlib.Logic.Relation
import Mathlib.Logic.Function.Basic
import Mathlib.Tactic

/-! # Lines of stages

Stage `j` takes the first item of belt `j` and puts what it makes of it, if anything, at the end of
belt `j + 1`; the last belt is turned into output. When the belts are empty, the output is that of
the items taken one after the other. -/

namespace Fiscobcos.Belts
open Function List

variable {α β : Type*} (f : ℕ → α → Option α) (g : α → List β)

structure Line (α β : Type*) where
  belt : ℕ → List α
  out : List β

def value : ℕ → ℕ → α → List β
  | 0, _, a => g a
  | d + 1, j, a => (f j a).elim [] (value d (j + 1))

def pending (belt : ℕ → List α) : ℕ → ℕ → List β
  | 0, j => (belt j).flatMap g
  | d + 1, j => pending belt d (j + 1) ++ (belt j).flatMap (value f g (d + 1) j)

inductive Move (n : ℕ) : Line α β → Line α β → Prop
  | pass {l : Line α β} {j : ℕ} {a : α} {rest : List α} (hj : j < n) (hbelt : l.belt j = a :: rest) :
      Move n l ⟨Function.update (Function.update l.belt j rest) (j + 1)
        (l.belt (j + 1) ++ (f j a).toList), l.out⟩
  | emit {l : Line α β} {a : α} {rest : List α} (hbelt : l.belt n = a :: rest) :
      Move n l ⟨Function.update l.belt n rest, l.out ++ g a⟩

def Moves (n : ℕ) : Line α β → Line α β → Prop := Relation.ReflTransGen (Move f g n)

variable {f g}

theorem pending_congr {belt belt' : ℕ → List α} {d j : ℕ}
    (h : ∀ i, j ≤ i → i ≤ j + d → belt' i = belt i) :
    pending f g belt' d j = pending f g belt d j := by
  induction d generalizing j with
  | zero => rw [pending, pending, h j le_rfl le_rfl]
  | succ d ih =>
    have hrest : pending f g belt' d (j + 1) = pending f g belt d (j + 1) :=
      ih fun i hi hle => h i (by omega) (by omega)
    rw [pending, pending, hrest, h j le_rfl (by omega)]

theorem pending_append (belt : ℕ → List α) (d j : ℕ) (l : List α) :
    pending f g (update belt j (belt j ++ l)) d j =
      pending f g belt d j ++ l.flatMap (value f g d j) := by
  cases d with
  | zero =>
    rw [pending, pending, update_self, flatMap_append]
    rfl
  | succ d =>
    have hrest : pending f g (update belt j (belt j ++ l)) d (j + 1) =
        pending f g belt d (j + 1) :=
      pending_congr fun i hi _ => update_of_ne (by omega) _ _
    rw [pending, pending, hrest, update_self, flatMap_append, append_assoc]

variable {belt : ℕ → List α} {n : ℕ} {l l' : Line α β}

theorem pending_pass {d i j : ℕ} {a : α} {rest : List α} (hi : i ≤ j)
    (hj : j < i + d) (hbelt : belt j = a :: rest) : pending f g (update (update belt j rest) (j + 1)
      (belt (j + 1) ++ (f j a).toList)) d i = pending f g belt d i := by
  induction d generalizing i with
  | zero => omega
  | succ d ih =>
    by_cases hij : i = j
    · subst hij
      have hnext : update belt i rest (i + 1) = belt (i + 1) :=
        update_of_ne (by omega) _ _
      have hsame : pending f g (update belt i rest) d (i + 1) =
          pending f g belt d (i + 1) :=
        pending_congr fun k hk _ => update_of_ne (by omega) _ _
      have hput := pending_append (f := f) (g := g) (update belt i rest) d (i + 1)
        (f i a).toList
      rw [hnext, hsame] at hput
      have hfirst : update (update belt i rest) (i + 1)
          (belt (i + 1) ++ (f i a).toList) i = rest := by
        rw [update_of_ne (by omega), update_self]
      have hvalue : (f i a).toList.flatMap (value f g d (i + 1)) = value f g (d + 1) i a := by
        rw [value]
        cases f i a with
        | none => rfl
        | some b => exact flatMap_singleton _ _
      rw [pending, pending, hput, hfirst, hbelt, flatMap_cons, hvalue, append_assoc]
    · have hother : update (update belt j rest) (j + 1)
          (belt (j + 1) ++ (f j a).toList) i = belt i := by
        rw [update_of_ne (by omega), update_of_ne hij]
      rw [pending, pending, ih (by omega) (by omega), hother]

theorem pending_emit {d i : ℕ} {a : α} {rest : List α} (hbelt : belt (i + d) = a :: rest) :
    pending f g belt d i = g a ++ pending f g (update belt (i + d) rest) d i := by
  induction d generalizing i with
  | zero =>
    rw [Nat.add_zero] at hbelt ⊢
    rw [pending, pending, hbelt, update_self, flatMap_cons]
  | succ d ih =>
    have hidx : i + 1 + d = i + (d + 1) := by omega
    have hrest := ih (i := i + 1) (hidx ▸ hbelt)
    have hfirst : update belt (i + (d + 1)) rest i = belt i :=
      update_of_ne (by omega) _ _
    rw [pending, pending, hrest, hidx, hfirst, append_assoc]

theorem Move.total (h : Move f g n l l') :
    l'.out ++ pending f g l'.belt n 0 = l.out ++ pending f g l.belt n 0 := by
  cases h with
  | pass hj hbelt => rw [pending_pass (Nat.zero_le _) (by omega) hbelt]
  | @emit a rest hbelt =>
    have hlast : pending f g l.belt n 0 = g a ++ pending f g (update l.belt n rest) n 0 := by
      have hemit := pending_emit (f := f) (g := g) (d := n) (i := 0) (by rw [Nat.zero_add]; exact hbelt)
      rw [Nat.zero_add] at hemit
      exact hemit
    rw [hlast, append_assoc]

theorem Move.forall {P : α → Prop} (hf : ∀ j a b, P a → f j a = some b → P b) (h : Move f g n l l')
    (hl : ∀ j, ∀ a ∈ l.belt j, P a) : ∀ j, ∀ a ∈ l'.belt j, P a := by
  cases h with
  | @pass i b rest hj hbelt =>
    have hb : P b := hl i b (hbelt ▸ mem_cons_self)
    intro j a ha
    simp only [update_apply] at ha
    split_ifs at ha with hnext hsame
    · rcases mem_append.mp ha with ha | ha
      · exact hl _ a ha
      · exact hf i b a hb (Option.mem_toList.mp ha)
    · exact hl i a (hbelt ▸ mem_cons_of_mem _ ha)
    · exact hl j a ha
  | @emit b rest hbelt =>
    intro j a ha
    simp only [update_apply] at ha
    split_ifs at ha
    · exact hl n a (hbelt ▸ mem_cons_of_mem _ ha)
    · exact hl j a ha

theorem Moves.total (h : Moves f g n l l') :
    l'.out ++ pending f g l'.belt n 0 = l.out ++ pending f g l.belt n 0 := by
  induction h with
  | refl => rfl
  | tail _ hlast ih => exact hlast.total.trans ih

theorem pending_of_empty {d j : ℕ} (h : ∀ i, j ≤ i → i ≤ j + d → belt i = []) :
    pending f g belt d j = [] := by
  induction d generalizing j with
  | zero => rw [pending, h j le_rfl le_rfl, flatMap_nil]
  | succ d ih =>
    rw [pending, ih fun i hi hle => h i (by omega) (by omega), h j le_rfl (by omega)]
    rfl

theorem pending_first (xs : List α) (d : ℕ) :
    pending f g (fun j => if j = 0 then xs else []) d 0 = xs.flatMap (value f g d 0) := by
  cases d with
  | zero => rfl
  | succ d =>
    have hrest : pending f g (fun j => if j = 0 then xs else []) d (0 + 1) = [] :=
      pending_of_empty fun i hi _ => if_neg (by omega)
    rw [pending, hrest]
    rfl

theorem Moves.complete {xs : List α} (h : Moves f g n ⟨fun j => if j = 0 then xs else [], []⟩ l)
    (hempty : ∀ j, j ≤ n → l.belt j = []) : l.out = xs.flatMap (value f g n 0) := by
  have htotal := h.total
  rw [pending_of_empty fun j _ hj => hempty j (by omega), pending_first] at htotal
  simpa using htotal

end Fiscobcos.Belts
