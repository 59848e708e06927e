import Fiscobcos.Keystore.Lookup
import Fiscobcos.Keystore.Wallets

/-! # The wallets of the manager (accounts/manager.go)

The wallets of all backends in the order of their URLs, as the events of the backends change them.
-/

namespace Fiscobcos.Keystore
open List

open Numerals SortedSearch

section Manager
variable {ω : Type} (url : ω → URL)

def place (slice : List ω) (w : ω) : ℕ := searchList slice fun x => ((url x).Cmp (url w)).isGE

def mergeWallet (slice : List ω) (w : ω) : List ω :=
  if place url slice w = slice.length then slice ++ [w] else insertAt slice (place url slice w) w

def dropWallet (slice : List ω) (w : ω) : List ω :=
  if place url slice w = slice.length then slice else slice.eraseIdx (place url slice w)

def updateWallets (slice : List ω) : WalletEventType × ω → List ω
  | (.walletArrived, w) => mergeWallet url slice w
  | (.walletDropped, w) => dropWallet url slice w
  | (.walletOpened, _) => slice

/-- The list that `NewManager` merges, after the events. -/
def managedWallets (wallets : List ω) (events : List (WalletEventType × ω)) : List ω :=
  events.foldl (updateWallets url) (wallets.foldl (mergeWallet url) [])

abbrev InOrder (slice : List ω) : Prop := slice.Pairwise fun x y => (url x).key ≤ (url y).key

/-- `slice'` is `slice` without a wallet of this URL, or `slice` if there is none. -/
def Drops (w : ω) (slice slice' : List ω) : Prop :=
  (∃ x, url x = url w ∧ (x :: slice').Perm slice) ∨ (∀ x ∈ slice, url x ≠ url w) ∧ slice' = slice

variable {url} {slice : List ω} (w : ω)

theorem isGE_iff (u v : URL) : (u.Cmp v).isGE = true ↔ v.key ≤ u.key := by
  rw [← not_lt, ← URL.Cmp_lt_iff]
  cases u.Cmp v <;> simp

theorem InOrder.merge (h : InOrder url slice) :
    InOrder url (mergeWallet url slice w) ∧ (mergeWallet url slice w).Perm (w :: slice) := by
  have heq : mergeWallet url slice w = insertAt slice (place url slice w) w := by
    unfold mergeWallet
    split_ifs with hlen
    · rw [hlen, insertAt, take_length, drop_length]
    · rfl
  rw [heq]
  have hge : ∀ x, ((url x).Cmp (url w)).isGE = true ↔ (url w).key ≤ (url x).key :=
    fun x => isGE_iff _ _
  exact ⟨insertAt_sorted h (fun x hx => (key_lt_of_take h hge rfl x hx).le)
    (le_key_of_drop h hge rfl), insertAt_perm _ _ _⟩

theorem InOrder.drop (h : InOrder url slice) : InOrder url (dropWallet url slice w) := by
  unfold dropWallet
  split_ifs
  · exact h
  · exact h.sublist (eraseIdx_sublist _ _)

theorem InOrder.drops_iff (h : InOrder url slice) : Drops url w slice (dropWallet url slice w) ↔
    (∃ x ∈ slice, url x = url w) ∨ ∀ x ∈ slice, (url x).Cmp (url w) = .lt := by
  have hge : ∀ x, ((url x).Cmp (url w)).isGE = true ↔ (url w).key ≤ (url x).key :=
    fun x => isGE_iff _ _
  have hle : place url slice w ≤ slice.length := (searchList_splits (sorted_mono h hge)).le
  by_cases hlen : place url slice w = slice.length
  · -- all wallets are before this one
    have hall : ∀ x ∈ slice, (url x).Cmp (url w) = .lt := fun x hx => (URL.Cmp_lt_iff _ _).mpr
      (key_lt_of_take h hge rfl x (by
        rw [← place, hlen, List.take_length]
        exact hx))
    have hne : ∀ x ∈ slice, url x ≠ url w := fun x hx heq => by
      have hlt := (URL.Cmp_lt_iff _ _).mp (hall x hx)
      rw [heq] at hlt
      exact lt_irrefl _ hlt
    rw [dropWallet, if_pos hlen]
    exact iff_of_true (.inr ⟨hne, rfl⟩) (.inr hall)
  · have hlt : place url slice w < slice.length := by omega
    have hperm := List.getElem_cons_eraseIdx_perm hlt
    have hmem := List.getElem_mem hlt
    rw [dropWallet, if_neg hlen]
    rcases filter_key_cases (q := fun x => decide ((url x).key = (url w).key)) h hge rfl
      (fun x => decide_eq_true_iff) with ⟨hnil, -⟩ | ⟨x, hget, hkey, -⟩
    · have hno : ∀ x ∈ slice, url x ≠ url w := fun x hx heq =>
        List.filter_eq_nil_iff.mp hnil x hx (by simp [heq])
      -- a wallet goes, and it is another one
      refine iff_of_false ?_ ?_
      · rintro (⟨x, hx, hp⟩ | ⟨-, hsame⟩)
        · exact hno x (hp.mem_iff.mp List.mem_cons_self) hx
        · have hless := List.length_eraseIdx_of_lt hlt
          rw [hsame] at hless
          omega
      · rintro (⟨x, hx, heq⟩ | hall)
        · exact hno x hx heq
        · have hat := (searchList_splits (sorted_mono h hge)).above (place url slice w) le_rfl hlt
          rw [List.getElem?_eq_getElem hlt, Option.any_some, hall _ hmem] at hat
          cases hat
    · obtain ⟨hi, rfl⟩ := List.getElem?_eq_some_iff.mp hget
      have heq := URL.key_injective hkey
      exact iff_of_true (.inl ⟨_, heq, hperm⟩) (.inl ⟨_, hmem, heq⟩)

theorem InOrder.managed (url : ω → URL) (wallets : List ω) (events : List (WalletEventType × ω)) :
    InOrder url (managedWallets url wallets events) := by
  have hmerged : ∀ l, InOrder url l → InOrder url (wallets.foldl (mergeWallet url) l) := by
    induction wallets with
    | nil => exact fun l hl => hl
    | cons w wallets ih => exact fun l hl => ih _ (InOrder.merge w hl).1
  have hevents : ∀ l, InOrder url l → InOrder url (events.foldl (updateWallets url) l) := by
    induction events with
    | nil => exact fun l hl => hl
    | cons e events ih =>
      obtain ⟨kind, w⟩ := e
      intro l hl
      cases kind with
      | walletArrived => exact ih _ (InOrder.merge w hl).1
      | walletDropped => exact ih _ (InOrder.drop w hl)
      | walletOpened => exact ih _ hl
  exact hevents _ (hmerged [] Pairwise.nil)

/-- After every history the list is in order, an arrival adds its wallet, and a drop is exact if
its wallet is there or belongs at the end. -/
theorem manager_list_iff (url : ω → URL) (wallets : List ω) (events : List (WalletEventType × ω))
    (w : ω) : InOrder url (managedWallets url wallets events) ∧
      (mergeWallet url (managedWallets url wallets events) w).Perm
        (w :: managedWallets url wallets events) ∧ (Drops url w (managedWallets url wallets events)
          (dropWallet url (managedWallets url wallets events) w) ↔
        (∃ x ∈ managedWallets url wallets events, url x = url w) ∨
          ∀ x ∈ managedWallets url wallets events, (url x).Cmp (url w) = .lt) :=
  have h := InOrder.managed url wallets events
  ⟨h, (InOrder.merge w h).2, InOrder.drops_iff w h⟩

/-- The wallet at `a`, which is not in the list, is dropped, and the one at `b` goes. -/
theorem manager_drops_other : managedWallets Account.url [accountAt 98] [] = [accountAt 98] ∧
    managedWallets Account.url [accountAt 98] [(.walletDropped, accountAt 97)] = [] ∧
    ¬ Drops Account.url (accountAt 97) [accountAt 98] [] := by
  refine ⟨by decide, by decide, ?_⟩
  rintro (⟨x, hx, hperm⟩ | ⟨-, hsame⟩)
  · rw [singleton_injective (perm_singleton.mp hperm)] at hx
    exact absurd hx (by decide)
  · cases hsame

end Manager

end Fiscobcos.Keystore
