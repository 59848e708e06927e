import Fiscobcos.Common.Hexutil
import Fiscobcos.Lib.JsonTree
import Fiscobcos.Lib.SortedSearch

/-! # The account cache (accounts/keystore/account_cache.go)

The accounts in the order of their URLs, searched by bisection, and by address. -/

namespace Fiscobcos.Keystore
open Numerals JsonTree Hexutil SortedSearch

structure URL where
  scheme : Bytes
  path : Bytes
deriving DecidableEq

def stringsCompare (a b : Bytes) : Ordering := if a = b then .eq else if a < b then .lt else .gt

def URL.Cmp (u url : URL) : Ordering :=
  if u.scheme = url.scheme then stringsCompare u.path url.path
  else stringsCompare u.scheme url.scheme

structure Account where
  address : Bytes
  url : URL
deriving DecidableEq

def keyStoreScheme : Bytes := ascii "keystore"

structure AccountCache where
  all : List Account
  byAddr : Bytes → Option (List Account)

def AccountCache.empty : AccountCache := ⟨[], fun _ => none⟩

/-- `byAddr[addr]`; a key that the map does not have reads as the empty slice. -/
def AccountCache.accountsOf (ac : AccountCache) (addr : Bytes) : List Account :=
  (ac.byAddr addr).getD []

def AccountCache.add (ac : AccountCache) (newAccount : Account) : AccountCache :=
  let i := searchList ac.all fun a => (a.url.Cmp newAccount.url).isGE
  if ac.all[i]? = some newAccount then ac
  else
    { all := insertAt ac.all i newAccount
      byAddr := Function.update ac.byAddr newAccount.address
        (some (ac.accountsOf newAccount.address ++ [newAccount])) }

def removeAccount (slice : List Account) (elem : Account) : List Account := slice.erase elem

/-- The map after a removal; an address that has no account left loses its key. -/
def AccountCache.unlisted (ac : AccountCache) (removed : Account) : Bytes → Option (List Account) :=
  let ba := removeAccount (ac.accountsOf removed.address) removed
  Function.update ac.byAddr removed.address (if ba.length = 0 then none else some ba)

def AccountCache.delete (ac : AccountCache) (removed : Account) : AccountCache :=
  { all := removeAccount ac.all removed
    byAddr := ac.unlisted removed }

def AccountCache.deleteByFile (ac : AccountCache) (path : Bytes) : AccountCache :=
  let i := searchList ac.all fun a => decide (path ≤ a.url.path)
  match ac.all[i]? with
  | none => ac
  | some removed =>
    if removed.url.path = path then
      { all := ac.all.eraseIdx i
        byAddr := ac.unlisted removed }
    else ac

def AccountCache.cached (ac : AccountCache) (path : Bytes) : List Account :=
  ac.all.filter fun a => decide (a.url.path = path)

structure AccountCache.Valid (ac : AccountCache) : Prop where
  scheme : ∀ a ∈ ac.all, a.url.scheme = keyStoreScheme
  sorted : ac.all.Pairwise fun a b => a.url.path ≤ b.url.path
  listed : ∀ addr, (ac.accountsOf addr).Perm (ac.all.filter fun a => decide (a.address = addr))
  keys : ∀ addr, ac.byAddr addr ≠ some []

theorem AccountCache.Valid.empty : AccountCache.empty.Valid where
  scheme a ha := by simp [AccountCache.empty] at ha
  sorted := List.Pairwise.nil
  listed _ := .refl _
  keys _ h := by cases h

section Cache
variable {ac : AccountCache} {new : Account} {path : Bytes}

theorem AccountCache.unlisted_getD (removed : Account) (addr : Bytes) :
    (ac.unlisted removed addr).getD [] =
      if addr = removed.address then (ac.accountsOf addr).erase removed else ac.accountsOf addr := by
  unfold AccountCache.unlisted
  rw [Function.update_apply]
  split_ifs with haddr hnil
  · subst haddr
    exact (List.length_eq_zero_iff.mp hnil).symm
  · subst haddr
    rfl
  · rfl

theorem AccountCache.Valid.unlisted_keys (h : ac.Valid) (removed : Account) (addr : Bytes) :
    ac.unlisted removed addr ≠ some [] := by
  unfold AccountCache.unlisted
  rw [Function.update_apply]
  split_ifs with haddr hnil
  · exact nofun
  · intro heq
    exact hnil (List.length_eq_zero_iff.mpr (Option.some.inj heq))
  · exact h.keys addr

theorem stringsCompare_isGE (a b : Bytes) : (stringsCompare a b).isGE = true ↔ b ≤ a := by
  unfold stringsCompare
  split_ifs with heq hlt
  · simp [heq]
  · simpa using hlt
  · simpa using hlt

theorem AccountCache.Valid.search_add (h : ac.Valid) (hs : new.url.scheme = keyStoreScheme) :
    (searchList ac.all fun a => (a.url.Cmp new.url).isGE) =
      searchList ac.all fun a => (stringsCompare a.url.path new.url.path).isGE := by
  apply searchList_congr
  intro a ha
  rw [URL.Cmp, if_pos ((h.scheme a ha).trans hs.symm)]

theorem AccountCache.Valid.add_cases (h : ac.Valid) (hs : new.url.scheme = keyStoreScheme) :
    (ac.add new = ac ∧ new ∈ ac.cached new.url.path) ∨
    ∃ i, (ac.add new).all = insertAt ac.all i new ∧
      (∀ a ∈ ac.all.take i, a.url.path ≤ new.url.path) ∧
      (∀ a ∈ ac.all.drop i, new.url.path ≤ a.url.path) ∧ (ac.add new).byAddr =
        Function.update ac.byAddr new.address (some (ac.accountsOf new.address ++ [new])) := by
  have hge : ∀ a : Account, (stringsCompare a.url.path new.url.path).isGE = true ↔
      new.url.path ≤ a.url.path := fun a => stringsCompare_isGE _ _
  unfold AccountCache.add
  rw [h.search_add hs]
  dsimp only
  split_ifs with hi
  · exact .inl ⟨rfl, List.mem_filter.mpr ⟨List.mem_iff_getElem?.mpr ⟨_, hi⟩, by simp⟩⟩
  · refine .inr ⟨_, rfl, fun a ha => ?_, le_key_of_drop h.sorted hge rfl, rfl⟩
    exact le_of_lt (key_lt_of_take h.sorted hge rfl a ha)

theorem AccountCache.Valid.add (h : ac.Valid) (hs : new.url.scheme = keyStoreScheme) :
    (ac.add new).Valid := by
  rcases h.add_cases hs with ⟨heq, -⟩ | ⟨i, hall, htake, hdrop, hby⟩
  · rw [heq]
    exact h
  · have hperm : (ac.add new).all.Perm (new :: ac.all) := by
      rw [hall]
      exact insertAt_perm _ _ _
    refine ⟨fun a ha => ?_, ?_, fun addr => ?_, fun addr => ?_⟩
    · rcases List.mem_cons.mp (hperm.mem_iff.mp ha) with rfl | ha
      · exact hs
      · exact h.scheme a ha
    · rw [hall]
      exact insertAt_sorted h.sorted htake hdrop
    · rw [accountsOf, hby, Function.update_apply]
      refine List.Perm.trans ?_ (hperm.filter _).symm
      split_ifs with haddr
      · subst haddr
        rw [List.filter_cons_of_pos (by simp)]
        exact (List.perm_append_singleton _ _).trans ((h.listed new.address).cons new)
      · rw [List.filter_cons_of_neg (by simpa using Ne.symm haddr)]
        exact h.listed addr
    · rw [hby, Function.update_apply]
      split_ifs
      · simp
      · exact h.keys addr

theorem AccountCache.Valid.add_cached (h : ac.Valid) (hs : new.url.scheme = keyStoreScheme)
    (hnone : ac.cached new.url.path = []) : (ac.add new).cached new.url.path = [new] := by
  rcases h.add_cases hs with ⟨-, hmem⟩ | ⟨i, hall, -⟩
  · simp [hnone] at hmem
  · have hperm := (insertAt_perm ac.all i new).filter fun a => decide (a.url.path = new.url.path)
    rw [← hall, List.filter_cons_of_pos (by simp)] at hperm
    unfold AccountCache.cached at hnone ⊢
    rw [hnone] at hperm
    exact List.perm_singleton.mp hperm

theorem AccountCache.Valid.add_cached_ne (h : ac.Valid) (hs : new.url.scheme = keyStoreScheme)
    (hne : new.url.path ≠ path) : (ac.add new).cached path = ac.cached path := by
  rcases h.add_cases hs with ⟨heq, -⟩ | ⟨i, hall, -⟩
  · rw [heq]
  · unfold AccountCache.cached
    rw [hall, insertAt, List.filter_append, List.filter_cons_of_neg (by simpa using hne),
      ← List.filter_append, List.take_append_drop]

theorem AccountCache.Valid.delete_cases (h : ac.Valid) (path : Bytes) :
    (ac.deleteByFile path = ac ∧ ac.cached path = []) ∨
    ∃ i removed, ac.all[i]? = some removed ∧ removed.url.path = path ∧
      (ac.deleteByFile path).all = ac.all.eraseIdx i ∧
      ac.cached path = removed :: (ac.deleteByFile path).cached path ∧
      (ac.deleteByFile path).byAddr = ac.unlisted removed := by
  unfold AccountCache.deleteByFile
  dsimp only
  generalize hi : (searchList ac.all fun a => decide (path ≤ a.url.path)) = i
  rcases filter_key_cases h.sorted (fun a => decide_eq_true_iff) hi.symm
    (fun a => decide_eq_true_iff) with ⟨hnil, hno⟩ | ⟨removed, hget, hpath, hcons⟩
  · refine .inl ⟨?_, hnil⟩
    split
    · rfl
    · rename_i a ha
      rw [if_neg (hno a ha)]
  · rw [hget]
    dsimp only
    rw [if_pos hpath]
    exact .inr ⟨i, removed, hget, hpath, rfl, hcons, rfl⟩

theorem AccountCache.Valid.delete (h : ac.Valid) (path : Bytes) : (ac.deleteByFile path).Valid := by
  rcases h.delete_cases path with ⟨heq, -⟩ | ⟨i, removed, hget, -, hall, -, hby⟩
  · rw [heq]
    exact h
  · obtain ⟨hi, hrem⟩ := List.getElem?_eq_some_iff.mp hget
    have hperm : (removed :: ac.all.eraseIdx i).Perm ac.all := by
      rw [← hrem]
      exact List.getElem_cons_eraseIdx_perm hi
    refine ⟨fun a ha => ?_, ?_, fun addr => ?_, fun addr => hby ▸ h.unlisted_keys removed addr⟩
    · rw [hall] at ha
      exact h.scheme a ((List.eraseIdx_sublist _ _).subset ha)
    · rw [hall]
      exact h.sorted.sublist (List.eraseIdx_sublist _ _)
    · have hfilter := hperm.filter fun a => decide (a.address = addr)
      rw [accountsOf, hby, hall, unlisted_getD]
      split_ifs with haddr
      · subst haddr
        rw [List.filter_cons_of_pos (by simp)] at hfilter
        have herase := ((h.listed removed.address).trans hfilter.symm).erase removed
        rwa [List.erase_cons_head] at herase
      · rw [List.filter_cons_of_neg (by simpa using Ne.symm haddr)] at hfilter
        exact (h.listed addr).trans hfilter.symm

theorem AccountCache.Valid.delete_cached (h : ac.Valid) (path : Bytes) :
    (ac.deleteByFile path).cached path = (ac.cached path).tail := by
  rcases h.delete_cases path with ⟨heq, hnil⟩ | ⟨i, removed, -, -, -, hcons, -⟩
  · rw [heq, hnil]
    rfl
  · rw [hcons]
    rfl

theorem AccountCache.Valid.delete_cached_ne (h : ac.Valid) {other : Bytes} (hne : path ≠ other) :
    (ac.deleteByFile path).cached other = ac.cached other := by
  rcases h.delete_cases path with ⟨heq, -⟩ | ⟨i, removed, hget, hpath, hall, -⟩
  · rw [heq]
  · obtain ⟨hi, hrem⟩ := List.getElem?_eq_some_iff.mp hget
    have hdrop := List.drop_eq_getElem_cons hi
    unfold AccountCache.cached
    rw [hall, List.eraseIdx_eq_take_drop_succ, List.filter_append]
    conv_rhs => rw [← List.take_append_drop i ac.all, List.filter_append, hdrop, hrem]
    rw [List.filter_cons_of_neg (by simpa [hpath] using hne)]

end Cache

end Fiscobcos.Keystore
