import Fiscobcos.Keystore.AccountCache

/-! # Lookups (accounts/keystore/account_cache.go)

`find` takes an account with some of its fields and returns the one that is meant. -/

namespace Fiscobcos.Keystore
open AccountCache
open List

open Numerals JsonTree SortedSearch

def zeroAddress : Bytes := List.replicate 20 0

inductive FindError where
  | noMatch
  | ambiguousAddr (addr : Bytes) (found : List Account)

/-- `join` is `filepath.Join` with the key directory. -/
def URL.completed (join : Bytes → Bytes) (u : URL) : URL :=
  if u.path.any fun b => b = 47 then u else { u with path := join u.path }

/-- The `switch` at the end of `find`. -/
def onlyMatch (addr : Bytes) : List Account → Except FindError Account
  | [x] => .ok x
  | [] => .error .noMatch
  | found => .error (.ambiguousAddr addr (found.mergeSort fun x y => x.url.Cmp y.url ≠ .gt))

def AccountCache.find (ac : AccountCache) (join : Bytes → Bytes) (a : Account) :
    Except FindError Account :=
  let found := if a.address = zeroAddress then ac.all else ac.accountsOf a.address
  if a.url.path = [] then onlyMatch a.address found
  else
    match found.find? fun x => x.url = a.url.completed join with
    | some x => .ok x
    | none => if a.address = zeroAddress then .error .noMatch else onlyMatch a.address found

section Find
variable {ac : AccountCache} {join : Bytes → Bytes} {a x : Account}

/-- The account has every field that the query gives. -/
structure Meets (join : Bytes → Bytes) (a x : Account) : Prop where
  address : a.address ≠ zeroAddress → x.address = a.address
  url : a.url.path ≠ [] → x.url = a.url.completed join

def Honoured (ac : AccountCache) (join : Bytes → Bytes) (a x : Account) : Prop :=
  Meets join a x ∧ ∀ y ∈ ac.all, Meets join a y → y = x

theorem onlyMatch_ok {addr : Bytes} {found : List Account} (h : onlyMatch addr found = .ok x) :
    found = [x] := by
  unfold onlyMatch at h
  split at h
  · cases h
    rfl
  · cases h
  · cases h

theorem AccountCache.Valid.mem_found (h : ac.Valid) (y : Account) :
    (y ∈ if a.address = zeroAddress then ac.all else ac.accountsOf a.address) ↔
      y ∈ ac.all ∧ (a.address ≠ zeroAddress → y.address = a.address) := by
  split_ifs with hzero
  · simp [hzero]
  · rw [(h.listed a.address).mem_iff, mem_filter, decide_eq_true_iff]
    simp [hzero]

/-- A lookup honours the query unless a path is given with an address that has no account there,
or alone with two accounts there. -/
theorem find_honours_iff (h : ac.Valid) (hx : ac.find join a = .ok x) :
    Honoured ac join a x ↔ (a.url.path ≠ [] → (∃ y ∈ ac.all, Meets join a y) ∧
      ∀ y ∈ ac.all, ∀ z ∈ ac.all, Meets join a y → Meets join a z → y = z) := by
  have hmem := h.mem_found (a := a)
  unfold find at hx
  dsimp only at hx
  generalize (if a.address = zeroAddress then ac.all else ac.accountsOf a.address) = found at hx hmem
  have honly : found = [x] → x ∈ ac.all ∧ (a.address ≠ zeroAddress → x.address = a.address) ∧
      ∀ y ∈ ac.all, (a.address ≠ zeroAddress → y.address = a.address) → y = x := by
    rintro rfl
    obtain ⟨hin, haddr⟩ := (hmem x).mp mem_cons_self
    exact ⟨hin, haddr, fun y hy hya => mem_singleton.mp ((hmem y).mpr ⟨hy, hya⟩)⟩
  by_cases hpath : a.url.path = []
  · rw [if_pos hpath] at hx
    obtain ⟨-, haddr, huniq⟩ := honly (onlyMatch_ok hx)
    exact ⟨fun _ hne => absurd hpath hne,
      fun _ => ⟨⟨haddr, fun hne => absurd hpath hne⟩, fun y hy hm => huniq y hy hm.address⟩⟩
  · have hin : x ∈ ac.all ∧ (Meets join a x ∨ ∀ y ∈ ac.all, ¬ Meets join a y) := by
      rw [if_neg hpath] at hx
      split at hx
      · rename_i y hy
        cases hx
        obtain ⟨hall, haddr⟩ := (hmem x).mp (mem_of_find?_eq_some hy)
        exact ⟨hall, .inl ⟨haddr, fun _ => by simpa using find?_some hy⟩⟩
      · rename_i hnone
        split_ifs at hx
        refine ⟨(honly (onlyMatch_ok hx)).1, .inr fun y hy hm => ?_⟩
        have hno := find?_eq_none.mp hnone y ((hmem y).mpr ⟨hy, hm.address⟩)
        exact hno (by simpa using hm.url hpath)
    constructor
    · rintro ⟨hm, huniq⟩ -
      exact ⟨⟨x, hin.1, hm⟩, fun y hy z hz hym hzm => (huniq y hy hym).trans (huniq z hz hzm).symm⟩
    · intro hcond
      obtain ⟨⟨y, hy, hym⟩, huniq⟩ := hcond hpath
      have hm : Meets join a x := hin.2.resolve_right fun hno => hno y hy hym
      exact ⟨hm, fun z hz hzm => huniq z hz x hin.1 hzm hm⟩

/-- One account at `a`, and one that is asked for at `b`. -/
def accountAt (name : Byte) : Account := ⟨List.replicate 20 1, ⟨keyStoreScheme, [47, name]⟩⟩

theorem find_honours_same_file :
    Honoured (AccountCache.empty.add (accountAt 97)) id (accountAt 97) (accountAt 97) := by
  refine (find_honours_iff (AccountCache.Valid.empty.add rfl) rfl).mpr fun _ => ?_
  have hall : ∀ y ∈ (empty.add (accountAt 97)).all, y = accountAt 97 := by decide
  refine ⟨⟨accountAt 97, by decide, ⟨fun _ => rfl, fun _ => by decide⟩⟩, fun y hy z hz _ _ => ?_⟩
  rw [hall y hy, hall z hz]

/-- The account at `b` is looked up, and the one at `a` is found. -/
theorem find_other_file :
    ((AccountCache.empty.add (accountAt 97)).find id (accountAt 98)).toOption =
        some (accountAt 97) ∧
      ¬ Honoured (AccountCache.empty.add (accountAt 97)) id (accountAt 98) (accountAt 97) := by
  refine ⟨by decide, fun h => ?_⟩
  exact absurd (h.1.url (by decide)) (by decide)

end Find

end Fiscobcos.Keystore
