import Fiscobcos.Keystore.Lookup
import Fiscobcos.Keystore.Wallets

/-! # The account index (accounts/keystore/account_cache.go)

The list in the order of the URLs and the map by address hold the same accounts. -/

namespace Fiscobcos.Keystore
open AccountCache
open List

open Numerals SortedSearch

inductive IndexOp where
  | add (newAccount : Account)
  | delete (removed : Account)
  | deleteByFile (path : Bytes)

def AccountCache.apply (ac : AccountCache) : IndexOp → AccountCache
  | .add newAccount => ac.add newAccount
  | .delete removed => ac.delete removed
  | .deleteByFile path => ac.deleteByFile path

def IndexOp.Names (a : Account) : IndexOp → Prop
  | .add b | .delete b => a = b
  | .deleteByFile _ => False

structure Indexed (ac : AccountCache) : Prop where
  sorted : ac.all.Pairwise fun a b => a.url.Cmp b.url = .lt
  keys : ∀ addr, (ac.byAddr addr).isSome ↔ ∃ a ∈ ac.all, a.address = addr
  lists : ∀ addr, ∀ l ∈ ac.byAddr addr, ∀ a, a ∈ l ↔ a ∈ ac.all ∧ a.address = addr
  nodup : ∀ addr, ∀ l ∈ ac.byAddr addr, l.Nodup

/-- The set of accounts changes by the account named. -/
def Changes (ac : AccountCache) (op : IndexOp) : Prop :=
  ∀ a, a ∈ (ac.apply op).all ↔
    match op with
    | .add b => a = b ∨ a ∈ ac.all
    | .delete b => a ∈ ac.all ∧ a ≠ b
    | .deleteByFile path => a ∈ ac.all ∧ a.url.path ≠ path

/-- Besides validity: one account for a path, and only accounts that `P` names. -/
structure IndexInv (P : Account → Prop) (ac : AccountCache) : Prop where
  valid : ac.Valid
  paths : (ac.all.map fun a => a.url.path).Nodup
  named : ∀ a ∈ ac.all, P a

section Index
variable {ac : AccountCache} {P : Account → Prop} {a b : Account}

theorem IndexInv.nodup (h : IndexInv P ac) : ac.all.Nodup := h.paths.of_map _

theorem IndexInv.same (h : IndexInv P ac) (ha : a ∈ ac.all) (hb : b ∈ ac.all)
    (hpath : a.url.path = b.url.path) : a = b := inj_on_of_nodup_map h.paths ha hb hpath

theorem IndexInv.indexed (h : IndexInv P ac) : Indexed ac := by
  have hlist : ∀ addr, ∀ l ∈ ac.byAddr addr,
      l.Perm (ac.all.filter fun a => decide (a.address = addr)) := by
    intro addr l hl
    have hperm := h.valid.listed addr
    rwa [accountsOf, Option.mem_def.mp hl, Option.getD_some] at hperm
  refine ⟨?_, fun addr => ?_, fun addr l hl a => ?_, fun addr l hl => ?_⟩
  · refine (h.valid.sorted.and (pairwise_map.mp h.paths)).imp_of_mem fun ha hb hab => ?_
    rw [URL.Cmp, if_pos ((h.valid.scheme _ ha).trans (h.valid.scheme _ hb).symm),
      stringsCompare_lt_iff]
    exact lt_of_le_of_ne hab.1 hab.2
  · constructor
    · intro hsome
      obtain ⟨l, hl⟩ := Option.isSome_iff_exists.mp hsome
      have hne : l ≠ [] := fun hnil => h.valid.keys addr (hnil ▸ hl)
      obtain ⟨a, ha⟩ := exists_mem_of_ne_nil l hne
      exact ⟨a, by simpa using (hlist addr l hl).mem_iff.mp ha⟩
    · rintro ⟨a, ha, haddr⟩
      have hin := (h.valid.listed addr).mem_iff.mpr (mem_filter.mpr ⟨ha, decide_eq_true haddr⟩)
      cases hby : ac.byAddr addr with
      | none =>
        rw [accountsOf, hby] at hin
        cases hin
      | some l => rfl
  · rw [(hlist addr l hl).mem_iff, mem_filter, decide_eq_true_iff]
  · exact (hlist addr l hl).nodup_iff.mpr (h.nodup.filter _)

theorem IndexInv.add_of_mem (h : IndexInv P ac) (ha : a ∈ ac.all) : ac.add a = ac := by
  have hge : ∀ b : Account, (stringsCompare b.url.path a.url.path).isGE = true ↔
      a.url.path ≤ b.url.path := fun b => stringsCompare_isGE _ _
  unfold add
  rw [h.valid.search_add (h.valid.scheme a ha)]
  dsimp only
  rcases filter_key_cases (q := fun b : Account => decide (b.url.path = a.url.path)) h.valid.sorted
    hge rfl (fun b => decide_eq_true_iff) with ⟨hnil, -⟩ | ⟨b, hget, hpath, -⟩
  · have hin : a ∈ ac.all.filter fun b => decide (b.url.path = a.url.path) :=
      mem_filter.mpr ⟨ha, decide_eq_true rfl⟩
    rw [hnil] at hin
    cases hin
  · rw [hget, h.same (mem_of_getElem? hget) ha hpath, if_pos rfl]

theorem IndexInv.add (h : IndexInv P ac) (hs : a.url.scheme = keyStoreScheme) (ha : P a)
    (hurl : ∀ b, P b → b.url = a.url → b = a) :
    IndexInv P (ac.add a) ∧ ∀ b, b ∈ (ac.add a).all ↔ b = a ∨ b ∈ ac.all := by
  by_cases hmem : a ∈ ac.all
  · rw [h.add_of_mem hmem]
    exact ⟨h, fun b => (or_iff_right_of_imp fun hb => hb ▸ hmem).symm⟩
  · rcases h.valid.add_cases hs with ⟨-, hin⟩ | ⟨i, hall, -, -, -⟩
    · exact absurd (mem_filter.mp hin).1 hmem
    have hperm : (ac.add a).all.Perm (a :: ac.all) := hall ▸ insertAt_perm _ _ _
    refine ⟨⟨h.valid.add hs, ?_, fun b hb => ?_⟩, fun b => by rw [hperm.mem_iff, mem_cons]⟩
    · rw [(hperm.map _).nodup_iff, map_cons, nodup_cons]
      refine ⟨fun hin => ?_, h.paths⟩
      -- an account at this path would be the new one
      obtain ⟨b, hb, hpath⟩ := mem_map.mp hin
      have hsame : b.url = a.url := URL.key_injective <| by
        rw [URL.key, URL.key, h.valid.scheme b hb, hs, hpath]
      exact hmem (hurl b (h.named b hb) hsame ▸ hb)
    · rcases mem_cons.mp (hperm.mem_iff.mp hb) with rfl | hb
      · exact ha
      · exact h.named b hb

/-- Some accounts go, in `all` and in the list of their address. -/
theorem IndexInv.delete (h : IndexInv P ac) (a : Account) :
    IndexInv P (ac.delete a) ∧ ∀ b, b ∈ (ac.delete a).all ↔ b ∈ ac.all ∧ b ≠ a := by
  have hsub : (ac.delete a).all.Sublist ac.all := erase_sublist
  refine ⟨⟨⟨fun b hb => h.valid.scheme b (hsub.subset hb), h.valid.sorted.sublist hsub,
    fun addr => ?_, h.valid.unlisted_keys a⟩, h.paths.sublist (hsub.map _),
    fun b hb => h.named b (hsub.subset hb)⟩, fun b => ?_⟩
  · show ((ac.unlisted a addr).getD []).Perm ((ac.all.erase a).filter _)
    rw [← erase_filter, unlisted_getD]
    split_ifs with haddr
    · exact (h.valid.listed addr).erase a
    · rw [erase_of_not_mem]
      · exact h.valid.listed addr
      · simp [Ne.symm haddr]
  · rw [and_comm]
    exact h.nodup.mem_erase_iff

theorem IndexInv.deleteByFile (h : IndexInv P ac) (path : Bytes) :
    IndexInv P (ac.deleteByFile path) ∧
      ∀ b, b ∈ (ac.deleteByFile path).all ↔ b ∈ ac.all ∧ b.url.path ≠ path := by
  have hvalid := h.valid.delete path
  rcases h.valid.delete_cases path with ⟨heq, hnil⟩ | ⟨i, removed, hget, hpath, hall, -, -⟩
  · rw [heq]
    refine ⟨h, fun b => (and_iff_left_of_imp fun hb => ?_).symm⟩
    simpa using List.filter_eq_nil_iff.mp hnil b hb
  · have hsub : (ac.deleteByFile path).all.Sublist ac.all := hall ▸ List.eraseIdx_sublist _ _
    refine ⟨⟨hvalid, h.paths.sublist (hsub.map _), fun b hb => h.named b (hsub.subset hb)⟩,
      fun b => ?_⟩
    obtain ⟨hi, rfl⟩ := List.getElem?_eq_some_iff.mp hget
    rw [hall, ← List.Nodup.erase_getElem h.nodup i hi, h.nodup.mem_erase_iff, and_comm,
      and_congr_right_iff]
    intro hb
    rw [← hpath, not_iff_not]
    exact ⟨fun heq => heq ▸ rfl, fun heq => h.same hb (List.getElem_mem hi) heq⟩

theorem IndexInv.apply {op : IndexOp} (h : IndexInv P ac) (hop : ∀ a, op.Names a → P a)
    (hs : ∀ a, P a → a.url.scheme = keyStoreScheme) (hurl : ∀ a b, P a → P b → a.url = b.url → a = b) :
    IndexInv P (ac.apply op) ∧ Changes ac op := by
  cases op with
  | add a => exact h.add (hs a (hop a rfl)) (hop a rfl) fun b hb => hurl b a hb (hop a rfl)
  | delete a => exact h.delete a
  | deleteByFile path => exact h.deleteByFile path

/-- The index after every sequence of operations, and what the next one does to it. -/
theorem account_index_kept (ops : List IndexOp) (op : IndexOp)
    (hs : ∀ a, (∃ o ∈ op :: ops, o.Names a) → a.url.scheme = keyStoreScheme)
    (hurl : ∀ a b, (∃ o ∈ op :: ops, o.Names a) → (∃ o ∈ op :: ops, o.Names b) →
      a.url = b.url → a = b) : Indexed (ops.foldl AccountCache.apply .empty) ∧
      Indexed ((ops.foldl AccountCache.apply .empty).apply op) ∧
      Changes (ops.foldl AccountCache.apply .empty) op := by
  have hrun : ∀ (done : List IndexOp) (ac : AccountCache), done ⊆ op :: ops →
      IndexInv (fun a => ∃ o ∈ op :: ops, o.Names a) ac →
      IndexInv (fun a => ∃ o ∈ op :: ops, o.Names a) (done.foldl apply ac) := by
    intro done
    induction done with
    | nil => exact fun ac _ h => h
    | cons o done ih =>
      intro ac hsub h
      obtain ⟨ho, hsub⟩ := cons_subset.mp hsub
      exact ih _ hsub (h.apply (fun a ha => ⟨o, ho, ha⟩) hs hurl).1
  have hinv := hrun ops .empty (subset_cons_self _ _)
    ⟨.empty, nodup_nil, fun a ha => by cases ha⟩
  have hop : ∀ a, op.Names a → ∃ o ∈ op :: ops, o.Names a := fun a ha => ⟨op, mem_cons_self, ha⟩
  obtain ⟨hnext, hchanges⟩ := hinv.apply hop hs hurl
  exact ⟨hinv.indexed, hnext.indexed, hchanges⟩

theorem account_index_kept_one : Indexed ((AccountCache.empty.add (accountAt 97)).delete
    (accountAt 97)) := by
  have hnames : ∀ a, (∃ o ∈ [IndexOp.delete (accountAt 97), .add (accountAt 97)], o.Names a) →
      a = accountAt 97 := by
    rintro a ⟨o, ho, ha⟩
    rcases mem_pair.mp ho with rfl | rfl <;> exact ha
  exact (account_index_kept [.add (accountAt 97)] (.delete (accountAt 97))
    (fun a ha => by rw [hnames a ha]; rfl) fun a b ha hb _ => by rw [hnames a ha, hnames b hb]).2.1

end Index

end Fiscobcos.Keystore
