import Fiscobcos.Keystore.Unlock

/-! # Decrypted keys (accounts/keystore/keystore.go:233-251, 289-315, 422-502, passphrase.go:83-131)

`Delete`, the signing calls and `Import` wipe their key before they return, `Export` and `Update`
do not. `GetKey` drops a key that is not the one asked for, and `StoreKey` decrypts the file it has
written. -/

namespace Fiscobcos.Keystore
open Numerals Steps Function UnlockState

inductive PassOp where
  | Delete
  | SignHashWithPassphrase
  | SignTxWithPassphrase
  | Export
  | Import
  | Update
deriving DecidableEq

/-- Where such a call is: `holding` from the return of `getDecryptedKey` (`DecryptKey` in an
`Import`) on. -/
inductive PassPc where
  | absent
  | decrypting (op : PassOp)
  | holding (op : PassOp) (key : ℕ)
  | returned

/-- `decrypted` has every key that `DecryptKey` has returned so far. -/
structure KeyState where
  table : UnlockState
  decrypted : ℕ → Bool
  ops : ℕ → PassPc

def KeyState.init : KeyState := ⟨.init, fun _ => false, fun _ => .absent⟩

/-- `DecryptKey` returns the key `s.table.next`. -/
def KeyState.decryptKey (s : KeyState) : KeyState :=
  { s with
    table := { s.table with next := s.table.next + 1 }
    decrypted := Function.update s.decrypted s.table.next true }

def KeyState.goto (s : KeyState) (t : ℕ) (pc : PassPc) : KeyState :=
  { s with ops := Function.update s.ops t pc }

/-- What becomes of the key of a call that returns. -/
def PassOp.release (op : PassOp) (key : ℕ) (s : KeyState) : KeyState :=
  match op with
  | Delete | SignHashWithPassphrase | SignTxWithPassphrase | Import =>
    { s with table := s.table.zeroKey key }
  | Export | Update => s

inductive KeyAct where
  | unlock (act : UnlockAct)
  | unlockMismatch (t : ℕ)
  | call (t : ℕ) (op : PassOp)
  | fail (t : ℕ)
  | mismatch (t : ℕ)
  | decrypt (t : ℕ)
  | finish (t : ℕ) (op : PassOp)
  | verify (t : ℕ)

/-- The step of a `TimedUnlock` in which `DecryptKey` succeeds. -/
def UnlockAct.decrypts : UnlockAct → Bool
  | getDecryptedKey _ (some _) => true
  | _ => false

inductive KeyStep (skipKeyFileVerification : Bool) : KeyState → KeyAct → KeyState → Prop
  | unlock {s : KeyState} {act : UnlockAct} {table : UnlockState}
      (hs : UnlockStep s.table act table) :
    KeyStep _ s (.unlock act)
      ⟨table, if act.decrypts then s.decryptKey.decrypted else s.decrypted, s.ops⟩
  -- the content of the file is another account's: the key just decrypted is dropped
  | unlockMismatch {s : KeyState} {t : ℕ} {timeout : ℤ}
      (ht : s.table.threads t = .decrypting timeout) :
    KeyStep _ s (.unlockMismatch t)
      { s.decryptKey with table := s.decryptKey.table.goto t .returned }
  | call {s : KeyState} {t : ℕ} (op : PassOp) (ht : s.ops t = .absent) :
    KeyStep _ s (.call t op) (s.goto t (.decrypting op))
  | fail {s : KeyState} {t : ℕ} {op : PassOp} (ht : s.ops t = .decrypting op) :
    KeyStep _ s (.fail t) (s.goto t .returned)
  | mismatch {s : KeyState} {t : ℕ} {op : PassOp} (ht : s.ops t = .decrypting op)
      (hop : op ≠ .Import) :
    KeyStep _ s (.mismatch t) (s.decryptKey.goto t .returned)
  | decrypt {s : KeyState} {t : ℕ} {op : PassOp} (ht : s.ops t = .decrypting op) :
    KeyStep _ s (.decrypt t) (s.decryptKey.goto t (.holding op s.table.next))
  | finish {s : KeyState} {t key : ℕ} {op : PassOp} (ht : s.ops t = .holding op key) :
    KeyStep _ s (.finish t op) ((op.release key s).goto t .returned)
  -- `StoreKey` has got to its `GetKey`, and the file it has written decrypts
  | verify {s : KeyState} {t key : ℕ} {op : PassOp} (ht : s.ops t = .holding op key)
      (hop : op = .Import ∨ op = .Update) (hskip : skipKeyFileVerification = false) :
    KeyStep skipKeyFileVerification s (.verify t) ((op.release key s.decryptKey).goto t .returned)

/-- No step of the four kinds that let go of a key without wiping it. -/
def Tidy (s : KeyState) : KeyAct → Prop
  | .unlockMismatch _ | .mismatch _ | .verify _ => False
  | .finish _ op => op ≠ .Export ∧ op ≠ .Update
  | .unlock (.store t) => ∀ addr key timeout u, s.table.threads t = .unlocking addr key timeout →
    s.table.unlocked addr = some u → u.abort = false
  | _ => True

/-- The goroutine of a `TimedUnlock` is no call while it waits. -/
def UnlockPc.inCall : UnlockPc → Bool
  | absent | returned | waiting .goroutine _ _ => false
  | _ => true

def KeyState.Quiet (s : KeyState) : Prop :=
  (∀ t, (s.table.threads t).inCall = false) ∧ ∀ t, s.ops t = .absent ∨ s.ops t = .returned

def UnlockState.Accounts (s : UnlockState) (k : ℕ) : Prop :=
  s.zeroed k = true ∨ ∃ o, s.Owns o k

section Unlocking
variable {s s' : UnlockState} {addr : Bytes} {key t k : ℕ} {timeout : ℤ}

theorem zeroKey_mono (h : s.zeroed k = true) : (s.zeroKey key).zeroed k = true := by
  show update s.zeroed key true k = true
  rw [update_apply, h, ite_self]

/-- The key of a thread that moves has to be accounted for apart. -/
theorem UnlockState.Accounts.goto {pc : UnlockPc} (h : s.Accounts k)
    (ht : ∀ addr timeout, s.threads t = .unlocking addr k timeout → (s.goto t pc).Accounts k) :
    (s.goto t pc).Accounts k := by
  rcases h with hz | ⟨o, ho⟩
  · exact .inl hz
  cases o with
  | entry a => exact .inr ⟨.entry a, ho⟩
  | thread r =>
    obtain ⟨a, to', hr⟩ := ho
    by_cases hrt : r = t
    · exact ht a to' (hrt ▸ hr)
    · exact .inr ⟨.thread r, a, to', (goto_ne hrt).trans hr⟩

theorem UnlockState.Accounts.leave {pc : UnlockPc} (h : s.Accounts k)
    (ht : ∀ addr timeout, s.threads t ≠ .unlocking addr k timeout) : (s.goto t pc).Accounts k :=
  h.goto fun a to' heq => absurd heq (ht a to')

theorem UnlockState.Accounts.timedUnlock {o : Option Unlocked} (h : s.Accounts k)
    (ht : s.threads t = .unlocking addr key timeout) (hs : s.timedUnlock addr key timeout = (s', o))
    (hold : ∀ u, s.unlocked addr = some u → u.abort = false) : (s'.goto t .returned).Accounts k := by
  obtain ⟨u, -, -, rfl, -⟩ | ⟨hnone, hst⟩ | ⟨u, hu, ha, -⟩ := timedUnlock_cases hs
  · have hwiped : (s.zeroKey key).Accounts k := h.imp_left zeroKey_mono
    refine hwiped.goto fun a to' heq => ?_
    cases ht.symm.trans heq
    exact .inl (update_self _ _ _)
  · obtain ⟨rfl, -⟩ := store_eq hst
    have hstored : Accounts { s with
        unlocked := update s.unlocked addr (some ⟨s.next, key, decide (timeout > 0)⟩)
        next := s.next + 1 } k := by
      rcases h with hz | ⟨o, ho⟩
      · exact .inl hz
      cases o with
      | thread r => exact .inr ⟨.thread r, ho⟩
      | entry a =>
        obtain ⟨v, hv, hk⟩ := ho
        have ha : a ≠ addr := by
          rintro rfl
          rw [hnone] at hv
          cases hv
        exact .inr ⟨.entry a, v, (update_of_ne ha _ _).trans hv, hk⟩
    refine hstored.goto fun a to' heq => ?_
    cases ht.symm.trans heq
    exact .inr ⟨.entry addr, _, update_self _ _ _, rfl⟩
  · rw [hold u hu] at ha
    cases ha

theorem UnlockState.Accounts.expire {c : Caller} {u : Unlocked} (h : s.Accounts k)
    (hthr : ThreadInv s) (ht : (s.threads t).Runs c addr u) : (s.expire addr u).Accounts k := by
  obtain ⟨⟨v, hv, hptr⟩, heq⟩ | ⟨-, heq⟩ := s.expire_cases addr u
  · obtain ⟨-, rfl⟩ := (hthr.held t c addr u ht).2 addr v hv hptr
    rw [heq]
    rcases h with hz | ⟨o, ho⟩
    · exact .inl (zeroKey_mono hz)
    cases o with
    | thread r => exact .inr ⟨.thread r, ho⟩
    | entry a =>
      obtain ⟨w, hw, rfl⟩ := ho
      by_cases ha : a = addr
      · rw [ha, hv] at hw
        cases hw
        exact .inl (update_self _ _ _)
      · exact .inr ⟨.entry a, w, (update_of_ne ha _ _).trans hw, rfl⟩
  · rwa [heq]

theorem UnlockState.Accounts.step {act : UnlockAct} (h : s.Accounts k) (hthr : ThreadInv s)
    (hs : UnlockStep s act s') (hold : ∀ t, act = .store t → ∀ addr key timeout u,
      s.threads t = .unlocking addr key timeout → s.unlocked addr = some u → u.abort = false) :
    s'.Accounts k := by
  cases hs with
  | timedUnlock _ ht | lock _ ht | decryptFail ht | lookupMiss ht _ | lookup ht _ | quit ht _ _
  | fire ht =>
    exact h.leave fun a to' heq => by rw [ht] at heq; cases heq
  | decrypt _ ht =>
    have hnext : Accounts { s with next := s.next + 1 } k := h
    exact hnext.leave fun a to' heq => by cases ht.symm.trans heq
  | store ht hst => exact h.timedUnlock ht hst (hold _ rfl _ _ _ · ht)
  | @storeTimed s' t g addr key timeout u ht hst hg =>
    refine (h.timedUnlock ht hst (hold _ rfl _ _ _ · ht)).leave fun a to' heq => ?_
    by_cases hgt : g = t
    · rw [hgt, goto_self] at heq
      cases heq
    · rw [goto_ne hgt, timedUnlock_threads hst, hg] at heq
      cases heq
  | expire ht =>
    refine (h.expire hthr (.inr ht)).leave fun a to' heq => ?_
    rw [expire_threads, ht] at heq
    cases heq

end Unlocking

/-- A decrypted key has been wiped, or somebody still has it. -/
structure ZeroInv (s : KeyState) : Prop where
  table : TableInv s.table
  threads : ThreadInv s.table
  kept : ∀ k, s.decrypted k = true → s.table.Accounts k ∨ ∃ t op, s.ops t = .holding op k

section Calls
variable {s s' : KeyState} {act : KeyAct} {t key : ℕ} {op : PassOp} {skip : Bool}

theorem ZeroInv.decryptKey_kept (h : ZeroInv s) {k : ℕ} (hk : s.decryptKey.decrypted k = true) :
    k = s.table.next ∨ s.table.Accounts k ∨ ∃ t op, s.ops t = .holding op k := by
  by_cases heq : k = s.table.next
  · exact .inl heq
  · exact .inr (h.kept k ((update_of_ne heq _ _).symm.trans hk))

theorem KeyState.holding_goto {pc : PassPc} {k : ℕ} (ht : ∀ op, s.ops t ≠ .holding op k)
    (h : ∃ r op, s.ops r = .holding op k) : ∃ r op, (s.goto t pc).ops r = .holding op k := by
  obtain ⟨r, op, hr⟩ := h
  refine ⟨r, op, (update_of_ne ?_ _ _).trans hr⟩
  rintro rfl
  exact ht op hr

theorem ZeroInv.goto (h : ZeroInv s) {pc : PassPc} (ht : ∀ op k, s.ops t ≠ .holding op k) :
    ZeroInv (s.goto t pc) :=
  ⟨h.table, h.threads, fun k hk => (h.kept k hk).imp_right (s.holding_goto fun op => ht op k)⟩

theorem PassOp.release_tidy (hop : op ≠ .Export ∧ op ≠ .Update) :
    op.release key s = { s with table := s.table.zeroKey key } := by
  cases op with
  | Export => exact absurd rfl hop.1
  | Update => exact absurd rfl hop.2
  | Delete | SignHashWithPassphrase | SignTxWithPassphrase | Import => rfl

theorem ZeroInv.step (h : ZeroInv s) (hok : Tidy s act) (hs : KeyStep skip s act s') :
    ZeroInv s' := by
  cases hs with
  | @unlock act table hst =>
    refine ⟨h.table.step hst, h.threads.step h.table hst, fun k hk => ?_⟩
    have hold : s.table.Accounts k → table.Accounts k := fun hacc => by
      refine hacc.step h.threads hst fun t heq => ?_
      subst heq
      exact hok
    split_ifs at hk with hd
    · rcases h.decryptKey_kept hk with rfl | hk
      · cases hst with
        | decrypt a ht => exact .inl (.inr ⟨.thread _, a, _, goto_self _ _ _⟩)
        | timedUnlock | lock | decryptFail | store | storeTimed | lookupMiss | lookup | quit | fire
        | expire => cases hd
      · exact hk.imp_left hold
    · exact (h.kept k hk).imp_left hold
  | unlockMismatch | mismatch | verify => exact hok.elim
  | call op ht | fail ht => exact h.goto fun op k heq => by rw [ht] at heq; cases heq
  | @decrypt t op ht =>
    refine ⟨h.table.mono rfl rfl (Nat.le_succ _), h.threads.mono rfl rfl (Nat.le_succ _),
      fun k hk => ?_⟩
    rcases h.decryptKey_kept hk with rfl | hk
    · exact .inr ⟨t, op, update_self _ _ _⟩
    · exact hk.imp id (s.decryptKey.holding_goto fun op heq => by cases ht.symm.trans heq)
  | @finish t key op ht =>
    rw [PassOp.release_tidy hok]
    refine ⟨h.table.mono rfl rfl le_rfl, h.threads.mono rfl rfl le_rfl, fun k hk => ?_⟩
    by_cases heq : k = key
    · exact .inl (.inl (heq ▸ update_self _ _ _))
    · refine (h.kept k hk).imp (.imp_left zeroKey_mono) (s.holding_goto fun op' heq' => ?_)
      cases ht.symm.trans heq'
      exact heq rfl

end Calls

theorem decrypted_keys_zeroed (skip : Bool) (s : KeyState)
    (hs : Reach (KeyStep skip) Tidy .init s) (hq : s.Quiet) (k : ℕ) (hk : s.decrypted k = true) :
    s.table.zeroed k = true ∨ ∃ addr u, s.table.unlocked addr = some u ∧ u.key = k := by
  have hinv : ZeroInv s := hs.invariant
    ⟨init_unlockInv.1, init_unlockInv.2, fun _ hk => by cases hk⟩ fun _ _ _ hi hok h => hi.step hok h
  rcases hinv.kept k hk with (hz | ⟨addr | r, ho⟩) | ⟨r, op, hr⟩
  · exact .inl hz
  · exact .inr ⟨addr, ho⟩
  · obtain ⟨a, to', hr⟩ := ho
    have hidle := hq.1 r
    rw [hr] at hidle
    cases hidle
  · have hdone := hq.2 r
    rw [hr] at hdone
    rcases hdone with h | h <;> cases h

/-- An `Export` returns with its key as it was decrypted. -/
theorem exported_key_lingers : ∃ s, Reach (KeyStep false) (fun _ _ => True) .init s ∧ s.Quiet ∧
    s.decrypted 0 = true ∧ s.table.zeroed 0 = false ∧ ∀ addr, s.table.unlocked addr = none := by
  have h1 : Reach (KeyStep false) (fun _ _ => True) .init _ :=
    (Reach.refl _).tail (.call (t := 0) .Export rfl) trivial
  have h2 := h1.tail (.decrypt (t := 0) rfl) trivial
  have h3 := h2.tail (.finish (t := 0) (rfl : _ = PassPc.holding .Export 0)) trivial
  refine ⟨_, h3, ⟨fun _ => rfl, fun t => ?_⟩, rfl, rfl, fun _ => rfl⟩
  cases t with
  | zero => exact .inr rfl
  | succ t => exact .inl rfl

/-- An account is unlocked, and then a hash is signed with a passphrase. -/
theorem decrypted_keys_zeroed_signing : ∃ s : KeyState, s.Quiet ∧
    s.table.signKey [1] = some 0 ∧ ∀ k ∈ [0, 2], s.decrypted k = true ∧
      (s.table.zeroed k = true ∨ ∃ addr u, s.table.unlocked addr = some u ∧ u.key = k) := by
  have h1 : Reach (KeyStep false) Tidy .init _ :=
    (Reach.refl _).tail (.unlock (.timedUnlock (t := 0) 0 rfl)) trivial
  have h2 := h1.tail (.unlock (.decrypt (t := 0) [1] rfl)) trivial
  have h3 := h2.tail (.unlock (.store (t := 0) rfl rfl)) fun _ _ _ _ _ hu => by cases hu
  have h4 := h3.tail (.call (t := 0) .SignHashWithPassphrase rfl) trivial
  have h5 := h4.tail (.decrypt (t := 0) rfl) trivial
  have h6 := h5.tail (.finish (t := 0) (rfl : _ = PassPc.holding .SignHashWithPassphrase 2))
    ⟨nofun, nofun⟩
  obtain ⟨s, hs, hq, hsign, hdec⟩ : ∃ s, Reach (KeyStep false) Tidy .init s ∧ s.Quiet ∧
      s.table.signKey [1] = some 0 ∧ ∀ k ∈ [0, 2], s.decrypted k = true := by
    refine ⟨_, h6, ⟨fun t => ?_, fun t => ?_⟩, rfl, by decide⟩
    · cases t <;> rfl
    · cases t with
      | zero => exact .inr rfl
      | succ t => exact .inl rfl
  exact ⟨s, hq, hsign, fun k hk => ⟨hdec k hk, decrypted_keys_zeroed false s hs hq k (hdec k hk)⟩⟩

end Fiscobcos.Keystore
