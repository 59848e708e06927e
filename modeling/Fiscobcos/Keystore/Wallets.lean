import Fiscobcos.Keystore.AccountCache
import Mathlib.Data.Prod.Lex

/-! # The wallets of the keystore (accounts/keystore/keystore.go)

`refreshWallets` merges its wallets with the accounts of the cache, both in the order of their
URLs, and fires an event for every wallet that comes or goes. -/

namespace Fiscobcos.Keystore
open Numerals List

/-- A `*keystoreWallet`: `id` is the pointer. -/
structure Wallet where
  id : Nat
  account : Account
deriving DecidableEq

inductive WalletEventType
  | walletArrived
  | walletOpened
  | walletDropped
deriving DecidableEq

structure WalletEvent where
  wallet : Wallet
  kind : WalletEventType
deriving DecidableEq

/-- The wallets are objects of their own; `next` is where the next one is allocated. -/
structure KeyStore where
  wallets : List Wallet
  next : Nat
  distinct : (wallets.map Wallet.id).Nodup
  allocated : ∀ w ∈ wallets, w.id < next

/-- The variables of `refreshWallets`; `old` is `ks.wallets`, consumed from the front. -/
structure Refresh where
  old : List Wallet
  wallets : List Wallet
  events : List WalletEvent
  next : Nat

def dropBefore (url : URL) : List Wallet → List WalletEvent → List Wallet × List WalletEvent
  | [], events => ([], events)
  | w :: old, events =>
    if w.account.url.Cmp url = .lt then dropBefore url old (events ++ [⟨w, .walletDropped⟩])
    else (w :: old, events)

def Refresh.wrap (r : Refresh) (account : Account) : Refresh :=
  let wallet : Wallet := ⟨r.next, account⟩
  { r with
    events := r.events ++ [⟨wallet, .walletArrived⟩]
    wallets := r.wallets ++ [wallet]
    next := r.next + 1 }

def Refresh.keep (r : Refresh) (w : Wallet) (rest : List Wallet) : Refresh :=
  { r with old := rest, wallets := r.wallets ++ [w] }

def Refresh.step (r : Refresh) (account : Account) : Refresh :=
  let (old, events) := dropBefore account.url r.old r.events
  match old with
  | [] => Refresh.wrap { r with old := [], events := events } account
  | w :: rest =>
    if w.account.url.Cmp account.url = .gt then
      Refresh.wrap { r with old := w :: rest, events := events } account
    else if w.account = account then
      Refresh.keep { r with events := events } w rest
    else { r with old := w :: rest, events := events }

def Refresh.drop (r : Refresh) (d left : List Wallet) : Refresh :=
  { r with old := left, events := r.events ++ d.map fun w => ⟨w, .walletDropped⟩ }

def KeyStore.start (ks : KeyStore) : Refresh := ⟨ks.wallets, [], [], ks.next⟩

def KeyStore.refreshLoop (ks : KeyStore) (accs : List Account) : Refresh :=
  let r := accs.foldl Refresh.step ks.start
  r.drop r.old []

def URL.key (u : URL) : Bytes ×ₗ Bytes := toLex (u.scheme, u.path)

theorem stringsCompare_lt_iff (a b : Bytes) : stringsCompare a b = .lt ↔ a < b := by
  unfold stringsCompare
  split_ifs with heq hlt
  · simp [heq]
  · simp [hlt]
  · simp [hlt]

theorem stringsCompare_gt_iff (a b : Bytes) : stringsCompare a b = .gt ↔ b < a := by
  unfold stringsCompare
  split_ifs with heq hlt
  · simp [heq]
  · simp [hlt.le]
  · simpa using lt_of_le_of_ne (not_lt.mp hlt) (Ne.symm heq)

theorem URL.Cmp_lt_iff (u v : URL) : u.Cmp v = .lt ↔ u.key < v.key := by
  unfold URL.Cmp URL.key
  rw [Prod.Lex.toLex_lt_toLex]
  split_ifs with heq
  · rw [stringsCompare_lt_iff]
    simp [heq]
  · rw [stringsCompare_lt_iff]
    simp [heq]

theorem URL.Cmp_gt_iff (u v : URL) : u.Cmp v = .gt ↔ v.key < u.key := by
  unfold URL.Cmp URL.key
  rw [Prod.Lex.toLex_lt_toLex]
  split_ifs with heq
  · rw [stringsCompare_gt_iff]
    simp [heq]
  · rw [stringsCompare_gt_iff]
    simp [Ne.symm heq]

theorem URL.key_injective {u v : URL} (h : u.key = v.key) : u = v := by
  cases u
  cases v
  simpa [URL.key] using h

theorem URL.eq_of_Cmp {u v : URL} (h : u.Cmp v = .eq) : u = v := by
  apply URL.key_injective
  rcases lt_trichotomy u.key v.key with hlt | heq | hgt
  · rw [(URL.Cmp_lt_iff u v).mpr hlt] at h
    cases h
  · exact heq
  · rw [(URL.Cmp_gt_iff u v).mpr hgt] at h
    cases h

def fired (kind : WalletEventType) (events : List WalletEvent) : List Wallet :=
  (events.filter fun e => decide (e.kind = kind)).map WalletEvent.wallet

section Fired
variable {kind : WalletEventType}

theorem fired_append (xs ys : List WalletEvent) :
    fired kind (xs ++ ys) = fired kind xs ++ fired kind ys := by
  unfold fired
  rw [filter_append, map_append]

theorem fired_map_self (ws : List Wallet) : fired kind (ws.map fun w => ⟨w, kind⟩) = ws := by
  induction ws with
  | nil => rfl
  | cons w ws ih =>
    unfold fired at ih ⊢
    rw [map_cons, filter_cons_of_pos (by simp), map_cons, ih]

theorem fired_map_ne {other : WalletEventType} (hne : other ≠ kind) (ws : List Wallet) :
    fired kind (ws.map fun w => ⟨w, other⟩) = [] := by
  induction ws with
  | nil => rfl
  | cons w ws ih =>
    unfold fired at ih ⊢
    rw [map_cons, filter_cons_of_neg (by simpa using hne), ih]

end Fired

theorem dropBefore_spec (url : URL) (old : List Wallet) (events : List WalletEvent) :
    ∃ d, old = d ++ (dropBefore url old events).1 ∧
      (dropBefore url old events).2 = events ++ (d.map fun w => ⟨w, .walletDropped⟩) ∧
      (∀ w ∈ d, w.account.url.Cmp url = .lt) ∧
      ∀ w ∈ (dropBefore url old events).1.head?, w.account.url.Cmp url ≠ .lt := by
  induction old generalizing events with
  | nil => exact ⟨[], rfl, (append_nil _).symm, by simp, by simp [dropBefore]⟩
  | cons w old ih =>
    unfold dropBefore
    split_ifs with hlt
    · obtain ⟨d, hsplit, hevents, hd, hhead⟩ := ih (events ++ [⟨w, .walletDropped⟩])
      refine ⟨w :: d, ?_, ?_, ?_, hhead⟩
      · rw [cons_append, ← hsplit]
      · rw [hevents, append_assoc, map_cons, singleton_append]
      · intro v hv
        rcases mem_cons.mp hv with rfl | hv
        · exact hlt
        · exact hd v hv
    · refine ⟨[], rfl, (append_nil _).symm, by simp, ?_⟩
      intro v hv
      cases hv
      exact hlt

theorem Refresh.step_cases (r : Refresh) (a : Account) :
    ∃ d left, r.old = d ++ left ∧ (∀ w ∈ d, w.account.url.Cmp a.url = .lt) ∧
      (((∀ w ∈ left.head?, w.account.url.Cmp a.url = .gt) ∧ r.step a = (r.drop d left).wrap a) ∨
        (∃ w rest, left = w :: rest ∧ w.account = a ∧ r.step a = (r.drop d left).keep w rest) ∨
        (∃ w rest, left = w :: rest ∧ w.account.url = a.url ∧ w.account ≠ a ∧
          r.step a = r.drop d left)) := by
  obtain ⟨d, hsplit, hevents, hlt, hhead⟩ := dropBefore_spec a.url r.old r.events
  unfold Refresh.step
  generalize dropBefore a.url r.old r.events = p at hsplit hevents hhead ⊢
  obtain ⟨left, events⟩ := p
  dsimp only at hsplit hevents hhead ⊢
  subst hevents
  refine ⟨d, left, hsplit, hlt, ?_⟩
  cases left with
  | nil => exact .inl ⟨(fun w hw => by cases hw), rfl⟩
  | cons w rest =>
    dsimp only
    split_ifs with hgt heq
    · refine .inl ⟨?_, rfl⟩
      intro v hv
      cases hv
      exact hgt
    · exact .inr (.inl ⟨w, rest, rfl, heq, rfl⟩)
    · refine .inr (.inr ⟨w, rest, rfl, ?_, heq, rfl⟩)
      apply URL.eq_of_Cmp
      cases hc : w.account.url.Cmp a.url with
      | lt => exact absurd hc (hhead w rfl)
      | gt => exact absurd hc hgt
      | eq => rfl

structure RefreshInv (ks : KeyStore) (c : List Wallet) (r : Refresh) : Prop where
  split : ks.wallets = c ++ r.old
  dropped : fired .walletDropped r.events = c.filter fun w => decide (w ∉ r.wallets)
  arrived : fired .walletArrived r.events = r.wallets.filter fun w => decide (w ∉ ks.wallets)
  opened : fired .walletOpened r.events = []
  source : ∀ w ∈ r.wallets, w ∈ c ∨ ks.next ≤ w.id
  distinct : (r.wallets.map Wallet.id).Nodup
  allocated : ∀ w ∈ r.wallets, w.id < r.next
  next_le : ks.next ≤ r.next

section Inv
variable {ks : KeyStore} {c d rest : List Wallet} {r : Refresh} {w : Wallet} {a : Account}

theorem RefreshInv.start (ks : KeyStore) : RefreshInv ks [] ks.start where
  split := rfl
  dropped := rfl
  arrived := rfl
  opened := rfl
  source w hw := by cases hw
  distinct := nodup_nil
  allocated w hw := by cases hw
  next_le := le_rfl

theorem RefreshInv.old_not_mem (h : RefreshInv ks c r) (hw : w ∈ r.old) : w ∉ r.wallets := by
  intro hmem
  have hin : w ∈ ks.wallets := by
    rw [h.split]
    exact mem_append_right _ hw
  rcases h.source w hmem with hc | hnew
  · have hnd := h.split ▸ ks.distinct.of_map
    exact (nodup_append.mp hnd).2.2 w hc w hw rfl
  · have := ks.allocated w hin
    omega

theorem RefreshInv.drop (h : RefreshInv ks c r) (hold : r.old = d ++ rest) :
    RefreshInv ks (c ++ d) (r.drop d rest) := by
  have hd : d.filter (fun w => decide (w ∉ r.wallets)) = d := by
    rw [filter_eq_self]
    intro w hw
    exact decide_eq_true (h.old_not_mem (by rw [hold]; exact mem_append_left _ hw))
  exact
    { split := by
        show ks.wallets = (c ++ d) ++ rest
        rw [h.split, hold, append_assoc]
      dropped := by
        rw [Refresh.drop, fired_append, fired_map_self, h.dropped, filter_append, hd]
      arrived := by
        rw [Refresh.drop, fired_append, fired_map_ne (by decide), append_nil, h.arrived]
      opened := by
        rw [Refresh.drop, fired_append, fired_map_ne (by decide), append_nil, h.opened]
      source := fun w hw => (h.source w hw).imp_left (mem_append_left _)
      distinct := h.distinct
      allocated := h.allocated
      next_le := h.next_le }

theorem RefreshInv.distinct_append (h : RefreshInv ks c r) (hne : ∀ v ∈ r.wallets, v.id ≠ w.id) :
    ((r.wallets ++ [w]).map Wallet.id).Nodup := by
  rw [map_append, map_singleton]
  refine nodup_append.mpr ⟨h.distinct, nodup_singleton _, ?_⟩
  intro i hi j hj
  obtain ⟨v, hv, rfl⟩ := mem_map.mp hi
  rw [mem_singleton.mp hj]
  exact hne v hv

theorem filter_not_mem_append (h : w ∉ c) (ws : List Wallet) :
    (c.filter fun v => decide (v ∉ ws ++ [w])) = c.filter fun v => decide (v ∉ ws) := by
  apply filter_congr
  intro v hv
  have hvw : v ≠ w := by
    intro heq
    exact h (heq ▸ hv)
  simp [hvw]

theorem RefreshInv.wrap (h : RefreshInv ks c r) (a : Account) : RefreshInv ks c (r.wrap a) := by
  have hnot : (⟨r.next, a⟩ : Wallet) ∉ ks.wallets := by
    intro hmem
    have := ks.allocated _ hmem
    have := h.next_le
    dsimp only at *
    omega
  have hc : (⟨r.next, a⟩ : Wallet) ∉ c := by
    intro hmem
    rw [h.split] at hnot
    exact hnot (mem_append_left _ hmem)
  have harr : fired .walletArrived [⟨⟨r.next, a⟩, .walletArrived⟩] = [⟨r.next, a⟩] :=
    fired_map_self [⟨r.next, a⟩]
  exact
    { split := h.split
      dropped := by
        show fired .walletDropped (r.events ++ [_]) = _
        rw [fired_append, h.dropped]
        exact (append_nil _).trans (filter_not_mem_append hc _).symm
      arrived := by
        show fired .walletArrived (r.events ++ [_]) = (r.wallets ++ [_]).filter _
        rw [fired_append, h.arrived, harr, filter_append,
          filter_cons_of_pos (by simpa using hnot), filter_nil]
      opened := by
        show fired .walletOpened (r.events ++ [_]) = _
        rw [fired_append, h.opened]
        rfl
      source := by
        intro w hw
        rcases mem_append.mp hw with hw | hw
        · exact h.source w hw
        · rw [mem_singleton.mp hw]
          exact .inr h.next_le
      distinct := by
        apply h.distinct_append
        intro v hv
        exact (h.allocated v hv).ne
      allocated := by
        intro w hw
        rcases mem_append.mp hw with hw | hw
        · exact Nat.lt_succ_of_lt (h.allocated w hw)
        · rw [mem_singleton.mp hw]
          exact Nat.lt_succ_self _
      next_le := Nat.le_succ_of_le h.next_le }

theorem RefreshInv.keep (h : RefreshInv ks c r) (hold : r.old = w :: rest) :
    RefreshInv ks (c ++ [w]) (r.keep w rest) := by
  have hsplit : ks.wallets = c ++ w :: rest := by rw [h.split, hold]
  have hin : w ∈ ks.wallets := by
    rw [hsplit]
    exact mem_append_right _ mem_cons_self
  have hids := ks.distinct
  rw [hsplit, map_append, nodup_append] at hids
  have hc : ∀ v ∈ c, v.id ≠ w.id := by
    intro v hv
    exact hids.2.2 v.id (mem_map_of_mem hv) w.id (mem_map_of_mem mem_cons_self)
  have hwc : w ∉ c := by
    intro hmem
    exact hc w hmem rfl
  exact
    { split := by
        show ks.wallets = (c ++ [w]) ++ rest
        rw [hsplit, append_assoc, singleton_append]
      dropped := by
        show fired .walletDropped r.events = _
        rw [Refresh.keep, filter_append, filter_not_mem_append hwc, h.dropped]
        simp
      arrived := by
        show fired .walletArrived r.events = _
        rw [Refresh.keep, filter_append, h.arrived,
          filter_cons_of_neg (by simpa using hin)]
        simp
      opened := h.opened
      source := by
        intro v hv
        rcases mem_append.mp hv with hv | hv
        · exact (h.source v hv).imp_left (mem_append_left _)
        · exact .inl (mem_append_right _ hv)
      distinct := by
        apply h.distinct_append
        intro v hv
        rcases h.source v hv with hvc | hnew
        · exact hc v hvc
        · have := ks.allocated w hin
          omega
      allocated := by
        intro v hv
        rcases mem_append.mp hv with hv | hv
        · exact h.allocated v hv
        · rw [mem_singleton.mp hv]
          exact (ks.allocated w hin).trans_le h.next_le
      next_le := h.next_le }

theorem RefreshInv.step (h : RefreshInv ks c r) (a : Account) :
    ∃ c', RefreshInv ks c' (r.step a) := by
  obtain ⟨d, left, hold, -, ⟨-, hstep⟩ | ⟨w, rest, rfl, -, hstep⟩ | ⟨w, rest, -, -, -, hstep⟩⟩ :=
    r.step_cases a
  · rw [hstep]
    exact ⟨_, (h.drop hold).wrap a⟩
  · rw [hstep]
    exact ⟨_, (h.drop hold).keep rfl⟩
  · rw [hstep]
    exact ⟨_, h.drop hold⟩

theorem RefreshInv.loop (h : RefreshInv ks c r) (accs : List Account) :
    ∃ c', RefreshInv ks c' (accs.foldl Refresh.step r) := by
  induction accs generalizing c r with
  | nil => exact ⟨c, h⟩
  | cons a accs ih =>
    obtain ⟨c', h'⟩ := h.step a
    exact ih h'

theorem KeyStore.refreshLoop_inv (ks : KeyStore) (accs : List Account) :
    RefreshInv ks ks.wallets (ks.refreshLoop accs) := by
  obtain ⟨c, h⟩ := (RefreshInv.start ks).loop accs
  have hend : RefreshInv ks (c ++ _) (Refresh.drop _ _ []) := h.drop (append_nil _).symm
  rw [← h.split] at hend
  exact hend

end Inv

def KeyStore.refreshWallets (ks : KeyStore) (accs : List Account) : KeyStore × List WalletEvent :=
  let r := ks.refreshLoop accs
  (⟨r.wallets, r.next, (ks.refreshLoop_inv accs).distinct, (ks.refreshLoop_inv accs).allocated⟩,
    r.events)

def WalletEvent.apply (s : Finset Wallet) (e : WalletEvent) : Finset Wallet :=
  match e.kind with
  | .walletArrived => insert e.wallet s
  | .walletOpened => s
  | .walletDropped => s.erase e.wallet

def replay (s : Finset Wallet) (events : List WalletEvent) : Finset Wallet :=
  events.foldl WalletEvent.apply s

theorem mem_replay {events : List WalletEvent} {s : Finset Wallet} (w : Wallet)
    (hdisj : ∀ v ∈ fired .walletArrived events, v ∉ fired .walletDropped events) :
    w ∈ replay s events ↔
      (w ∈ s ∧ w ∉ fired .walletDropped events) ∨ w ∈ fired .walletArrived events := by
  induction events generalizing s with
  | nil => simp [replay, fired]
  | cons e events ih =>
    obtain ⟨v, kind⟩ := e
    have hcons : ∀ k, fired k (⟨v, kind⟩ :: events) =
        (if kind = k then [v] else []) ++ fired k events := by
      intro k
      unfold fired
      split_ifs with hk
      · rw [filter_cons_of_pos (by simpa using hk)]
        rfl
      · rw [filter_cons_of_neg (by simpa using hk)]
        rfl
    rw [hcons, hcons] at hdisj ⊢
    have htail : ∀ v ∈ fired .walletArrived events, v ∉ fired .walletDropped events := by
      intro u hu hd
      exact hdisj u (mem_append_right _ hu) (mem_append_right _ hd)
    have hrec := ih (s := WalletEvent.apply s ⟨v, kind⟩) htail
    unfold replay at hrec ⊢
    rw [foldl_cons, hrec]
    cases kind with
    | walletArrived =>
      have hv : v ∉ fired .walletDropped events := by
        simpa using hdisj v (by simp)
      simp only [WalletEvent.apply, Finset.mem_insert]
      grind
    | walletOpened => simp [WalletEvent.apply]
    | walletDropped =>
      simp only [WalletEvent.apply, Finset.mem_erase]
      grind

/-- One wallet for every account, the same object for an account that had one, and
the events that lead from the old set to the new one. -/
structure RefreshExact (ks : KeyStore) (accs : List Account) : Prop where
  one_each : (ks.refreshWallets accs).1.wallets.map Wallet.account = accs
  same : ∀ w ∈ (ks.refreshWallets accs).1.wallets, w.account ∈ ks.wallets.map Wallet.account →
    w ∈ ks.wallets
  dropped : fired .walletDropped (ks.refreshWallets accs).2 =
    ks.wallets.filter fun w => decide (w ∉ (ks.refreshWallets accs).1.wallets)
  arrived : fired .walletArrived (ks.refreshWallets accs).2 =
    (ks.refreshWallets accs).1.wallets.filter fun w => decide (w ∉ ks.wallets)
  opened : fired .walletOpened (ks.refreshWallets accs).2 = []
  replayed : replay ks.wallets.toFinset (ks.refreshWallets accs).2 =
    (ks.refreshWallets accs).1.wallets.toFinset

def behind (url : URL) (accs : List Account) : List Account :=
  accs.filter fun a => decide (a.url = url)

def Compatible (ws accs : List Account) : Prop :=
  ∀ url, behind url ws <+: behind url accs ∨ behind url accs <+: behind url ws

section Compatible
variable {w a : Account} {ws accs : List Account}

theorem Compatible.symm (h : Compatible ws accs) : Compatible accs ws := fun url => (h url).symm

theorem compatible_comm : Compatible ws accs ↔ Compatible accs ws := ⟨.symm, .symm⟩

theorem behind_cons (url : URL) (a : Account) (accs : List Account) :
    behind url (a :: accs) = if a.url = url then a :: behind url accs else behind url accs := by
  unfold behind
  rw [filter_cons]
  simp

theorem behind_eq_nil {url : URL} (h : ∀ a ∈ accs, a.url ≠ url) : behind url accs = [] := by
  unfold behind
  rw [filter_eq_nil_iff]
  intro a ha
  simpa using h a ha

theorem compatible_cons_left (h : ∀ a ∈ accs, a.url ≠ w.url) :
    Compatible (w :: ws) accs ↔ Compatible ws accs := by
  apply forall_congr'
  intro url
  rw [behind_cons]
  split_ifs with heq
  · have hnil : behind url accs = [] := behind_eq_nil (heq ▸ h)
    rw [hnil]
    simp
  · exact Iff.rfl

theorem compatible_append_left (h : ∀ w ∈ ws, ∀ a ∈ accs, a.url ≠ w.url) (rest : List Account) :
    Compatible (ws ++ rest) accs ↔ Compatible rest accs := by
  induction ws with
  | nil => exact Iff.rfl
  | cons w ws ih =>
    rw [cons_append, compatible_cons_left (h w mem_cons_self)]
    exact ih fun v hv => h v (mem_cons_of_mem _ hv)

theorem compatible_cons_cons : Compatible (a :: ws) (a :: accs) ↔ Compatible ws accs := by
  apply forall_congr'
  intro url
  rw [behind_cons, behind_cons]
  split_ifs with heq
  · rw [cons_prefix_cons, cons_prefix_cons]
    simp
  · exact Iff.rfl

theorem not_compatible_cons (hurl : w.url = a.url) (hne : w ≠ a) :
    ¬ Compatible (w :: ws) (a :: accs) := by
  intro h
  have hat := h a.url
  rw [behind_cons, behind_cons, if_pos hurl, if_pos rfl, cons_prefix_cons,
    cons_prefix_cons] at hat
  rcases hat with ⟨heq, -⟩ | ⟨heq, -⟩
  · exact hne heq
  · exact hne heq.symm

theorem compatible_iff_of_nodup (hws : (ws.map Account.url).Nodup)
    (haccs : (accs.map Account.url).Nodup) :
    Compatible ws accs ↔ ∀ w ∈ ws, ∀ a ∈ accs, w.url = a.url → w = a := by
  have hone : ∀ {l : List Account} {b : Account}, (l.map Account.url).Nodup → b ∈ l →
      behind b.url l = [b] := by
    intro l b hl hb
    induction l with
    | nil => cases hb
    | cons c l ih =>
      rw [map_cons, nodup_cons] at hl
      rw [behind_cons]
      rcases mem_cons.mp hb with rfl | hb
      · rw [if_pos rfl, behind_eq_nil]
        intro d hd heq
        exact hl.1 (heq ▸ mem_map_of_mem hd)
      · rw [if_neg, ih hl.2 hb]
        intro heq
        exact hl.1 (heq ▸ mem_map_of_mem hb)
  constructor
  · intro h w hw a ha hurl
    have hat := h a.url
    rw [hone haccs ha, ← hurl, hone hws hw] at hat
    simpa [eq_comm] using hat
  · intro h url
    by_cases hw : ∃ w ∈ ws, w.url = url
    · obtain ⟨w, hw, rfl⟩ := hw
      by_cases ha : ∃ a ∈ accs, a.url = w.url
      · obtain ⟨a, ha, hurl⟩ := ha
        have heq := h w hw a ha hurl.symm
        subst heq
        rw [hone haccs ha, hone hws hw]
        simp
      · have hnil : behind w.url accs = [] := behind_eq_nil (by simpa using ha)
        rw [hnil]
        simp
    · have hnil : behind url ws = [] := behind_eq_nil (by simpa using hw)
      rw [hnil]
      simp

end Compatible

def NotAfter (a b : Account) : Prop := a.url.Cmp b.url ≠ .gt

instance : DecidableRel NotAfter := fun _ _ => inferInstanceAs (Decidable (_ ≠ _))

theorem notAfter_iff {a b : Account} : NotAfter a b ↔ a.url.key ≤ b.url.key := by
  unfold NotAfter
  rw [Ne, URL.Cmp_gt_iff, not_lt]

section Loop
variable {ks : KeyStore} {r : Refresh} {a : Account} {accs : List Account}

theorem sorted_cons_iff {l : List Account} :
    (a :: l).Pairwise NotAfter ↔ (∀ b ∈ l, a.url.key ≤ b.url.key) ∧ l.Pairwise NotAfter := by
  simp only [pairwise_cons, notAfter_iff]

theorem Refresh.step_length (r : Refresh) (a : Account) :
    (r.step a).wallets.length ≤ r.wallets.length + 1 := by
  obtain ⟨d, left, -, -, ⟨-, hstep⟩ | ⟨w, rest, -, -, hstep⟩ | ⟨w, rest, -, -, -, hstep⟩⟩ :=
    r.step_cases a
  · rw [hstep]
    simp [Refresh.wrap, Refresh.drop]
  · rw [hstep]
    simp [Refresh.keep, Refresh.drop]
  · rw [hstep]
    simp [Refresh.drop]

theorem Refresh.loop_length (r : Refresh) (accs : List Account) :
    (accs.foldl Refresh.step r).wallets.length ≤ r.wallets.length + accs.length := by
  induction accs generalizing r with
  | nil => simp
  | cons a accs ih =>
    have hrec := ih (r.step a)
    have hstep := r.step_length a
    rw [foldl_cons, length_cons]
    omega

theorem lt_of_head_gt {left : List Wallet} (hleft : (left.map Wallet.account).Pairwise NotAfter)
    (hhead : ∀ w ∈ left.head?, w.account.url.Cmp a.url = .gt) :
    ∀ w ∈ left, a.url.key < w.account.url.key := by
  cases left with
  | nil => simp
  | cons w rest =>
    have hgt := (URL.Cmp_gt_iff _ _).mp (hhead w rfl)
    obtain ⟨hle, -⟩ := sorted_cons_iff.mp hleft
    intro v hv
    rcases mem_cons.mp hv with rfl | hv
    · exact hgt
    · exact hgt.trans_le (hle v.account (mem_map_of_mem hv))

theorem Refresh.loop_accounts_iff (hold : (r.old.map Wallet.account).Pairwise NotAfter)
    (haccs : accs.Pairwise NotAfter) :
    (accs.foldl Refresh.step r).wallets.map Wallet.account = r.wallets.map Wallet.account ++ accs ↔
      Compatible (r.old.map Wallet.account) accs := by
  induction accs generalizing r with
  | nil => simp [Compatible, behind]
  | cons a accs ih =>
    obtain ⟨hfirst, htail⟩ := sorted_cons_iff.mp haccs
    obtain ⟨d, left, hsplit, hd, hcases⟩ := r.step_cases a
    have hleft : (left.map Wallet.account).Pairwise NotAfter := by
      rw [hsplit, map_append] at hold
      exact (pairwise_append.mp hold).2.1
    have hskip : Compatible (r.old.map Wallet.account) (a :: accs) ↔
        Compatible (left.map Wallet.account) (a :: accs) := by
      rw [hsplit, map_append]
      apply compatible_append_left
      intro w hw b hb heq
      obtain ⟨v, hv, rfl⟩ := mem_map.mp hw
      have hlt := (URL.Cmp_lt_iff _ _).mp (hd v hv)
      rw [← heq] at hlt
      rcases mem_cons.mp hb with rfl | hb
      · exact lt_irrefl _ hlt
      · exact absurd (hfirst b hb) (not_le.mpr hlt)
    rw [hskip, foldl_cons]
    rcases hcases with ⟨hhead, hstep⟩ | ⟨w, rest, rfl, rfl, hstep⟩ | ⟨w, rest, rfl, hurl, hne, hstep⟩
    · -- no wallet at the URL of the account
      have hnone : ∀ b ∈ left.map Wallet.account, b.url ≠ a.url := by
        intro b hb heq
        obtain ⟨v, hv, rfl⟩ := mem_map.mp hb
        have hgt := lt_of_head_gt hleft hhead v hv
        rw [heq] at hgt
        exact lt_irrefl _ hgt
      rw [compatible_comm, compatible_cons_left hnone, compatible_comm, hstep]
      refine Iff.trans ?_ (ih (r := (r.drop d left).wrap a) hleft htail)
      simp [Refresh.wrap, Refresh.drop]
    · have hrest : (rest.map Wallet.account).Pairwise NotAfter := (sorted_cons_iff.mp hleft).2
      rw [map_cons, compatible_cons_cons, hstep]
      refine Iff.trans ?_ (ih (r := (r.drop d (w :: rest)).keep w rest) hrest htail)
      simp [Refresh.keep, Refresh.drop]
    · -- the account is passed over, and never made up for
      rw [map_cons]
      refine iff_of_false ?_ (not_compatible_cons hurl hne)
      intro heq
      have hlen := congrArg length heq
      have hle := (r.step a).loop_length accs
      rw [hstep] at hlen hle
      simp only [length_map, length_append, length_cons, Refresh.drop] at hlen hle
      omega

structure SameInv (ks : KeyStore) (accs : List Account) (c : List Wallet) (r : Refresh) : Prop where
  split : ks.wallets = c ++ r.old
  consumed : ∀ w ∈ c, w ∈ r.wallets ∨ ∀ a ∈ accs, w.account.url.key < a.url.key
  done : ∀ w ∈ r.wallets, w.account ∉ accs
  same : ∀ w ∈ r.wallets, w.account ∈ ks.wallets.map Wallet.account → w ∈ ks.wallets

variable {c d left : List Wallet} {w : Wallet}

theorem SameInv.drop (h : SameInv ks accs c r) (hold : r.old = d ++ left)
    (hd : ∀ w ∈ d, ∀ a ∈ accs, w.account.url.key < a.url.key) :
    SameInv ks accs (c ++ d) (r.drop d left) where
  split := by
    show ks.wallets = (c ++ d) ++ left
    rw [h.split, hold, append_assoc]
  consumed w hw := by
    rcases mem_append.mp hw with hw | hw
    · exact h.consumed w hw
    · exact .inr (hd w hw)
  done := h.done
  same := h.same

theorem SameInv.pass (h : SameInv ks (a :: accs) c r) : SameInv ks accs c r where
  split := h.split
  consumed w hw := (h.consumed w hw).imp_right fun hlt b hb => hlt b (mem_cons_of_mem _ hb)
  done w hw hmem := h.done w hw (mem_cons_of_mem _ hmem)
  same := h.same

theorem SameInv.not_mem (h : SameInv ks (a :: accs) c r)
    (hgt : ∀ w ∈ r.old, a.url.key < w.account.url.key) : a ∉ ks.wallets.map Wallet.account := by
  intro hmem
  obtain ⟨w, hw, rfl⟩ := mem_map.mp hmem
  rw [h.split] at hw
  rcases mem_append.mp hw with hw | hw
  · rcases h.consumed w hw with hkept | hlt
    · exact h.done w hkept mem_cons_self
    · exact lt_irrefl _ (hlt _ mem_cons_self)
  · exact lt_irrefl _ (hgt w hw)

theorem SameInv.wrap (h : SameInv ks (a :: accs) c r) (ha : a ∉ accs)
    (hgt : ∀ w ∈ r.old, a.url.key < w.account.url.key) : SameInv ks accs c (r.wrap a) where
  split := h.split
  consumed w hw := (h.pass.consumed w hw).imp_left (mem_append_left _)
  done w hw := by
    rcases mem_append.mp hw with hw | hw
    · exact h.pass.done w hw
    · rw [mem_singleton.mp hw]
      exact ha
  same w hw := by
    rcases mem_append.mp hw with hw | hw
    · exact h.same w hw
    · rw [mem_singleton.mp hw]
      intro hmem
      exact absurd hmem (h.not_mem hgt)

theorem SameInv.keep (h : SameInv ks (a :: accs) c r) (ha : a ∉ accs) (hold : r.old = w :: left)
    (hw : w.account = a) : SameInv ks accs (c ++ [w]) (r.keep w left) where
  split := by
    show ks.wallets = (c ++ [w]) ++ left
    rw [h.split, hold, append_assoc, singleton_append]
  consumed v hv := by
    rcases mem_append.mp hv with hv | hv
    · exact (h.pass.consumed v hv).imp_left (mem_append_left _)
    · exact .inl (mem_append_right _ hv)
  done v hv := by
    rcases mem_append.mp hv with hv | hv
    · exact h.pass.done v hv
    · rw [mem_singleton.mp hv, hw]
      exact ha
  same v hv := by
    rcases mem_append.mp hv with hv | hv
    · exact h.same v hv
    · rw [mem_singleton.mp hv, h.split, hold]
      intro _
      exact mem_append_right _ mem_cons_self

theorem SameInv.step (h : SameInv ks (a :: accs) c r)
    (hks : (ks.wallets.map Wallet.account).Pairwise NotAfter)
    (hsorted : (a :: accs).Pairwise NotAfter) (ha : a ∉ accs) :
    ∃ c', SameInv ks accs c' (r.step a) := by
  obtain ⟨d, left, hold, hd, hcases⟩ := r.step_cases a
  have hdrop : SameInv ks (a :: accs) (c ++ d) (r.drop d left) := by
    apply h.drop hold
    intro w hw b hb
    have hlt := (URL.Cmp_lt_iff _ _).mp (hd w hw)
    rcases mem_cons.mp hb with rfl | hb
    · exact hlt
    · exact hlt.trans_le ((sorted_cons_iff.mp hsorted).1 b hb)
  rcases hcases with ⟨hhead, hstep⟩ | ⟨w, rest, rfl, hw, hstep⟩ | ⟨w, rest, rfl, -, -, hstep⟩
  · rw [hstep]
    have hleft : (left.map Wallet.account).Pairwise NotAfter := by
      rw [h.split, hold, map_append, map_append] at hks
      exact (pairwise_append.mp (pairwise_append.mp hks).2.1).2.1
    exact ⟨_, hdrop.wrap ha (lt_of_head_gt hleft hhead)⟩
  · rw [hstep]
    exact ⟨_, hdrop.keep ha rfl hw⟩
  · rw [hstep]
    exact ⟨_, hdrop.pass⟩

theorem SameInv.loop (h : SameInv ks accs c r)
    (hks : (ks.wallets.map Wallet.account).Pairwise NotAfter)
    (hsorted : accs.Pairwise NotAfter) (hnodup : accs.Nodup) :
    ∃ c', SameInv ks [] c' (accs.foldl Refresh.step r) := by
  induction accs generalizing c r with
  | nil => exact ⟨c, h⟩
  | cons a accs ih =>
    obtain ⟨ha, hrest⟩ := nodup_cons.mp hnodup
    obtain ⟨c', h'⟩ := h.step hks hsorted ha
    exact ih h' (sorted_cons_iff.mp hsorted).2 hrest

end Loop

section Refresh
variable (ks : KeyStore) (accs : List Account)

theorem KeyStore.refreshWallets_replay : replay ks.wallets.toFinset (ks.refreshWallets accs).2 =
      (ks.refreshWallets accs).1.wallets.toFinset := by
  have h := ks.refreshLoop_inv accs
  ext w
  show w ∈ replay ks.wallets.toFinset (ks.refreshLoop accs).events ↔
    w ∈ (ks.refreshLoop accs).wallets.toFinset
  rw [mem_replay, h.dropped, h.arrived]
  · simp only [mem_toFinset, mem_filter, decide_eq_true_iff]
    tauto
  · intro v hv hd
    rw [h.arrived, mem_filter] at hv
    rw [h.dropped, mem_filter] at hd
    exact absurd hd.1 (of_decide_eq_true hv.2)

theorem KeyStore.exact_of_compatible (hks : (ks.wallets.map Wallet.account).Pairwise NotAfter)
    (hsorted : accs.Pairwise NotAfter) (hnodup : accs.Nodup)
    (h : Compatible (ks.wallets.map Wallet.account) accs) : RefreshExact ks accs := by
  have hinv := ks.refreshLoop_inv accs
  have hstart : SameInv ks accs [] ks.start :=
    ⟨rfl, (fun w hw => by cases hw), (fun w hw => by cases hw), (fun w hw => by cases hw)⟩
  obtain ⟨c, hsame⟩ := hstart.loop hks hsorted hnodup
  exact
    { one_each := (Refresh.loop_accounts_iff (r := ks.start) hks hsorted).mpr h
      same := hsame.same
      dropped := hinv.dropped
      arrived := hinv.arrived
      opened := hinv.opened
      replayed := ks.refreshWallets_replay accs }

theorem refresh_exact_iff (hks : (ks.wallets.map Wallet.account).Pairwise NotAfter)
    (hsorted : accs.Pairwise NotAfter) (hnodup : accs.Nodup) :
    RefreshExact ks accs ↔ Compatible (ks.wallets.map Wallet.account) accs := by
  constructor
  · intro h
    exact (Refresh.loop_accounts_iff (r := ks.start) hks hsorted).mp h.one_each
  · exact ks.exact_of_compatible accs hks hsorted hnodup

end Refresh

def fileAccount (address file : Byte) : Account := ⟨[address], keyStoreScheme, [file]⟩

def oneWallet : KeyStore where
  wallets := [⟨0, fileAccount 1 1⟩]
  next := 1
  distinct := by decide
  allocated := by decide

theorem refresh_exact_iff_second_file : RefreshExact oneWallet [fileAccount 1 1, fileAccount 2 2] ↔
      Compatible [fileAccount 1 1] [fileAccount 1 1, fileAccount 2 2] :=
  refresh_exact_iff oneWallet [fileAccount 1 1, fileAccount 2 2] (by decide) (by decide) (by decide)

/-- The key in the file is replaced: the old wallet goes and no wallet comes. -/
theorem replaced_key_loses_wallet : (oneWallet.wallets.map Wallet.account).Pairwise NotAfter ∧
    ¬ RefreshExact oneWallet [fileAccount 2 1] ∧
    (oneWallet.refreshWallets [fileAccount 2 1]).1.wallets = [] ∧
    (oneWallet.refreshWallets [fileAccount 2 1]).2 = [⟨⟨0, fileAccount 1 1⟩, .walletDropped⟩] := by
  have hnone : (oneWallet.refreshWallets [fileAccount 2 1]).1.wallets = [] := by decide
  refine ⟨by decide, ?_, hnone, by decide⟩
  intro h
  have hone := h.one_each
  rw [hnone] at hone
  cases hone

section Again
variable {ks : KeyStore} {accs : List Account}

theorem Refresh.loop_accounts_sublist (r : Refresh) (accs : List Account) :
    ((accs.foldl Refresh.step r).wallets.map Wallet.account).Sublist
      (r.wallets.map Wallet.account ++ accs) := by
  induction accs generalizing r with
  | nil => simp
  | cons a accs ih =>
    have hone : ((r.step a).wallets.map Wallet.account).Sublist
        (r.wallets.map Wallet.account ++ [a]) := by
      obtain ⟨d, left, -, -, ⟨-, hstep⟩ | ⟨w, rest, -, rfl, hstep⟩ | ⟨w, rest, -, -, -, hstep⟩⟩ :=
        r.step_cases a
      · rw [hstep]
        simp [Refresh.wrap, Refresh.drop]
      · rw [hstep]
        simp [Refresh.keep, Refresh.drop]
      · rw [hstep]
        exact sublist_append_left _ _
    have hrec := (ih (r.step a)).trans (hone.append_right accs)
    rwa [append_assoc, singleton_append] at hrec

theorem KeyStore.refreshWallets_sublist (ks : KeyStore) (accs : List Account) :
    ((ks.refreshWallets accs).1.wallets.map Wallet.account).Sublist accs :=
  Refresh.loop_accounts_sublist ks.start accs

theorem KeyStore.refreshWallets_again (ks : KeyStore) (hsorted : accs.Pairwise NotAfter)
    (hurls : (accs.map Account.url).Nodup) : RefreshExact (ks.refreshWallets accs).1 accs := by
  have hsub := ks.refreshWallets_sublist accs
  have hks := hsorted.sublist hsub
  apply KeyStore.exact_of_compatible _ _ hks hsorted hurls.of_map
  rw [compatible_iff_of_nodup (hurls.sublist (hsub.map Account.url)) hurls]
  intro w hw a ha heq
  exact inj_on_of_nodup_map hurls (hsub.subset hw) ha heq

/-- The wallet of a replaced key, which one refresh has lost, comes back with the next. -/
theorem refreshWallets_again_replaced :
    RefreshExact (oneWallet.refreshWallets [fileAccount 2 1]).1 [fileAccount 2 1] :=
  oneWallet.refreshWallets_again (by decide) (by decide)

def KeyStore.refreshes (ks : KeyStore) : List (List Account) → KeyStore × List WalletEvent
  | [] => (ks, [])
  | accs :: later =>
    let (ks', events) := ks.refreshWallets accs
    let (ks'', events') := ks'.refreshes later
    (ks'', events ++ events')

theorem KeyStore.refreshes_replay (ks : KeyStore) (found : List (List Account)) :
    replay ks.wallets.toFinset (ks.refreshes found).2 = (ks.refreshes found).1.wallets.toFinset := by
  induction found generalizing ks with
  | nil => rfl
  | cons accs later ih =>
    show replay ks.wallets.toFinset ((ks.refreshWallets accs).2 ++ _) = _
    unfold replay
    rw [foldl_append]
    have hfirst := ks.refreshWallets_replay accs
    unfold replay at hfirst
    rw [hfirst]
    exact ih (ks.refreshWallets accs).1

end Again

end Fiscobcos.Keystore
