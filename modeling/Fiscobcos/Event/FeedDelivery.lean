import Fiscobcos.Event.Feed

/-! # Deliveries of a feed (event/feed.go)

While a `Send` runs, the active cases behind the first are those it has not sent to. -/

namespace Fiscobcos.Event
open Steps ActivePrefix Function
open List

variable {V : Type} {s s' : Feed V} {a : FeedAct} {σ σ' : Sending V} {c : ℕ}

def deliveries (log : List (Delivery V)) (k c : ℕ) : ℕ :=
  log.countP fun d => d.send == k && d.channel == c

def total (log : List (Delivery V)) (k : ℕ) : ℕ := log.countP fun d => d.send == k

theorem deliveries_add (log : List (Delivery V)) (k c : ℕ) (v : V) (k' c' : ℕ) :
    deliveries (log ++ [⟨k, c, v⟩]) k' c' =
      deliveries log k' c' + if k = k' ∧ c = c' then 1 else 0 := by
  rw [deliveries, countP_append, countP_singleton]
  simp [deliveries]

theorem total_add (log : List (Delivery V)) (k c : ℕ) (v : V) (k' : ℕ) :
    total (log ++ [⟨k, c, v⟩]) k' = total log k' + if k = k' then 1 else 0 := by
  rw [total, countP_append, countP_singleton]
  simp [total]

theorem deliveries_of_new {log : List (Delivery V)} {k : ℕ} (h : ∀ d ∈ log, d.send < k) (c : ℕ) :
    deliveries log k c = 0 := by
  rw [deliveries, countP_eq_zero]
  intro d hd
  have hne : d.send ≠ k := Nat.ne_of_lt (h d hd)
  simp [hne]

theorem total_of_new {log : List (Delivery V)} {k : ℕ} (h : ∀ d ∈ log, d.send < k) :
    total log k = 0 := by
  rw [total, countP_eq_zero]
  intro d hd
  have hne : d.send ≠ k := Nat.ne_of_lt (h d hd)
  simp [hne]

structure LogInv (s : Feed V) : Prop where
  known : ∀ d ∈ s.log, d.send < s.sends
  value : ∀ d ∈ s.log, s.values d.send = some d.value
  once : ∀ k c, deliveries s.log k c ≤ 1
  current : ∀ σ, s.holder = .send σ →
    σ.id < s.sends ∧ s.values σ.id = some σ.value ∧ total s.log σ.id = σ.nsent
  result : ∀ k n, s.result k = some n →
    k < s.sends ∧ n = total s.log k ∧ ∀ σ, s.holder = .send σ → σ.id ≠ k

theorem LogInv.init : LogInv (Feed.init : Feed V) where
  known d hd := by simp [Feed.init] at hd
  value d hd := by simp [Feed.init] at hd
  once k c := by simp [Feed.init, deliveries]
  current σ h := by simp [Feed.init] at h
  result k n h := by simp [Feed.init] at h

structure SameSend (σ σ' : Sending V) : Prop where
  id : σ'.id = σ.id
  value : σ'.value = σ.value
  nsent : σ'.nsent = σ.nsent
  before : σ'.before = σ.before

theorem LogInv.frame (h : LogInv s) (hlog : s'.log = s.log) (hsends : s'.sends = s.sends)
    (hvalues : s'.values = s.values) (hresult : s'.result = s.result)
    (hholder : ∀ σ', s'.holder = .send σ' → ∃ σ, s.holder = .send σ ∧ SameSend σ σ') :
    LogInv s' where
  known := by rw [hlog, hsends]; exact h.known
  value := by rw [hlog, hvalues]; exact h.value
  once := by rw [hlog]; exact h.once
  current σ' hσ' := by
    obtain ⟨σ, hσ, hsame⟩ := hholder σ' hσ'
    rw [hlog, hsends, hvalues, hsame.id, hsame.value, hsame.nsent]
    exact h.current σ hσ
  result k n hk := by
    rw [hresult] at hk
    obtain ⟨hlt, hn, hcur⟩ := h.result k n hk
    rw [hsends, hlog]
    refine ⟨hlt, hn, fun σ' hσ' => ?_⟩
    obtain ⟨σ, hσ, hsame⟩ := hholder σ' hσ'
    rw [hsame.id]
    exact hcur σ hσ

theorem LogInv.lock (h : LogInv s) (v : V) {before : ℕ → Bool} :
    LogInv { s with
      holder := .send ⟨s.sends, v, .merging, 0, 0, before⟩
      sends := s.sends + 1
      values := update s.values s.sends (some v) } where
  known d hd := Nat.lt_succ_of_lt (h.known d hd)
  value d hd := by
    dsimp only
    rw [update_of_ne (Nat.ne_of_lt (h.known d hd))]
    exact h.value d hd
  once := h.once
  current σ hσ := by
    cases hσ
    exact ⟨Nat.lt_succ_self _, update_self _ _ _, total_of_new h.known⟩
  result k n hk := by
    obtain ⟨hlt, hn, -⟩ := h.result k n hk
    refine ⟨Nat.lt_succ_of_lt hlt, hn, fun σ hσ => ?_⟩
    cases hσ
    exact Nat.ne_of_gt hlt

variable {cs : List (Case V)} {pc : SendPc}

theorem LogInv.deliver (h : LogInv s) (hh : s.holder = .send σ) (hc : deliveries s.log σ.id c = 0)
    :
    LogInv { s with
      sendCases := cs, holder := .send (σ.sent pc), log := s.log ++ [⟨σ.id, c, σ.value⟩] } := by
  obtain ⟨hlt, hvalue, htotal⟩ := h.current σ hh
  refine ⟨fun d hd => ?_, fun d hd => ?_, fun k x => ?_, fun σ' hσ' => ?_, fun k n hk => ?_⟩
  · rcases mem_append.mp hd with hd | hd
    · exact h.known d hd
    · cases mem_singleton.mp hd
      exact hlt
  · rcases mem_append.mp hd with hd | hd
    · exact h.value d hd
    · cases mem_singleton.mp hd
      exact hvalue
  · dsimp only
    rw [deliveries_add]
    split_ifs with heq
    · rw [← heq.1, ← heq.2, hc]
    · exact h.once k x
  · cases hσ'
    refine ⟨hlt, hvalue, ?_⟩
    dsimp only [Sending.sent]
    rw [total_add, if_pos rfl, htotal]
  · obtain ⟨hk', hn, hcur⟩ := h.result k n hk
    have hne : σ.id ≠ k := hcur σ hh
    refine ⟨hk', ?_, fun σ' hσ' => ?_⟩
    · dsimp only
      rw [total_add, if_neg hne, hn]
      rfl
    · cases hσ'
      exact hne

theorem LogInv.finish (h : LogInv s) (hh : s.holder = .send σ) :
    LogInv { s with
      sendCases := cs, holder := .free
      result := update s.result σ.id (some σ.nsent) } := by
  obtain ⟨hlt, -, htotal⟩ := h.current σ hh
  refine ⟨h.known, h.value, h.once, fun σ' hσ' => ?_, fun k n hk => ?_⟩
  · cases hσ'
  · refine ⟨?_, ?_, fun σ' hσ' => by cases hσ'⟩
    all_goals
      dsimp only at hk
      rw [update_apply] at hk
      split_ifs at hk with hkid
    · rw [hkid]
      exact hlt
    · exact (h.result k n hk).1
    · cases hk
      rw [hkid, htotal]
    · exact (h.result k n hk).2.1

structure Merged (s : Feed V) (σ : Sending V) : Prop where
  active_pos : 1 ≤ σ.active
  active_le : σ.active ≤ s.sendCases.length
  pending : ∀ c ∈ channels (s.sendCases.take σ.active), deliveries s.log σ.id c = 0
  done : ∀ c ∈ channels (s.sendCases.drop σ.active), deliveries s.log σ.id c = 1
  later : ∀ c ∈ channels s.inbox, σ.before c = false
  values : ∀ c w, Case.send c w ∈ s.sendCases → w = some σ.value
  trying : ∀ i, σ.pc = .trying i → 1 ≤ i
  finishing : σ.pc = .finishing → σ.active = 1

structure SendInv (s : Feed V) (σ : Sending V) : Prop where
  known : ∀ c, s.sub c = .fresh → σ.before c = false
  unsent : σ.pc = .merging → ∀ c, deliveries s.log σ.id c = 0
  merged : σ.pc ≠ .merging → Merged s σ

theorem SendInv.frame (h : SendInv s σ) (hlog : s'.log = s.log) (hcs : s'.sendCases = s.sendCases)
    (hsub : ∀ c, s'.sub c = .fresh → s.sub c = .fresh)
    (hinbox : ∀ c ∈ channels s'.inbox, c ∈ channels s.inbox ∨ s.sub c = .fresh) : SendInv s' σ where
  known c hc := h.known c (hsub c hc)
  unsent hp := by rw [hlog]; exact h.unsent hp
  merged hp := by
    have hm := h.merged hp
    refine ⟨hm.active_pos, ?_, ?_, ?_, fun c hc => ?_, ?_, hm.trying, hm.finishing⟩
    · rw [hcs]; exact hm.active_le
    · rw [hcs, hlog]; exact hm.pending
    · rw [hcs, hlog]; exact hm.done
    · rcases hinbox c hc with hc | hc
      · exact hm.later c hc
      · exact h.known c hc
    · rw [hcs]; exact hm.values

theorem SendInv.lock (h : LogInv s) (v : V) :
    SendInv { s with
      holder := .send ⟨s.sends, v, .merging, 0, 0, fun c => s.sub c ≠ .fresh⟩
      sends := s.sends + 1
      values := update s.values s.sends (some v) }
      ⟨s.sends, v, .merging, 0, 0, fun c => s.sub c ≠ .fresh⟩ where
  known c hc := by
    dsimp only at hc ⊢
    simp [hc]
  unsent _ := deliveries_of_new h.known
  merged hp := absurd rfl hp

variable {holder : Holder V}

theorem SendInv.merge (h : SendInv s σ) (hp : σ.pc = .merging) (hhead : s.sendCases ≠ [])
    :
    SendInv { s with
      sendCases := (s.sendCases ++ s.inbox).map (Case.setSend (some σ.value))
      inbox := [], holder := holder }
      { σ with pc := .trying 1, active := (s.sendCases ++ s.inbox).length } where
  known := h.known
  unsent hq := by cases hq
  merged _ := by
    refine ⟨?_, ?_, fun c _ => h.unsent hp c, fun c hc => ?_, fun c hc => ?_, fun c w hw => ?_,
      fun i hi => ?_, fun hq => ?_⟩
    · have := length_pos_iff.mpr hhead
      dsimp only
      rw [length_append]
      omega
    · simp
    · dsimp only at hc
      rw [← length_map (f := Case.setSend (some σ.value)), drop_length] at hc
      simp at hc
    · simp at hc
    · obtain ⟨cas, -, hcas⟩ := mem_map.mp hw
      cases cas with
      | removeSub => cases hcas
      | send c' w' =>
        cases hcas
        rfl
    · cases hi
      exact Nat.le_refl 1
    · cases hq

theorem SendInv.movePc (h : SendInv s σ) (hp : σ.pc ≠ .merging) (hpc : pc ≠ .merging)
    (htrying : ∀ i, pc = .trying i → 1 ≤ i) (hfinish : pc = .finishing → σ.active = 1)
    {sub : ℕ → SubPc} (hsub : ∀ c, sub c = .fresh → s.sub c = .fresh) :
    SendInv { s with holder := holder, sub := sub } { σ with pc := pc } where
  known c hc := h.known c (hsub c hc)
  unsent hq := absurd hq hpc
  merged _ := by
    have hm := h.merged hp
    exact ⟨hm.active_pos, hm.active_le, hm.pending, hm.done, hm.later, hm.values, htrying, hfinish⟩

section Deliver
variable {i : ℕ} {w : Option V}

theorem Merged.pending_at (h : Merged s σ) (hi : i < σ.active)
    (hc : s.sendCases[i]? = some (.send c w)) : deliveries s.log σ.id c = 0 := by
  refine h.pending c (mem_channels.mpr ⟨w, ?_⟩)
  rw [mem_iff_getElem?]
  exact ⟨i, by rw [getElem?_take_of_lt hi, hc]⟩

theorem Merged.deliver (h : Merged s σ) (hl : ListInv s) (hi : i < σ.active)
    (hc : s.sendCases[i]? = some (.send c w)) (htrying : ∀ j, pc = .trying j → 1 ≤ j)
    (hfinish : pc ≠ .finishing) {v : V} :
    Merged { s with
      sendCases := deactivate s.sendCases σ.active i, holder := holder
      log := s.log ++ [⟨σ.id, c, v⟩] } (σ.sent pc) := by
  have hpos := hl.index_pos hc
  have hle := h.active_le
  have htake := channels_perm (take_deactivate_perm hc hi hle)
  have hdrop := congrArg channels (drop_deactivate hc hi hle)
  rw [channels_send] at htake hdrop
  have hnodup : (channels (s.sendCases.take σ.active) ++
      channels (s.sendCases.drop σ.active)).Nodup := by
    rw [← channels_append, take_append_drop]
    exact hl.nodup.of_append_right
  have hfirst : c ∈ channels (s.sendCases.take σ.active) := htake.mem_iff.mp mem_cons_self
  refine ⟨?_, ?_, fun x hx => ?_, fun x hx => ?_, h.later, fun x y hy => ?_, htrying,
    fun hq => absurd hq hfinish⟩
  · dsimp only [Sending.sent]
    omega
  · dsimp only [Sending.sent]
    rw [deactivate_length]
    omega
  · have hne : c ≠ x := by
      have hcons := htake.nodup_iff.mpr hnodup.of_append_left
      intro heq
      subst heq
      exact (nodup_cons.mp hcons).1 hx
    dsimp only [Sending.sent]
    rw [deliveries_add, if_neg (fun heq => hne heq.2)]
    exact h.pending x (htake.mem_iff.mp (mem_cons_of_mem c hx))
  · dsimp only [Sending.sent] at hx ⊢
    rw [hdrop, mem_cons] at hx
    rw [deliveries_add]
    rcases hx with hx | hx
    · rw [hx, h.pending c hfirst, if_pos ⟨rfl, rfl⟩]
    · have hne : c ≠ x := fun heq => disjoint_of_nodup_append hnodup hfirst (heq ▸ hx)
      rw [if_neg (fun heq => hne heq.2)]
      exact h.done x hx
  · exact h.values x y ((deactivate_perm _ _ _).mem_iff.mp hy)

theorem Merged.remove (h : Merged s σ) (hl : ListInv s) (hc : s.sendCases[i]? = some (.send c w)) :
    Merged { s with sendCases := s.sendCases.eraseIdx i, holder := holder }
      { σ with pc := .trying 1, active := if i < σ.active then σ.active - 1 else σ.active } := by
  have hpos := hl.index_pos hc
  have hle := h.active_le
  obtain ⟨hlen, -⟩ := List.getElem?_eq_some_iff.mp hc
  have hshort : (s.sendCases.eraseIdx i).length = s.sendCases.length - 1 :=
    List.length_eraseIdx_of_lt hlen
  have hsub : ∀ {l : List (Case V)} {j x : ℕ}, x ∈ channels (l.eraseIdx j) → x ∈ channels l :=
    fun hx => ((List.eraseIdx_sublist _ _).filterMap _).subset hx
  have hvalues : ∀ x y, Case.send x y ∈ s.sendCases.eraseIdx i → y = some σ.value := fun x y hy =>
    h.values x y ((List.eraseIdx_sublist _ _).subset hy)
  have htrying : ∀ j, SendPc.trying 1 = .trying j → 1 ≤ j := by
    intro j hj
    cases hj
    exact Nat.le_refl 1
  split_ifs with hi
  · obtain ⟨htake, hdrop⟩ := erase_active hi hle
    refine ⟨by dsimp only; omega, by dsimp only; omega, fun x hx => ?_, fun x hx => ?_, h.later,
      hvalues, htrying, fun hq => by cases hq⟩
    · dsimp only at hx
      rw [htake] at hx
      exact h.pending x (hsub hx)
    · dsimp only at hx
      rw [hdrop] at hx
      exact h.done x hx
  · obtain ⟨htake, hdrop⟩ := erase_inactive (Nat.le_of_not_lt hi) hle
    refine ⟨h.active_pos, by dsimp only; omega, fun x hx => ?_, fun x hx => ?_, h.later,
      hvalues, htrying, fun hq => by cases hq⟩
    · dsimp only at hx
      rw [htake] at hx
      exact h.pending x hx
    · dsimp only at hx
      rw [hdrop] at hx
      exact h.done x (hsub hx)

end Deliver

structure FeedInv (s : Feed V) : Prop where
  lists : ListInv s
  log : LogInv s
  send : ∀ σ, s.holder = .send σ → SendInv s σ
  safe : s.crashed = false

theorem FeedInv.init : FeedInv (Feed.init : Feed V) where
  lists := .init
  log := .init
  send σ h := by simp [Feed.init] at h
  safe := rfl

theorem ListInv.find_locked (h : ListInv s) (hc : s.sub c = .locked) :
    CaseList.find s.sendCases c ≠ none := by
  rw [Ne, find_eq_none, not_not]
  have hmem : c ∈ channels s.inbox ++ channels s.sendCases := (h.mem c).mpr (.inl (by rw [hc]; rfl))
  rcases mem_append.mp hmem with hin | hin
  · exact absurd hin (h.not_inbox (by simp [hc]))
  · exact hin

theorem ListInv.find_removing (h : ListInv s) (hc : s.holder.removing = some c) :
    CaseList.find s.sendCases c ≠ none := by
  rw [Ne, find_eq_none, not_not]
  rcases mem_append.mp ((h.mem c).mpr (.inr hc)) with hin | hin
  · exact absurd hin (h.removing_not_inbox hc)
  · exact hin

theorem delete_ne_none (h : CaseList.find cs c ≠ none) :
    CaseList.delete cs (CaseList.find cs c) ≠ none := by
  cases hf : CaseList.find cs c with
  | none => exact absurd hf h
  | some index => simp [CaseList.delete]

theorem FeedInv.other (h : FeedInv s) (hl : ListInv s') (hlog : s'.log = s.log)
    (hsends : s'.sends = s.sends) (hvalues : s'.values = s.values) (hresult : s'.result = s.result)
    (hsafe : s'.crashed = s.crashed)
    (hholder : ∀ σ, s'.holder = .send σ → s.holder = .send σ ∧ s'.sendCases = s.sendCases)
    (hsub : ∀ c, s'.sub c = .fresh → s.sub c = .fresh)
    (hinbox : ∀ c ∈ channels s'.inbox, c ∈ channels s.inbox ∨ s.sub c = .fresh) : FeedInv s' where
  lists := hl
  log := h.log.frame hlog hsends hvalues hresult fun σ hσ =>
    ⟨σ, (hholder σ hσ).1, rfl, rfl, rfl, rfl⟩
  send σ hσ := by
    obtain ⟨hh, hcs⟩ := hholder σ hσ
    exact (h.send σ hh).frame hlog hcs hsub hinbox
  safe := hsafe.trans h.safe

theorem fresh_of_update {sub : ℕ → SubPc} {p : SubPc} (hp : p ≠ .fresh) (x : ℕ)
    (h : update sub c p x = .fresh) : sub x = .fresh := by
  rw [update_apply] at h
  split_ifs at h with hx
  · exact absurd h hp
  · exact h

theorem FeedInv.ofSend (h : FeedInv s) (hl : ListInv s') (hh : s.holder = .send σ)
    (hh' : s'.holder = .send σ') (hlog : s'.log = s.log) (hsends : s'.sends = s.sends)
    (hvalues : s'.values = s.values) (hresult : s'.result = s.result)
    (hsafe : s'.crashed = s.crashed) (hsame : SameSend σ σ') (hinv : SendInv s' σ') :
    FeedInv s' where
  lists := hl
  log := by
    refine h.log.frame hlog hsends hvalues hresult fun τ hτ => ⟨σ, hh, ?_⟩
    rw [hh'] at hτ
    cases hτ
    exact hsame
  send τ hτ := by
    rw [hh'] at hτ
    cases hτ
    exact hinv
  safe := hsafe.trans h.safe

theorem FeedInv.deliver (h : FeedInv s) (hh : s.holder = .send σ) {i : ℕ} {w : Option V}
    (hm : Merged s σ) (hrem : s.holder.removing = none) (hi : i < σ.active)
    (hc : s.sendCases[i]? = some (.send c w)) {j : ℕ} (hj : 1 ≤ j) :
    FeedInv { s with
      sendCases := deactivate s.sendCases σ.active i
      holder := .send (σ.sent (.trying j))
      log := s.log ++ [⟨σ.id, c, σ.value⟩] } where
  lists := h.lists.moveDeactivate hh hrem hi hc rfl
  log := h.log.deliver hh (hm.pending_at hi hc)
  send τ hτ := by
    cases hτ
    refine ⟨(h.send σ hh).known, (fun hq => by cases hq), fun _ => ?_⟩
    refine hm.deliver h.lists hi hc (fun k hk => ?_) (by simp)
    cases hk
    exact hj
  safe := h.safe

theorem FeedInv.step (h : FeedInv s) (hs : FeedStep s a s') : FeedInv s' := by
  have hl := h.lists.step hs
  cases hs with
  | subscribe hc =>
    refine h.other hl rfl rfl rfl rfl rfl (fun σ hσ => ⟨hσ, rfl⟩) (fresh_of_update (by simp)) ?_
    intro x hx
    rw [channels_append, mem_append] at hx
    rcases hx with hx | hx
    · exact .inl hx
    · cases mem_singleton.mp hx
      exact .inr hc
  | unsubscribe hc | notInInbox hc _ | leave hc =>
    exact h.other hl rfl rfl rfl rfl rfl (fun σ hσ => ⟨hσ, rfl⟩) (fresh_of_update (by simp))
      (fun x hx => .inl hx)
  | inInbox hc hf =>
    refine h.other hl rfl rfl rfl rfl rfl (fun σ hσ => ⟨hσ, rfl⟩) (fresh_of_update (by simp)) ?_
    intro x hx
    exact .inl (((eraseIdx_sublist _ _).filterMap _).subset hx)
  | takeLock hc hh | unlock hc =>
    exact h.other hl rfl rfl rfl rfl rfl (fun σ hσ => by cases hσ) (fresh_of_update (by simp))
      (fun x hx => .inl hx)
  | @deleteCase c cs hc hd =>
    have hh : s.holder = .unsub c := h.lists.locked c (by rw [hc]; rfl)
    refine h.other hl rfl rfl rfl rfl rfl (fun σ hσ => ?_) (fresh_of_update (by simp))
      (fun x hx => .inl hx)
    dsimp only at hσ
    rw [hh] at hσ
    cases hσ
  | deleteCrash hc hd => exact absurd hd (delete_ne_none (h.lists.find_locked hc))
  | lock v hh =>
    refine ⟨hl, h.log.lock v, fun σ hσ => ?_, h.safe⟩
    cases hσ
    exact .lock h.log v
  | @merge σ hh hp =>
    have hne : s.sendCases ≠ [] := by
      intro hnil
      have hhead := h.lists.head
      simp [hnil] at hhead
    exact h.ofSend hl hh rfl rfl rfl rfl rfl rfl ⟨rfl, rfl, rfl, rfl⟩ ((h.send σ hh).merge hp hne)
  | mistyped hh hp =>
    exact h.other hl rfl rfl rfl rfl rfl (fun σ hσ => by cases hσ) (fun x hx => hx) (by simp)
  | @trySend σ i c w hh hp hi hc =>
    have hm := (h.send σ hh).merged (by simp [hp])
    exact h.deliver hh hm (by simp [hh, Holder.removing, hp]) hi hc (hm.trying i hp)
  | @tryFail σ i hh hp hi =>
    have hsend := h.send σ hh
    refine h.ofSend hl hh rfl rfl rfl rfl rfl rfl ⟨rfl, rfl, rfl, rfl⟩
      (hsend.movePc (by simp [hp]) (by simp) (fun j hj => ?_) (by simp) (fun x hx => hx))
    cases hj
    exact Nat.le_add_left 1 i
  | @endTry σ i hh hp hi =>
    refine h.ofSend hl hh rfl rfl rfl rfl rfl rfl ⟨rfl, rfl, rfl, rfl⟩
      ((h.send σ hh).movePc (by simp [hp]) ?_ (fun j hj => ?_) (fun hq => ?_) (fun x hx => hx))
    · split_ifs <;> simp
    · split_ifs at hj
    · split_ifs at hq with hone
      exact hone
  | @choose σ i c v hh hp hi hc =>
    have hm := (h.send σ hh).merged (by simp [hp])
    have hv : v = σ.value := by
      have hmem := mem_iff_getElem?.mpr ⟨i, hc⟩
      exact Option.some.inj (hm.values c (some v) hmem)
    rw [hv]
    exact h.deliver hh hm (by simp [hh, Holder.removing, hp]) hi hc (Nat.le_refl 1)
  | @receiveRemove σ c hh hp hc =>
    exact h.ofSend hl hh rfl rfl rfl rfl rfl rfl ⟨rfl, rfl, rfl, rfl⟩
      ((h.send σ hh).movePc (by simp [hp]) (by simp) (by simp) (by simp) (fresh_of_update (by simp)))
  | @remove σ c index hh hp hf =>
    obtain ⟨v, hv⟩ := find_eq_some hf
    have hsend := h.send σ hh
    have hm := hsend.merged (by simp [hp])
    exact h.ofSend hl hh rfl rfl rfl rfl rfl rfl ⟨rfl, rfl, rfl, rfl⟩
      ⟨hsend.known, by simp, fun _ => hm.remove h.lists hv⟩
  | removeCrash hh hp hf =>
    exact absurd hf (h.lists.find_removing (by simp [hh, Holder.removing, hp]))
  | finish hh hp =>
    refine ⟨hl, h.log.finish hh, fun σ hσ => ?_, h.safe⟩
    cases hσ

theorem FeedInv.of_reach (h : Reach FeedStep (fun _ _ => True) Feed.init s) : FeedInv s :=
  h.invariant .init fun _ _ _ hinv _ hs => hinv.step hs

theorem ListInv.mem_sendCases (h : ListInv s) (hc : (s.sub c).subscribed = true)
    (hin : c ∉ channels s.inbox) : c ∈ channels s.sendCases :=
  (mem_append.mp ((h.mem c).mpr (.inl hc))).resolve_left hin

theorem FeedInv.delivered (h : FeedInv s) (hh : s.holder = .send σ) (hp : σ.pc = .finishing)
    (hbefore : σ.before c = true) (hc : s.sub c = .live) : deliveries s.log σ.id c = 1 := by
  have hm := (h.send σ hh).merged (by simp [hp])
  have hin : c ∉ channels s.inbox := fun hin => by simp [hm.later c hin] at hbefore
  have hmem := h.lists.mem_sendCases (by rw [hc]; rfl) hin
  refine hm.done c ?_
  rw [hm.finishing hp]
  have hhead := h.lists.head
  cases hcs : s.sendCases with
  | nil => simp [hcs] at hhead
  | cons cas cs =>
    rw [hcs] at hhead hmem
    cases hhead
    exact hmem

theorem FeedInv.deliveries_step (h : FeedInv s) (hs : FeedStep s a s')
    (hc : (s.sub c).subscribed = false) (k : ℕ) : deliveries s'.log k c = deliveries s.log k c := by
  have hne : ∀ {i x : ℕ} {w : Option V}, s.holder.removing = none →
      s.sendCases[i]? = some (.send x w) → x ≠ c := by
    intro i x w hrem hx hxc
    subst hxc
    have hmem : x ∈ channels s.sendCases := mem_channels.mpr ⟨w, mem_iff_getElem?.mpr ⟨i, hx⟩⟩
    rcases (h.lists.mem x).mp (mem_append_right _ hmem) with hsub | hsub
    · simp [hc] at hsub
    · simp [hrem] at hsub
  cases hs with
  | trySend hh hp hi hx | choose hh hp hi hx =>
    have hxc := hne (by simp [hh, Holder.removing, hp]) hx
    dsimp only
    rw [deliveries_add, if_neg (fun heq => hxc heq.2)]
    rfl
  | _ => rfl

theorem ListInv.listed (h : ListInv s) (hrem : s.holder.removing = none) :
    ∃ cs : List ℕ, (s.inbox ++ s.sendCases.tail).map Case.channel? = cs.map some ∧ cs.Nodup ∧
      ∀ c, c ∈ cs ↔ (s.sub c).subscribed = true := by
  have hhead := h.head
  have hsends := h.sends
  have htail : channels s.sendCases = channels s.sendCases.tail := by
    cases hcs : s.sendCases with
    | nil => rfl
    | cons cas cs =>
      rw [hcs] at hhead
      cases hhead
      rfl
  refine ⟨channels (s.inbox ++ s.sendCases.tail), ?_, ?_, fun c => ?_⟩
  · generalize s.inbox ++ s.sendCases.tail = l at hsends ⊢
    induction l with
    | nil => rfl
    | cons cas l ih =>
      cases cas with
      | removeSub => exact absurd rfl (hsends _ mem_cons_self)
      | send c w =>
        rw [map_cons, channels_send, map_cons,
          ih fun cas hcas => hsends cas (mem_cons_of_mem _ hcas)]
        rfl
  · rw [channels_append, ← htail]
    exact h.nodup
  · rw [channels_append, ← htail, h.mem c, hrem]
    simp

theorem feed_delivers_once (h : Reach FeedStep (fun _ _ => True) Feed.init s) :
    (∀ σ s', s.holder = .send σ → FeedStep s .finish s' →
      s'.result σ.id = some (total s'.log σ.id) ∧
      ∀ c, σ.before c = true → s.sub c = .live → deliveries s'.log σ.id c = 1) ∧
    (∀ k n, s.result k = some n → n = total s.log k) ∧ (∀ k c, deliveries s.log k c ≤ 1) ∧
    (∀ d ∈ s.log, s.values d.send = some d.value) ∧
    (∀ a s' c, FeedStep s a s' → s.sub c = .leaving ∨ s.sub c = .returned →
      ∀ k, deliveries s'.log k c = deliveries s.log k c) ∧
    (∀ c, s.sub c = .locked → CaseList.find s.sendCases c ≠ none) ∧
    (∀ c, s.holder.removing = some c → CaseList.find s.sendCases c ≠ none) ∧ s.crashed = false ∧
    ((∀ σ, s.holder ≠ .send σ) → s.sendCases.head? = some .removeSub ∧
      ∃ cs : List ℕ, (s.inbox ++ s.sendCases.tail).map Case.channel? = cs.map some ∧ cs.Nodup ∧
        ∀ c, c ∈ cs ↔ (s.sub c).subscribed = true) := by
  have hinv := FeedInv.of_reach h
  refine ⟨fun σ s' hh hs => ?_, fun k n hk => (hinv.log.result k n hk).2.1, hinv.log.once,
    hinv.log.value, fun a s' c hs hc => ?_, fun c hc => hinv.lists.find_locked hc,
    fun c hc => hinv.lists.find_removing hc, hinv.safe, fun hno => ⟨hinv.lists.head, ?_⟩⟩
  · cases hs with
    | @finish σ' hh' hp =>
      rw [hh] at hh'
      cases hh'
      refine ⟨?_, fun c hbefore hc => hinv.delivered hh hp hbefore hc⟩
      dsimp only
      rw [update_self, (hinv.log.current σ hh).2.2]
  · refine hinv.deliveries_step hs ?_
    rcases hc with hc | hc <;> rw [hc] <;> rfl
  · refine hinv.lists.listed ?_
    cases hh : s.holder with
    | send σ => exact absurd hh (hno σ)
    | free | unsub c => rfl

/-- Of three subscribers one is ready at once, one leaves during the `Send`, and one is served in
the end. -/
theorem feed_delivers_once_run : ∃ (s : Feed ℕ) (σ : Sending ℕ),
    Reach FeedStep (fun _ _ => True) Feed.init s ∧ s.holder = .send σ ∧
    ∃ s', FeedStep s .finish s' ∧ s'.result σ.id = some 2 ∧ deliveries s'.log σ.id 0 = 1 ∧
      deliveries s'.log σ.id 1 = 1 ∧ s'.sub 2 = .leaving := by
  have h0 : Reach FeedStep (fun _ _ => True) (Feed.init : Feed ℕ) Feed.init := .refl _
  have h1 := h0.tail (.subscribe (c := 0) rfl) trivial
  have h2 := h1.tail (.subscribe (c := 1) rfl) trivial
  have h3 := h2.tail (.subscribe (c := 2) rfl) trivial
  have h4 := h3.tail (.lock 7 rfl) trivial
  have h5 := h4.tail (.merge rfl rfl) trivial
  have h6 := h5.tail (.trySend rfl rfl (by decide) rfl) trivial
  have h7 := h6.tail (.tryFail rfl rfl (by decide)) trivial
  have h8 := h7.tail (.tryFail rfl rfl (by decide)) trivial
  have h9 := h8.tail (.endTry rfl rfl (by decide)) trivial
  have h10 := h9.tail (.unsubscribe (c := 2) rfl) trivial
  have h11 := h10.tail (.notInInbox (c := 2) rfl rfl) trivial
  have h12 := h11.tail (.receiveRemove (c := 2) rfl rfl rfl) trivial
  have h13 := h12.tail (.remove rfl rfl rfl) trivial
  have h14 := h13.tail (.tryFail rfl rfl (by decide)) trivial
  have h15 := h14.tail (.endTry rfl rfl (by decide)) trivial
  have h16 := h15.tail (.choose (i := 1) rfl rfl (by decide) rfl) trivial
  have h17 := h16.tail (.endTry rfl rfl (by decide)) trivial
  obtain ⟨hfinish, -⟩ := feed_delivers_once h17
  obtain ⟨hresult, honce⟩ := hfinish _ _ rfl (.finish rfl rfl)
  exact ⟨_, _, h17, rfl, _, .finish rfl rfl, hresult, honce 0 rfl rfl, honce 1 rfl rfl, rfl⟩

end Fiscobcos.Event
