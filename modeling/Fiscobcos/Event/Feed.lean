import Fiscobcos.Lib.ActivePrefix
import Fiscobcos.Lib.Steps

/-! # Feed (event/feed.go)

`Send` works on a prefix of `sendCases`, the active cases. A case that was sent to changes places
with the last active one, a removed case is deleted, and new subscriptions wait in the inbox.

Sections under `mu` are single steps, and no channel is subscribed twice. Whether a receiver is
ready, and whether a value has the element type of the feed, is left open. -/

namespace Fiscobcos.Event
open Steps ActivePrefix Function List

variable {V : Type}

inductive Case (V : Type) where
  | removeSub
  | send (channel : ℕ) (value : Option V)

def Case.channel? : Case V → Option ℕ
  | .removeSub => none
  | .send channel _ => some channel

def Case.setSend (value : Option V) : Case V → Case V
  | .removeSub => .removeSub
  | .send channel _ => .send channel value

namespace CaseList

/-- `none` for -1. -/
def find (cs : List (Case V)) (channel : ℕ) : Option ℕ :=
  cs.findIdx? fun cas => cas.channel? == some channel

/-- `append(cs[:index], cs[index+1:]...)`, which panics for -1. -/
def delete (cs : List (Case V)) : Option ℕ → Option (List (Case V))
  | none => none
  | some index => some (cs.eraseIdx index)

end CaseList

inductive SubPc where
  | fresh
  | live
  | begun
  | waiting
  | locked
  | unlocking
  | leaving
  | returned
deriving DecidableEq

inductive SendPc where
  | merging
  | trying (i : ℕ)
  | selecting
  | removing (channel : ℕ)
  | finishing
deriving DecidableEq

/-- A `Send` that has taken the lock: `active` is the length of `cases`, and `before`
tells which subscriptions were complete at that moment. -/
structure Sending (V : Type) where
  id : ℕ
  value : V
  pc : SendPc
  active : ℕ
  nsent : ℕ
  before : ℕ → Bool

inductive Holder (V : Type) where
  | free
  | send (σ : Sending V)
  | unsub (channel : ℕ)

structure Delivery (V : Type) where
  send : ℕ
  channel : ℕ
  value : V

structure Feed (V : Type) where
  sendCases : List (Case V)
  inbox : List (Case V)
  holder : Holder V
  sub : ℕ → SubPc
  sends : ℕ
  values : ℕ → Option V
  log : List (Delivery V)
  result : ℕ → Option ℕ
  crashed : Bool

def Feed.init : Feed V where
  sendCases := [.removeSub]
  inbox := []
  holder := .free
  sub := fun _ => .fresh
  sends := 0
  values := fun _ => none
  log := []
  result := fun _ => none
  crashed := false

inductive FeedAct where
  | subscribe (channel : ℕ)
  | unsubscribe (channel : ℕ)
  | checkInbox (channel : ℕ)
  | takeLock (channel : ℕ)
  | deleteCase (channel : ℕ)
  | unlock (channel : ℕ)
  | leave (channel : ℕ)
  | lock
  | merge
  | trySend (ok : Bool)
  | endTry
  | choose (index : ℕ)
  | receiveRemove (channel : ℕ)
  | remove
  | finish

def Sending.sent (σ : Sending V) (pc : SendPc) : Sending V :=
  { σ with pc := pc, active := σ.active - 1, nsent := σ.nsent + 1 }

inductive FeedStep : Feed V → FeedAct → Feed V → Prop
  | subscribe {s : Feed V} {c : ℕ} (hc : s.sub c = .fresh) :
    FeedStep s (.subscribe c)
      { s with inbox := s.inbox ++ [.send c none], sub := Function.update s.sub c .live }
  -- later calls wait for the first one
  | unsubscribe {s : Feed V} {c : ℕ} (hc : s.sub c = .live) :
    FeedStep s (.unsubscribe c) { s with sub := Function.update s.sub c .begun }
  | inInbox {s : Feed V} {c : ℕ} {index : ℕ} (hc : s.sub c = .begun)
      (hf : CaseList.find s.inbox c = some index) :
    FeedStep s (.checkInbox c)
      { s with inbox := s.inbox.eraseIdx index, sub := Function.update s.sub c .leaving }
  | notInInbox {s : Feed V} {c : ℕ} (hc : s.sub c = .begun)
      (hf : CaseList.find s.inbox c = none) :
    FeedStep s (.checkInbox c) { s with sub := Function.update s.sub c .waiting }
  | takeLock {s : Feed V} {c : ℕ} (hc : s.sub c = .waiting) (hh : s.holder = .free) :
    FeedStep s (.takeLock c)
      { s with holder := .unsub c, sub := Function.update s.sub c .locked }
  | deleteCase {s : Feed V} {c : ℕ} {cs : List (Case V)} (hc : s.sub c = .locked)
      (hd : CaseList.delete s.sendCases (CaseList.find s.sendCases c) = some cs) :
    FeedStep s (.deleteCase c)
      { s with sendCases := cs, sub := Function.update s.sub c .unlocking }
  | deleteCrash {s : Feed V} {c : ℕ} (hc : s.sub c = .locked)
      (hd : CaseList.delete s.sendCases (CaseList.find s.sendCases c) = none) :
    FeedStep s (.deleteCase c) { s with crashed := true }
  | unlock {s : Feed V} {c : ℕ} (hc : s.sub c = .unlocking) :
    FeedStep s (.unlock c) { s with holder := .free, sub := Function.update s.sub c .leaving }
  | leave {s : Feed V} {c : ℕ} (hc : s.sub c = .leaving) :
    FeedStep s (.leave c) { s with sub := Function.update s.sub c .returned }
  | lock {s : Feed V} (v : V) (hh : s.holder = .free) :
    FeedStep s .lock
      { s with
        holder := .send
          { id := s.sends, value := v, pc := .merging, active := 0, nsent := 0,
            before := fun c => s.sub c ≠ .fresh }
        sends := s.sends + 1
        values := Function.update s.values s.sends (some v) }
  | merge {s : Feed V} {σ : Sending V} (hh : s.holder = .send σ) (hp : σ.pc = .merging) :
    FeedStep s .merge
      { s with
        sendCases := (s.sendCases ++ s.inbox).map (Case.setSend (some σ.value))
        inbox := []
        holder := .send
          { σ with pc := .trying 1, active := (s.sendCases ++ s.inbox).length } }
  -- `typecheck` fails, and the call panics with the lock given back
  | mistyped {s : Feed V} {σ : Sending V} (hh : s.holder = .send σ) (hp : σ.pc = .merging) :
    FeedStep s .merge
      { s with sendCases := s.sendCases ++ s.inbox, inbox := [], holder := .free }
  | trySend {s : Feed V} {σ : Sending V} {i c : ℕ} {w : Option V} (hh : s.holder = .send σ)
      (hp : σ.pc = .trying i) (hi : i < σ.active) (hc : s.sendCases[i]? = some (.send c w)) :
    FeedStep s (.trySend true)
      { s with
        sendCases := deactivate s.sendCases σ.active i
        holder := .send (σ.sent (.trying i))
        log := s.log ++ [⟨σ.id, c, σ.value⟩] }
  | tryFail {s : Feed V} {σ : Sending V} {i : ℕ} (hh : s.holder = .send σ)
      (hp : σ.pc = .trying i) (hi : i < σ.active) :
    FeedStep s (.trySend false) { s with holder := .send { σ with pc := .trying (i + 1) } }
  | endTry {s : Feed V} {σ : Sending V} {i : ℕ} (hh : s.holder = .send σ)
      (hp : σ.pc = .trying i) (hi : σ.active ≤ i) :
    FeedStep s .endTry
      { s with
        holder := .send { σ with pc := if σ.active = 1 then .finishing else .selecting } }
  | choose {s : Feed V} {σ : Sending V} {i c : ℕ} {v : V} (hh : s.holder = .send σ)
      (hp : σ.pc = .selecting) (hi : i < σ.active) (hc : s.sendCases[i]? = some (.send c (some v))) :
    FeedStep s (.choose i)
      { s with
        sendCases := deactivate s.sendCases σ.active i
        holder := .send (σ.sent (.trying 1))
        log := s.log ++ [⟨σ.id, c, v⟩] }
  | receiveRemove {s : Feed V} {σ : Sending V} {c : ℕ} (hh : s.holder = .send σ)
      (hp : σ.pc = .selecting) (hc : s.sub c = .waiting) :
    FeedStep s (.receiveRemove c)
      { s with
        holder := .send { σ with pc := .removing c }
        sub := Function.update s.sub c .leaving }
  | remove {s : Feed V} {σ : Sending V} {c index : ℕ} (hh : s.holder = .send σ)
      (hp : σ.pc = .removing c) (hf : CaseList.find s.sendCases c = some index) :
    FeedStep s .remove
      { s with
        sendCases := s.sendCases.eraseIdx index
        holder := .send
          { σ with
            pc := .trying 1
            active := if index < σ.active then σ.active - 1 else σ.active } }
  | removeCrash {s : Feed V} {σ : Sending V} {c : ℕ} (hh : s.holder = .send σ)
      (hp : σ.pc = .removing c) (hf : CaseList.find s.sendCases c = none) :
    FeedStep s .remove { s with crashed := true }
  | finish {s : Feed V} {σ : Sending V} (hh : s.holder = .send σ) (hp : σ.pc = .finishing) :
    FeedStep s .finish
      { s with
        sendCases := s.sendCases.map (Case.setSend none)
        holder := .free
        result := Function.update s.result σ.id (some σ.nsent) }

def channels (cs : List (Case V)) : List ℕ := cs.filterMap Case.channel?

@[simp] theorem channels_nil : channels ([] : List (Case V)) = [] := rfl

@[simp] theorem channels_append (cs cs' : List (Case V)) :
    channels (cs ++ cs') = channels cs ++ channels cs' := filterMap_append

@[simp] theorem channels_send (c : ℕ) (v : Option V) (cs : List (Case V)) :
    channels (.send c v :: cs) = c :: channels cs := rfl

@[simp] theorem channels_setSend (v : Option V) (cs : List (Case V)) :
    channels (cs.map (Case.setSend v)) = channels cs := by
  have hchannel : Case.channel? ∘ Case.setSend v = Case.channel? := by
    funext cas
    cases cas <;> rfl
  rw [channels, filterMap_map, hchannel, channels]

variable {cs : List (Case V)}

theorem mem_channels {c : ℕ} : c ∈ channels cs ↔ ∃ v, Case.send c v ∈ cs := by
  rw [channels, mem_filterMap]
  constructor
  · intro h
    obtain ⟨cas, hmem, hcas⟩ := h
    cases cas with
    | removeSub => simp [Case.channel?] at hcas
    | send c' v =>
      cases hcas
      exact ⟨v, hmem⟩
  · intro h
    obtain ⟨v, hmem⟩ := h
    exact ⟨_, hmem, rfl⟩

theorem channels_perm {cs cs' : List (Case V)} (h : cs.Perm cs') :
    (channels cs).Perm (channels cs') := h.filterMap _

theorem find_eq_some {c index : ℕ} (h : CaseList.find cs c = some index) :
    ∃ v, cs[index]? = some (.send c v) := by
  obtain ⟨hlt, hp, -⟩ := findIdx?_eq_some_iff_getElem.mp h
  have hget := getElem?_eq_getElem hlt
  cases hcas : cs[index] with
  | removeSub => simp [hcas, Case.channel?] at hp
  | send c' v =>
    simp only [hcas, Case.channel?, beq_iff_eq, Option.some.injEq] at hp
    subst hp
    exact ⟨v, by rw [hget, hcas]⟩

theorem find_eq_none {c : ℕ} : CaseList.find cs c = none ↔ c ∉ channels cs := by
  rw [CaseList.find, findIdx?_eq_none_iff, mem_channels]
  constructor
  · intro h hmem
    obtain ⟨v, hv⟩ := hmem
    simpa [Case.channel?] using h _ hv
  · intro h cas hcas
    cases cas with
    | removeSub => rfl
    | send c' v =>
      simp only [Case.channel?, beq_eq_false_iff_ne, ne_eq, Option.some.injEq]
      intro heq
      subst heq
      exact h ⟨v, hcas⟩

theorem channels_erase {c index : ℕ} {v : Option V}
    (h : cs[index]? = some (.send c v)) : (c :: channels (cs.eraseIdx index)).Perm (channels cs) :=
  channels_perm (erase_perm h)

theorem delete_eq_some {cs cs' : List (Case V)} {c : ℕ}
    (h : CaseList.delete cs (CaseList.find cs c) = some cs') :
    ∃ index v, cs[index]? = some (.send c v) ∧ cs' = cs.eraseIdx index := by
  cases hf : CaseList.find cs c with
  | none => simp [hf, CaseList.delete] at h
  | some index =>
    rw [hf] at h
    cases h
    obtain ⟨v, hv⟩ := find_eq_some hf
    exact ⟨index, v, hv, rfl⟩

def SubPc.subscribed : SubPc → Bool
  | .live | .begun | .waiting | .locked => true
  | _ => false

def SubPc.hasLock : SubPc → Bool
  | .locked | .unlocking => true
  | _ => false

def Holder.removing : Holder V → Option ℕ
  | .send σ =>
    match σ.pc with
    | .removing c => some c
    | _ => none
  | _ => none

structure ListInv (s : Feed V) : Prop where
  nodup : (channels s.inbox ++ channels s.sendCases).Nodup
  mem : ∀ c, c ∈ channels s.inbox ++ channels s.sendCases ↔
    (s.sub c).subscribed = true ∨ s.holder.removing = some c
  inbox : ∀ c ∈ channels s.inbox, s.sub c = .live ∨ s.sub c = .begun
  head : s.sendCases.head? = some .removeSub
  sends : ∀ cas ∈ s.inbox ++ s.sendCases.tail, cas ≠ .removeSub
  locked : ∀ c, (s.sub c).hasLock = true → s.holder = .unsub c
  removing : ∀ c, s.holder.removing = some c → s.sub c = .leaving ∨ s.sub c = .returned

theorem ListInv.init : ListInv (Feed.init : Feed V) where
  nodup := nodup_nil
  mem c := by simp [Feed.init, channels, Case.channel?, SubPc.subscribed, Holder.removing]
  inbox c h := by simp [Feed.init, channels] at h
  head := rfl
  sends cas h := by simp [Feed.init] at h
  locked c h := by simp [Feed.init, SubPc.hasLock] at h
  removing c h := by simp [Feed.init, Holder.removing] at h

section Lists
variable {s s' : Feed V} {a : FeedAct} {c : ℕ}

theorem ListInv.moveSub (h : ListInv s) {q : SubPc} (hq : q.subscribed = (s.sub c).subscribed)
    (hin : c ∈ channels s.inbox → q = .live ∨ q = .begun) (hlock : q.hasLock = false)
    (hrem : s.holder.removing = some c → q = .leaving ∨ q = .returned) :
    ListInv { s with sub := update s.sub c q } where
  nodup := h.nodup
  mem x := by
    dsimp only
    rw [h.mem x, update_apply]
    split_ifs with hx
    · rw [hq, hx]
    · rfl
  inbox x hx := by
    dsimp only
    rw [update_apply]
    split_ifs with hxc
    · exact hin (hxc ▸ hx)
    · exact h.inbox x hx
  head := h.head
  sends := h.sends
  locked x hx := by
    dsimp only at hx
    rw [update_apply] at hx
    split_ifs at hx with hxc
    · simp [hlock] at hx
    · exact h.locked x hx
  removing x hx := by
    dsimp only
    rw [update_apply]
    split_ifs with hxc
    · exact hrem (hxc ▸ hx)
    · exact h.removing x hx

theorem ListInv.not_inbox (h : ListInv s) (hc : s.sub c ≠ .live ∧ s.sub c ≠ .begun) :
    c ∉ channels s.inbox := by
  intro hin
  rcases h.inbox c hin with hp | hp
  · exact hc.1 hp
  · exact hc.2 hp

theorem ListInv.inbox_update (h : ListInv s) (hc : s.sub c ≠ .live ∧ s.sub c ≠ .begun) (pc : SubPc)
    (x : ℕ) (hx : x ∈ channels s.inbox) :
    update s.sub c pc x = .live ∨ update s.sub c pc x = .begun := by
  have hxc : x ≠ c := fun hxc => h.not_inbox hc (hxc ▸ hx)
  rw [update_of_ne hxc]
  exact h.inbox x hx

variable {holder : Holder V} {log : List (Delivery V)} {index : ℕ} {v : Option V} {σ : Sending V}

theorem ListInv.mem_update (h : ListInv s) {pc : SubPc}
    (hc : pc.subscribed = (s.sub c).subscribed) (hrem : holder.removing = s.holder.removing)
    (x : ℕ) : x ∈ channels s.inbox ++ channels s.sendCases ↔
      (update s.sub c pc x).subscribed = true ∨ holder.removing = some x := by
  rw [h.mem x, hrem, update_apply]
  split_ifs with hxc
  · rw [hxc, hc]
  · rfl

theorem ListInv.not_removing (h : ListInv s) (hc : s.sub c ≠ .leaving ∧ s.sub c ≠ .returned) :
    s.holder.removing ≠ some c := by
  intro hrem
  rcases h.removing c hrem with hp | hp
  · exact hc.1 hp
  · exact hc.2 hp

theorem ListInv.removing_not_inbox (h : ListInv s) (hc : s.holder.removing = some c) :
    c ∉ channels s.inbox := by
  apply h.not_inbox
  rcases h.removing c hc with hp | hp <;> simp [hp]

theorem tail_perm {α : Type*} {l l' : List α} {x : α} (h : l.Perm l') (hl : l.head? = some x)
    (hl' : l'.head? = some x) : l.tail.Perm l'.tail := by
  cases l with
  | nil => simp at hl
  | cons y l =>
    cases l' with
    | nil => simp at hl'
    | cons y' l' =>
      cases hl
      cases hl'
      exact h.cons_inv

theorem ListInv.no_lock (h : ListInv s) (hh : ∀ x, s.holder ≠ .unsub x) (x : ℕ) :
    (s.sub x).hasLock = false := by
  cases hx : (s.sub x).hasLock with
  | false => rfl
  | true => exact absurd (h.locked x hx) (hh x)

theorem ListInv.relist (h : ListInv s) (hh : ∀ x, s.holder ≠ .unsub x)
    (hrem : s.holder.removing = none) {cs inbox : List (Case V)} (hrem' : holder.removing = none)
    (hperm : (channels inbox ++ channels cs).Perm (channels s.inbox ++ channels s.sendCases))
    (hinbox : channels inbox ⊆ channels s.inbox) (hhead : cs.head? = some .removeSub)
    (hsends : ∀ cas ∈ inbox ++ cs.tail, cas ≠ .removeSub) {sends : ℕ} {values : ℕ → Option V}
    {result : ℕ → Option ℕ} {crashed : Bool} :
    ListInv ⟨cs, inbox, holder, s.sub, sends, values, log, result, crashed⟩ where
  nodup := hperm.nodup_iff.mpr h.nodup
  mem x := by
    dsimp only
    rw [hperm.mem_iff, h.mem x, hrem, hrem']
  inbox x hx := h.inbox x (hinbox hx)
  head := hhead
  sends := hsends
  locked x hx := by
    dsimp only at hx
    simp [h.no_lock hh x] at hx
  removing x hx := by
    dsimp only at hx
    rw [hrem'] at hx
    cases hx

theorem ListInv.subscribe (h : ListInv s) (hc : s.sub c = .fresh) :
    ListInv { s with inbox := s.inbox ++ [.send c none], sub := update s.sub c .live } := by
  have hnot : c ∉ channels s.inbox ++ channels s.sendCases := by
    rw [h.mem c, hc]
    intro hor
    rcases hor with hsub | hrem
    · cases hsub
    · exact h.not_removing (by simp [hc]) hrem
  have hperm : (channels (s.inbox ++ [.send c none]) ++ channels s.sendCases).Perm
      (c :: (channels s.inbox ++ channels s.sendCases)) := by
    rw [channels_append, append_assoc]
    exact perm_middle
  refine ⟨?_, fun x => ?_, fun x hx => ?_, h.head, fun cas hcas => ?_, fun x hx => ?_, fun x hx => ?_⟩
  · exact hperm.nodup_iff.mpr (nodup_cons.mpr ⟨hnot, h.nodup⟩)
  · dsimp only
    rw [hperm.mem_iff, mem_cons, h.mem x, update_apply]
    split_ifs with hxc
    · simp [hxc, SubPc.subscribed]
    · simp [hxc]
  · dsimp only at hx ⊢
    rw [channels_append, mem_append] at hx
    rw [update_apply]
    split_ifs with hxc
    · exact .inl rfl
    · rcases hx with hx | hx
      · exact h.inbox x hx
      · exact absurd (mem_singleton.mp hx) hxc
  · simp only [mem_append, mem_singleton] at hcas
    rcases hcas with (hcas | rfl) | hcas
    · exact h.sends cas (mem_append_left _ hcas)
    · nofun
    · exact h.sends cas (mem_append_right _ hcas)
  · dsimp only at hx
    rw [update_apply] at hx
    split_ifs at hx with hxc
    · cases hx
    · exact h.locked x hx
  · dsimp only
    rw [update_apply]
    split_ifs with hxc
    · exact absurd hx (h.not_removing (by simp [hxc, hc]))
    · exact h.removing x hx

theorem ListInv.without (h : ListInv s) {cs inbox : List (Case V)}
    (hperm : (c :: (channels inbox ++ channels cs)).Perm (channels s.inbox ++ channels s.sendCases)) :
    (channels inbox ++ channels cs).Nodup ∧ ∀ x, x ∈ channels inbox ++ channels cs ↔
      x ≠ c ∧ ((s.sub x).subscribed = true ∨ s.holder.removing = some x) := by
  obtain ⟨hnot, hnodup⟩ := nodup_cons.mp (hperm.nodup_iff.mpr h.nodup)
  refine ⟨hnodup, fun x => ?_⟩
  rw [← h.mem x, ← hperm.mem_iff, mem_cons]
  constructor
  · intro hx
    exact ⟨fun hxc => hnot (hxc ▸ hx), .inr hx⟩
  · intro hx
    exact hx.2.resolve_left hx.1

theorem ListInv.inInbox (h : ListInv s) (hc : s.sub c = .begun)
    (hi : s.inbox[index]? = some (.send c v)) :
    ListInv { s with
      inbox := s.inbox.eraseIdx index, sub := update s.sub c .leaving } := by
  have hsub : ∀ cas ∈ s.inbox.eraseIdx index, cas ∈ s.inbox := fun cas hcas =>
    (eraseIdx_sublist s.inbox index).subset hcas
  obtain ⟨hnodup, hmem⟩ := h.without ((channels_erase hi).append_right (channels s.sendCases))
  refine ⟨hnodup, fun x => ?_, fun x hx => ?_, h.head, fun cas hcas => ?_, fun x hx => ?_,
    fun x hx => ?_⟩
  · dsimp only
    rw [hmem x, update_apply]
    split_ifs with hxc
    · subst hxc
      refine iff_of_false (fun hx => hx.1 rfl) (fun hor => ?_)
      rcases hor with hp | hp
      · cases hp
      · exact h.not_removing (by simp [hc]) hp
    · simp [hxc]
  · have hxc : x ≠ c := ((hmem x).mp (mem_append_left _ hx)).1
    dsimp only
    rw [update_of_ne hxc]
    obtain ⟨w, hw⟩ := mem_channels.mp hx
    exact h.inbox x (mem_channels.mpr ⟨w, hsub _ hw⟩)
  · rcases mem_append.mp hcas with hcas | hcas
    · exact h.sends cas (mem_append_left _ (hsub cas hcas))
    · exact h.sends cas (mem_append_right _ hcas)
  · dsimp only at hx
    rw [update_apply] at hx
    split_ifs at hx with hxc
    · cases hx
    · exact h.locked x hx
  · dsimp only
    rw [update_apply]
    split_ifs with hxc
    · exact .inl rfl
    · exact h.removing x hx

theorem ListInv.takeLock (h : ListInv s) (hc : s.sub c = .waiting) (hh : s.holder = .free) :
    ListInv { s with holder := .unsub c, sub := update s.sub c .locked } := by
  refine ⟨h.nodup, fun x => ?_, fun x hx => ?_, h.head, h.sends, fun x hx => ?_, fun x hx => ?_⟩
  · exact h.mem_update (by rw [hc]; rfl) (by rw [hh]; rfl) x
  · exact h.inbox_update (by simp [hc]) _ x hx
  · dsimp only at hx ⊢
    rw [update_apply] at hx
    split_ifs at hx with hxc
    · rw [hxc]
    · have := h.locked x hx
      rw [hh] at this
      cases this
  · cases hx

theorem eraseIdx_tail_subset {α : Type*} {l : List α} {i : ℕ} (hi : 0 < i) :
    ∀ x ∈ (l.eraseIdx i).tail, x ∈ l.tail := by
  intro x hx
  cases l with
  | nil => simp at hx
  | cons y l =>
    obtain ⟨j, rfl⟩ := Nat.exists_eq_succ_of_ne_zero (Nat.ne_of_gt hi)
    exact (eraseIdx_sublist l j).subset hx

theorem ListInv.index_pos (h : ListInv s)
    (hi : s.sendCases[index]? = some (.send c v)) : 0 < index := by
  rcases Nat.eq_zero_or_pos index with rfl | hpos
  · rw [← head?_eq_getElem?, h.head] at hi
    cases hi
  · exact hpos

theorem ListInv.deleteCase (h : ListInv s) (p : SubPc)
    (holder : Holder V) (hi : s.sendCases[index]? = some (.send c v)) (hinbox : c ∉ channels s.inbox)
    (hp : p = .unlocking ∨ p = .leaving ∨ p = .returned)
    (hlock : p = .unlocking → holder = .unsub c) (hrem : holder.removing = none)
    (hrem' : ∀ x, s.holder.removing = some x → x = c)
    (hlocked : ∀ x, x ≠ c → (s.sub x).hasLock = false) :
    ListInv { s with
      sendCases := s.sendCases.eraseIdx index, holder := holder
      sub := update s.sub c p } := by
  have hpos := h.index_pos hi
  have hperm : (c :: (channels s.inbox ++ channels (s.sendCases.eraseIdx index))).Perm
      (channels s.inbox ++ channels s.sendCases) :=
    perm_middle.symm.trans ((channels_erase hi).append_left (channels s.inbox))
  obtain ⟨hnodup, hmem⟩ := h.without hperm
  refine ⟨hnodup, fun x => ?_, fun x hx => ?_, ?_, fun cas hcas => ?_, fun x hx => ?_, fun x hx => ?_⟩
  · dsimp only
    rw [hmem x, update_apply, hrem]
    split_ifs with hxc
    · refine iff_of_false (fun hx => hx.1 hxc) (fun hor => ?_)
      rcases hor with hor | hor
      · rcases hp with rfl | rfl | rfl <;> cases hor
      · cases hor
    · have hno : s.holder.removing ≠ some x := fun hr => hxc (hrem' x hr)
      simp [hxc, hno]
  · have hxc : x ≠ c := fun hxc => hinbox (hxc ▸ hx)
    dsimp only
    rw [update_of_ne hxc]
    exact h.inbox x hx
  · exact (erase_head hpos).trans h.head
  · rcases mem_append.mp hcas with hcas | hcas
    · exact h.sends cas (mem_append_left _ hcas)
    · exact h.sends cas (mem_append_right _ (eraseIdx_tail_subset hpos cas hcas))
  · dsimp only at hx ⊢
    rw [update_apply] at hx
    split_ifs at hx with hxc
    · rcases hp with rfl | rfl | rfl
      · rw [hxc]
        exact hlock rfl
      · cases hx
      · cases hx
    · simp [hlocked x hxc] at hx
  · dsimp only at hx
    rw [hrem] at hx
    cases hx

theorem ListInv.unlock (h : ListInv s) (hc : s.sub c = .unlocking) :
    ListInv { s with holder := .free, sub := update s.sub c .leaving } := by
  have hh : s.holder = .unsub c := h.locked c (by rw [hc]; rfl)
  refine ⟨h.nodup, fun x => ?_, fun x hx => ?_, h.head, h.sends, fun x hx => ?_, fun x hx => ?_⟩
  · exact h.mem_update (by rw [hc]; rfl) (by rw [hh]; rfl) x
  · exact h.inbox_update (by simp [hc]) _ x hx
  · dsimp only at hx
    rw [update_apply] at hx
    split_ifs at hx with hxc
    · cases hx
    · have hx' := h.locked x hx
      rw [hh] at hx'
      cases hx'
      exact absurd rfl hxc
  · cases hx

theorem ListInv.receiveRemove (h : ListInv s) (hh : s.holder = .send σ)
    (hp : σ.pc = .selecting) (hc : s.sub c = .waiting) :
    ListInv { s with
      holder := .send { σ with pc := .removing c }, sub := update s.sub c .leaving } := by
  have hrem : s.holder.removing = none := by simp [hh, Holder.removing, hp]
  refine ⟨h.nodup, fun x => ?_, fun x hx => ?_, h.head, h.sends, fun x hx => ?_, fun x hx => ?_⟩
  · dsimp only
    rw [h.mem x, hrem, update_apply]
    split_ifs with hxc
    · simp [hxc, hc, SubPc.subscribed, Holder.removing]
    · simp [Holder.removing, Ne.symm hxc]
  · exact h.inbox_update (by simp [hc]) _ x hx
  · dsimp only at hx
    rw [update_apply] at hx
    split_ifs at hx with hxc
    · cases hx
    · simp [h.no_lock (by simp [hh]) x] at hx
  · cases hx
    exact .inl (update_self _ _ _)

theorem ListInv.moveSend (h : ListInv s) (hh : s.holder = .send σ)
    (hrem : s.holder.removing = none) {cs : List (Case V)} (hcs : cs.Perm s.sendCases)
    (hhead : cs.head? = s.sendCases.head?) {σ' : Sending V}
    (hrem' : (Holder.send σ').removing = none) :
    ListInv { s with sendCases := cs, holder := .send σ', log := log } := by
  have htail := tail_perm hcs (hhead.trans h.head) h.head
  refine h.relist (by simp [hh]) hrem hrem' ?_ (Subset.refl _) (hhead.trans h.head) ?_
  · exact (channels_perm hcs).append_left (channels s.inbox)
  · intro cas hcas
    exact h.sends cas ((htail.append_left s.inbox).mem_iff.mp hcas)

theorem ListInv.moveDeactivate (h : ListInv s) {σ σ' : Sending V} {i : ℕ}
    (hh : s.holder = .send σ) (hrem : s.holder.removing = none) (hi : i < σ.active)
    (hc : s.sendCases[i]? = some (.send c v)) (hrem' : (Holder.send σ').removing = none) :
    ListInv { s with
      sendCases := deactivate s.sendCases σ.active i, holder := .send σ', log := log } := by
  have hpos := h.index_pos hc
  exact h.moveSend hh hrem (deactivate_perm _ _ _) (deactivate_head hpos (by omega)) hrem'

theorem setSend_eq_removeSub {cas : Case V} : cas.setSend v = .removeSub ↔ cas = .removeSub := by
  cases cas <;> simp [Case.setSend]

theorem tail_append_head {α : Type*} {l l' : List α} {x : α} (h : l.head? = some x) :
    (l ++ l').tail = l.tail ++ l' := by
  cases l with
  | nil => simp at h
  | cons y l => rfl

theorem ListInv.merged_head (h : ListInv s) : (s.sendCases ++ s.inbox).head? = some .removeSub := by
  rw [head?_append, h.head]
  rfl

theorem ListInv.merged_sends (h : ListInv s) :
    ∀ cas ∈ (s.sendCases ++ s.inbox).tail, cas ≠ .removeSub := by
  rw [tail_append_head h.head]
  intro cas hcas
  exact h.sends cas (perm_append_comm.mem_iff.mp hcas)

theorem ListInv.merge (h : ListInv s) (hh : s.holder = .send σ)
    (hrem : s.holder.removing = none) (v : Option V)
    (hrem' : holder.removing = none) :
    ListInv { s with
      sendCases := (s.sendCases ++ s.inbox).map (Case.setSend v), inbox := [], holder := holder } := by
  refine h.relist (by simp [hh]) hrem hrem' ?_ (nil_subset _) ?_ ?_
  · rw [channels_setSend, channels_append, channels_nil, nil_append]
    exact perm_append_comm
  · rw [head?_map, h.merged_head]
    rfl
  · intro cas hcas
    rw [nil_append, ← map_tail] at hcas
    obtain ⟨cas', hcas', rfl⟩ := mem_map.mp hcas
    rw [Ne, setSend_eq_removeSub]
    exact h.merged_sends cas' hcas'

theorem ListInv.step (h : ListInv s) (hs : FeedStep s a s') : ListInv s' := by
  cases hs with
  | subscribe hc => exact h.subscribe hc
  | unsubscribe hc =>
    refine h.moveSub (by rw [hc]; rfl) (fun _ => .inr rfl) rfl (fun hrem => ?_)
    exact absurd hrem (h.not_removing (by simp [hc]))
  | inInbox hc hf =>
    obtain ⟨v, hv⟩ := find_eq_some hf
    exact h.inInbox hc hv
  | notInInbox hc hf =>
    refine h.moveSub (by rw [hc]; rfl) (fun hin => ?_) rfl (fun hrem => ?_)
    · exact absurd hin (find_eq_none.mp hf)
    · exact absurd hrem (h.not_removing (by simp [hc]))
  | takeLock hc hh => exact h.takeLock hc hh
  | @deleteCase c cs hc hd =>
    obtain ⟨index, v, hv, rfl⟩ := delete_eq_some hd
    have hh : s.holder = .unsub c := h.locked c (by rw [hc]; rfl)
    refine h.deleteCase _ _ hv (h.not_inbox (by simp [hc])) (.inl rfl) (fun _ => hh)
      (by rw [hh]; rfl) ?_ ?_
    · intro x hx
      simp [hh, Holder.removing] at hx
    · intro x hx
      cases hlock : (s.sub x).hasLock with
      | false => rfl
      | true =>
        have := h.locked x hlock
        rw [hh] at this
        cases this
        exact absurd rfl hx
  | deleteCrash hc hd | removeCrash hh hp hf =>
    exact ⟨h.nodup, h.mem, h.inbox, h.head, h.sends, h.locked, h.removing⟩
  | unlock hc => exact h.unlock hc
  | leave hc =>
    exact h.moveSub (by rw [hc]; rfl) (fun hin => absurd hin (h.not_inbox (by simp [hc]))) rfl
      (fun _ => .inr rfl)
  | lock v hh =>
    exact h.relist (by simp [hh]) (by rw [hh]; rfl) rfl (.refl _) (Subset.refl _) h.head h.sends
  | merge hh hp => exact h.merge hh (by simp [hh, Holder.removing, hp]) _ rfl
  | mistyped hh hp =>
    refine h.relist (by simp [hh]) (by simp [hh, Holder.removing, hp]) rfl ?_ (nil_subset _)
      h.merged_head h.merged_sends
    rw [channels_append, channels_nil, nil_append]
    exact perm_append_comm
  | trySend hh hp hi hc | choose hh hp hi hc =>
    exact h.moveDeactivate hh (by simp [hh, Holder.removing, hp]) hi hc rfl
  | tryFail hh hp hi => exact h.moveSend hh (by simp [hh, Holder.removing, hp]) (.refl _) rfl rfl
  | endTry hh hp hi =>
    refine h.moveSend hh (by simp [hh, Holder.removing, hp]) (.refl _) rfl ?_
    dsimp only [Holder.removing]
    split_ifs <;> rfl
  | receiveRemove hh hp hc => exact h.receiveRemove hh hp hc
  | @remove σ c index hh hp hf =>
    obtain ⟨v, hv⟩ := find_eq_some hf
    have hrem : s.holder.removing = some c := by simp [hh, Holder.removing, hp]
    have hkeep := h.deleteCase (s.sub c) (.send
      { σ with pc := .trying 1, active := if index < σ.active then σ.active - 1 else σ.active })
      hv (h.removing_not_inbox hrem) (.inr (h.removing c hrem)) (fun hp => ?_) rfl ?_ ?_
    · rwa [update_eq_self] at hkeep
    · rcases h.removing c hrem with hq | hq <;> simp [hp] at hq
    · intro x hx
      rw [hrem] at hx
      exact (Option.some.inj hx).symm
    · intro x _
      exact h.no_lock (by simp [hh]) x
  | finish hh hp =>
    refine h.relist (by simp [hh]) (by simp [hh, Holder.removing, hp]) rfl ?_ (Subset.refl _)
      ?_ ?_
    · rw [channels_setSend]
    · rw [head?_map, h.head]
      rfl
    · intro cas hcas
      rcases mem_append.mp hcas with hcas | hcas
      · exact h.sends cas (mem_append_left _ hcas)
      · rw [← map_tail] at hcas
        obtain ⟨cas', hcas', rfl⟩ := mem_map.mp hcas
        rw [Ne, setSend_eq_removeSub]
        exact h.sends cas' (mem_append_right _ hcas')

end Lists

end Fiscobcos.Event
