import Fiscobcos.Client.HandOver

/-! # Block notification (client/channel.go:268-291, 558-568)

`notifyBlockOnce` is used up by a failed `Send` too: every later call appends its callback and
returns nil, although the node was never asked. -/

namespace Fiscobcos.Client
open Numerals ChannelClient List NotifySide

def NotifyPc.InOnce (pc : NotifyPc) : Prop := pc = .inOnce ∨ pc = .checked

def NotifyPc.Failed (pc : NotifyPc) : Prop := pc = .afterOnce true ∨ pc = .returned true

def NotifyPc.Passed (pc : NotifyPc) : Prop := pc = .afterOnce false ∨ pc = .returned false

def NotifyPc.Past : NotifyPc → Prop
  | .afterOnce _ | .returned _ => True
  | _ => False

def Net.Notified (t : Net) : Prop := ∃ c, (c, Request.blockNotify) ∈ t.sent

structure OnceInv (s : ChannelClient) : Prop where
  unborn : ∀ i, s.notify.count ≤ i → (s.notify.call i).pc = .idle
  inside : ∀ i, (s.notify.call i).pc.InOnce → s.notify.once = .running
  sole : ∀ i j, (s.notify.call i).pc.InOnce → (s.notify.call j).pc.InOnce → i = j
  early : s.notify.once ≠ .done → s.notify.onBlock = [] ∧ ¬ s.net.Notified ∧
    ∀ i, ¬ (s.notify.call i).pc.Past
  failed : ∀ i, (s.notify.call i).pc.Failed → ¬ s.net.Notified
  done : s.notify.once = .done → s.net.Notified ∨ ∃ i, (s.notify.call i).pc.Failed

structure SameNotify (s s' : ChannelClient) : Prop where
  count : s'.notify.count = s.notify.count
  call : s'.notify.call = s.notify.call
  once : s'.notify.once = s.notify.once
  onBlock : s'.notify.onBlock = s.notify.onBlock
  sent : ∀ c, (c, Request.blockNotify) ∈ s'.net.sent ↔ (c, Request.blockNotify) ∈ s.net.sent

section Once
variable {J : Json} {s s' : ChannelClient} {a : Action}

theorem Net.mem_send {t : Net} {r : Request} {x : ℕ × Request} :
    x ∈ (t.send r).sent ↔ x ∈ t.sent ∨ x = (t.conn, r) := by
  simp [Net.send]

theorem Net.blockNotify_mem_send {t : Net} {r : Request} (hr : r ≠ .blockNotify) (c : ℕ) :
    (c, Request.blockNotify) ∈ (t.send r).sent ↔ (c, Request.blockNotify) ∈ t.sent := by
  rw [Net.mem_send, or_iff_left]
  rintro h
  exact hr (congrArg Prod.snd h).symm

theorem SameNotify.notified (h : SameNotify s s') : s'.net.Notified ↔ s.net.Notified :=
  exists_congr h.sent

theorem Step.notify_cases (h : Step J s a s') : NotifyStep s a s' ∨ SameNotify s s' := by
  have hsame : ∀ t : ChannelClient, t.notify = s.notify → t.net.sent = s.net.sent →
      SameNotify s t := by
    intro t hn hsent
    exact ⟨by rw [hn], by rw [hn], by rw [hn], by rw [hn], fun _ => by rw [hsent]⟩
  cases h with
  | notify h => exact .inl h
  | rpc h =>
    cases h with
    | write n => exact .inr ⟨rfl, rfl, rfl, rfl, Net.blockNotify_mem_send nofun⟩
    | _ => exact .inr (hsame _ rfl rfl)
  | sub h =>
    cases h with
    | write i seq => exact .inr ⟨rfl, rfl, rfl, rfl, Net.blockNotify_mem_send nofun⟩
    | _ => exact .inr (hsame _ rfl rfl)
  | close h => cases h <;> exact .inr (hsame _ rfl rfl)
  | reader h =>
    cases h with
    | dispatch k m =>
      right
      by_cases htype : m.type = TypeBlockNotify
      · have hn : (s.dispatch J k m).notify =
            { s.notify with invoked := s.notify.invoked ++ s.blockCase J m } := if_pos htype
        exact ⟨by rw [hn], by rw [hn], by rw [hn], by rw [hn], fun _ => Iff.rfl⟩
      · exact hsame _ (if_neg htype) rfl
    | read c rest | readMore _ _ c rest =>
      rcases s.receive_cases _ _ c rest with ⟨_, he⟩ | ⟨_, he⟩ <;> rw [he] <;>
        exact .inr (hsame _ rfl rfl)
    | _ => exact .inr (hsame _ rfl rfl)

theorem ChannelClient.notifyMove_call (i j : ℕ) (pc : NotifyPc) (once : Once) :
    (s.notifyMove i pc once).notify.call j =
      if j = i then { s.notify.call i with pc := pc } else s.notify.call j := by
  simp [notifyMove, setPc, Function.update_apply]

theorem ChannelClient.notifyWrite_call (i j : ℕ) :
    (s.notifyWrite i).notify.call j =
      if j = i then { s.notify.call i with pc := .afterOnce false } else s.notify.call j := by
  simp [notifyWrite, setPc, Function.update_apply]

theorem ChannelClient.notifyAppend_call (i j : ℕ) (failed : Bool) :
    (s.notifyAppend i failed).notify.call j =
      if j = i then { s.notify.call i with pc := .returned failed } else s.notify.call j := by
  simp [notifyAppend, setPc, Function.update_apply]

theorem ChannelClient.notifyNew_call (cb : Option ℕ) (j : ℕ) :
    (s.notifyNew cb).notify.call j =
      if j = s.notify.count then ⟨cb, .start⟩ else s.notify.call j := by
  simp [notifyNew, Function.update_apply]

theorem OnceInv.of_same (hi : OnceInv s) (h : SameNotify s s') : OnceInv s' := by
  obtain ⟨hcount, hcall, honce, hblock, -⟩ := id h
  have hnot := h.notified
  constructor
  · rw [hcount, hcall]
    exact hi.unborn
  · rw [hcall, honce]
    exact hi.inside
  · rw [hcall]
    exact hi.sole
  · rw [honce, hblock, hnot, hcall]
    exact hi.early
  · rw [hcall, hnot]
    exact hi.failed
  · rw [honce, hnot, hcall]
    exact hi.done

theorem OnceInv.born (hi : OnceInv s) {i : ℕ} (h : (s.notify.call i).pc ≠ .idle) :
    i < s.notify.count := by
  by_contra hn
  exact h (hi.unborn i (by omega))

theorem OnceInv.setPc (hi : OnceInv s) (i : ℕ) (pc : NotifyPc)
    (hcount : s'.notify.count = s.notify.count) (honce : s'.notify.once = s.notify.once)
    (hcall : ∀ j, (s'.notify.call j).pc = if j = i then pc else (s.notify.call j).pc)
    (hsent : s'.net.sent = s.net.sent) (hborn : (s.notify.call i).pc ≠ .idle)
    (hinside : pc.InOnce ↔ (s.notify.call i).pc.InOnce)
    (hfailed : pc.Failed ↔ (s.notify.call i).pc.Failed)
    (hearly : s.notify.once ≠ .done → s'.notify.onBlock = s.notify.onBlock ∧ ¬ pc.Past) :
    OnceInv s' := by
  have hin : ∀ j, (s'.notify.call j).pc.InOnce ↔ (s.notify.call j).pc.InOnce := by
    intro j
    rw [hcall]
    split_ifs with hj
    · rw [hj, hinside]
    · rfl
  have hfail : ∀ j, (s'.notify.call j).pc.Failed ↔ (s.notify.call j).pc.Failed := by
    intro j
    rw [hcall]
    split_ifs with hj
    · rw [hj, hfailed]
    · rfl
  have hnot : s'.net.Notified ↔ s.net.Notified := by rw [Net.Notified, hsent]; rfl
  constructor
  · intro j hj
    rw [hcount] at hj
    have hlt := hi.born hborn
    rw [hcall, if_neg (by omega)]
    exact hi.unborn j hj
  · intro j hj
    rw [honce]
    exact hi.inside j ((hin j).mp hj)
  · intro j k hj hk
    exact hi.sole j k ((hin j).mp hj) ((hin k).mp hk)
  · intro hne
    rw [honce] at hne
    obtain ⟨hblock, hfree, hpast⟩ := hi.early hne
    obtain ⟨hblock', hpc⟩ := hearly hne
    refine ⟨hblock'.trans hblock, fun h => hfree (hnot.mp h), fun j => ?_⟩
    rw [hcall]
    split_ifs
    · exact hpc
    · exact hpast j
  · intro j hj h
    exact hi.failed j ((hfail j).mp hj) (hnot.mp h)
  · intro hd
    rw [honce] at hd
    rcases hi.done hd with h | ⟨j, hj⟩
    · exact .inl (hnot.mpr h)
    · exact .inr ⟨j, (hfail j).mpr hj⟩

theorem OnceInv.new (hi : OnceInv s) (cb : Option ℕ) : OnceInv (s.notifyNew cb) := by
  have hother : ∀ j, ((s.notifyNew cb).notify.call j).pc = .start ∨
      ((s.notifyNew cb).notify.call j).pc = (s.notify.call j).pc := by
    intro j
    rw [notifyNew_call]
    split_ifs
    · exact .inl rfl
    · exact .inr rfl
  have hin : ∀ j, ((s.notifyNew cb).notify.call j).pc.InOnce → (s.notify.call j).pc.InOnce := by
    intro j hj
    rcases hother j with h | h <;> rw [h] at hj
    · rcases hj with hj | hj <;> cases hj
    · exact hj
  refine ⟨fun j hj => ?_, fun j hj => hi.inside j (hin j hj),
    fun j k hj hk => hi.sole j k (hin j hj) (hin k hk), fun hne => ?_, fun j hj => ?_, fun hd => ?_⟩
  · have hj : s.notify.count + 1 ≤ j := hj
    rw [notifyNew_call, if_neg (by omega)]
    exact hi.unborn j (by omega)
  · obtain ⟨hblock, hfree, hpast⟩ := hi.early hne
    refine ⟨hblock, hfree, fun j => ?_⟩
    rcases hother j with h | h <;> rw [h]
    · exact not_false
    · exact hpast j
  · rcases hother j with h | h <;> rw [h] at hj
    · rcases hj with hj | hj <;> cases hj
    · exact hi.failed j hj
  · rcases hi.done hd with h | ⟨j, hj⟩
    · exact .inl h
    · refine .inr ⟨j, ?_⟩
      have hlt := hi.born (i := j) (by rcases hj with hj | hj <;> rw [hj] <;> nofun)
      rw [notifyNew_call, if_neg (by omega)]
      exact hj

theorem OnceInv.leave (hi : OnceInv s) (i : ℕ) (failed : Bool) (hpc : (s.notify.call i).pc.InOnce)
    (hcount : s'.notify.count = s.notify.count) (honce : s'.notify.once = .done)
    (hcall : ∀ j, (s'.notify.call j).pc = if j = i then .afterOnce failed else (s.notify.call j).pc)
    (hsent : s'.net.Notified ↔ failed = false) : OnceInv s' := by
  have hrunning := hi.inside i hpc
  obtain ⟨-, -, hpast⟩ := hi.early (by rw [hrunning]; nofun)
  have hin : ∀ j, ¬ (s'.notify.call j).pc.InOnce := by
    intro j hj
    rw [hcall] at hj
    split_ifs at hj with hij
    · rcases hj with hj | hj <;> cases hj
    · exact hij (hi.sole j i hj hpc)
  have hfail : ∀ j, (s'.notify.call j).pc.Failed → failed = true := by
    intro j hj
    rw [hcall] at hj
    split_ifs at hj with hij
    · rcases hj with hj | hj <;> cases hj
      rfl
    · have := hpast j
      rcases hj with hj | hj <;> rw [hj] at this <;> exact absurd trivial this
  refine ⟨fun j hj => ?_, fun j hj => absurd hj (hin j), fun j _ hj => absurd hj (hin j),
    fun hne => absurd honce hne, fun j hj h => ?_, fun _ => ?_⟩
  · rw [hcount] at hj
    have hlt := hi.born (i := i) (by rcases hpc with h | h <;> rw [h] <;> nofun)
    rw [hcall, if_neg (by omega)]
    exact hi.unborn j hj
  · rw [hfail j hj] at hsent
    exact absurd (hsent.mp h) (by decide)
  · cases failed with
    | false => exact .inl (hsent.mpr rfl)
    | true => exact .inr ⟨i, .inl (by rw [hcall, if_pos rfl])⟩

theorem OnceInv.step_notify (hi : OnceInv s) (h : NotifyStep s a s') : OnceInv s' := by
  cases h with
  | new cb => exact hi.new cb
  | heartbeat => exact hi.of_same ⟨rfl, rfl, rfl, rfl, Net.blockNotify_mem_send nofun⟩
  | first i hpc honce =>
    obtain ⟨hblock, hfree, hpast⟩ := hi.early (by rw [honce]; nofun)
    have hnone : ∀ j, ¬ (s.notify.call j).pc.InOnce := by
      intro j hj
      have := hi.inside j hj
      rw [honce] at this
      cases this
    have hcall : ∀ j, ((s.notifyMove i .inOnce .running).notify.call j).pc =
        if j = i then .inOnce else (s.notify.call j).pc := by
      intro j
      rw [notifyMove_call]
      split_ifs <;> rfl
    have hpast' : ∀ j, ¬ ((s.notifyMove i .inOnce .running).notify.call j).pc.Past := by
      intro j
      rw [hcall]
      split_ifs
      · exact not_false
      · exact hpast j
    refine ⟨fun j hj => ?_, fun _ _ => rfl, fun j k hj hk => ?_, fun _ => ⟨hblock, hfree, hpast'⟩,
      fun j hj => ?_, nofun⟩
    · have hlt := hi.born (i := i) (by rw [hpc]; nofun)
      have hj : s.notify.count ≤ j := hj
      rw [hcall, if_neg (by omega)]
      exact hi.unborn j hj
    · rw [hcall] at hj hk
      split_ifs at hj hk with hji hki hki
      · exact hji.trans hki.symm
      · exact absurd hk (hnone k)
      · exact absurd hj (hnone j)
      · exact absurd hj (hnone j)
    · have := hpast' j
      rcases hj with hj | hj <;> rw [hj] at this <;> exact absurd trivial this
  | later i hpc honce =>
    refine hi.setPc i (.afterOnce false) rfl honce.symm (fun j => ?_) rfl (by rw [hpc]; nofun) ?_ ?_
      fun hne => absurd honce hne
    · rw [notifyMove_call]
      split_ifs <;> rfl
    · simp [hpc, NotifyPc.InOnce]
    · simp [hpc, NotifyPc.Failed]
  | check i hpc =>
    refine hi.setPc i .checked rfl (hi.inside i (.inl hpc)).symm (fun j => ?_) rfl
      (by rw [hpc]; nofun) ?_ ?_ fun _ => ⟨rfl, not_false⟩
    · rw [notifyMove_call]
      split_ifs <;> rfl
    · simp [hpc, NotifyPc.InOnce]
    · simp [hpc, NotifyPc.Failed]
  | write i hpc =>
    refine hi.leave i false (.inr hpc) rfl rfl (fun j => ?_) ?_
    · rw [notifyWrite_call]
      split_ifs <;> rfl
    · exact iff_of_true ⟨s.net.conn, Net.mem_send.mpr (.inr rfl)⟩ rfl
  | fail i hpc =>
    have hfree := (hi.early (by rw [hi.inside i hpc]; nofun)).2.1
    refine hi.leave i true hpc rfl rfl (fun j => ?_)
      (iff_of_false hfree (by decide))
    rw [notifyMove_call]
    split_ifs <;> rfl
  | append i failed hpc =>
    refine hi.setPc i (.returned failed) rfl rfl (fun j => ?_) rfl (by rw [hpc]; nofun) ?_ ?_
      fun hne => ?_
    · rw [notifyAppend_call]
      split_ifs <;> rfl
    · simp [hpc, NotifyPc.InOnce]
    · simp [hpc, NotifyPc.Failed]
    · have := (hi.early hne).2.2 i
      rw [hpc] at this
      exact absurd trivial this

theorem OnceInv.step (hi : OnceInv s) (h : Step J s a s') : OnceInv s' := by
  rcases h.notify_cases with h | h
  · exact hi.step_notify h
  · exact hi.of_same h

theorem OnceInv.init (cap : ℕ → ℕ) : OnceInv (init cap) := by
  refine ⟨fun _ _ => rfl, ?_, ?_, fun _ => ⟨rfl, ?_, fun _ => not_false⟩, ?_, nofun⟩
  · rintro i (h | h) <;> cases h
  · rintro i j (h | h) <;> cases h
  · rintro ⟨c, h⟩
    cases h
  · rintro i (h | h) <;> cases h

end Once

def NotifySide.registered (w : NotifySide) : List (Option ℕ) :=
  ((List.range w.count).filter fun i => (w.call i).pc = .returned false).map
    fun i => (w.call i).onBlock

def InTurn (s : ChannelClient) : Action → Prop
  | .notifyNew _ => ∀ j < s.notify.count, ∃ failed, (s.notify.call j).pc = .returned failed
  | _ => True

def NoneAfterFailure (s : ChannelClient) : Action → Prop
  | .notifyNew _ => ∀ j < s.notify.count, (s.notify.call j).pc ≠ .returned true
  | _ => True

structure TurnInv (w : NotifySide) : Prop where
  turn : ∀ i, i + 1 < w.count → ∃ failed, (w.call i).pc = .returned failed
  onBlock : w.onBlock = w.registered

section Turn
variable {J : Json} {s s' : ChannelClient} {a : Action} {w w' : NotifySide}

theorem NotifySide.registered_congr (hcount : w'.count = w.count)
    (hpc : ∀ j < w.count, (w'.call j).pc = .returned false ↔ (w.call j).pc = .returned false)
    (hcb : ∀ j < w.count, (w'.call j).onBlock = (w.call j).onBlock) :
    w'.registered = w.registered := by
  rw [registered, hcount]
  have hfilter : (range w.count).filter (fun i => (w'.call i).pc = .returned false) =
      (range w.count).filter fun i => (w.call i).pc = .returned false := by
    apply filter_congr
    intro j hj
    rw [decide_eq_decide]
    exact hpc j (mem_range.mp hj)
  rw [hfilter]
  apply map_congr_left
  intro j hj
  exact hcb j (mem_range.mp (mem_filter.mp hj).1)

theorem NotifySide.registered_last {n : ℕ} (hcount : w.count = n + 1)
    (hcall : ∀ j < n, w'.call j = w.call j) (hcount' : w'.count = n) :
    w.registered = w'.registered ++
      if (w.call n).pc = .returned false then [(w.call n).onBlock] else [] := by
  have hfront : w'.registered = ((range n).filter fun i =>
      (w.call i).pc = .returned false).map fun i => (w.call i).onBlock := by
    have := @NotifySide.registered_congr { w with count := n } w' hcount'
      (fun j hj => by rw [hcall j hj]) (fun j hj => by rw [hcall j hj])
    exact this
  rw [hfront, registered, hcount, range_succ, filter_append, map_append]
  split_ifs with h <;> simp [h]

theorem TurnInv.setPc (hi : TurnInv w) (i : ℕ) (pc : NotifyPc)
    (hcount : w'.count = w.count) (hblock : w'.onBlock = w.onBlock)
    (hcall : ∀ j, w'.call j = if j = i then { w.call i with pc := pc } else w.call j)
    (hpc : ∀ failed, (w.call i).pc ≠ .returned failed) (hpc' : pc ≠ .returned false) :
    TurnInv w' := by
  constructor
  · intro j hj
    rw [hcount] at hj
    obtain ⟨failed, hret⟩ := hi.turn j hj
    refine ⟨failed, ?_⟩
    rw [hcall, if_neg]
    · exact hret
    · rintro rfl
      exact hpc failed hret
  · rw [hblock, hi.onBlock]
    apply (registered_congr hcount _ _).symm
    · intro j _
      rw [hcall]
      split_ifs with hj
      · rw [hj]
        exact iff_of_false hpc' (hpc false)
      · rfl
    · intro j _
      rw [hcall]
      split_ifs with hj
      · rw [hj]
      · rfl

theorem TurnInv.new (hi : TurnInv s.notify) (cb : Option ℕ) (hok : InTurn s (.notifyNew cb)) :
    TurnInv (s.notifyNew cb).notify := by
  constructor
  · intro j hj
    have hj : j + 1 < s.notify.count + 1 := hj
    rw [notifyNew_call, if_neg (by omega)]
    exact hok j (by omega)
  · have hlast := @NotifySide.registered_last (s.notifyNew cb).notify s.notify s.notify.count rfl
      (fun j hj => by rw [notifyNew_call, if_neg (by omega)]) rfl
    rw [hlast, notifyNew_call, if_pos rfl, if_neg nofun, append_nil]
    exact hi.onBlock

theorem TurnInv.append (hi : TurnInv s.notify) {i : ℕ} (hborn : i < s.notify.count)
    (hpc : (s.notify.call i).pc = .afterOnce false) : TurnInv (s.notifyAppend i false).notify := by
  have hlast : s.notify.count = i + 1 := by
    by_contra hne
    obtain ⟨failed, hret⟩ := hi.turn i (by omega)
    rw [hpc] at hret
    cases hret
  have hother : ∀ j, j ≠ i → (s.notifyAppend i false).notify.call j = s.notify.call j := by
    intro j hj
    rw [notifyAppend_call, if_neg hj]
  constructor
  · intro j hj
    have hj : j + 1 < s.notify.count := hj
    rw [hother j (by omega)]
    exact hi.turn j hj
  · have hbefore := @NotifySide.registered_last s.notify { s.notify with count := i } i hlast
      (fun _ _ => rfl) rfl
    have hafter := @NotifySide.registered_last (s.notifyAppend i false).notify
      { s.notify with count := i } i hlast (fun j hj => (hother j (by omega)).symm) rfl
    rw [if_neg (by rw [hpc]; nofun), append_nil] at hbefore
    rw [hafter, ← hbefore, notifyAppend_call, if_pos rfl, if_pos rfl, ← hi.onBlock]
    rfl

theorem TurnInv.step_notify (hi : TurnInv s.notify) (honce : OnceInv s) (hok : InTurn s a)
    (h : NotifyStep s a s') : TurnInv s'.notify := by
  cases h with
  | new cb => exact hi.new cb hok
  | heartbeat => exact hi
  | first i hpc | later i hpc | check i hpc =>
    exact hi.setPc i _ rfl rfl (notifyMove_call i · _ _)
      (fun _ => by rw [hpc]; nofun) nofun
  | write i hpc =>
    exact hi.setPc i _ rfl rfl (notifyWrite_call i) (fun _ => by rw [hpc]; nofun) nofun
  | fail i hpc =>
    refine hi.setPc i _ rfl rfl (notifyMove_call i · _ _) (fun _ => ?_) nofun
    rcases hpc with hpc | hpc <;> rw [hpc] <;> nofun
  | append i failed hpc =>
    cases failed with
    | false => exact hi.append (honce.born (by rw [hpc]; nofun)) hpc
    | true =>
      exact hi.setPc i _ rfl rfl (notifyAppend_call i · _)
        (fun _ => by rw [hpc]; nofun) nofun

theorem TurnInv.step (hi : TurnInv s.notify) (honce : OnceInv s) (hok : InTurn s a)
    (h : Step J s a s') : TurnInv s'.notify := by
  rcases h.notify_cases with h | ⟨hcount, hcall, -, hblock, -⟩
  · exact hi.step_notify honce hok h
  · constructor
    · rw [hcount, hcall]
      exact hi.turn
    · rw [hblock, hi.onBlock, registered, registered, hcount, hcall]

theorem TurnInv.init (cap : ℕ → ℕ) : TurnInv (init cap).notify := ⟨nofun, rfl⟩

theorem NotifyStep.passed_origin (h : NotifyStep s a s') {i : ℕ}
    (hpc : (s'.notify.call i).pc.Passed) : (s.notify.call i).pc.Passed ∨ s'.net.Notified ∨
      a = .notifyOnce i ∧ (s.notify.call i).pc = .start ∧ s.notify.once = .done ∧
        s'.net = s.net := by
  cases h with
  | heartbeat => exact .inl hpc
  | new cb =>
    rw [notifyNew_call] at hpc
    split_ifs at hpc with hi
    · rcases hpc with hpc | hpc <;> cases hpc
    · exact .inl hpc
  | write j => exact .inr (.inl ⟨s.net.conn, Net.mem_send.mpr (.inr rfl)⟩)
  | later j hj honce =>
    rw [notifyMove_call] at hpc
    split_ifs at hpc with hij
    · subst hij
      exact .inr (.inr ⟨rfl, hj, honce, rfl⟩)
    · exact .inl hpc
  | append j failed hj =>
    rw [notifyAppend_call] at hpc
    split_ifs at hpc with hij
    · subst hij
      rcases hpc with hpc | hpc <;> cases hpc
      exact .inl (.inl hj)
    · exact .inl hpc
  | first j | check j | fail j =>
    rw [notifyMove_call] at hpc
    split_ifs at hpc with hij
    · rcases hpc with hpc | hpc <;> cases hpc
    · exact .inl hpc

theorem NotifyStep.returned_kept (h : NotifyStep s a s') {i : ℕ} {failed : Bool}
    (hborn : i < s.notify.count) (hpc : (s.notify.call i).pc = .returned failed) :
    (s'.notify.call i).pc = .returned failed := by
  cases h with
  | new cb =>
    rw [notifyNew_call, if_neg (by omega)]
    exact hpc
  | heartbeat => exact hpc
  | first j hj | later j hj | check j hj | write j hj | fail j hj | append j _ hj =>
    have hij : i ≠ j := by
      rintro rfl
      simp [hpc] at hj
    simp only [notifyMove_call, notifyWrite_call,
      notifyAppend_call, if_neg hij]
    exact hpc

theorem NotifyStep.notified_mono (h : NotifyStep s a s') (hs : s.net.Notified) :
    s'.net.Notified := by
  obtain ⟨c, hc⟩ := hs
  cases h with
  | write i | heartbeat => exact ⟨c, Net.mem_send.mpr (.inl hc)⟩
  | _ => exact ⟨c, hc⟩

theorem Step.passed_told (h : Step J s a s')
    (hi : ∀ i, (s.notify.call i).pc.Passed → s.net.Notified)
    (hlater : ∀ i, a = .notifyOnce i → (s.notify.call i).pc = .start → s.notify.once = .done →
      s.net.Notified) {i : ℕ} (hpc : (s'.notify.call i).pc.Passed) : s'.net.Notified := by
  rcases h.notify_cases with hstep | hsame
  · rcases hstep.passed_origin hpc with hold | htold | ⟨ha, hstart, honce, hnet⟩
    · exact hstep.notified_mono (hi i hold)
    · exact htold
    · rw [hnet]
      exact hlater i ha hstart honce
  · rw [hsame.call] at hpc
    exact hsame.notified.mpr (hi i hpc)

structure CleanInv (s : ChannelClient) : Prop where
  once : OnceInv s
  turn : TurnInv s.notify
  clean : ∀ i j, i < j → j < s.notify.count → (s.notify.call i).pc = .returned false
  told : ∀ i, (s.notify.call i).pc.Passed → s.net.Notified

theorem CleanInv.told_later (hi : CleanInv s) {i : ℕ} (hpc : (s.notify.call i).pc = .start)
    (honce : s.notify.once = .done) : s.net.Notified := by
  rcases hi.once.done honce with h | ⟨j, hj⟩
  · exact h
  -- the failed call would have to come before or after this one
  · have hib := hi.once.born (i := i) (by rw [hpc]; nofun)
    have hjb := hi.once.born (i := j) (by rcases hj with hj | hj <;> rw [hj] <;> nofun)
    rcases lt_trichotomy i j with hlt | rfl | hlt
    · rw [hi.clean i j hlt hjb] at hpc
      cases hpc
    · rcases hj with hj | hj <;> rw [hpc] at hj <;> cases hj
    · rw [hi.clean j i hlt hib] at hj
      rcases hj with hj | hj <;> cases hj

theorem CleanInv.step (hi : CleanInv s) (hturn : InTurn s a) (hok : NoneAfterFailure s a)
    (h : Step J s a s') : CleanInv s' := by
  refine ⟨hi.once.step h, hi.turn.step hi.once hturn h, ?_, ?_⟩
  · intro i j hij hj
    rcases h.notify_cases with hstep | hsame
    · have hkept : j < s.notify.count → (s'.notify.call i).pc = .returned false := fun hj =>
        hstep.returned_kept (by omega) (hi.clean i j hij hj)
      cases hstep with
      | new cb =>
        have hj : j < s.notify.count + 1 := hj
        obtain ⟨failed, hret⟩ := hturn i (by omega)
        have hne := hok i (by omega)
        rw [notifyNew_call, if_neg (by omega)]
        cases failed with
        | false => exact hret
        | true => exact absurd hret hne
      | _ => exact hkept hj
    · rw [hsame.call]
      exact hi.clean i j hij (hsame.count ▸ hj)
  · intro i hpc
    exact h.passed_told hi.told (fun _ _ => hi.told_later) hpc

theorem CleanInv.init (cap : ℕ → ℕ) : CleanInv (init cap) :=
  ⟨.init cap, .init cap, nofun, fun i h => by rcases h with h | h <;> cases h⟩

theorem ChannelClient.dispatch_block {k : ℕ} {m : Message} {b : BlockNotifyResponse} {g n : ℕ}
    (htype : m.type = TypeBlockNotify) (hb : J.blockNotify m.data = some b)
    (hg : Hexutil.parseUint 10 b.groupID = (g, none))
    (hn : Hexutil.parseUint 10 b.blockNumber = (n, none)) :
    (s.dispatch J k m).notify.invoked = s.notify.invoked ++
      s.notify.onBlock.filterMap fun cb => cb.map fun c => (c, g, n) := by
  have hinvoked : (s.dispatch J k m).notify.invoked = s.notify.invoked ++ s.blockCase J m := by
    rw [dispatch, if_pos htype]
  rw [hinvoked, blockCase]
  split_ifs with hempty
  · rw [hempty, filterMap_nil]
  · simp only [hb, hg, hn]

end Turn

/-- As long as `BlockNotify` is not called after a call that failed, a call that
returned nil has the request behind it, and every well-formed block frame invokes
the callbacks of all calls that returned nil, in their order. Once a call has
failed, the request is never written. -/
theorem block_notify_registered (J : Json) (cap : ℕ → ℕ) (s : ChannelClient) :
    (Steps.Reach (Step J) (fun s a => InTurn s a ∧ NoneAfterFailure s a)
        (ChannelClient.init cap) s →
      (∀ i, (s.notify.call i).pc = .returned false → s.net.Notified) ∧
      ∀ k m b g n s', s.reader = .dispatch k m → m.type = TypeBlockNotify →
        J.blockNotify m.data = some b → Hexutil.parseUint 10 b.groupID = (g, none) →
        Hexutil.parseUint 10 b.blockNumber = (n, none) → Step J s .dispatch s' →
        s'.notify.invoked = s.notify.invoked ++
          s.notify.registered.filterMap fun cb => cb.map fun c => (c, g, n)) ∧
    (Reachable J cap s → ∀ i, (s.notify.call i).pc = .returned true → ¬ s.net.Notified) := by
  constructor
  · intro hs
    have hi : CleanInv s := hs.invariant (.init cap) fun _ _ _ hi hok h => hi.step hok.1 hok.2 h
    refine ⟨fun i hpc => hi.told i (.inr hpc), ?_⟩
    intro k m b g n s' hr htype hb hg hn h
    obtain ⟨k', m', hr', rfl⟩ := h.dispatch_eq
    rw [hr] at hr'
    cases hr'
    rw [← hi.turn.onBlock]
    exact dispatch_block htype hb hg hn
  · intro hs i hpc
    have hi : OnceInv s := hs.invariant (.init cap) fun _ _ _ hi _ h => hi.step h
    exact hi.failed i (.inr hpc)

/-- The first call fails to send; the second finds the once used up. -/
theorem block_notify_without_request :
    ∃ s, Steps.Reach (Step sampleJson) InTurn (ChannelClient.init fun _ => 0) s ∧
      (s.notify.call 0).pc = .returned true ∧ (s.notify.call 1).pc = .returned false ∧
      s.notify.onBlock = [some 7] ∧ ¬ s.net.Notified := by
  have h0 : Steps.Reach (Step sampleJson) InTurn (init fun _ => 0)
    (init fun _ => 0) := .refl _
  have h1 := h0.tail (.notify (.new (some 7))) nofun
  have h2 := h1.tail (.notify (.first 0 rfl rfl)) trivial
  have h3 := h2.tail (.notify (.fail 0 (.inl rfl))) trivial
  have h4 := h3.tail (.notify (.append 0 true rfl)) trivial
  have h5 := h4.tail (.notify (.new (some 7))) ?_
  · have h6 := h5.tail (.notify (.later 1 rfl rfl)) trivial
    have h7 := h6.tail (.notify (.append 1 false rfl)) trivial
    refine ⟨_, h7, rfl, rfl, rfl, ?_⟩
    rintro ⟨c, hc⟩
    cases hc
  · intro j hj
    obtain rfl : j = 0 := Nat.lt_one_iff.mp hj
    exact ⟨true, rfl⟩

def someBlock : Message := nodeMessage TypeBlockNotify blockText

def blockFrame : Bytes := nodeFrame TypeBlockNotify blockText

theorem blockFrame_whole : WholeFrame blockFrame someBlock :=
  ⟨by unfold IsFrame; decide, by decide, by decide⟩

theorem block_notify_registered_twice :
    ∃ s s', Steps.Reach (Step sampleJson) (fun s a => InTurn s a ∧ NoneAfterFailure s a)
        (ChannelClient.init fun _ => 0) s ∧ s.net.Notified ∧
      s.notify.registered = [some 7, none, some 8] ∧ Step sampleJson s .dispatch s' ∧
      s'.notify.invoked = [(7, 1, 9), (8, 1, 9)] := by
  have hdone : ∀ {t : ChannelClient} {n : ℕ}, t.notify.count = n →
      (∀ j < n, (t.notify.call j).pc = .returned false) → ∀ cb,
      InTurn t (.notifyNew cb) ∧ NoneAfterFailure t (.notifyNew cb) := by
    intro t n hn hret cb
    exact ⟨fun j hj => ⟨false, hret j (hn ▸ hj)⟩, fun j hj => by rw [hret j (hn ▸ hj)]; nofun⟩
  have h0 : Steps.Reach (Step sampleJson) (fun s a => InTurn s a ∧ NoneAfterFailure s a)
    (init fun _ => 0) (init fun _ => 0) := .refl _
  have h1 := h0.tail (.notify (.new (some 7))) (hdone rfl (by decide) _)
  have h2 := h1.tail (.notify (.first 0 rfl rfl)) ⟨trivial, trivial⟩
  have h3 := h2.tail (.notify (.check 0 rfl rfl)) ⟨trivial, trivial⟩
  have h4 := h3.tail (.notify (.write 0 rfl rfl)) ⟨trivial, trivial⟩
  have h5 := h4.tail (.notify (.append 0 false rfl)) ⟨trivial, trivial⟩
  have h6 := h5.tail (.notify (.new none)) (hdone rfl (by decide) _)
  have h7 := h6.tail (.notify (.later 1 rfl rfl)) ⟨trivial, trivial⟩
  have h8 := h7.tail (.notify (.append 1 false rfl)) ⟨trivial, trivial⟩
  have h9 := h8.tail (.notify (.new (some 8))) (hdone rfl (by decide) _)
  have h10 := h9.tail (.notify (.later 2 rfl rfl)) ⟨trivial, trivial⟩
  have h11 := h10.tail (.notify (.append 2 false rfl)) ⟨trivial, trivial⟩
  have h12 := h11.tail (.reader (.node blockFrame)) ⟨trivial, trivial⟩
  have h13 := h12.tail (blockFrame_whole.read [] rfl (append_nil _).symm) ⟨trivial, trivial⟩
  have hread := blockFrame_whole.readFrame 0
  obtain ⟨htold, hcalls⟩ := (block_notify_registered sampleJson _ _).1 h13
  refine ⟨_, _, h13, htold 0 rfl, rfl, .reader (.dispatch 0 someBlock hread), ?_⟩
  exact hcalls 0 someBlock ⟨[49], [57]⟩ 1 9 _ hread rfl rfl (by decide) (by decide)
    (.reader (.dispatch 0 someBlock hread))

end Fiscobcos.Client
