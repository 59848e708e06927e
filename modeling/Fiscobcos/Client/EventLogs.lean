import Fiscobcos.Client.Subscribe

/-! # Delivery of event logs (client/channel.go:232-267, 535-556)

The caller stores the watcher entry after it has woken up, so event frames met between the
registration reply and that store are dropped. Otherwise the logs sent are those of the frames
written after the reply, in order. -/

namespace Fiscobcos.Client
open Numerals ChannelClient List Reader

def Message.eventLogs (J : Json) (filterID : Bytes) (m : Message) : List Log :=
  if m.type = TypeEventLog then
    match J.eventLog m.data with
    | none => []
    | some e => if e.filterID = filterID then e.logs.map LogEntry.toLog else []
  else []

def frameLogs (J : Json) (filterID f : Bytes) : List Log :=
  match decodeMessage f with
  | .ok m => m.eventLogs J filterID
  | .error _ => []

def Reader.logs (J : Json) (filterID : Bytes) : Reader → List Log
  | .dispatch _ m => m.eventLogs J filterID
  | .sendLogs _ filterID' _ ls => if filterID' = filterID then ls else []
  | _ => []

def sentAfter (filterID : Bytes) (k : ℕ) (ds : List Delivery) : List Log :=
  (ds.filter fun d => d.filterID = filterID ∧ k < d.frame).map Delivery.log

def SubPc.reply : SubPc → Option (ℕ × Option ℤ)
  | .received k err | .deleted k err => some (k, err)
  | .returned (.ok (some k)) => some (k, none)
  | _ => none

def SubPc.Installing (pc : SubPc) : Prop := ∃ k, pc = .received k none ∨ pc = .deleted k none

def KeepsChannel (u : SubSide) (i : ℕ) : Prop :=
  u.watcher (u.call i).filterID = none ∨ u.watcher (u.call i).filterID = some (u.call i).ch

/-- No watched filter changes its channel. -/
def ChannelsKept (s : ChannelClient) : Action → Prop
  | .subReplace i => KeepsChannel s.sub i
  | .subFinish i => (∃ k, (s.sub.call i).pc = .deleted k none) → KeepsChannel s.sub i
  | _ => True

/-- No event frame is processed before the watcher of an acknowledged call is
stored. -/
def WatchedInTime (J : Json) (s : ChannelClient) : Action → Prop
  | .dispatch => ∀ k m i, s.reader = .dispatch k m → (s.sub.call i).pc.Installing →
    m.eventLogs J (s.sub.call i).filterID ≠ [] → s.sub.watcher (s.sub.call i).filterID ≠ none
  | _ => True

variable {i : ℕ} {filterID : Bytes}

section Watchers
variable {J : Json} {s s' : ChannelClient} {a : Action}

theorem Step.dispatch_eq (h : Step J s .dispatch s') :
    ∃ k m, s.reader = .dispatch k m ∧ s' = s.dispatch J k m := by
  cases h with
  | rpc h | sub h | notify h | close h => cases h
  | reader h =>
    cases h with
    | dispatch k m hr => exact ⟨k, m, hr, rfl⟩

theorem SubCallMove.fields (h : SubCallMove s a s' i) (hp : PendingInv s.sub)
    (hpc : (s.sub.call i).pc ≠ .idle) : (s'.sub.call i).filterID = (s.sub.call i).filterID ∧
      (s'.sub.call i).ch = (s.sub.call i).ch := by
  cases h with
  | born _ _ _ hborn => exact absurd hborn (hp.born hpc).ne
  | same h | moved _ _ h | found _ _ _ _ h | wrote _ _ _ _ h | received _ _ _ _ _ h
  | watched _ _ _ h | cancelled _ _ _ _ h =>
    rw [h]
    exact ⟨rfl, rfl⟩

theorem SubStep.watcher_keep (h : SubStep s a s') (hok : ChannelsKept s a)
    {ch : ℕ} (hw : s.sub.watcher filterID = some ch) : s'.sub.watcher filterID = some ch := by
  have hstore : ∀ i, KeepsChannel s.sub i → Function.update s.sub.watcher
      (s.sub.call i).filterID (some (s.sub.call i).ch) filterID = some ch := by
    intro i hkeep
    rw [Function.update_apply]
    split_ifs with h
    · rcases hkeep with hk | hk <;> rw [← h, hw] at hk
      · cases hk
      · exact hk.symm
    · exact hw
  cases h with
  | replace i hpc => exact hstore i hok
  | watch i k hpc => exact hstore i (hok ⟨k, hpc⟩)
  | _ => exact hw

theorem Step.watcher_keep (h : Step J s a s') (hok : ChannelsKept s a)
    {ch : ℕ} (hw : s.sub.watcher filterID = some ch) : s'.sub.watcher filterID = some ch := by
  rcases h.sub_cases with hsub | h
  · rw [hsub]
    exact hw
  · exact h.watcher_keep hok hw

structure WatcherInv (s : ChannelClient) : Prop where
  pending : PendingInv s.sub
  sent : ∀ d ∈ s.chans.delivered, s.sub.watcher d.filterID = some d.ch
  sending : ∀ k filterID ch ls, s.reader = .sendLogs k filterID ch ls →
    s.sub.watcher filterID = some ch
  installed : ∀ i r, (s.sub.call i).pc = .returned (.ok r) →
    s.sub.watcher (s.sub.call i).filterID = some (s.sub.call i).ch

theorem SubCallMove.installed_origin (h : SubCallMove s a s' i) {r : Option ℕ}
    (hpc : (s'.sub.call i).pc = .returned (.ok r)) :
    (s.sub.call i).pc = .returned (.ok r) ∨ s' = s.subWatch i r := by
  cases h with
  | same h | cancelled _ _ _ _ h =>
    rw [h] at hpc
    exact .inl hpc
  | watched r' hs _ h =>
    rw [h] at hpc
    cases hpc
    exact .inr hs
  | moved pc hnext h =>
    rw [h] at hpc
    cases hpc
    generalize (s.sub.call i).pc = old at hnext
    cases hnext
  | born _ _ _ _ h | found _ _ _ _ h | wrote _ _ _ _ h | received _ _ _ _ _ h =>
    rw [h] at hpc
    cases hpc

theorem WatcherInv.installed_step (hi : WatcherInv s) (hok : ChannelsKept s a)
    (h : Step J s a s') (i : ℕ) (r : Option ℕ) (hpc : (s'.sub.call i).pc = .returned (.ok r)) :
    s'.sub.watcher (s'.sub.call i).filterID = some (s'.sub.call i).ch := by
  rcases (h.callMove i).installed_origin hpc with hold | rfl
  · obtain ⟨hfilter, hch⟩ := (h.callMove i).fields hi.pending (by rw [hold]; nofun)
    rw [hfilter, hch]
    exact h.watcher_keep hok (hi.installed i r hold)
  · rw [subWatch_call, if_pos rfl]
    exact Function.update_self ..

theorem WatcherInv.step (hi : WatcherInv s) (hok : ChannelsKept s a) (h : Step J s a s') :
    WatcherInv s' := by
  have hkeep : ∀ {filterID ch}, s.sub.watcher filterID = some ch →
      s'.sub.watcher filterID = some ch := fun hw => h.watcher_keep hok hw
  refine ⟨hi.pending.of_step h, ?_, ?_, hi.installed_step hok h⟩
  · intro d hd
    rcases h.delivered_cases with he | ⟨k, filterID, ch, l, ls, hr, he⟩
    · exact hkeep (hi.sent d (he ▸ hd))
    · rw [he, mem_append, mem_singleton] at hd
      rcases hd with hd | rfl
      · exact hkeep (hi.sent d hd)
      · exact hkeep (hi.sending k filterID ch _ hr)
  · intro k filterID ch ls hr'
    cases h.frameOrigin (k := k) (by rw [hr']; rfl) with
    | stay hr => exact hkeep (hi.sending k filterID ch ls (hr ▸ hr'))
    | take m _ hread =>
      rw [hread] at hr'
      cases hr'
    | switch m hr _ hs =>
      subst hs
      have hto : s.dispatchTo J k m = .sendLogs k filterID ch ls := hr'
      rcases s.dispatchTo_cases J k m with he | ⟨_, _, _, _, _, _, he⟩ | ⟨_, _, _, _, he⟩ |
        ⟨e, ch', _, _, hload, _, he⟩ <;> rw [hto] at he <;> cases he
      exact hload
    | sent _ _ _ _ hr hnext =>
      rw [hnext] at hr'
      cases hr'
      exact hkeep (hi.sending k filterID ch _ hr)

theorem WatcherInv.init (cap : ℕ → ℕ) : WatcherInv (ChannelClient.init cap) :=
  ⟨.init cap, nofun, nofun, nofun⟩

end Watchers

variable {k : ℕ} {err : Option ℤ}

section Acknowledgement
variable {J : Json} {s s' : ChannelClient} {a : Action}

def SubPc.Drawn : SubPc → Prop
  | .idle | .start | .replacing | .sending | .checked => False
  | _ => True

/-- Taken frame `k` is a registration reply with the sequence id of call `i`,
and `err` is what it says. -/
structure AnsweredBy (J : Json) (s : ChannelClient) (i k : ℕ) (err : Option ℤ) : Prop where
  drawn : (s.sub.call i).pc.Drawn
  frame : ∃ f m, s.net.past[k]? = some f ∧ decodeMessage f = .ok m ∧
    m.type = TypeRegisterEventLog ∧ (s.sub.call i).seq = some m.seq ∧
    err = if J.resultInt m.data = 0 then none else some (J.resultInt m.data)

theorem SubCallMove.drawn (h : SubCallMove s a s' i) (hp : PendingInv s.sub)
    (hpc : (s.sub.call i).pc.Drawn) :
    (s'.sub.call i).pc.Drawn ∧ (s'.sub.call i).seq = (s.sub.call i).seq := by
  cases h with
  | born _ _ _ hborn =>
    rw [(hp.unborn i hborn.ge).1] at hpc
    exact hpc.elim
  | found _ hold | wrote _ hold =>
    rw [hold] at hpc
    exact hpc.elim
  | same h | cancelled _ _ _ _ h =>
    rw [h]
    exact ⟨hpc, rfl⟩
  | received _ _ _ _ _ h | watched _ _ _ h =>
    rw [h]
    exact ⟨trivial, rfl⟩
  | moved pc hnext h =>
    rw [h]
    refine ⟨?_, rfl⟩
    generalize (s.sub.call i).pc = old at hnext hpc
    cases hnext <;> trivial

theorem AnsweredBy.step (hans : AnsweredBy J s i k err)
    (hp : PendingInv s.sub) (h : Step J s a s') : AnsweredBy J s' i k err := by
  obtain ⟨hdrawn, f, m, hf, hd, htype, hseq, herr⟩ := hans
  have hkeep := (h.callMove i).drawn hp hdrawn
  exact ⟨hkeep.1, f, m, h.past_get hf, hd, htype, hkeep.2.trans hseq, herr⟩

structure ReplyInv (J : Json) (s : ChannelClient) : Prop where
  reader : ReaderInv s
  pending : PendingInv s.sub
  handed : ∀ k i err, s.reader = .replyHandOver k i err → AnsweredBy J s i k err
  received : ∀ i k err, (s.sub.call i).pc.reply = some (k, err) → AnsweredBy J s i k err

theorem SubCallMove.reply_origin (h : SubCallMove s a s' i)
    (hpc : (s'.sub.call i).pc.reply = some (k, err)) : (s.sub.call i).pc.reply = some (k, err) ∨
      s.reader = .replyHandOver k i err ∧ s' = s.subReceive i k err := by
  cases h with
  | same h | cancelled _ _ _ _ h =>
    rw [h] at hpc
    exact .inl hpc
  | received k' err' _ hr hs h =>
    rw [h] at hpc
    cases hpc
    exact .inr ⟨hr, hs⟩
  | watched r _ hold h =>
    rw [h] at hpc
    rcases hold with ⟨_, rfl⟩ | ⟨k', hold, rfl⟩
    · cases hpc
    · rw [hold]
      exact .inl hpc
  | moved pc hnext h =>
    rw [h] at hpc
    generalize (s.sub.call i).pc = old at hnext
    cases hnext with
    | delete => exact .inl hpc
    | _ => cases hpc
  | born _ _ _ _ h | found _ _ _ _ h | wrote _ _ _ _ h =>
    rw [h] at hpc
    cases hpc

theorem ReplyInv.handed_step (hi : ReplyInv J s) (h : Step J s a s')
    (hr' : s'.reader = .replyHandOver k i err) : AnsweredBy J s i k err := by
  cases h.frameOrigin (k := k) (by rw [hr']; rfl) with
  | stay hr => exact hi.handed k i err (hr ▸ hr')
  | take _ _ he | sent _ _ _ _ _ he =>
    rw [he] at hr'
    cases hr'
  | switch m hr _ hs =>
    subst hs
    have hto : s.dispatchTo J k m = .replyHandOver k i err := hr'
    rcases s.dispatchTo_cases J k m with he | ⟨_, _, _, _, _, _, he⟩ |
      ⟨i', err', htype, hload, he⟩ | ⟨_, _, _, _, _, _, he⟩ <;> rw [hto] at he <;> cases he
    obtain ⟨f, hf, hd⟩ := hi.reader.decoded k m hr
    obtain ⟨hseq, hlist⟩ := hi.pending.entry m.seq i hload
    refine ⟨?_, f, m, hf, hd, htype, hseq, ?_⟩
    · cases hpc : (s.sub.call i).pc <;> simp_all [SubPc.Listed, SubPc.Drawn]
    · rw [dispatchTo, if_neg (by rw [htype]; decide), if_pos htype,
        registerCase, hload] at hto
      cases hto
      rfl

theorem ReplyInv.step (hi : ReplyInv J s) (h : Step J s a s') : ReplyInv J s' := by
  refine ⟨hi.reader.step h, hi.pending.of_step h, fun k i err hr' => ?_, fun i k err hpc => ?_⟩
  · exact (hi.handed_step h hr').step hi.pending h
  · rcases (h.callMove i).reply_origin hpc with hold | ⟨hr, _⟩
    · exact (hi.received i k err hold).step hi.pending h
    · exact (hi.handed k i err hr).step hi.pending h

theorem ReplyInv.init (J : Json) (cap : ℕ → ℕ) : ReplyInv J (ChannelClient.init cap) :=
  ⟨.init cap, .init cap, nofun, nofun⟩

end Acknowledgement

section Logs
variable {J : Json} {s s' : ChannelClient} {a : Action}

theorem Message.eventLogs_of_type {m : Message} (h : m.type ≠ TypeEventLog) :
    m.eventLogs J filterID = [] := if_neg h

theorem readFrame_logs (k : ℕ) (filterID f : Bytes) :
    (readFrame k f).logs J filterID = frameLogs J filterID f := by
  unfold readFrame frameLogs
  cases decodeMessage f <;> rfl

theorem Reader.logLoop_logs (k : ℕ) (filterID' : Bytes) (ch : ℕ) (ls : List Log)
    (filterID : Bytes) :
    (Reader.logLoop k filterID' ch ls).logs J filterID = if filterID' = filterID then ls else [] := by
  rcases logLoop_cases k filterID' ch ls with ⟨hnil, he⟩ | ⟨_, he⟩ <;> rw [he]
  · simp [hnil, logs]
  · rfl

theorem Reader.logs_of_free {r : Reader} (h : r.frame = none) (filterID : Bytes) :
    r.logs J filterID = [] := by
  cases r <;> simp_all [frame, logs]

theorem sentAfter_append (filterID : Bytes) (k : ℕ) (ds : List Delivery) (d : Delivery) :
    sentAfter filterID k (ds ++ [d]) =
      sentAfter filterID k ds ++ if d.filterID = filterID ∧ k < d.frame then [d.log] else [] := by
  unfold sentAfter
  rw [filter_append, map_append]
  split_ifs with h <;> simp [h]

theorem sentAfter_eq_nil {ds : List Delivery}
    (h : ∀ d ∈ ds, d.frame ≤ k) : sentAfter filterID k ds = [] := by
  unfold sentAfter
  rw [map_eq_nil_iff, filter_eq_nil_iff]
  intro d hd
  have := h d hd
  simp only [decide_eq_true_eq]
  omega

theorem ChannelClient.dispatchTo_event {k ch : ℕ} {m : Message} {e : EventLogResponse}
    (htype : m.type = TypeEventLog) (hparse : J.eventLog m.data = some e)
    (hload : s.sub.watcher e.filterID = some ch) (hne : e.logs ≠ []) :
    s.dispatchTo J k m = .sendLogs k e.filterID ch (e.logs.map LogEntry.toLog) := by
  rw [dispatchTo, if_neg (by rw [htype]; decide), if_neg (by rw [htype]; decide), if_pos htype,
    eventCase, hparse]
  simp only [hload]
  rcases Reader.logLoop_cases k e.filterID ch (e.logs.map LogEntry.toLog) with ⟨hnil, _⟩ | ⟨_, he⟩
  · exact absurd (List.map_eq_nil_iff.mp hnil) hne
  · exact he

theorem ChannelClient.dispatchTo_logs {m : Message} (k : ℕ)
    (hw : m.eventLogs J filterID ≠ [] → s.sub.watcher filterID ≠ none) :
    (s.dispatchTo J k m).logs J filterID = m.eventLogs J filterID := by
  by_cases htype : m.type = TypeEventLog
  · have hto : s.dispatchTo J k m = s.eventCase J k m := by
      rw [dispatchTo, if_neg (by rw [htype]; decide), if_neg (by rw [htype]; decide),
        if_pos htype]
    rw [Message.eventLogs, if_pos htype] at hw
    rw [hto, eventCase, Message.eventLogs, if_pos htype]
    cases hparse : J.eventLog m.data with
    | none => rfl
    | some e =>
      rw [hparse] at hw
      simp only at hw ⊢
      cases hload : s.sub.watcher e.filterID with
      | some ch => exact logLoop_logs ..
      | none =>
        by_cases he : e.filterID = filterID
        · rw [if_pos he] at hw ⊢
          by_contra hne
          exact hw (fun hnil => hne hnil.symm) (he ▸ hload)
        · rw [if_neg he]
          rfl
  · rw [Message.eventLogs_of_type htype]
    rcases s.dispatchTo_cases J k m with he | ⟨_, _, _, _, _, _, he⟩ | ⟨_, _, _, _, he⟩ |
      ⟨_, _, htype', _⟩
    · rw [he]; rfl
    · rw [he]; rfl
    · rw [he]; rfl
    · exact absurd htype' htype

theorem SubPc.reply_cases {pc : SubPc} (h : pc.reply = some (k, none)) :
    pc.Installing ∨ pc = .returned (.ok (some k)) := by
  unfold SubPc.reply at h
  split at h <;> cases h
  · exact .inl ⟨k, .inl rfl⟩
  · exact .inl ⟨k, .inr rfl⟩
  · exact .inr rfl

structure LogInv (J : Json) (s : ChannelClient) : Prop where
  reply : ReplyInv J s
  watch : WatcherInv s
  kept : KeptInv s
  later : ∀ i k, (s.sub.call i).pc.reply = some (k, none) →
    k < s.net.past.length ∧ ∀ k', s.reader.frame = some k' → k < k'
  sent : ∀ i k, (s.sub.call i).pc.reply = some (k, none) →
    sentAfter (s.sub.call i).filterID k s.chans.delivered ++
        s.reader.logs J (s.sub.call i).filterID =
      (s.net.past.drop (k + 1)).flatMap (frameLogs J (s.sub.call i).filterID)

theorem LogInv.later_move (hi : LogInv J s) (h : Step J s a s')
    (hpc : (s.sub.call i).pc.reply = some (k, none)) :
    k < s'.net.past.length ∧ ∀ k', s'.reader.frame = some k' → k < k' := by
  obtain ⟨hlt, hframe⟩ := hi.later i k hpc
  constructor
  · have hget := h.past_get (List.getElem?_eq_getElem hlt)
    exact (List.getElem?_eq_some_iff.mp hget).1
  · intro k' hk'
    cases h.frameOrigin hk' with
    | stay hr => exact hframe k' (hr ▸ hk')
    | take _ hpast => exact hpast ▸ hlt
    | switch _ hr | sent _ _ _ _ hr => exact hframe k' (by rw [hr]; rfl)

theorem LogInv.sent_move (hi : LogInv J s) (hok : WatchedInTime J s a) (h : Step J s a s')
    (hpc : (s.sub.call i).pc.reply = some (k, none)) :
    sentAfter (s.sub.call i).filterID k s'.chans.delivered ++
        s'.reader.logs J (s.sub.call i).filterID =
      (s'.net.past.drop (k + 1)).flatMap (frameLogs J (s.sub.call i).filterID) := by
  have hsent := hi.sent i k hpc
  obtain ⟨hlt, hframe⟩ := hi.later i k hpc
  cases h.move with
  | stay hr hidle => rw [hr, hidle.past, hidle.delivered, hsent]
  | free hr hr' hidle =>
    rw [logs_of_free hr] at hsent
    rw [logs_of_free hr', hidle.past, hidle.delivered, hsent]
  | take f hr hr' hpast hdelivered =>
    rw [logs_of_free hr, append_nil] at hsent
    rw [hr', readFrame_logs, hdelivered, hsent, hpast, drop_append_of_le_length (by omega),
      flatMap_append, flatMap_singleton]
  | switch k₀ m hr ha hs =>
    subst ha hs
    rw [hr] at hsent
    have hw : m.eventLogs J (s.sub.call i).filterID ≠ [] →
        s.sub.watcher (s.sub.call i).filterID ≠ none := by
      intro hlogs
      rcases SubPc.reply_cases hpc with hinst | hret
      · exact hok k₀ m i hr hinst hlogs
      · rw [hi.watch.installed i _ hret]
        nofun
    show sentAfter _ k s.chans.delivered ++ (s.dispatchTo J k₀ m).logs J _ = _
    rw [dispatchTo_logs k₀ hw]
    exact hsent
  | replied _ _ _ hr hr' _ hidle | answered _ _ _ hr hr' _ _ hidle =>
    rw [hr] at hsent
    rw [hr', hidle.past, hidle.delivered, ← hsent]
    rfl
  | sent k₀ filterID ch l ls hr hr' hpast hdelivered =>
    have hk₀ := hframe k₀ (by rw [hr]; rfl)
    rw [hr, logs] at hsent
    rw [hr', logLoop_logs, hdelivered, sentAfter_append, hpast, ← hsent]
    by_cases hF : filterID = (s.sub.call i).filterID
    · simp [hF, hk₀]
    · simp [hF]

theorem LogInv.init (J : Json) (cap : ℕ → ℕ) : LogInv J (ChannelClient.init cap) :=
  ⟨.init J cap, .init cap, .init cap, nofun, nofun⟩

/-- The condition of the delivery of logs. -/
structure Attended (J : Json) (s : ChannelClient) (a : Action) : Prop where
  watched : WatchedInTime J s a
  channels : ChannelsKept s a
  frames : FramesKept s a

theorem LogInv.step (hi : LogInv J s) (hok : Attended J s a) (h : Step J s a s') : LogInv J s' := by
  -- the two facts about a reply, for one received before and for one received now
  have hnow : ∀ i k, (s'.sub.call i).pc.reply = some (k, none) →
      (k < s'.net.past.length ∧ ∀ k', s'.reader.frame = some k' → k < k') ∧
      sentAfter (s'.sub.call i).filterID k s'.chans.delivered ++
          s'.reader.logs J (s'.sub.call i).filterID =
        (s'.net.past.drop (k + 1)).flatMap (frameLogs J (s'.sub.call i).filterID) := by
    intro i k hpc
    rcases (h.callMove i).reply_origin hpc with hold | ⟨hr, rfl⟩
    · have hfilter : (s'.sub.call i).filterID = (s.sub.call i).filterID := by
        refine ((h.callMove i).fields hi.watch.pending ?_).1
        intro hidle
        rw [hidle] at hold
        cases hold
      rw [hfilter]
      exact ⟨hi.later_move h hold, hi.sent_move hok.watched h hold⟩
    · have hlast := hi.reply.reader.last k (by rw [hr]; rfl)
      refine ⟨⟨?_, nofun⟩, ?_⟩
      · show k < s.net.past.length
        omega
      · have hnil : sentAfter ((s.subReceive i k none).sub.call i).filterID k
            s.chans.delivered = [] :=
          sentAfter_eq_nil fun d hd => by have := hi.reply.reader.taken d hd; omega
        show sentAfter _ k s.chans.delivered ++ [] = (s.net.past.drop (k + 1)).flatMap _
        rw [hnil, drop_of_length_le (by omega)]
        rfl
  exact ⟨hi.reply.step h, hi.watch.step hok.channels h, hi.kept.step hok.frames h,
    fun i k hpc => (hnow i k hpc).1, fun i k hpc => (hnow i k hpc).2⟩

end Logs

/-- A call that has returned nil was acknowledged by a registration reply with
its own sequence id. All logs for its filter in the frames written after that
reply are sent, in hand or in the frames ahead, in this order, and the channel is
that of the call; the frames ahead are the bytes the reader holds and has not read. -/
theorem no_lost_event_log (J : Json) (cap : ℕ → ℕ) (s : ChannelClient)
    (hs : Steps.Reach (Step J) (Attended J) (ChannelClient.init cap) s) (i k : ℕ)
    (hpc : (s.sub.call i).pc = .returned (.ok (some k))) : AnsweredBy J s i k none ∧
    sentAfter (s.sub.call i).filterID k s.chans.delivered ++
        s.reader.logs J (s.sub.call i).filterID ++
        s.net.ahead.flatMap (frameLogs J (s.sub.call i).filterID) =
      (s.net.written.drop (k + 1)).flatMap (frameLogs J (s.sub.call i).filterID) ∧
    s.net.ahead.flatten = s.reader.assembly.all ++ s.net.unread ∧
    (∀ d ∈ s.chans.delivered, d.filterID = (s.sub.call i).filterID → d.ch = (s.sub.call i).ch) ∧
    ∀ k' ch ls, s.reader = .sendLogs k' (s.sub.call i).filterID ch ls → ch = (s.sub.call i).ch := by
  have hi : LogInv J s := hs.invariant (.init J cap) fun _ _ _ hi hok h => hi.step hok h
  have hreply : (s.sub.call i).pc.reply = some (k, none) := by rw [hpc]; rfl
  have hwatch := hi.watch.installed i (some k) hpc
  refine ⟨hi.reply.received i k none hreply, ?_, hi.kept.bytes.symm, fun d hd hF => ?_,
    fun k' ch ls hr => ?_⟩
  · have hlt := (hi.later i k hreply).1
    rw [hi.sent i k hreply, hi.kept.split, drop_append_of_le_length (by omega),
      flatMap_append]
  · have hsent := hi.watch.sent d hd
    rw [hF, hwatch] at hsent
    exact (Option.some.inj hsent).symm
  · have hsending := hi.watch.sending k' _ ch ls hr
    rw [hwatch] at hsending
    exact (Option.some.inj hsending).symm

def someEvent : Message := nodeMessage TypeEventLog eventText

def eventFrame : Bytes := nodeFrame TypeEventLog eventText

theorem eventFrame_whole : WholeFrame eventFrame someEvent :=
  ⟨by unfold IsFrame; decide, by decide, by decide⟩

def someLog : Log := emptyEntry.toLog

theorem someEvent_logs : someEvent.eventLogs sampleJson someFilterID = [someLog] := by decide

def oneCallReceived (cap : ℕ → ℕ) : ChannelClient :=
  (((((oneRequestWritten cap).subPending 0 .waiting someSeq (some 0)).nodeWrites
    answerFrame).take (.data answerFrame) answerFrame []).dispatch sampleJson 0
    someAnswer).subReceive 0 0 none

theorem oneCallReceived_idle (cap : ℕ → ℕ) {j : ℕ} (hj : j ≠ 0) :
    ((oneCallReceived cap).sub.call j).pc = .idle := by
  rw [oneCallReceived, subReceive_call, if_neg hj]
  show (((oneRequestWritten cap).subPending 0 .waiting someSeq (some 0)).sub.call j).pc = _
  rw [subPending_call, if_neg hj, oneRequestWritten_idle cap hj]

theorem oneCallReceived_reach (cap : ℕ → ℕ) :
    Steps.Reach (Step sampleJson) (Attended sampleJson) (ChannelClient.init cap)
      (oneCallReceived cap) := by
  have h0 : Steps.Reach (Step sampleJson) (Attended sampleJson) (init cap)
      (oneRequestWritten cap) := by
    apply oneRequestWritten_reach_of
    intro s a h
    cases a <;> first | exact h.elim | exact ⟨trivial, trivial, trivial⟩
  have h1 := h0.tail (.sub (.store 0 someSeq rfl rfl)) ⟨trivial, trivial, trivial⟩
  have h2 := h1.tail (.reader (.node answerFrame)) ⟨trivial, trivial, answerFrame_whole.frame⟩
  have h3 := h2.tail (answerFrame_whole.read [] rfl (append_nil _).symm)
    ⟨trivial, trivial, answerFrame_whole.kept rfl rfl⟩
  have hread := answerFrame_whole.readFrame 0
  have h4 := h3.tail (.reader (.dispatch 0 someAnswer hread)) ⟨?_, trivial, trivial⟩
  · exact h4.tail (.sub (.receive 0 0 none rfl rfl)) ⟨trivial, trivial, trivial⟩
  · intro k m i hr _ hlogs
    have hr : readFrame 0 answerFrame = .dispatch k m := hr
    rw [hread] at hr
    cases hr
    exact absurd rfl hlogs

/-- The reader meets the first event between the caller's wake-up and its store. -/
theorem event_log_lost : ∃ s, Reachable sampleJson (fun _ => 1) s ∧
      (s.sub.call 0).pc = .returned (.ok (some 0)) ∧ s.reader = .loop ∧ s.net.unread = [] ∧
      s.chans.delivered = [] ∧
      (s.net.written.drop 1).flatMap (frameLogs sampleJson (s.sub.call 0).filterID) = [someLog] := by
  have h0 : Reachable sampleJson (fun _ => 1) (oneCallReceived fun _ => 1) :=
    (oneCallReceived_reach _).mono fun _ _ _ => trivial
  have h1 := h0.tail (.reader (.node eventFrame)) trivial
  have h2 := h1.tail (eventFrame_whole.read [] rfl (append_nil _).symm) trivial
  have h3 := h2.tail (.reader (.dispatch 1 someEvent (eventFrame_whole.readFrame 1))) trivial
  have h4 := h3.tail (.sub (.delete 0 0 none someSeq rfl rfl)) trivial
  have h5 := h4.tail (.sub (.watch 0 0 rfl)) trivial
  refine ⟨_, h5, rfl, by decide, rfl, rfl, ?_⟩
  show [eventFrame].flatMap (frameLogs sampleJson someFilterID) = _
  rw [flatMap_singleton, frameLogs, eventFrame_whole.decodes]
  exact someEvent_logs

/-- The log of the first event frame is sent; of the second frame a part is read. -/
theorem no_lost_event_log_delivered : ∃ s, Steps.Reach (Step sampleJson) (Attended sampleJson)
        (ChannelClient.init fun _ => 1) s ∧ (s.sub.call 0).pc = .returned (.ok (some 0)) ∧
      s.chans.delivered = [⟨1, someFilterID, 0, someLog⟩] ∧ s.net.ahead = [eventFrame] ∧
      s.reader = .assembling 101 (eventFrame.take 60) ∧
      sentAfter (s.sub.call 0).filterID 0 s.chans.delivered ++
          s.reader.logs sampleJson (s.sub.call 0).filterID ++
          s.net.ahead.flatMap (frameLogs sampleJson (s.sub.call 0).filterID) =
        (s.net.written.drop 1).flatMap (frameLogs sampleJson (s.sub.call 0).filterID) := by
  have h1 := (oneCallReceived_reach fun _ => 1).tail (.sub (.delete 0 0 none someSeq rfl rfl))
    ⟨trivial, trivial, trivial⟩
  have h2 := h1.tail (.sub (.watch 0 0 rfl)) ⟨trivial, fun _ => .inl rfl, trivial⟩
  have h3 := h2.tail (.reader (.node eventFrame)) ⟨trivial, trivial, eventFrame_whole.frame⟩
  have h4 := h3.tail (eventFrame_whole.read [] rfl (append_nil _).symm)
    ⟨trivial, trivial, eventFrame_whole.kept rfl rfl⟩
  have h5 := h4.tail (.reader (.dispatch 1 someEvent (eventFrame_whole.readFrame 1)))
    ⟨?_, trivial, trivial⟩
  · have h6 := h5.tail (.reader (.sendLog 1 someFilterID 0 someLog [] (by decide) (by decide)))
      ⟨trivial, trivial, trivial⟩
    have h7 := h6.tail (.reader (.node eventFrame)) ⟨trivial, trivial, eventFrame_whole.frame⟩
    have h8 := h7.tail (.reader (.read (eventFrame.take 60) (eventFrame.drop 60) (by decide)
      ⟨by decide, by decide⟩ (take_append_drop ..).symm)) ⟨trivial, trivial, eventFrame, rfl, by decide⟩
    exact ⟨_, h8, rfl, by decide, rfl, by decide, (no_lost_event_log sampleJson _ _ h8 0 0 rfl).2.1⟩
  · intro k m j _ hinst
    have hidle : ¬ ((((oneCallReceived fun _ => 1).subPending 0 (.deleted 0 none) someSeq
        none).subWatch 0 (some 0)).sub.call j).pc.Installing := by
      rw [subWatch_call]
      rintro ⟨k', h⟩
      split_ifs at h with hj
      · simp at h
      · rw [subPending_call, if_neg hj, oneCallReceived_idle _ hj] at h
        simp at h
    exact absurd hinst hidle

end Fiscobcos.Client
