import Fiscobcos.Client.EventLogs
import Fiscobcos.Client.Rpc

/-! # Unsubscribe (client/channelsub.go, interfaces.go:34-45)

`Unsubscribe` does nothing: the watcher entry stays, and the reader goes on sending on the channel
of a consumer that has left. -/

namespace Fiscobcos.Client
open Numerals ChannelClient

/-- No event frame with logs is processed for a channel that has been
unsubscribed, and no channel is unsubscribed in the middle of a frame. -/
def NoLateEvents (J : Json) (s : ChannelClient) : Action → Prop
  | .dispatch => ∀ k m e ch i, s.reader = .dispatch k m → m.type = TypeEventLog →
    J.eventLog m.data = some e → e.logs ≠ [] → s.sub.watcher e.filterID = some ch →
    (s.sub.call i).unsubscribed ≠ none → (s.sub.call i).ch ≠ ch
  | .unsubscribe i => ∀ k filterID ls, s.reader ≠ .sendLogs k filterID (s.sub.call i).ch ls
  | _ => True

structure Quiet (s : ChannelClient) (ch u : ℕ) : Prop where
  sent : ∀ d ∈ s.chans.delivered, d.ch = ch → d.frame < u
  reader : ∀ k filterID ls, s.reader ≠ .sendLogs k filterID ch ls

section Cancel
variable {J : Json} {s s' : ChannelClient} {a : Action}

theorem SubCallMove.unsubscribed_origin {i u : ℕ} (h : SubCallMove s a s' i)
    (hu : (s'.sub.call i).unsubscribed = some u) :
    ((s.sub.call i).unsubscribed = some u ∧ (s'.sub.call i).ch = (s.sub.call i).ch) ∨
      a = .unsubscribe i ∧ s' = s.unsubscribe i ∧ u = s.net.past.length := by
  cases h with
  | born _ _ _ _ h =>
    rw [h] at hu
    cases hu
  | cancelled _ _ ha hs h =>
    rw [h] at hu
    cases hu
    exact .inr ⟨ha, hs, rfl⟩
  | same h | moved _ _ h | found _ _ _ _ h | wrote _ _ _ _ h | received _ _ _ _ _ h
  | watched _ _ _ h =>
    rw [h] at hu ⊢
    exact .inl ⟨hu, rfl⟩

def CancelledReturned (s : ChannelClient) : Prop :=
  ∀ i u, (s.sub.call i).unsubscribed = some u → ∃ r, (s.sub.call i).pc = .returned (.ok r)

theorem CancelledReturned.step (hi : CancelledReturned s) (h : Step J s a s') :
    CancelledReturned s' := by
  intro i u hu
  cases h.callMove i with
  | born _ _ _ _ h =>
    rw [h] at hu
    cases hu
  | cancelled r hpc _ _ h =>
    rw [h]
    exact ⟨r, hpc⟩
  | same h =>
    rw [h] at hu ⊢
    exact hi i u hu
  | watched r _ _ h =>
    rw [h]
    exact ⟨r, rfl⟩
  | moved pc hnext h =>
    rw [h] at hu
    obtain ⟨r, hr⟩ := hi i u hu
    rw [hr] at hnext
    cases hnext
    simp_all
  | found _ hpc _ _ h | wrote _ hpc _ _ h | received _ _ hpc _ _ h =>
    rw [h] at hu
    obtain ⟨r, hr⟩ := hi i u hu
    rw [hr] at hpc
    cases hpc

theorem Quiet.step {ch u : ℕ} (hq : Quiet s ch u) (h : Step J s a s')
    (hok : a = .dispatch → ∀ k m, s.reader = .dispatch k m →
      ∀ filterID ls, s.dispatchTo J k m ≠ .sendLogs k filterID ch ls) : Quiet s' ch u := by
  constructor
  · intro d hd hch
    rcases h.delivered_cases with he | ⟨k, filterID, ch', l, ls, hr, he⟩
    · exact hq.sent d (he ▸ hd) hch
    · rw [he, List.mem_append, List.mem_singleton] at hd
      rcases hd with hd | rfl
      · exact hq.sent d hd hch
      · obtain rfl : ch' = ch := hch
        exact absurd hr (hq.reader k filterID _)
  · intro k filterID ls hr'
    cases h.frameOrigin (k := k) (by rw [hr']; rfl) with
    | stay hr => exact hq.reader k filterID ls (hr ▸ hr')
    | take _ _ he =>
      rw [he] at hr'
      cases hr'
    | switch m hr ha hs =>
      subst hs
      exact hok ha k m hr _ _ hr'
    | sent _ _ _ _ hr he =>
      rw [he] at hr'
      cases hr'
      exact hq.reader k filterID _ hr

structure CancelInv (s : ChannelClient) : Prop where
  reader : ReaderInv s
  quiet : ∀ i u, (s.sub.call i).unsubscribed = some u → Quiet s (s.sub.call i).ch u

theorem CancelInv.step (hi : CancelInv s) (hok : NoLateEvents J s a) (h : Step J s a s') :
    CancelInv s' := by
  refine ⟨hi.reader.step h, fun i u hu => ?_⟩
  rcases (h.callMove i).unsubscribed_origin hu with ⟨hold, hch⟩ | ⟨rfl, rfl, rfl⟩
  · rw [hch]
    apply (hi.quiet i u hold).step h
    rintro rfl k m hr filterID ls hto
    rcases s.dispatchTo_cases J k m with he | ⟨_, _, _, _, _, _, he⟩ | ⟨_, _, _, _, he⟩ |
      ⟨e, ch, htype, hparse, hload, hne, he⟩ <;> rw [hto] at he <;> cases he
    exact hok k m e _ i hr htype hparse hne hload (by rw [hold]; nofun) rfl
  · rw [unsubscribe_call, if_pos rfl]
    exact ⟨fun d hd _ => hi.reader.taken d hd, hok⟩

theorem CancelInv.init (cap : ℕ → ℕ) : CancelInv (init cap) :=
  ⟨.init cap, nofun⟩

/-- A step that does not meet the condition turns the reader to a channel that has
been unsubscribed. -/
theorem Step.late_event (h : Step J s a s') (hbad : ¬ NoLateEvents J s a) :
    ∃ i u, (s'.sub.call i).unsubscribed = some u ∧ ¬ Quiet s' (s'.sub.call i).ch u := by
  cases a with
  | dispatch =>
    simp only [NoLateEvents, not_forall, not_not] at hbad
    obtain ⟨k, m, e, ch, i, hr, htype, hparse, hne, hload, hu, hch⟩ := hbad
    obtain ⟨k', m', hr', rfl⟩ := h.dispatch_eq
    rw [hr] at hr'
    cases hr'
    obtain ⟨u, hu⟩ := Option.ne_none_iff_exists'.mp hu
    have hto := dispatchTo_event (k := k) htype hparse hload hne
    rw [← hch] at hto
    exact ⟨i, u, hu, fun hq => hq.reader k e.filterID _ hto⟩
  | unsubscribe i =>
    simp only [NoLateEvents, not_forall, not_not] at hbad
    obtain ⟨k, filterID, ls, hr⟩ := hbad
    cases h with
    | rpc h | notify h | close h | reader h => cases h
    | sub h =>
      cases h
      refine ⟨i, s.net.past.length, by rw [unsubscribe_call, if_pos rfl], fun hq => ?_⟩
      rw [unsubscribe_call, if_pos rfl] at hq
      exact hq.reader k filterID ls hr
  | _ => exact absurd trivial hbad

/-- A log in the reader's hand is the next one that is sent, whatever happens. -/
theorem next_sent {k ch : ℕ} {filterID : Bytes} {l : Log} {ls : List Log}
    (hr : s.reader = .sendLogs k filterID ch (l :: ls))
    (hs : Steps.Reach (Step J) (fun _ _ => True) s s') :
    s'.reader = .sendLogs k filterID ch (l :: ls) ∧ s'.chans.delivered = s.chans.delivered ∨
      ∃ ds, s'.chans.delivered = s.chans.delivered ++ ⟨k, filterID, ch, l⟩ :: ds := by
  refine hs.invariant (I := fun t => t.reader = .sendLogs k filterID ch (l :: ls) ∧
    t.chans.delivered = s.chans.delivered ∨ ∃ ds, t.chans.delivered =
      s.chans.delivered ++ ⟨k, filterID, ch, l⟩ :: ds) (.inl ⟨hr, rfl⟩) ?_
  rintro t b t' (⟨hrt, hdt⟩ | ⟨ds, hdt⟩) - ht
  · cases ht.move with
    | stay hr' hidle => exact .inl ⟨hr'.trans hrt, hidle.delivered.trans hdt⟩
    | sent _ _ _ _ _ hr' _ _ hd =>
      rw [hrt] at hr'
      cases hr'
      exact .inr ⟨[], by rw [hd, hdt]⟩
    | free hr' | take _ hr' | switch _ _ hr' | replied _ _ _ hr' | answered _ _ _ hr' =>
      rw [hrt] at hr'
      cases hr'
  · rcases ht.delivered_cases with he | ⟨_, _, _, _, _, _, he⟩
    · exact .inr ⟨ds, he.trans hdt⟩
    · exact .inr ⟨ds ++ [_], by rw [he, hdt, List.append_assoc]; rfl⟩

end Cancel

/-- Delivery on the channel of a cancelled subscription ends in a run without late
events, and a step that is one breaks it. The watcher of the subscription stays in
place, and the logs of an event frame that comes in later for it are sent on its
channel, or the reader never gets beyond them. -/
theorem unsubscribe_cancels (J : Json) (cap : ℕ → ℕ) (s : ChannelClient)
    (hs : Reachable J cap s) (i u : ℕ) (hu : (s.sub.call i).unsubscribed = some u) :
    (Steps.Reach (Step J) (NoLateEvents J) (ChannelClient.init cap) s →
      Quiet s (s.sub.call i).ch u) ∧ (∀ a s', Step J s a s' → ¬ NoLateEvents J s a →
      ∃ j v, (s'.sub.call j).unsubscribed = some v ∧ ¬ Quiet s' (s'.sub.call j).ch v) ∧
    (Steps.Reach (Step J) ChannelsKept (ChannelClient.init cap) s →
      s.sub.watcher (s.sub.call i).filterID = some (s.sub.call i).ch) ∧
    ∀ k m e l ls, s.reader = .dispatch k m → m.type = TypeEventLog →
      J.eventLog m.data = some e → e.logs.map LogEntry.toLog = l :: ls →
      s.sub.watcher e.filterID = some (s.sub.call i).ch → ∀ s' t, Step J s .dispatch s' →
      Steps.Reach (Step J) (fun _ _ => True) s' t →
      t.reader = .sendLogs k e.filterID (s.sub.call i).ch (l :: ls) ∨ ∃ ds, t.chans.delivered =
          s.chans.delivered ++ ⟨k, e.filterID, (s.sub.call i).ch, l⟩ :: ds := by
  refine ⟨fun hrun => ?_, fun a s' h hbad => h.late_event hbad, fun hrun => ?_, ?_⟩
  · exact (hrun.invariant (.init cap) fun _ _ _ hi hok h => hi.step hok h : CancelInv s).quiet i u hu
  · have hi : WatcherInv s := hrun.invariant (.init cap) fun _ _ _ hi hok h => hi.step hok h
    have hreturned : CancelledReturned s := hs.invariant nofun fun _ _ _ hi _ h => hi.step h
    obtain ⟨r, hpc⟩ := hreturned i u hu
    exact hi.installed i r hpc
  · intro k m e l ls hr htype hparse hlogs hload s' t h ht
    obtain ⟨k', m', hr', rfl⟩ := h.dispatch_eq
    rw [hr] at hr'
    cases hr'
    have hne : e.logs ≠ [] := by
      intro hnil
      rw [hnil] at hlogs
      cases hlogs
    have hto := dispatchTo_event (k := k) htype hparse hload hne
    rw [hlogs] at hto
    exact (next_sent hto ht).imp And.left id

/-- With the subscription cancelled, two event frames come in, and the reply to a
call behind them. The first event fills the buffer nobody reads, the reader stays
in the second. -/
theorem reader_stuck_after_unsubscribe : ∃ s, Reachable sampleJson (fun _ => 1) s ∧
      (s.sub.call 0).unsubscribed = some 1 ∧ (s.sub.call 0).ch = 0 ∧
      s.chans.delivered = [⟨1, someFilterID, 0, someLog⟩] ∧
      s.reader = .sendLogs 2 someFilterID 0 [someLog] ∧ (s.chans.buf 0).length = s.chans.cap 0 ∧
      (s.rpc.call 0).pc = .waiting ∧ s.net.unread = replyFrame numberText := by
  have h0 : Reachable sampleJson (fun _ => 1) (oneCallReceived fun _ => 1) :=
    (oneCallReceived_reach _).mono fun _ _ _ => trivial
  have h1 := h0.tail (.sub (.delete 0 0 none someSeq rfl rfl)) trivial
  have h2 := h1.tail (.sub (.watch 0 0 rfl)) trivial
  have h3 := h2.tail (.sub (.unsubscribe 0 (some 0) rfl rfl rfl)) trivial
  have h4 := h3.tail (.rpc (.new [])) trivial
  have h5 := h4.tail (.rpc (.store 0 rfl)) trivial
  have h6 := h5.tail (.rpc (.check 0 rfl rfl)) trivial
  have h7 := h6.tail (.rpc (.write 0 rfl rfl)) trivial
  have h8 := h7.tail (.reader (.node eventFrame)) trivial
  have h9 := h8.tail (.reader (.node eventFrame)) trivial
  have h10 := h9.tail (.reader (.node (replyFrame numberText))) trivial
  have h11 := h10.tail (eventFrame_whole.read _ rfl (List.append_assoc ..)) trivial
  have h12 := h11.tail (.reader (.dispatch 1 someEvent (eventFrame_whole.readFrame 1))) trivial
  have h13 := h12.tail (.reader (.sendLog 1 someFilterID 0 someLog [] (by decide) (by decide)))
    trivial
  have h14 := h13.tail (eventFrame_whole.read _ (by decide) rfl) trivial
  have h15 := h14.tail (.reader (.dispatch 2 someEvent (eventFrame_whole.readFrame 2))) trivial
  exact ⟨_, h15, rfl, rfl, by decide, by decide, by decide, rfl, rfl⟩

/-- After `Unsubscribe` a reply comes in that nobody waits for, and then an event. -/
theorem unsubscribe_cancels_later_frames :
    ∃ s, Steps.Reach (Step sampleJson) (NoLateEvents sampleJson) (ChannelClient.init fun _ => 1) s ∧
      (s.sub.call 0).unsubscribed = some 1 ∧ s.net.past.length = 3 ∧ Quiet s 0 1 ∧
      ∀ t, Steps.Reach (Step sampleJson) (fun _ _ => True) (s.dispatch sampleJson 2 someEvent) t →
        t.reader = .sendLogs 2 someFilterID 0 [someLog] ∨
          ∃ ds, t.chans.delivered = ⟨2, someFilterID, 0, someLog⟩ :: ds := by
  have h0 : Steps.Reach (Step sampleJson) (NoLateEvents sampleJson)
      (init fun _ => 1) (oneRequestWritten fun _ => 1) := by
    apply oneRequestWritten_reach_of
    intro s a h
    cases a <;> first | exact h.elim | trivial
  have hother : ∀ (s : ChannelClient) (k : ℕ) (m : Message), s.reader = .dispatch k m →
      m.type ≠ TypeEventLog → NoLateEvents sampleJson s .dispatch := by
    intro s k m hr htype k' m' e ch i hr' htype'
    rw [hr] at hr'
    cases hr'
    exact absurd htype' htype
  have h1 := h0.tail (.sub (.store 0 someSeq rfl rfl)) trivial
  have h2 := h1.tail (.reader (.node answerFrame)) trivial
  have h3 := h2.tail (answerFrame_whole.read [] rfl (List.append_nil _).symm) trivial
  have hread := answerFrame_whole.readFrame 0
  have h4 := h3.tail (.reader (.dispatch 0 someAnswer hread)) (hother _ 0 someAnswer hread (by decide))
  have h5 := h4.tail (.sub (.receive 0 0 none rfl rfl)) trivial
  have h6 := h5.tail (.sub (.delete 0 0 none someSeq rfl rfl)) trivial
  have h7 := h6.tail (.sub (.watch 0 0 rfl)) trivial
  have h8 := h7.tail (.sub (.unsubscribe 0 (some 0) rfl rfl rfl)) nofun
  have h9 := h8.tail (.reader (.node (replyFrame numberText))) trivial
  have h10 := h9.tail (numberFrame_whole.read [] rfl (List.append_nil _).symm) trivial
  have hlate := numberFrame_whole.readFrame 1
  have h11 := h10.tail (.reader (.dispatch 1 (replyMessage numberText) hlate))
    (hother _ 1 _ hlate (by decide))
  have h12 := h11.tail (.reader (.node eventFrame)) trivial
  have h13 := h12.tail (eventFrame_whole.read [] (by decide) (List.append_nil _).symm) trivial
  have hevent := eventFrame_whole.readFrame 2
  have h := unsubscribe_cancels sampleJson _ _ (h13.mono fun _ _ _ => trivial) 0 1 rfl
  refine ⟨_, h13, rfl, rfl, h.1 h13, fun t ht => ?_⟩
  exact h.2.2.2 2 someEvent ⟨someFilterID, [emptyEntry]⟩ someLog [] hevent rfl (by decide) rfl
    (by decide) _ t (.reader (.dispatch 2 someEvent hevent)) ht

end Fiscobcos.Client
