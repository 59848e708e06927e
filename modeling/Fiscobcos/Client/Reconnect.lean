import Fiscobcos.Client.BlockNotify

/-! # Subscriptions across a reconnect (client/channel.go:159-181, 535-568)

After `Reconnecte` nothing is registered again, so the tables and the requests on the connection
agree only if nothing was registered before. -/

namespace Fiscobcos.Client
open Numerals ChannelClient Function

def Net.Asked (t : Net) (filterID : Bytes) : Prop :=
  ∃ seq, (t.conn, Request.register seq filterID) ∈ t.sent

def SubPc.Outstanding : SubPc → Prop
  | .written | .waiting | .received _ _ | .deleted _ _ => True
  | _ => False

def SubPc.Watched : SubPc → Prop
  | .replacing | .returned (.ok _) => True
  | _ => False

structure Restored (s : ChannelClient) : Prop where
  watched : ∀ filterID ch, s.sub.watcher filterID = some ch → s.net.Asked filterID
  onBlock : s.notify.onBlock ≠ [] → (s.net.conn, Request.blockNotify) ∈ s.net.sent
  returned : ∀ i r, (s.sub.call i).pc = .returned (.ok r) → s.net.Asked (s.sub.call i).filterID

/-- A connection is replaced only while nothing is registered or being registered,
and no call of `BlockNotify` passes the once after a failed `Send`. -/
def NothingRegistered (s : ChannelClient) : Action → Prop
  | .dial succeeds => succeeds = true → (∀ filterID, s.sub.watcher filterID = none) ∧
    (∀ i, ¬ (s.sub.call i).pc.Outstanding) ∧ ¬ s.net.Notified
  | .notifyOnce _ => ∀ j, ¬ (s.notify.call j).pc.Failed
  | _ => True

section Reconnect
variable {J : Json} {s s' : ChannelClient} {a : Action}

theorem Step.conn_cases (h : Step J s a s') :
    (s'.net.conn = s.net.conn ∧ s'.net.opened = s.net.opened ∧
      ∀ x, x ∈ s'.net.sent → x ∈ s.net.sent ∨ x.1 = s.net.conn) ∧
      (∀ x ∈ s.net.sent, x ∈ s'.net.sent) ∨ a = .dial true ∧ s' = s.redial := by
  have hsend : ∀ r x, x ∈ (s.net.send r).sent → x ∈ s.net.sent ∨ x.1 = s.net.conn := by
    intro r x hx
    rcases Net.mem_send.mp hx with hx | rfl
    · exact .inl hx
    · exact .inr rfl
  have hkeep : ∀ r, ∀ x ∈ s.net.sent, x ∈ (s.net.send r).sent := fun r x hx =>
    Net.mem_send.mpr (.inl hx)
  cases h with
  | rpc h =>
    cases h with
    | write n => exact .inl ⟨⟨rfl, rfl, hsend _⟩, hkeep _⟩
    | _ => exact .inl ⟨⟨rfl, rfl, fun _ => .inl⟩, fun _ => id⟩
  | sub h =>
    cases h with
    | write i seq => exact .inl ⟨⟨rfl, rfl, hsend _⟩, hkeep _⟩
    | _ => exact .inl ⟨⟨rfl, rfl, fun _ => .inl⟩, fun _ => id⟩
  | notify h =>
    cases h with
    | write i | heartbeat => exact .inl ⟨⟨rfl, rfl, hsend _⟩, hkeep _⟩
    | _ => exact .inl ⟨⟨rfl, rfl, fun _ => .inl⟩, fun _ => id⟩
  | close h => cases h <;> exact .inl ⟨⟨rfl, rfl, fun _ => .inl⟩, fun _ => id⟩
  | reader h =>
    cases h with
    | dialOk => exact .inr ⟨rfl, rfl⟩
    | read c rest | readMore _ _ c rest =>
      rcases s.receive_cases _ _ c rest with ⟨_, he⟩ | ⟨_, he⟩ <;> rw [he] <;>
        exact .inl ⟨⟨rfl, rfl, fun _ => .inl⟩, fun _ => id⟩
    | _ => exact .inl ⟨⟨rfl, rfl, fun _ => .inl⟩, fun _ => id⟩

theorem SubCallMove.outstanding_origin {i : ℕ} (h : SubCallMove s a s' i)
    (hpc : (s'.sub.call i).pc.Outstanding) :
    (s.sub.call i).pc.Outstanding ∨ s'.net.Asked (s'.sub.call i).filterID := by
  cases h with
  | same h | cancelled _ _ _ _ h =>
    rw [h] at hpc
    exact .inl hpc
  | wrote seq _ _ hs h =>
    rw [h, hs]
    exact .inr ⟨seq, Net.mem_send.mpr (.inr rfl)⟩
  | received _ _ hold =>
    rw [hold]
    exact .inl trivial
  | moved pc hnext h =>
    rw [h] at hpc
    generalize (s.sub.call i).pc = old at hnext
    cases hnext with
    | store | delete => exact .inl trivial
    | _ => exact hpc.elim
  | born _ _ _ _ h | found _ _ _ _ h | watched _ _ _ h =>
    rw [h] at hpc
    exact hpc.elim

theorem SubCallMove.watched_origin {i : ℕ} (h : SubCallMove s a s' i)
    (hpc : (s'.sub.call i).pc.Watched) :
    (s.sub.call i).pc.Watched ∨ ∃ ch, s'.sub.watcher (s'.sub.call i).filterID = some ch := by
  cases h with
  | same h | cancelled _ _ _ _ h =>
    rw [h] at hpc
    exact .inl hpc
  | found ch _ hload hs h =>
    rw [h, hs]
    exact .inr ⟨ch, hload⟩
  | watched r hs _ h =>
    rw [h, hs]
    exact .inr ⟨(s.sub.call i).ch, update_self ..⟩
  | moved pc hnext h =>
    rw [h] at hpc
    generalize (s.sub.call i).pc = old at hnext
    cases hnext <;> exact hpc.elim
  | born _ _ _ _ h | wrote _ _ _ _ h | received _ _ _ _ _ h =>
    rw [h] at hpc
    exact hpc.elim

theorem SubStep.watcher_origin (h : SubStep s a s') {filterID : Bytes} {ch : ℕ}
    (hw : s'.sub.watcher filterID = some ch) :
    (∃ ch', s.sub.watcher filterID = some ch') ∨ ∃ i, (s.sub.call i).filterID = filterID ∧
      ((s.sub.call i).pc.Watched ∨ (s.sub.call i).pc.Outstanding) := by
  cases h with
  | replace i hpc =>
    by_cases hid : (s.sub.call i).filterID = filterID
    · exact .inr ⟨i, hid, .inl (by rw [hpc]; trivial)⟩
    · exact .inl ⟨ch, (update_of_ne (Ne.symm hid) ..).symm.trans hw⟩
  | watch i k hpc =>
    by_cases hid : (s.sub.call i).filterID = filterID
    · exact .inr ⟨i, hid, .inr (by rw [hpc]; trivial)⟩
    · exact .inl ⟨ch, (update_of_ne (Ne.symm hid) ..).symm.trans hw⟩
  | _ => exact .inl ⟨ch, hw⟩

theorem SubStep.watcher_stays (h : SubStep s a s') {filterID : Bytes} {ch : ℕ}
    (hw : s.sub.watcher filterID = some ch) : ∃ ch', s'.sub.watcher filterID = some ch' := by
  have hstore : ∀ i, ∃ ch', update s.sub.watcher (s.sub.call i).filterID
      (some (s.sub.call i).ch) filterID = some ch' := by
    intro i
    rw [update_apply]
    split_ifs
    · exact ⟨_, rfl⟩
    · exact ⟨ch, hw⟩
  cases h with
  | replace i | watch i => exact hstore i
  | _ => exact ⟨ch, hw⟩

theorem Net.Asked.mono {t t' : Net} {filterID : Bytes} (h : t.Asked filterID)
    (hconn : t'.conn = t.conn) (hsent : ∀ x ∈ t.sent, x ∈ t'.sent) : t'.Asked filterID := by
  obtain ⟨seq, hseq⟩ := h
  rw [Net.Asked, hconn]
  exact ⟨seq, hsent _ hseq⟩

structure AskedInv (s : ChannelClient) : Prop where
  pending : PendingInv s.sub
  watched : ∀ filterID ch, s.sub.watcher filterID = some ch → s.net.Asked filterID
  asked : ∀ i, (s.sub.call i).pc.Outstanding → s.net.Asked (s.sub.call i).filterID
  stored : ∀ i, (s.sub.call i).pc.Watched → ∃ ch, s.sub.watcher (s.sub.call i).filterID = some ch

theorem AskedInv.init (cap : ℕ → ℕ) : AskedInv (init cap) :=
  ⟨.init cap, nofun, fun _ h => h.elim, fun _ h => h.elim⟩

theorem AskedInv.redial (hi : AskedInv s) (hok : NothingRegistered s (.dial true)) :
    AskedInv s.redial := by
  obtain ⟨hnone, hout, -⟩ := hok rfl
  refine ⟨hi.pending, fun filterID ch hw => ?_, fun i h => absurd h (hout i), hi.stored⟩
  have hw : s.sub.watcher filterID = some ch := hw
  rw [hnone] at hw
  cases hw

theorem AskedInv.step_sub (hi : AskedInv s) (h : SubStep s a s') (hconn : s'.net.conn = s.net.conn)
    (hsent : ∀ x ∈ s.net.sent, x ∈ s'.net.sent) : AskedInv s' := by
  have hid : ∀ {i}, (s.sub.call i).pc ≠ .idle →
      (s'.sub.call i).filterID = (s.sub.call i).filterID := fun hpc =>
    ((h.callMove _).fields hi.pending hpc).1
  refine ⟨hi.pending.step h, fun filterID ch hw => ?_, fun i hpc => ?_, fun i hpc => ?_⟩
  · apply Net.Asked.mono _ hconn hsent
    rcases h.watcher_origin hw with ⟨ch', hw⟩ | ⟨i, rfl, hpc | hpc⟩
    · exact hi.watched filterID ch' hw
    · obtain ⟨ch', hw⟩ := hi.stored i hpc
      exact hi.watched _ ch' hw
    · exact hi.asked i hpc
  · rcases (h.callMove i).outstanding_origin hpc with hold | hnew
    · rw [hid (fun hidle => by rw [hidle] at hold; exact hold)]
      exact (hi.asked i hold).mono hconn hsent
    · exact hnew
  · rcases (h.callMove i).watched_origin hpc with hold | hnew
    · rw [hid (fun hidle => by rw [hidle] at hold; exact hold)]
      obtain ⟨ch, hw⟩ := hi.stored i hold
      exact h.watcher_stays hw
    · exact hnew

theorem AskedInv.step (hi : AskedInv s) (hok : NothingRegistered s a) (h : Step J s a s') :
    AskedInv s' := by
  rcases h.conn_cases with ⟨⟨hconn, -, -⟩, hsent⟩ | ⟨rfl, rfl⟩
  · rcases h.sub_cases with hsub | hstep
    · refine ⟨hi.pending.of_step h, ?_, ?_, ?_⟩ <;> rw [hsub]
      · exact fun filterID ch hw => (hi.watched filterID ch hw).mono hconn hsent
      · exact fun i hpc => (hi.asked i hpc).mono hconn hsent
      · exact hi.stored
    · exact hi.step_sub hstep hconn hsent
  · exact hi.redial hok

structure ToldInv (s : ChannelClient) : Prop where
  once : OnceInv s
  here : ∀ c, (c, Request.blockNotify) ∈ s.net.sent → c = s.net.conn
  told : ∀ i, (s.notify.call i).pc.Passed → s.net.Notified
  onBlock : s.notify.onBlock ≠ [] → s.net.Notified

theorem ToldInv.init (cap : ℕ → ℕ) : ToldInv (init cap) :=
  ⟨.init cap, nofun, fun i h => by (rcases h with h | h <;> cases h), fun h => absurd rfl h⟩

theorem NotifyStep.onBlock_origin (h : NotifyStep s a s') (hne : s'.notify.onBlock ≠ []) :
    s.notify.onBlock ≠ [] ∨ ∃ i, (s.notify.call i).pc.Passed := by
  cases h with
  | append i failed hpc =>
    cases failed with
    | false => exact .inr ⟨i, .inl hpc⟩
    | true => exact .inl hne
  | _ => exact .inl hne

theorem ToldInv.step (hi : ToldInv s) (hok : NothingRegistered s a) (h : Step J s a s') :
    ToldInv s' := by
  refine ⟨hi.once.step h, ?_, ?_, ?_⟩
  · rcases h.conn_cases with ⟨⟨hconn, -, hsent⟩, -⟩ | ⟨rfl, rfl⟩
    · intro c hc
      rw [hconn]
      rcases hsent _ hc with hold | hnew
      · exact hi.here c hold
      · exact hnew
    · exact fun c hc => absurd ⟨c, hc⟩ (hok rfl).2.2
  · intro i hpc
    refine h.passed_told hi.told (fun j ha _ honce => ?_) hpc
    subst ha
    rcases hi.once.done honce with htold | ⟨k, hk⟩
    · exact htold
    · exact absurd hk (hok k)
  · intro hne
    rcases h.notify_cases with hstep | hsame
    · apply hstep.notified_mono
      rcases hstep.onBlock_origin hne with hold | ⟨i, hpc⟩
      · exact hi.onBlock hold
      · exact hi.told i hpc
    · rw [hsame.onBlock] at hne
      exact hsame.notified.mpr (hi.onBlock hne)

structure DialledInv (s : ChannelClient) : Prop where
  conn : s.net.conn < s.net.opened
  sent : ∀ x ∈ s.net.sent, x.1 < s.net.opened

theorem DialledInv.step (hi : DialledInv s) (h : Step J s a s') : DialledInv s' := by
  rcases h.conn_cases with ⟨⟨hconn, hopened, hsent⟩, -⟩ | ⟨-, rfl⟩
  · refine ⟨by rw [hconn, hopened]; exact hi.conn, fun x hx => ?_⟩
    rw [hopened]
    rcases hsent x hx with hold | hnew
    · exact hi.sent x hold
    · rw [hnew]
      exact hi.conn
  · exact ⟨Nat.lt_succ_self _, fun x hx => Nat.lt_succ_of_lt (hi.sent x hx)⟩

theorem DialledInv.redial_fresh (hi : DialledInv s) (r : Request) :
    (s.redial.net.conn, r) ∉ s.redial.net.sent :=
  fun h => lt_irrefl s.net.opened (hi.sent _ h)

end Reconnect

/-- In a run in which connections are only replaced while nothing is registered,
the node on the current connection has been told of every watched filter, of
every filter whose call returned nil and, if there are callbacks, of the block
notification. A reconnect with a filter watched or a callback registered ends
this in the step that puts the reader back into its loop. -/
theorem subscriptions_survive_reconnect (J : Json) (cap : ℕ → ℕ) (s : ChannelClient) :
    (Steps.Reach (Step J) NothingRegistered (ChannelClient.init cap) s → Restored s) ∧
    (Reachable J cap s → (∃ filterID ch, s.sub.watcher filterID = some ch) ∨ s.notify.onBlock ≠ [] →
      ∀ s', Step J s (.dial true) s' → s'.reader = .loop ∧ ¬ Restored s') := by
  constructor
  · intro hs
    have hi : AskedInv s := hs.invariant (.init cap) fun _ _ _ hi hok h => hi.step hok h
    have ht : ToldInv s := hs.invariant (.init cap) fun _ _ _ hi hok h => hi.step hok h
    refine ⟨hi.watched, fun hne => ?_, fun i r hpc => ?_⟩
    · obtain ⟨c, hc⟩ := ht.onBlock hne
      rw [← ht.here c hc]
      exact hc
    · obtain ⟨ch, hw⟩ := hi.stored i (by rw [hpc]; trivial)
      exact hi.watched _ ch hw
  · intro hs hbad s' h
    have hi : DialledInv s := hs.invariant ⟨Nat.zero_lt_one, nofun⟩ fun _ _ _ hi _ h => hi.step h
    rcases h with h | h | h | h | h <;> cases h
    refine ⟨rfl, fun hr => ?_⟩
    rcases hbad with ⟨filterID, ch, hw⟩ | hne
    · obtain ⟨seq, hseq⟩ := hr.watched filterID ch hw
      exact hi.redial_fresh _ hseq
    · exact hi.redial_fresh _ (hr.onBlock hne)

/-- A filter and a callback are registered, the connection is lost and replaced,
and a second call for the filter returns nil without asking the new node. -/
theorem subscription_lost_on_reconnect :
    ∃ s, Reachable sampleJson (fun _ => 1) s ∧ s.reader = .loop ∧ s.net.conn = 1 ∧
      s.sub.watcher someFilterID = some 0 ∧ (s.sub.call 1).filterID = someFilterID ∧
      (s.sub.call 1).pc = .returned (.ok none) ∧ ¬ s.net.Asked someFilterID ∧
      s.notify.onBlock = [some 7] ∧ (1, Request.blockNotify) ∉ s.net.sent := by
  have h0 : Reachable sampleJson (fun _ => 1) (oneCallReceived fun _ => 1) :=
    (oneCallReceived_reach _).mono fun _ _ _ => trivial
  have h1 := h0.tail (.sub (.delete 0 0 none someSeq rfl rfl)) trivial
  have h2 := h1.tail (.sub (.watch 0 0 rfl)) trivial
  have h3 := h2.tail (.notify (.new (some 7))) trivial
  have h4 := h3.tail (.notify (.first 0 rfl rfl)) trivial
  have h5 := h4.tail (.notify (.check 0 rfl rfl)) trivial
  have h6 := h5.tail (.notify (.write 0 rfl rfl)) trivial
  have h7 := h6.tail (.notify (.append 0 false rfl)) trivial
  have h8 := h7.tail (.reader (.readError rfl)) trivial
  have h9 := h8.tail (.reader (.tick rfl)) trivial
  have h10 := h9.tail (.reader (.dialOk rfl)) trivial
  have h11 := h10.tail (.sub (.new someFilterID 0 false)) trivial
  have h12 := h11.tail (.sub (.found 1 0 rfl rfl (by decide +kernel))) trivial
  have h13 := h12.tail (.sub (.replace 1 rfl)) trivial
  have hsent : ∀ r, (1, r) ∉ [(0, Request.register someSeq someFilterID), (0, .blockNotify)] := by
    intro r hr
    simp at hr
  exact ⟨_, h13, rfl, rfl, rfl, rfl, rfl, fun ⟨_, h⟩ => hsent _ h, rfl, hsent _⟩

theorem subscriptions_survive_reconnect_before_use :
    ∃ s, Steps.Reach (Step sampleJson) NothingRegistered (ChannelClient.init fun _ => 0) s ∧
      s.net.conn = 1 ∧ s.sub.watcher someFilterID = some 0 ∧ Restored s := by
  have h0 : Steps.Reach (Step sampleJson) NothingRegistered (init fun _ => 0)
    (init fun _ => 0) := .refl _
  have h1 := h0.tail (.reader (.readError rfl)) trivial
  have h2 := h1.tail (.reader (.tick rfl)) trivial
  have h3 := h2.tail (.reader (.dialOk rfl)) ?_
  · have h4 := h3.tail (.sub (.new someFilterID 0 true)) trivial
    have h5 := h4.tail (.sub (.missing 0 rfl rfl rfl)) trivial
    have h6 := h5.tail (.sub (.check 0 rfl rfl)) trivial
    have h7 := h6.tail (.sub (.write 0 someSeq rfl rfl)) trivial
    have h8 := h7.tail (.sub (.store 0 someSeq rfl rfl)) trivial
    have h9 := h8.tail (.reader (.node answerFrame)) trivial
    have h10 := h9.tail (answerFrame_whole.read [] rfl (List.append_nil _).symm) trivial
    have h11 := h10.tail (.reader (.dispatch 0 someAnswer (answerFrame_whole.readFrame 0))) trivial
    have h12 := h11.tail (.sub (.receive 0 0 none rfl (by decide))) trivial
    have h13 := h12.tail (.sub (.delete 0 0 none someSeq rfl rfl)) trivial
    have h14 := h13.tail (.sub (.watch 0 0 rfl)) trivial
    exact ⟨_, h14, rfl, rfl, (subscriptions_survive_reconnect sampleJson _ _).1 h14⟩
  · intro _
    refine ⟨fun _ => rfl, fun _ h => h.elim, ?_⟩
    rintro ⟨c, hc⟩
    cases hc

end Fiscobcos.Client
