import Fiscobcos.Client.EventLogs

/-! # Handing over registration replies (client/channel.go:232-241, 535-556)

`SubEventLogs` receives from the pending channel once, but its entry stays in `pending` until the
`Delete` after that. A second reply in this window stops the reader. -/

namespace Fiscobcos.Client
open Numerals ChannelClient

def SubPc.Served : SubPc → Prop
  | .received _ _ | .deleted _ _ | .returned _ => True
  | _ => False

section HandOver
variable {J : Json} {s s' : ChannelClient} {a : Action}

theorem SubCallMove.served {i : ℕ} (h : SubCallMove s a s' i) (hborn : i < s.sub.count)
    (hpc : (s.sub.call i).pc.Served) : (s'.sub.call i).pc.Served := by
  cases h with
  | born _ _ _ hi => exact absurd hi hborn.ne
  | found _ hold | wrote _ hold =>
    rw [hold] at hpc
    exact hpc.elim
  | same h | cancelled _ _ _ _ h =>
    rw [h]
    exact hpc
  | received _ _ _ _ _ h | watched _ _ _ h =>
    rw [h]
    trivial
  | moved pc hnext h =>
    rw [h]
    generalize (s.sub.call i).pc = old at hnext hpc
    cases hnext <;> trivial

theorem SubCallMove.waiting_cases {i : ℕ} (h : SubCallMove s a s' i)
    (hpc : (s.sub.call i).pc = .waiting) (hborn : i < s.sub.count) :
    (s'.sub.call i).pc = .waiting ∨ s'.reader = .loop := by
  cases h with
  | born _ _ _ hi => exact absurd hi hborn.ne
  | same h | cancelled _ _ _ _ h =>
    rw [h]
    exact .inl hpc
  | received _ _ _ _ hs =>
    rw [hs]
    exact .inr rfl
  | found _ hold | wrote _ hold =>
    rw [hpc] at hold
    cases hold
  | watched _ _ hold =>
    rcases hold with ⟨hold, _⟩ | ⟨_, hold, _⟩ <;> rw [hpc] at hold <;> cases hold
  | moved pc hnext =>
    rw [hpc] at hnext
    cases hnext
    simp_all

def OneReply (s : ChannelClient) : Action → Prop
  | .dispatch => ∀ k m i, s.reader = .dispatch k m → m.type = TypeRegisterEventLog →
    s.sub.pending m.seq = some i → ∀ k' err, (s.sub.call i).pc ≠ .received k' err
  | _ => True

def Awaited (s : ChannelClient) : Prop :=
  ∀ k i err, s.reader = .replyHandOver k i err → (s.sub.call i).pc = .waiting

structure HandOverInv (s : ChannelClient) : Prop where
  pending : PendingInv s.sub
  awaited : Awaited s

theorem HandOverInv.init (cap : ℕ → ℕ) : HandOverInv (init cap) :=
  ⟨.init cap, nofun⟩

theorem HandOverInv.switch (hi : HandOverInv s) {k : ℕ} {m : Message} (hr : s.reader = .dispatch k m)
    (hok : OneReply s .dispatch) : Awaited (s.dispatch J k m) := by
  intro k' i err hr'
  have hto : s.dispatchTo J k m = .replyHandOver k' i err := hr'
  show (s.sub.call i).pc = .waiting
  rcases s.dispatchTo_cases J k m with he | ⟨_, _, _, _, _, _, he⟩ | ⟨_, _, htype, hload, he⟩ |
    ⟨_, _, _, _, _, _, he⟩ <;> rw [hto] at he <;> cases he
  have hlisted := (hi.pending.entry _ _ hload).2
  have hfirst := hok k m i hr htype hload
  cases hpc : (s.sub.call i).pc with
  | waiting => rfl
  | received k'' err' => exact absurd hpc (hfirst k'' err')
  | _ => rw [hpc] at hlisted; exact hlisted.elim

theorem HandOverInv.step (hi : HandOverInv s) (hok : OneReply s a) (h : Step J s a s') :
    HandOverInv s' := by
  refine ⟨hi.pending.of_step h, fun k i err hr' => ?_⟩
  cases h.frameOrigin (k := k) (by rw [hr']; rfl) with
  | stay hr _ =>
    have hpc := hi.awaited k i err (hr ▸ hr')
    rcases (h.callMove i).waiting_cases hpc (hi.pending.born (by rw [hpc]; nofun)) with hpc' | hloop
    · exact hpc'
    · rw [hr'] at hloop
      cases hloop
  | switch m hr ha hs =>
    subst ha hs
    exact hi.switch hr hok k i err hr'
  | take _ _ he | sent _ _ _ _ _ he =>
    rw [he] at hr'
    cases hr'

theorem ChannelClient.dispatchTo_register {k i : ℕ} {m : Message}
    (htype : m.type = TypeRegisterEventLog) (hload : s.sub.pending m.seq = some i) :
    ∃ err, s.dispatchTo J k m = .replyHandOver k i err := by
  rcases s.registerCase_cases J k m with ⟨hnone, _⟩ | ⟨i', err, hsome, hto⟩
  · rw [hload] at hnone
    cases hnone
  · rw [hload, Option.some.injEq] at hsome
    subst hsome
    refine ⟨err, ?_⟩
    rw [dispatchTo, if_neg (by rw [htype]; decide), if_pos htype, hto]

theorem Reachable.pendingInv {cap : ℕ → ℕ} (hs : Reachable J cap s) : PendingInv s.sub := by
  induction hs with
  | refl => exact .init cap
  | tail _ hlast ih =>
    obtain ⟨b, _, h⟩ := hlast
    exact ih.of_step h

theorem stuck_of_served {k i : ℕ} {err : Option ℤ} (hr : s.reader = .replyHandOver k i err)
    (hborn : i < s.sub.count) (hpc : (s.sub.call i).pc.Served)
    (hs : Steps.Reach (Step J) (fun _ _ => True) s s') : s'.reader = .replyHandOver k i err := by
  have hall : s'.reader = .replyHandOver k i err ∧ i < s'.sub.count ∧ (s'.sub.call i).pc.Served := by
    apply hs.invariant ⟨hr, hborn, hpc⟩
    rintro t b t' ⟨hr, hborn, hpc⟩ - ht
    have hcount : i < t'.sub.count := by
      rcases ht.sub_cases with he | hstep
      · rw [he]
        exact hborn
      · cases hstep with
        | new => exact Nat.lt_succ_of_lt hborn
        | _ => exact hborn
    refine ⟨?_, hcount, (ht.callMove i).served hborn hpc⟩
    cases ht.move with
    | stay hr' => rw [hr', hr]
    | free hr' | take _ hr' | switch _ _ hr' | replied _ _ _ hr' | sent _ _ _ _ _ hr' =>
      rw [hr] at hr'; cases hr'
    | answered _ _ _ hr' _ hw =>
      rw [hr] at hr'
      cases hr'
      rw [hw] at hpc
      exact hpc.elim
  exact hall.1

end HandOver

/-- In a run in which no reply meets a call that has already been served, the
reader only ever holds replies that are awaited, and can be rid of them at once;
a step that breaks the condition leaves it, for good, with a reply nobody takes. -/
theorem registration_reply_awaited (J : Json) (cap : ℕ → ℕ) (s : ChannelClient) :
    (Steps.Reach (Step J) OneReply (ChannelClient.init cap) s →
      Awaited s ∧ ∀ k i err, s.reader = .replyHandOver k i err →
        ∃ s', Step J s (.subReceive i) s' ∧ s'.reader = .loop) ∧
    (Reachable J cap s → ¬ OneReply s .dispatch → ∀ s', Step J s .dispatch s' →
      ¬ Awaited s' ∧ ∃ k i err, ∀ t, Steps.Reach (Step J) (fun _ _ => True) s' t →
        t.reader = .replyHandOver k i err) := by
  constructor
  · intro hs
    have hi : HandOverInv s := hs.invariant (.init cap) fun _ _ _ hi hok h => hi.step hok h
    refine ⟨hi.awaited, fun k i err hr => ?_⟩
    exact ⟨_, .sub (.receive i k err (hi.awaited k i err hr) hr), rfl⟩
  · intro hs hbad s' h
    have hi := hs.pendingInv
    simp only [OneReply, not_forall, not_not] at hbad
    obtain ⟨k, m, i, hr, htype, hload, k', err', hpc⟩ := hbad
    obtain ⟨k₂, m₂, hr₂, rfl⟩ := h.dispatch_eq
    rw [hr] at hr₂
    cases hr₂
    obtain ⟨err, hto⟩ := s.dispatchTo_register (J := J) (k := k) htype hload
    have hpc' : ((s.dispatch J k m).sub.call i).pc = .received k' err' := hpc
    constructor
    · intro hawaited
      rw [hawaited k i err hto] at hpc'
      cases hpc'
    · refine ⟨k, i, err, fun t ht => stuck_of_served hto ?_ (by rw [hpc']; trivial) ht⟩
      exact hi.born (by rw [hpc]; nofun)

/-- The node answers one request twice, and the reader meets the second answer
before the caller has removed its entry. -/
theorem second_reply_stalls_reader :
    ∃ s, Reachable sampleJson (fun _ => 1) s ∧ s.reader = .replyHandOver 1 0 none ∧
      (s.sub.call 0).pc = .returned (.ok (some 0)) ∧ ¬ Awaited s ∧
      ∀ t, Steps.Reach (Step sampleJson) (fun _ _ => True) s t →
        t.reader = .replyHandOver 1 0 none := by
  have h0 : Reachable sampleJson (fun _ => 1) (oneCallReceived fun _ => 1) :=
    (oneCallReceived_reach _).mono fun _ _ _ => trivial
  have h1 := h0.tail (.reader (.node answerFrame)) trivial
  have h2 := h1.tail (answerFrame_whole.read [] rfl (List.append_nil _).symm) trivial
  have h3 := h2.tail (.reader (.dispatch 1 someAnswer (answerFrame_whole.readFrame 1))) trivial
  have h4 := h3.tail (.sub (.delete 0 0 none someSeq rfl rfl)) trivial
  have h5 := h4.tail (.sub (.watch 0 0 rfl)) trivial
  refine ⟨_, h5, rfl, rfl, fun hawaited => ?_, fun t ht => stuck_of_served rfl ?_ ?_ ht⟩
  · exact absurd (hawaited 1 0 none rfl) (by decide)
  · exact Nat.zero_lt_one
  · exact trivial

theorem registration_reply_awaited_once :
    ∃ s, Steps.Reach (Step sampleJson) OneReply (ChannelClient.init fun _ => 0) s ∧
      s.reader = .replyHandOver 0 0 none ∧ Awaited s := by
  have h0 : Steps.Reach (Step sampleJson) OneReply (init fun _ => 0)
      (oneRequestWritten fun _ => 0) := by
    apply oneRequestWritten_reach_of
    intro s a h
    cases a <;> first | exact h.elim | trivial
  have h1 := h0.tail (.sub (.store 0 someSeq rfl rfl)) trivial
  have h2 := h1.tail (.reader (.node answerFrame)) trivial
  have h3 := h2.tail (answerFrame_whole.read [] rfl (List.append_nil _).symm) trivial
  have h4 := h3.tail (.reader (.dispatch 0 someAnswer (answerFrame_whole.readFrame 0))) ?_
  · exact ⟨_, h4, by decide, ((registration_reply_awaited sampleJson _ _).1 h4).1⟩
  · intro k m i _ _ hload k' err hpc
    have hwaits : ∀ j, (((oneRequestWritten fun _ => 0).subPending 0 .waiting someSeq
        (some 0)).sub.call j).pc ≠ .received k' err := by
      intro j
      rw [subPending_call]
      split_ifs with hj
      · nofun
      · rw [oneRequestWritten_idle _ hj]
        nofun
    exact hwaits i hpc

end Fiscobcos.Client
