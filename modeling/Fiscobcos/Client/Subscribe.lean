import Fiscobcos.Client.Reads

/-! # Registration replies (client/channel.go:232-241, 535-556)

`SubEventLogs` writes its request before it stores the pending channel, so the reader can meet the
answer in between and drop it. Otherwise every answer reaches its call, if the frames are kept. -/

namespace Fiscobcos.Client
open Numerals ChannelClient Function SubSide

section Calls
variable (s : ChannelClient) (i j : ℕ)

theorem SubSide.setCall_call (u : SubSide) (c : SubCall) :
    (u.setCall i c).call j = if j = i then c else u.call j := by
  simp [setCall, update_apply]

theorem ChannelClient.subNew_call (filterID : Bytes) (ch : ℕ) (via : Bool) :
    (s.subNew filterID ch via).sub.call j = if j = s.sub.count then
      ⟨filterID, ch, via, none, .start, none⟩ else s.sub.call j :=
  setCall_call ..

theorem ChannelClient.subMove_call (pc : SubPc) :
    (s.subMove i pc).sub.call j =
      if j = i then { s.sub.call i with pc := pc } else s.sub.call j :=
  setCall_call ..

theorem ChannelClient.subWrite_call (seq : Bytes) :
    (s.subWrite i seq).sub.call j =
      if j = i then { s.sub.call i with seq := some seq, pc := .written } else s.sub.call j :=
  setCall_call ..

theorem ChannelClient.subPending_call (pc : SubPc) (seq : Bytes) (v : Option ℕ) :
    (s.subPending i pc seq v).sub.call j =
      if j = i then { s.sub.call i with pc := pc } else s.sub.call j :=
  setCall_call ..

theorem ChannelClient.subWatch_call (reply : Option ℕ) :
    (s.subWatch i reply).sub.call j =
      if j = i then { s.sub.call i with pc := .returned (.ok reply) } else s.sub.call j :=
  setCall_call ..

theorem ChannelClient.subReceive_call (k : ℕ) (err : Option ℤ) :
    (s.subReceive i k err).sub.call j =
      if j = i then { s.sub.call i with pc := .received k err } else s.sub.call j :=
  setCall_call ..

theorem ChannelClient.unsubscribe_call :
    (s.unsubscribe i).sub.call j =
      if j = i then { s.sub.call i with unsubscribed := some s.net.past.length }
      else s.sub.call j :=
  setCall_call ..

end Calls

/-- The moves of a call that only concern itself. -/
inductive SubPc.Next : SubPc → SubPc → Prop
  | invalid : Next .start (.returned .invalidFilterID)
  | missing : Next .start .sending
  | check : Next .sending .checked
  | fail {pc : SubPc} (h : pc = .sending ∨ pc = .checked) : Next pc (.returned .sendError)
  | store : Next .written .waiting
  | delete (k : ℕ) (err : Option ℤ) : Next (.received k err) (.deleted k err)
  | refused (k : ℕ) (code : ℤ) : Next (.deleted k (some code)) (.returned (.registerFailed code))

/-- What a step can do to call `i`. -/
inductive SubCallMove (s : ChannelClient) (a : Action) (s' : ChannelClient) (i : ℕ) : Prop
  | same (h : s'.sub.call i = s.sub.call i)
  | born (filterID : Bytes) (ch : ℕ) (via : Bool) (hi : i = s.sub.count)
      (h : s'.sub.call i = ⟨filterID, ch, via, none, .start, none⟩)
  | moved (pc : SubPc) (hnext : (s.sub.call i).pc.Next pc)
      (h : s'.sub.call i = { s.sub.call i with pc := pc })
  | found (ch : ℕ) (hpc : (s.sub.call i).pc = .start)
      (hload : s.sub.watcher (s.sub.call i).filterID = some ch) (hs : s' = s.subMove i .replacing)
      (h : s'.sub.call i = { s.sub.call i with pc := .replacing })
  | wrote (seq : Bytes) (hpc : (s.sub.call i).pc = .checked) (ha : a = .subWrite i seq)
      (hs : s' = s.subWrite i seq)
      (h : s'.sub.call i = { s.sub.call i with seq := some seq, pc := .written })
  | received (k : ℕ) (err : Option ℤ) (hpc : (s.sub.call i).pc = .waiting)
      (hr : s.reader = .replyHandOver k i err) (hs : s' = s.subReceive i k err)
      (h : s'.sub.call i = { s.sub.call i with pc := .received k err })
  | watched (r : Option ℕ) (hs : s' = s.subWatch i r)
      (hpc : (s.sub.call i).pc = .replacing ∧ r = none ∨
        ∃ k, (s.sub.call i).pc = .deleted k none ∧ r = some k)
      (h : s'.sub.call i = { s.sub.call i with pc := .returned (.ok r) })
  | cancelled (r : Option ℕ) (hpc : (s.sub.call i).pc = .returned (.ok r))
      (ha : a = .unsubscribe i) (hs : s' = s.unsubscribe i)
      (h : s'.sub.call i = { s.sub.call i with unsubscribed := some s.net.past.length })

theorem SubStep.callMove {s s' : ChannelClient} {a : Action} (h : SubStep s a s') (i : ℕ) :
    SubCallMove s a s' i := by
  cases h with
  | consume | consumeDirect => exact .same rfl
  | new filterID ch via =>
    by_cases hij : i = s.sub.count
    · exact .born filterID ch via hij (by rw [subNew_call, if_pos hij])
    · exact .same (by rw [subNew_call, if_neg hij])
  | invalid j hpc | found j _ hpc | missing j hpc | replace j hpc | check j hpc | write j _ hpc
  | fail j hpc | store j _ hpc | receive j _ _ hpc | delete j _ _ _ hpc | refused j _ _ hpc
  | watch j _ hpc | unsubscribe j _ hpc =>
    by_cases hij : i = j
    · subst hij
      have hself : ∀ c, (s.sub.setCall i c).call i = c := fun c => by
        rw [setCall_call, if_pos rfl]
      first
        | exact .moved _ (.fail hpc) (hself _)
        | exact .moved _ (by rw [hpc]; constructor) (hself _)
        | exact .found _ hpc ‹_› rfl (hself _)
        | exact .wrote _ hpc rfl rfl (hself _)
        | exact .received _ _ hpc ‹_› rfl (hself _)
        | exact .watched _ rfl (.inl ⟨hpc, rfl⟩) (hself _)
        | exact .watched _ rfl (.inr ⟨_, hpc, rfl⟩) (hself _)
        | exact .cancelled _ hpc rfl rfl (hself _)
    · have hother : ∀ c, (s.sub.setCall j c).call i = s.sub.call i := fun c => by
        rw [setCall_call, if_neg hij]
      exact .same (hother _)

def SubPc.Listed : SubPc → Prop
  | .waiting | .received _ _ => True
  | _ => False

structure PendingInv (u : SubSide) : Prop where
  unborn : ∀ i, u.count ≤ i → (u.call i).pc = .idle ∧ (u.call i).seq = none
  entry : ∀ q i, u.pending q = some i → (u.call i).seq = some q ∧ (u.call i).pc.Listed

section Pending
variable {J : Json} {u : SubSide} {s s' : ChannelClient} {a : Action}

theorem PendingInv.born (hi : PendingInv u) {i : ℕ} (h : (u.call i).pc ≠ .idle) : i < u.count := by
  by_contra hn
  exact h (hi.unborn i (by omega)).1

theorem PendingInv.setCall (hi : PendingInv u) {i : ℕ} (c : SubCall)
    (hborn : (u.call i).pc ≠ .idle) (hlist : ¬ (u.call i).pc.Listed) :
    PendingInv (u.setCall i c) := by
  have hlt := hi.born hborn
  constructor
  · intro j hj
    rw [setCall_call, if_neg]
    · exact hi.unborn j hj
    · rintro rfl
      exact absurd hlt (not_lt.mpr hj)
  · intro q j hq
    obtain ⟨hseq, hpc⟩ := hi.entry q j hq
    rw [setCall_call, if_neg]
    · exact ⟨hseq, hpc⟩
    · rintro rfl
      exact hlist hpc

theorem PendingInv.step (hi : PendingInv s.sub) (h : SubStep s a s') : PendingInv s'.sub := by
  cases h with
  | new filterID ch via =>
    constructor
    · intro j hj
      have hj : s.sub.count + 1 ≤ j := hj
      rw [subNew_call, if_neg (by omega)]
      exact hi.unborn j (by omega)
    · intro q j hq
      obtain ⟨hseq, hpc⟩ := hi.entry q j hq
      rw [subNew_call, if_neg]
      · exact ⟨hseq, hpc⟩
      · rintro rfl
        rw [(hi.unborn _ le_rfl).2] at hseq
        cases hseq
  | invalid i hpc | found i _ hpc | missing i hpc | check i hpc | write i _ hpc
  | refused i _ _ hpc | unsubscribe i _ hpc =>
    exact hi.setCall (i := i) _ (by rw [hpc]; nofun) (by rw [hpc]; exact not_false)
  | replace i hpc =>
    have hmoved := hi.setCall (i := i) { s.sub.call i with pc := .returned (.ok none) }
      (by rw [hpc]; nofun) (by rw [hpc]; exact not_false)
    exact ⟨hmoved.unborn, hmoved.entry⟩
  | watch i k hpc =>
    have hmoved := hi.setCall (i := i) { s.sub.call i with pc := .returned (.ok (some k)) }
      (by rw [hpc]; nofun) (by rw [hpc]; exact not_false)
    exact ⟨hmoved.unborn, hmoved.entry⟩
  | fail i hpc =>
    rcases hpc with hpc | hpc <;>
      exact hi.setCall (i := i) _ (by rw [hpc]; nofun) (by rw [hpc]; exact not_false)
  | store i seq hpc hseq =>
    have hmoved := hi.setCall (i := i) { s.sub.call i with pc := .waiting } (by rw [hpc]; nofun)
      (by rw [hpc]; exact not_false)
    refine ⟨hmoved.unborn, fun q j hq => ?_⟩
    have hq : update s.sub.pending seq (some i) q = some j := hq
    rw [update_apply] at hq
    split_ifs at hq with h
    · cases hq
      rw [subPending_call, if_pos rfl, h]
      exact ⟨hseq, trivial⟩
    · exact hmoved.entry q j hq
  | receive i k err hpc hr =>
    constructor
    · intro j hj
      rw [subReceive_call, if_neg]
      · exact hi.unborn j hj
      · rintro rfl
        rw [(hi.unborn j hj).1] at hpc
        cases hpc
    · intro q j hq
      obtain ⟨hseq, hlist⟩ := hi.entry q j hq
      rw [subReceive_call]
      split_ifs with h
      · subst h
        exact ⟨hseq, trivial⟩
      · exact ⟨hseq, hlist⟩
  | delete i k err seq hpc hseq =>
    constructor
    · intro j hj
      rw [subPending_call, if_neg]
      · exact hi.unborn j hj
      · rintro rfl
        rw [(hi.unborn j hj).1] at hpc
        cases hpc
    · intro q j hq
      have hq : update s.sub.pending seq none q = some j := hq
      rw [update_apply] at hq
      split_ifs at hq with h
      obtain ⟨hseqj, hlist⟩ := hi.entry q j hq
      rw [subPending_call, if_neg]
      · exact ⟨hseqj, hlist⟩
      · rintro rfl
        rw [hseq, Option.some.injEq] at hseqj
        exact h hseqj.symm
  | consume | consumeDirect => exact hi

theorem NotifyStep.sub_eq (h : NotifyStep s a s') : s'.sub = s.sub := by cases h <;> rfl

theorem RpcStep.sub_eq (h : RpcStep s a s') : s'.sub = s.sub := by cases h <;> rfl

theorem CloseStep.sub_eq (h : CloseStep s a s') : s'.sub = s.sub := by cases h <;> rfl

theorem ReaderStep.sub_eq (h : ReaderStep J s a s') : s'.sub = s.sub := by
  cases h with
  | read | readMore => rw [receive_eq]
  | _ => rfl

theorem Step.sub_cases (h : Step J s a s') : s'.sub = s.sub ∨ SubStep s a s' := by
  cases h with
  | rpc h | notify h | close h | reader h => exact .inl h.sub_eq
  | sub h => exact .inr h

theorem Step.callMove (h : Step J s a s') (i : ℕ) : SubCallMove s a s' i := by
  rcases h.sub_cases with he | h
  · exact .same (by rw [he])
  · exact h.callMove i

theorem PendingInv.init (cap : ℕ → ℕ) : PendingInv (init cap).sub :=
  ⟨fun _ _ => ⟨rfl, rfl⟩, nofun⟩

theorem PendingInv.of_step (hi : PendingInv s.sub) (h : Step J s a s') : PendingInv s'.sub := by
  rcases h.sub_cases with he | h
  · rw [he]
    exact hi
  · exact hi.step h

end Pending

def Answers (f seq : Bytes) : Prop :=
  ∃ m, decodeMessage f = .ok m ∧ m.type = TypeRegisterEventLog ∧ m.seq = seq

def SubPc.Expecting (pc : SubPc) : Prop := pc = .written ∨ pc = .waiting

def InHand (s : ChannelClient) (k i : ℕ) : Prop :=
  (∃ m, s.reader = .dispatch k m) ∨ ∃ err, s.reader = .replyHandOver k i err

def SubPc.Answered : SubPc → Prop
  | .received _ _ | .deleted _ _ | .returned (.registerFailed _) | .returned (.ok (some _)) => True
  | _ => False

/-- The node has answered, no frame is on its way, and the call goes on waiting. -/
def LostReply (s : ChannelClient) (i : ℕ) : Prop :=
  ∃ seq, ∃ f ∈ s.net.written, (s.sub.call i).seq = some seq ∧ (s.sub.call i).pc.Expecting ∧
    Answers f seq ∧ s.net.unread = [] ∧ s.reader = .loop

def PromptStore (s : ChannelClient) : Action → Prop
  | .subWrite _ seq =>
    (∀ j, (s.sub.call j).seq ≠ some seq) ∧ ∀ f ∈ s.net.past, ¬ Answers f seq
  | .dispatch => ∀ k m i, s.reader = .dispatch k m → m.type = TypeRegisterEventLog →
    (s.sub.call i).seq = some m.seq → (s.sub.call i).pc ≠ .written
  | _ => True

section Registration
variable {J : Json} {s s' : ChannelClient} {a : Action}

structure SeqInv (u : SubSide) : Prop where
  uniq : ∀ i j q, (u.call i).seq = some q → (u.call j).seq = some q → i = j
  stored : ∀ i q, (u.call i).seq = some q → (u.call i).pc = .waiting → u.pending q = some i
  drawn : ∀ i q, (u.call i).seq = some q → (u.call i).pc.Expecting ∨ (u.call i).pc.Answered

theorem SubCallMove.seq_origin {i : ℕ} {q : Bytes} (h : SubCallMove s a s' i)
    (hseq : (s'.sub.call i).seq = some q) : (s.sub.call i).seq = some q ∨ a = .subWrite i q := by
  cases h with
  | born _ _ _ _ h =>
    rw [h] at hseq
    cases hseq
  | wrote seq _ ha _ h =>
    rw [h] at hseq
    cases hseq
    exact .inr ha
  | same h | moved _ _ h | found _ _ _ _ h | received _ _ _ _ _ h | watched _ _ _ h
  | cancelled _ _ _ _ h =>
    rw [h] at hseq
    exact .inl hseq

theorem SeqInv.drawn_step (hi : SeqInv s.sub) {i : ℕ} {q : Bytes} (h : SubCallMove s a s' i)
    (hseq : (s'.sub.call i).seq = some q) :
    (s'.sub.call i).pc.Expecting ∨ (s'.sub.call i).pc.Answered := by
  cases h with
  | born _ _ _ _ h =>
    rw [h] at hseq
    cases hseq
  | wrote _ _ _ _ h =>
    rw [h]
    exact .inl (.inl rfl)
  | received _ _ _ _ _ h =>
    rw [h]
    exact .inr trivial
  | same h | cancelled _ _ _ _ h =>
    rw [h] at hseq ⊢
    exact hi.drawn i q hseq
  | found _ hpc _ _ h =>
    rw [h] at hseq
    have hdrawn := hi.drawn i q hseq
    simp [hpc, SubPc.Expecting, SubPc.Answered] at hdrawn
  | moved pc hnext h =>
    rw [h] at hseq ⊢
    have hdrawn := hi.drawn i q hseq
    generalize (s.sub.call i).pc = old at hnext hdrawn
    cases hnext with
    | store => exact .inl (.inr rfl)
    | delete | refused => exact .inr trivial
    | fail hpc => rcases hpc with rfl | rfl <;> simp [SubPc.Expecting, SubPc.Answered] at hdrawn
    | _ => simp [SubPc.Expecting, SubPc.Answered] at hdrawn
  | watched r _ hpc h =>
    rw [h] at hseq ⊢
    have hdrawn := hi.drawn i q hseq
    rcases hpc with ⟨hpc, _⟩ | ⟨k, _, rfl⟩
    · simp [hpc, SubPc.Expecting, SubPc.Answered] at hdrawn
    · exact .inr trivial

theorem SeqInv.uniq_step (hi : SeqInv s.sub) (hok : PromptStore s a) (h : SubStep s a s')
    (i j : ℕ) (q : Bytes) (hseqi : (s'.sub.call i).seq = some q)
    (hseqj : (s'.sub.call j).seq = some q) : i = j := by
  rcases (h.callMove i).seq_origin hseqi with hi' | rfl <;>
    rcases (h.callMove j).seq_origin hseqj with hj' | ha
  · exact hi.uniq i j q hi' hj'
  · subst ha
    exact absurd hi' (hok.1 i)
  · exact absurd hj' (hok.1 j)
  · cases ha
    rfl

theorem SeqInv.step (hi : SeqInv s.sub) (hok : PromptStore s a) (h : SubStep s a s') :
    SeqInv s'.sub := by
  refine ⟨hi.uniq_step hok h, fun i q hseq hpc => ?_, fun i _ => hi.drawn_step (h.callMove i)⟩
  cases h with
  | store j seq hj hseqj =>
    rw [subPending_call] at hseq hpc
    show update s.sub.pending seq (some j) q = some i
    split_ifs at hseq hpc with hij
    · subst hij
      rw [show q = seq from Option.some.inj (hseq.symm.trans hseqj), update_self]
    · have hne : q ≠ seq := by
        rintro rfl
        exact hij (hi.uniq i j q hseq hseqj)
      rw [update_of_ne hne]
      exact hi.stored i q hseq hpc
  | delete j k err seq hj hseqj =>
    rw [subPending_call] at hseq hpc
    show update s.sub.pending seq none q = some i
    split_ifs at hseq hpc with hij
    have hne : q ≠ seq := by
      rintro rfl
      exact hij (hi.uniq i j q hseq hseqj)
    rw [update_of_ne hne]
    exact hi.stored i q hseq hpc
  | unsubscribe j =>
    rw [unsubscribe_call] at hseq hpc
    split_ifs at hseq hpc with hij
    · subst hij
      exact hi.stored i q hseq hpc
    · exact hi.stored i q hseq hpc
  | consume | consumeDirect => exact hi.stored i q hseq hpc
  | new | invalid | found | missing | replace | check | write | fail | receive | refused | watch =>
    simp only [subNew_call, subMove_call, subWatch_call,
      subReceive_call, subWrite_call] at hseq hpc
    split_ifs at hseq hpc with hij
    exact hi.stored i q hseq hpc

theorem SubCallMove.expecting_origin {i : ℕ} {q : Bytes} (h : SubCallMove s a s' i)
    (hseq : (s'.sub.call i).seq = some q) (hpc : (s'.sub.call i).pc.Expecting) :
    ((s.sub.call i).seq = some q ∧ (s.sub.call i).pc.Expecting) ∨
      a = .subWrite i q ∧ s'.net.past = s.net.past := by
  cases h with
  | same h | cancelled _ _ _ _ h =>
    rw [h] at hseq hpc
    exact .inl ⟨hseq, hpc⟩
  | wrote seq _ ha hs h =>
    rw [h] at hseq
    cases hseq
    exact .inr ⟨ha, by rw [hs]; rfl⟩
  | moved pc hnext h =>
    rw [h] at hseq hpc
    generalize hold : (s.sub.call i).pc = old at hnext
    cases hnext with
    | store => exact .inl ⟨hseq, .inl rfl⟩
    | _ => simp [SubPc.Expecting] at hpc
  | born _ _ _ _ h | found _ _ _ _ h | received _ _ _ _ _ h | watched _ _ _ h =>
    rw [h] at hpc
    simp [SubPc.Expecting] at hpc

structure AnswerInv (s : ChannelClient) : Prop where
  reader : ReaderInv s
  seqs : SeqInv s.sub
  held : ∀ i q (k : ℕ) f, (s.sub.call i).seq = some q → (s.sub.call i).pc.Expecting →
    s.net.past[k]? = some f → Answers f q → InHand s k i

theorem InHand.frame {k i : ℕ} (h : InHand s k i) : s.reader.frame = some k := by
  rcases h with ⟨m, hr⟩ | ⟨err, hr⟩ <;> rw [hr] <;> rfl

theorem AnswerInv.held_move (hi : AnswerInv s) (hok : PromptStore s a) (h : Step J s a s')
    {i : ℕ} {q : Bytes} {k : ℕ} {f : Bytes} (hseq : (s.sub.call i).seq = some q)
    (hpc : (s.sub.call i).pc.Expecting) (hpc' : (s'.sub.call i).pc.Expecting)
    (hk : s'.net.past[k]? = some f) (hf : Answers f q) : InHand s' k i := by
  have hold : s'.net.past = s.net.past → InHand s k i := fun hpast =>
    hi.held i q k f hseq hpc (hpast ▸ hk) hf
  cases h.move with
  | stay hr hidle =>
    rw [InHand, hr]
    exact hold hidle.past
  | free hr _ hidle =>
    have := (hold hidle.past).frame
    rw [hr] at this
    cases this
  | take g hr hr' hpast =>
    rw [hpast] at hk
    by_cases hlt : k < s.net.past.length
    · rw [List.getElem?_append_left hlt] at hk
      have := (hi.held i q k f hseq hpc hk hf).frame
      rw [hr] at this
      cases this
    · rw [List.getElem?_append_right (by omega), List.getElem?_singleton] at hk
      split_ifs at hk with h0
      cases hk
      obtain ⟨m, hd, _, _⟩ := hf
      have hkl : k = s.net.past.length := by omega
      left
      refine ⟨m, ?_⟩
      rw [hr', readFrame, hd, hkl]
  | switch k' m hr ha hs =>
    subst ha hs
    have hkeep := hold rfl
    rcases hkeep with ⟨m', hr'⟩ | ⟨_, hr'⟩ <;> rw [hr] at hr' <;> cases hr'
    obtain ⟨g, hg, hd⟩ := hi.reader.decoded k m hr
    have hfg : f = g := Option.some.inj (hk.symm.trans hg)
    subst hfg
    obtain ⟨m', hd', htype, hmseq⟩ := hf
    rw [hd] at hd'
    cases hd'
    have hwaiting : (s.sub.call i).pc = .waiting := by
      rcases hpc with hw | hw
      · exact absurd hw (hok k m i hr htype (hseq.trans (by rw [hmseq])))
      · exact hw
    have hload := hi.seqs.stored i q hseq hwaiting
    rw [← hmseq] at hload
    rcases s.registerCase_cases J k m with ⟨hnone, _⟩ | ⟨i', err, hsome, hto⟩
    · rw [hload] at hnone
      cases hnone
    · rw [hload, Option.some.injEq] at hsome
      subst hsome
      refine .inr ⟨err, ?_⟩
      show s.dispatchTo J k m = _
      rw [dispatchTo, if_neg (by rw [htype]; decide), if_pos htype, hto]
  | replied _ _ _ hr _ _ hidle =>
    rcases hold hidle.past with ⟨_, hk'⟩ | ⟨_, hk'⟩ <;> rw [hr] at hk' <;> cases hk'
  | sent _ _ _ _ _ hr _ hpast =>
    rcases hold hpast with ⟨_, hk'⟩ | ⟨_, hk'⟩ <;> rw [hr] at hk' <;> cases hk'
  | answered k' i' err hr hr' _ hsub hidle =>
    rcases hold hidle.past with ⟨_, hk'⟩ | ⟨_, hk'⟩ <;> rw [hr] at hk' <;> cases hk'
    rw [hsub, setPc, setCall_call, if_pos rfl] at hpc'
    rcases hpc' with hpc' | hpc' <;> cases hpc'

theorem AnswerInv.init (cap : ℕ → ℕ) : AnswerInv (init cap) :=
  ⟨.init cap, ⟨nofun, nofun, nofun⟩, fun _ _ _ _ h => nomatch h⟩

theorem AnswerInv.step (hi : AnswerInv s) (hok : PromptStore s a) (h : Step J s a s') :
    AnswerInv s' := by
  refine ⟨hi.reader.step h, ?_, fun i q k f hseq hpc hk hf => ?_⟩
  · rcases h.sub_cases with hsub | h
    · rw [hsub]
      exact hi.seqs
    · exact hi.seqs.step hok h
  · rcases (h.callMove i).expecting_origin hseq hpc with ⟨hseq', hpc'⟩ | ⟨rfl, hpast⟩
    · exact hi.held_move hok h hseq' hpc' hpc hk hf
    · rw [hpast] at hk
      exact absurd hf (hok.2 f (List.mem_of_getElem? hk))

end Registration

/-- In a run with prompt stores in which the frames are kept no registration reply
is lost: an answer that the node has written to a call is not yet read, in the
reader's hand, or the call has received one; the hand-over is open. -/
theorem no_lost_registration_reply (J : Json) (cap : ℕ → ℕ) (s : ChannelClient)
    (hs : Steps.Reach (Step J) (fun s a => PromptStore s a ∧ FramesKept s a)
      (ChannelClient.init cap) s) (i : ℕ) : ¬ LostReply s i ∧
    (∀ q (k : ℕ) f, (s.sub.call i).seq = some q → s.net.written[k]? = some f → Answers f q →
      s.net.past.length ≤ k ∨ InHand s k i ∨ (s.sub.call i).pc.Answered) ∧
    ∀ k err, s.reader = .replyHandOver k i err → (s.sub.call i).pc = .waiting →
      ∃ s', Step J s (.subReceive i) s' ∧ (s'.sub.call i).pc = .received k err := by
  obtain ⟨hi, hkept⟩ : AnswerInv s ∧ KeptInv s :=
    hs.invariant (I := fun s => AnswerInv s ∧ KeptInv s) ⟨.init cap, .init cap⟩
      fun _ _ _ hi hok h => ⟨hi.1.step hok.1 h, hi.2.step hok.2 h⟩
  have hanswer : ∀ q (k : ℕ) f, (s.sub.call i).seq = some q → s.net.written[k]? = some f →
      Answers f q → s.net.past.length ≤ k ∨ InHand s k i ∨ (s.sub.call i).pc.Answered := by
    intro q k f hseq hk hf
    rcases hi.seqs.drawn i q hseq with hpc | hpc
    · by_cases hlt : k < s.net.past.length
      · rw [hkept.split, List.getElem?_append_left hlt] at hk
        exact .inr (.inl (hi.held i q k f hseq hpc hk hf))
      · exact .inl (Nat.le_of_not_lt hlt)
    · exact .inr (.inr hpc)
  refine ⟨?_, hanswer, fun k err hr hpc => ?_⟩
  · rintro ⟨seq, f, hf, hseq, hpc, hans, hunread, hr⟩
    obtain ⟨k, hk⟩ := List.mem_iff_getElem?.mp hf
    rcases hanswer seq k f hseq hk hans with hle | hhand | hdone
    · rw [hkept.split, List.getElem?_append_right hle] at hk
      exact hkept.not_ahead hr hunread f (List.mem_of_getElem? hk)
    · have hframe := hhand.frame
      rw [hr] at hframe
      cases hframe
    · rcases hpc with h | h <;> rw [h] at hdone <;> exact hdone
  · refine ⟨_, .sub (.receive i k err hpc hr), ?_⟩
    rw [subReceive_call, if_pos rfl]

def someAnswer : Message := nodeMessage TypeRegisterEventLog acceptText

def answerFrame : Bytes := nodeFrame TypeRegisterEventLog acceptText

theorem answerFrame_whole : WholeFrame answerFrame someAnswer :=
  ⟨by unfold IsFrame; decide, by decide, by decide⟩

theorem answerFrame_answers : Answers answerFrame someSeq :=
  ⟨someAnswer, answerFrame_whole.decodes, rfl, rfl⟩

def oneRequestWritten (cap : ℕ → ℕ) : ChannelClient :=
  ((((ChannelClient.init cap).subNew someFilterID 0 true).subMove 0 .sending).subMove 0
    .checked).subWrite 0 someSeq

theorem oneRequestWritten_idle (cap : ℕ → ℕ) {j : ℕ} (hj : j ≠ 0) :
    ((oneRequestWritten cap).sub.call j).pc = .idle := by
  rw [oneRequestWritten, subWrite_call, if_neg hj, subMove_call,
    if_neg hj, subMove_call, if_neg hj, subNew_call]
  exact congrArg SubCall.pc (if_neg hj)

def Action.Registers : Action → Prop
  | .subNew _ _ _ | .subLoad _ | .subCheck _ | .subWrite _ _ => True
  | _ => False

theorem oneRequestWritten_reach (J : Json) (cap : ℕ → ℕ) :
    Steps.Reach (Step J) (fun s a => PromptStore s a ∧ a.Registers) (init cap)
      (oneRequestWritten cap) := by
  have h0 : Steps.Reach (Step J) (fun s a => PromptStore s a ∧ a.Registers)
    (init cap) (init cap) := .refl _
  have h1 := h0.tail (.sub (.new someFilterID 0 true)) ⟨trivial, trivial⟩
  have h2 := h1.tail (.sub (.missing 0 rfl rfl rfl)) ⟨trivial, trivial⟩
  have h3 := h2.tail (.sub (.check 0 rfl rfl)) ⟨trivial, trivial⟩
  refine h3.tail (.sub (.write 0 someSeq rfl rfl)) ⟨⟨fun j => ?_, nofun⟩, trivial⟩
  simp only [subMove_call, subNew_call]
  split_ifs <;> nofun

theorem oneRequestWritten_reach_of {J : Json} {ok : ChannelClient → Action → Prop}
    (hok : ∀ s a, a.Registers → ok s a) (cap : ℕ → ℕ) :
    Steps.Reach (Step J) ok (init cap) (oneRequestWritten cap) :=
  (oneRequestWritten_reach J cap).mono fun s a h => hok s a h.2

/-- The reader meets the answer before the caller has stored its channel. -/
theorem registration_reply_lost : ∃ s, Reachable sampleJson (fun _ => 0) s ∧ LostReply s 0 := by
  have h0 : Reachable sampleJson (fun _ => 0) (oneRequestWritten fun _ => 0) :=
    oneRequestWritten_reach_of (fun _ _ _ => trivial) _
  have h1 := h0.tail (.reader (.node answerFrame)) trivial
  have h2 := h1.tail (answerFrame_whole.read [] rfl (List.append_nil _).symm) trivial
  have h3 := h2.tail (.reader (.dispatch 0 someAnswer (answerFrame_whole.readFrame 0))) trivial
  exact ⟨_, h3, someSeq, answerFrame, List.mem_singleton_self _, rfl, .inl rfl,
    answerFrame_answers, rfl, rfl⟩

theorem no_lost_registration_reply_stored :
    ∃ s, Steps.Reach (Step sampleJson) (fun s a => PromptStore s a ∧ FramesKept s a)
        (ChannelClient.init fun _ => 0) s ∧
      (s.sub.call 0).pc = .received 0 none ∧ s.net.written = [answerFrame] ∧ ¬ LostReply s 0 := by
  have h0 := (oneRequestWritten_reach sampleJson fun _ => 0).mono fun s a h =>
    show PromptStore s a ∧ FramesKept s a from ⟨h.1, by cases a <;> first | trivial | exact h.2.elim⟩
  have h1 := h0.tail (.sub (.store 0 someSeq rfl rfl)) ⟨trivial, trivial⟩
  have h2 := h1.tail (.reader (.node answerFrame)) ⟨trivial, answerFrame_whole.frame⟩
  have h3 := h2.tail (answerFrame_whole.read [] rfl (List.append_nil _).symm) ⟨trivial, answerFrame_whole.kept rfl rfl⟩
  have hstored : ∀ j, (((oneRequestWritten fun _ => 0).subPending 0 .waiting someSeq
      (some 0)).sub.call j).pc ≠ .written := by
    intro j
    rw [subPending_call]
    split_ifs with hj
    · nofun
    · rw [oneRequestWritten_idle _ hj]
      nofun
  have h4 := h3.tail (.reader (.dispatch 0 someAnswer (answerFrame_whole.readFrame 0)))
    ⟨fun _ _ j _ _ _ => hstored j, trivial⟩
  have h5 := h4.tail (.sub (.receive 0 0 none rfl rfl)) ⟨trivial, trivial⟩
  exact ⟨_, h5, rfl, rfl, (no_lost_registration_reply sampleJson _ _ h5 0).1⟩

end Fiscobcos.Client
