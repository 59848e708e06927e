import Fiscobcos.Client.Subscribe

/-! # Close (client/channel.go:60-66, 159-181, client/tls/connection.go:50-77)

The closed connection makes the reader's next read fail, so the reader may dial again before it
takes the exit signal, and nothing closes that connection. A second `Close` does not wait. -/

namespace Fiscobcos.Client
open Function

/-- No dial succeeds once a `Close` has begun `conn.Close()`, no connection got from
`Reconnecte` is replaced, and no second `Close` overtakes the first. -/
def TidyClose (s : ChannelClient) : Action → Prop
  | .dial succeeds => succeeds = true → (∀ j, s.closer j ≠ .connClosed) ∧ s.net.conn = 0
  | .closeCAS _ => s.isClosed = true → ∃ j, s.closer j = .returned
  | _ => True

def ClosePc.Winner (pc : ClosePc) : Prop := pc = .won ∨ pc = .connClosed

structure CloseInv (s : ChannelClient) : Prop where
  current : s.net.conn < s.net.opened
  conns : ∀ c, 1 ≤ c → c < s.net.opened → c = s.net.conn
  unset : s.isClosed = false → ∀ j, s.closer j = .idle ∨ s.closer j = .start
  sole : ∀ j j', (s.closer j).Winner → (s.closer j').Winner → j = j'
  closed : ∀ j, s.closer j = .connClosed → s.net.closed s.net.conn = true
  done : ∀ j, s.closer j = .returned →
    s.reader = .ended ∧ s.net.closed s.net.conn = true ∧ ∀ j', ¬ (s.closer j').Winner

structure SameLink (s s' : ChannelClient) : Prop where
  isClosed : s'.isClosed = s.isClosed
  closer : s'.closer = s.closer
  conn : s'.net.conn = s.net.conn
  opened : s'.net.opened = s.net.opened
  closed : s'.net.closed = s.net.closed

section Close
variable {J : Json} {s s' : ChannelClient} {a : Action}

theorem Step.link_cases (h : Step J s a s') :
    CloseStep s a s' ∨ (s.reader = .dialing ∧ a = .dial true ∧ s' = s.redial) ∨
      SameLink s s' ∧ (s.reader = .ended → s'.reader = .ended) := by
  cases h with
  | close h => exact .inl h
  | rpc h | notify h =>
    exact .inr (.inr ⟨by cases h <;> exact ⟨rfl, rfl, rfl, rfl, rfl⟩, by cases h <;> exact id⟩)
  | sub h =>
    refine .inr (.inr ⟨by cases h <;> exact ⟨rfl, rfl, rfl, rfl, rfl⟩, fun hr => ?_⟩)
    cases h with
    | receive _ _ _ _ hreader | consumeDirect _ _ _ _ _ _ hreader =>
      rw [hr] at hreader
      cases hreader
    | _ => exact hr
  | reader h =>
    cases h with
    | node f => exact .inr (.inr ⟨⟨rfl, rfl, rfl, rfl, rfl⟩, id⟩)
    | dialOk hpc => exact .inr (.inl ⟨hpc, rfl, rfl⟩)
    | read c rest hpc | readMore totalLen all c rest hpc =>
      refine .inr (.inr ⟨?_, fun hr => ?_⟩)
      · rcases s.receive_cases _ _ c rest with ⟨_, he⟩ | ⟨_, he⟩ <;> rw [he] <;>
          exact ⟨rfl, rfl, rfl, rfl, rfl⟩
      · rw [hr] at hpc
        cases hpc
    | readError hpc | readCut _ _ hpc | dispatch _ _ hpc | rpcSend _ _ _ hpc
    | sendLog _ _ _ _ _ hpc | tick hpc | dialFail hpc =>
      refine .inr (.inr ⟨⟨rfl, rfl, rfl, rfl, rfl⟩, fun hr => ?_⟩)
      rw [hr] at hpc
      cases hpc

theorem CloseInv.of_link (hi : CloseInv s) (hl : SameLink s s')
    (hr : s.reader = .ended → s'.reader = .ended) : CloseInv s' := by
  obtain ⟨hflag, hcloser, hconn, hopened, hclosed⟩ := hl
  constructor
  · rw [hconn, hopened]
    exact hi.current
  · rw [hconn, hopened]
    exact hi.conns
  · rw [hflag, hcloser]
    exact hi.unset
  · rw [hcloser]
    exact hi.sole
  · rw [hcloser, hclosed, hconn]
    exact hi.closed
  · rw [hcloser, hclosed, hconn]
    intro j hj
    obtain ⟨hended, hrest⟩ := hi.done j hj
    exact ⟨hr hended, hrest⟩

theorem CloseInv.redial (hi : CloseInv s) (hok : TidyClose s (.dial true))
    (hr : s.reader = .dialing) : CloseInv s.redial := by
  obtain ⟨hconn, hzero⟩ := hok rfl
  have hopened : s.net.opened = 1 := by
    have := hi.current
    by_contra hne
    have := hi.conns 1 le_rfl (by omega)
    omega
  refine ⟨Nat.lt_succ_self _, fun c h1 hc => ?_, hi.unset, hi.sole, fun j hj => ?_, fun j hj => ?_⟩
  · have hc : c < s.net.opened + 1 := hc
    show c = s.net.opened
    omega
  · exact absurd hj (hconn j)
  · obtain ⟨hended, _⟩ := hi.done j hj
    rw [hr] at hended
    cases hended

theorem winner_of_update {f : ℕ → ClosePc} {j j' : ℕ} {pc : ClosePc} (hpc : ¬ pc.Winner)
    (h : (update f j pc j').Winner) : j' ≠ j ∧ (f j').Winner := by
  rw [update_apply] at h
  split_ifs at h with hj
  · exact absurd h hpc
  · exact ⟨hj, h⟩

theorem CloseInv.new (hi : CloseInv s) {j : ℕ} : CloseInv (s.closeMove j .start) := by
  have hwin : ∀ j', ((s.closeMove j .start).closer j').Winner → (s.closer j').Winner :=
    fun j' h => (winner_of_update (by rintro (h | h) <;> cases h) h).2
  have hother : ∀ j', (s.closeMove j .start).closer j' = .start ∨
      (s.closeMove j .start).closer j' = s.closer j' := by
    intro j'
    show update s.closer j .start j' = _ ∨ update s.closer j .start j' = _
    rw [update_apply]
    split_ifs
    · exact .inl rfl
    · exact .inr rfl
  refine ⟨hi.current, hi.conns, fun hf j' => ?_, fun j₁ j₂ h₁ h₂ => hi.sole _ _ (hwin j₁ h₁)
    (hwin j₂ h₂), fun j' hj' => ?_, fun j' hj' => ?_⟩
  · rcases hother j' with h | h <;> rw [h]
    · exact .inr rfl
    · exact hi.unset hf j'
  · rcases hother j' with h | h <;> rw [h] at hj'
    · cases hj'
    · exact hi.closed j' hj'
  · rcases hother j' with h | h <;> rw [h] at hj'
    · cases hj'
    · obtain ⟨hended, hclosed, hnone⟩ := hi.done j' hj'
      exact ⟨hended, hclosed, fun k hk => hnone k (hwin k hk)⟩

theorem CloseInv.lost (hi : CloseInv s) {j : ℕ} (hset : s.isClosed = true)
    (hdone : ∃ j', s.closer j' = .returned) : CloseInv (s.closeMove j .returned) := by
  obtain ⟨j₀, hj₀⟩ := hdone
  obtain ⟨hended, hclosed, hnone⟩ := hi.done j₀ hj₀
  have hwin : ∀ j', ¬ ((s.closeMove j .returned).closer j').Winner := fun j' h =>
    hnone j' (winner_of_update (by rintro (h | h) <;> cases h) h).2
  refine ⟨hi.current, hi.conns, fun hf => ?_, fun j₁ _ h₁ => absurd h₁ (hwin j₁), fun j' hj' => ?_,
    fun _ _ => ⟨hended, hclosed, hwin⟩⟩
  · rw [show (s.closeMove j .returned).isClosed = s.isClosed from rfl, hset] at hf
    cases hf
  · exact absurd (.inr hj') (hwin j')

theorem CloseInv.won (hi : CloseInv s) {j : ℕ} (hset : s.isClosed = false) :
    CloseInv (s.closeWin j) := by
  have hbefore := hi.unset hset
  have hother : ∀ j', (s.closeWin j).closer j' = .won ∧ j' = j ∨
      (s.closeWin j).closer j' = .idle ∨ (s.closeWin j).closer j' = .start := by
    intro j'
    show update s.closer j .won j' = _ ∧ _ ∨ update s.closer j .won j' = _ ∨
      update s.closer j .won j' = _
    rw [update_apply]
    split_ifs with h
    · exact .inl ⟨rfl, h⟩
    · exact .inr (hbefore j')
  have hwin : ∀ j', ((s.closeWin j).closer j').Winner → j' = j := by
    intro j' h
    rcases hother j' with ⟨_, hj⟩ | he | he
    · exact hj
    all_goals
      rw [he] at h
      rcases h with h | h <;> cases h
  refine ⟨hi.current, hi.conns, nofun, fun j₁ j₂ h₁ h₂ => (hwin j₁ h₁).trans (hwin j₂ h₂).symm,
    fun j' hj' => ?_, fun j' hj' => ?_⟩ <;>
  · rcases hother j' with ⟨he, _⟩ | he | he <;> rw [he] at hj' <;> cases hj'

theorem CloseInv.conn (hi : CloseInv s) {j : ℕ} (hpc : s.closer j = .won) :
    CloseInv (s.closeConn j) := by
  have hwin : ∀ j', ((s.closeConn j).closer j').Winner → j' = j := by
    intro j' h
    have h : (update s.closer j .connClosed j').Winner := h
    rw [update_apply] at h
    split_ifs at h with hj
    · exact hj
    · exact hi.sole j' j h (.inl hpc)
  refine ⟨hi.current, hi.conns, fun hf => ?_, fun j₁ j₂ h₁ h₂ => (hwin j₁ h₁).trans (hwin j₂ h₂).symm,
    fun j' hj' => update_self .., fun j' hj' => ?_⟩
  · rcases hi.unset hf j with h | h <;> rw [hpc] at h <;> cases h
  · have hj' : update s.closer j .connClosed j' = .returned := hj'
    rw [update_apply] at hj'
    split_ifs at hj' with hj
    exact absurd (.inl hpc) ((hi.done j' hj').2.2 j)

theorem CloseInv.exit (hi : CloseInv s) {j : ℕ} (hpc : s.closer j = .connClosed) :
    CloseInv (s.closeExit j) := by
  have hwin : ∀ j', ¬ ((s.closeExit j).closer j').Winner := by
    intro j' h
    obtain ⟨hne, hw⟩ := winner_of_update (by rintro (h | h) <;> cases h) h
    exact hne (hi.sole j' j hw (.inr hpc))
  refine ⟨hi.current, hi.conns, fun hf => ?_, fun j₁ _ h₁ => absurd h₁ (hwin j₁),
    fun j' hj' => absurd (.inr hj') (hwin j'), fun _ _ => ⟨rfl, hi.closed j hpc, hwin⟩⟩
  rcases hi.unset hf j with h | h <;> rw [hpc] at h <;> cases h

theorem CloseInv.close (hi : CloseInv s) (hok : TidyClose s a) (h : CloseStep s a s') :
    CloseInv s' := by
  cases h with
  | new j hpc => exact hi.new
  | lost j hpc hset => exact hi.lost hset (hok hset)
  | won j hpc hset => exact hi.won hset
  | conn j hpc => exact hi.conn hpc
  | exit j hpc hr => exact hi.exit hpc

theorem CloseInv.init (cap : ℕ → ℕ) : CloseInv (ChannelClient.init cap) :=
  ⟨Nat.zero_lt_one, fun c h1 hc => absurd hc (not_lt.mpr h1), fun _ _ => .inl rfl,
    fun _ _ h => (by rcases h with h | h <;> cases h), nofun, nofun⟩

theorem CloseInv.step (hi : CloseInv s) (hok : TidyClose s a) (h : Step J s a s') :
    CloseInv s' := by
  rcases h.link_cases with hclose | ⟨hr, rfl, rfl⟩ | ⟨hlink, hr⟩
  · exact hi.close hok hclose
  · exact hi.redial hok hr
  · exact hi.of_link hlink hr

end Close

theorem close_is_final (J : Json) (cap : ℕ → ℕ) (s : ChannelClient)
    (hs : Steps.Reach (Step J) TidyClose (ChannelClient.init cap) s) (j : ℕ)
    (hj : s.closer j = .returned) : s.reader = .ended ∧ s.net.closed s.net.conn = true ∧
      ∀ c, 1 ≤ c → c < s.net.opened → s.net.closed c = true := by
  have hi : CloseInv s := hs.invariant (.init cap) fun _ _ _ hi hok h => hi.step hok h
  obtain ⟨hended, hclosed, _⟩ := hi.done j hj
  refine ⟨hended, hclosed, fun c h1 hc => ?_⟩
  rw [hi.conns c h1 hc]
  exact hclosed

/-- The reader reacts to the closed connection by dialling again before it takes
the exit signal. -/
theorem connection_survives_close :
    ∃ s, Reachable sampleJson (fun _ => 0) s ∧ s.closer 0 = .returned ∧ s.reader = .ended ∧
      s.net.conn = 1 ∧ s.net.closed 1 = false := by
  have h0 : Reachable sampleJson (fun _ => 0) (ChannelClient.init fun _ => 0) := .refl _
  have h1 := h0.tail (.close (.new 0 rfl)) trivial
  have h2 := h1.tail (.close (.won 0 rfl rfl)) trivial
  have h3 := h2.tail (.close (.conn 0 rfl)) trivial
  have h4 := h3.tail (.reader (.readError rfl)) trivial
  have h5 := h4.tail (.reader (.tick rfl)) trivial
  have h6 := h5.tail (.reader (.dialOk rfl)) trivial
  have h7 := h6.tail (.close (.exit 0 rfl (.inl rfl))) trivial
  exact ⟨_, h7, rfl, rfl, rfl, rfl⟩

theorem close_is_final_after_reconnect :
    ∃ s, Steps.Reach (Step sampleJson) TidyClose (ChannelClient.init fun _ => 0) s ∧
      s.closer 0 = .returned ∧ s.net.conn = 1 ∧ s.reader = .ended ∧ s.net.closed 1 = true := by
  have h0 : Steps.Reach (Step sampleJson) TidyClose (ChannelClient.init fun _ => 0)
    (ChannelClient.init fun _ => 0) := .refl _
  have h1 := h0.tail (.reader (.readError rfl)) trivial
  have h2 := h1.tail (.reader (.tick rfl)) trivial
  have h3 := h2.tail (.reader (.dialOk rfl)) fun _ => ⟨nofun, rfl⟩
  have h4 := h3.tail (.close (.new 0 rfl)) trivial
  have h5 := h4.tail (.close (.won 0 rfl rfl)) nofun
  have h6 := h5.tail (.close (.conn 0 rfl)) trivial
  have h7 := h6.tail (.close (.exit 0 rfl (.inl rfl))) trivial
  have hfinal := close_is_final sampleJson _ _ h7 0 rfl
  exact ⟨_, h7, rfl, rfl, hfinal.1, hfinal.2.1⟩

end Fiscobcos.Client
