import Fiscobcos.Bloombits.Retrieval

/-! # The goroutines of a scheduler

The steps of `scheduleRequests` and `scheduleDeliveries` keep the invariant of `Ledger`. -/

namespace Fiscobcos.Bloombits
open Function List Option Retriever Scheduler SchedulerRun

open Numerals Tally

variable {ι κ : Type}

namespace Session

variable [Fintype ι] [Fintype κ] {s : Session ι κ}

section Runs
variable [DecidableEq κ] {k : κ} {sec : ℕ}

omit [Fintype ι] in
theorem sending_setRun (s : Session ι κ) (k : κ) (x : SchedulerRun) (req : Request) :
    (s.setRun k x).sending req + (s.run k).sends req = s.sending req + x.sends req :=
  tally_update _ _ _ _

omit [Fintype ι] [Fintype κ] in
theorem setRun_run (s : Session ι κ) (k : κ) (x : SchedulerRun) (k' : κ) :
    (s.setRun k x).run k' = if k' = k then x else s.run k' := update_apply _ _ _ _

omit [DecidableEq κ] in
theorem Inv.of_runs {run : κ → SchedulerRun} {dist : List Request} (h : s.Inv)
    (hon : ∀ req, tally (sends req) run + dist.count req = s.sending req + s.dist.count req)
    (hbit : ∀ k, (run k).bit = (s.run k).bit)
    (hforward : ∀ k sec, (sec ∈ (run k).pend ∨ (run k).sender = .notifying sec) →
      (s.response (run k).bit sec).isSome) : ({ s with run, dist } : Session ι κ).Inv := by
  have hasked : ∀ req, ({ s with run, dist } : Session ι κ).asked req = s.asked req := by
    intro req
    show tally (sends req) run + dist.count req + s.arrived.count req = _
    rw [hon]
    rfl
  refine ⟨h.owned, ⟨h.counted.listening, h.counted.allocs⟩, ⟨fun req => ?_, fun req => ?_,
    fun req => ?_⟩, ⟨h.kept.sorted, h.kept.closed, fun k => ?_, hforward, h.kept.served,
    fun req hreq => ?_⟩⟩
  · show tally (sends req) run + dist.count req + s.queued req + s.fetched req = _
    rw [hon]
    exact h.ledger.placed req
  · rw [hasked]
    exact h.ledger.pending_le req
  · rw [hasked]
    exact h.ledger.asked_le req
  · show (s.schedulers (run k).bit).isSome = true
    rw [hbit]
    exact h.kept.running k
  · rw [hasked] at hreq
    exact h.kept.bounded req hreq

omit [Fintype ι] [Fintype κ] in
theorem setRun_bit {x : SchedulerRun} (hbit : x.bit = (s.run k).bit) (k' : κ) :
    ((s.setRun k x).run k').bit = (s.run k').bit := by
  rw [setRun_run]
  split_ifs with hk'
  · rw [hbit, hk']
  · rfl

theorem Inv.setRun_forwarded (h : s.Inv) {x : SchedulerRun}
    (hforward : ∀ sec, (sec ∈ x.pend ∨ x.sender = .notifying sec) → (s.response x.bit sec).isSome)
    (k' : κ) (sec : ℕ) (hsec : sec ∈ ((s.setRun k x).run k').pend ∨
      ((s.setRun k x).run k').sender = .notifying sec) :
    (s.response ((s.setRun k x).run k').bit sec).isSome := by
  rw [setRun_run] at hsec ⊢
  split_ifs at hsec ⊢
  · exact hforward sec hsec
  · exact h.kept.forwarded k' sec hsec

theorem Inv.setRun (h : s.Inv) {x : SchedulerRun} (hbit : x.bit = (s.run k).bit)
    (hsends : ∀ req, x.sends req = (s.run k).sends req)
    (hforward : ∀ sec, (sec ∈ x.pend ∨ x.sender = .notifying sec) →
      (s.response x.bit sec).isSome) : (s.setRun k x).Inv := by
  refine h.of_runs (fun req => ?_) (setRun_bit hbit) (h.setRun_forwarded hforward)
  rw [sending, ← tally_update_of_eq (hsends req)]

theorem Inv.notify (h : s.Inv) (hk : (s.run k).sender = .notifying sec) : (s.notify k sec).Inv := by
  apply h.setRun
  · rfl
  · intro req
    simp [sends, hk]
  · intro x hx
    rcases hx with hx | hx
    · rcases mem_append.mp hx with hx | hx
      · exact h.kept.forwarded k x (.inl hx)
      · rw [mem_singleton] at hx
        subst hx
        exact h.kept.forwarded k x (.inr hk)
    · cases hx

theorem Inv.collect (h : s.Inv) {rest : List ℕ} (hk : (s.run k).pend = sec :: rest) :
    ∃ s', s.collect k sec rest = .ok s' ∧ s'.Inv := by
  have hmem : sec ∈ (s.run k).pend := by
    rw [hk]
    exact mem_cons_self
  obtain ⟨res, hres⟩ := isSome_iff_exists.mp (h.kept.forwarded k sec (.inl hmem))
  simp only [Session.collect, hres]
  refine ⟨_, rfl, h.setRun rfl (fun _ => rfl) fun x hx => ?_⟩
  apply h.kept.forwarded k x
  rcases hx with hx | hx
  · left
    rw [hk]
    exact mem_cons_of_mem _ hx
  · exact .inr hx

theorem Inv.send (h : s.Inv) (hk : (s.run k).sender = .sending sec) : (s.send k sec).Inv := by
  -- what is no longer with the sender is in the channel
  have hsending : ∀ req, (s.send k sec).sending req +
      (if ⟨sec, (s.run k).bit⟩ = req then 1 else 0) = s.sending req := by
    intro req
    have hsum : (s.send k sec).sending req + (s.run k).sends req = s.sending req +
        sends req { s.run k with sender := .notifying sec } :=
      sending_setRun _ k _ req
    have hnow : sends req { s.run k with sender := .notifying sec } = 0 := by
      simp [sends]
    have hwas := sends_sending hk req
    omega
  have hcount : ∀ req, (s.send k sec).dist.count req =
      s.dist.count req + if ⟨sec, (s.run k).bit⟩ = req then 1 else 0 := by
    intro req
    show (s.dist ++ [(⟨sec, (s.run k).bit⟩ : Request)]).count req = _
    rw [count_append, count_singleton]
    simp only [beq_iff_eq]
  refine h.of_runs (fun req => ?_) (setRun_bit rfl) (h.setRun_forwarded fun x hx => ?_)
  · have hs := hsending req
    have hc := hcount req
    show (s.send k sec).sending req + (s.send k sec).dist.count req = _
    omega
  · rcases hx with hx | hx
    · exact h.kept.forwarded k x (.inl hx)
    · have hsec : sec = x := by simpa using hx
      subst hsec
      have hpos : 0 < s.asked ⟨sec, (s.run k).bit⟩ := by
        have hs := hsending ⟨sec, (s.run k).bit⟩
        rw [if_pos rfl] at hs
        rw [asked]
        omega
      exact h.response_isSome hpos

section Reading
variable {sch : Scheduler} (hk : (s.run k).sender = .idle)
  (hsch : s.schedulers (s.run k).bit = some sch) (hnone : sch.responses sec = none)

def reading (s : Session ι κ) (k : κ) (sec : ℕ) (sch : Scheduler) : Session ι κ :=
  (s.setScheduler (s.run k).bit (sch.setResponse sec ⟨none, false⟩)).setRun k
    { s.run k with sender := .sending sec }

omit [Fintype ι] [Fintype κ] in
include hsch in
theorem reading_response (req : Request) : (s.reading k sec sch).response req.bit req.sec =
    if ⟨sec, (s.run k).bit⟩ = req then some ⟨none, false⟩ else s.response req.bit req.sec := by
  have hset : (s.reading k sec sch).response req.bit req.sec = if req.bit = (s.run k).bit then
      (sch.setResponse sec ⟨none, false⟩).responses req.sec else s.response req.bit req.sec :=
    response_setScheduler _ _ _ _ _
  rw [hset, setResponse_responses]
  obtain ⟨x, b⟩ := req
  by_cases hb : b = (s.run k).bit
  · by_cases hx : x = sec
    · rw [if_pos hb, if_pos hx, if_pos (by rw [hb, hx])]
    · have hne : (⟨sec, (s.run k).bit⟩ : Request) ≠ ⟨x, b⟩ := fun heq => hx (by cases heq; rfl)
      rw [if_pos hb, if_neg hx, if_neg hne, response, hb, hsch]
      rfl
  · have hne : (⟨sec, (s.run k).bit⟩ : Request) ≠ ⟨x, b⟩ := fun heq => hb (by cases heq; rfl)
    rw [if_neg hb, if_neg hne]

omit [Fintype ι] [Fintype κ] in
include hsch in
theorem reading_isSome {b x : ℕ} (h : (s.response b x).isSome = true) :
    ((s.reading k sec sch).response b x).isSome = true := by
  rw [reading_response hsch ⟨x, b⟩]
  split_ifs
  · rfl
  · exact h

omit [Fintype ι] [Fintype κ] in
include hsch in
theorem reading_count (g : Option Response → ℕ) (req : Request) :
    g ((s.reading k sec sch).response req.bit req.sec) = if ⟨sec, (s.run k).bit⟩ = req then
      g (some ⟨none, false⟩) else g (s.response req.bit req.sec) := by
  rw [reading_response hsch]
  exact apply_ite g _ _ _

omit [Fintype ι] [Fintype κ] in
include hsch in
theorem reading_pending (req : Request) : (s.reading k sec sch).pending req =
    if ⟨sec, (s.run k).bit⟩ = req then 1 else s.pending req := by
  rw [pending, pending]
  exact reading_count hsch (fun x => if x.any (fun res => res.cached.isNone) then 1 else 0) req

omit [Fintype ι] [Fintype κ] in
include hsch in
theorem reading_known (req : Request) : (s.reading k sec sch).known req =
    if ⟨sec, (s.run k).bit⟩ = req then 1 else s.known req := by
  rw [known, known]
  exact reading_count hsch (fun x => if x.isSome then 1 else 0) req

omit [Fintype ι] in
include hk in
theorem reading_sending (req : Request) : (s.reading k sec sch).sending req =
    s.sending req + if ⟨sec, (s.run k).bit⟩ = req then 1 else 0 := by
  have hsum : (s.reading k sec sch).sending req + (s.run k).sends req = s.sending req +
      sends req { s.run k with sender := .sending sec } := sending_setRun _ k _ req
  have hwas : (s.run k).sends req = 0 := by simp [sends, hk]
  have hnow : sends req { s.run k with sender := .sending sec } =
      if ⟨sec, (s.run k).bit⟩ = req then 1 else 0 := sends_sending rfl req
  omega

omit [Fintype ι] in
include hk in
theorem reading_asked (req : Request) : (s.reading k sec sch).asked req =
    s.asked req + if ⟨sec, (s.run k).bit⟩ = req then 1 else 0 := by
  have hsum : (s.reading k sec sch).asked req =
      (s.reading k sec sch).sending req + s.dist.count req + s.arrived.count req := rfl
  rw [hsum, reading_sending hk, asked]
  omega

include hk hsch hnone in
theorem Ledger.reading (h : s.Ledger) : (s.reading k sec sch).Ledger := by
  -- nobody has asked for it so far
  have hfresh : s.known ⟨sec, (s.run k).bit⟩ = 0 := by
    rw [known, response, hsch]
    simp [hnone]
  have hasked := h.asked_le ⟨sec, (s.run k).bit⟩
  have hpending := h.pending_le ⟨sec, (s.run k).bit⟩
  refine ⟨fun req => ?_, fun req => ?_, fun req => ?_⟩
  · have hplaced := h.placed req
    show (s.reading k sec sch).sending req + s.dist.count req + s.queued req + s.fetched req = _
    rw [reading_sending hk, reading_pending hsch]
    by_cases hreq : ⟨sec, (s.run k).bit⟩ = req
    · subst hreq
      rw [if_pos rfl, if_pos rfl]
      omega
    · rw [if_neg hreq, if_neg hreq]
      exact hplaced
  · rw [reading_asked hk, reading_pending hsch]
    by_cases hreq : ⟨sec, (s.run k).bit⟩ = req
    · rw [if_pos hreq, if_pos hreq]
      omega
    · rw [if_neg hreq, if_neg hreq]
      exact h.pending_le req
  · rw [reading_asked hk, reading_known hsch]
    by_cases hreq : ⟨sec, (s.run k).bit⟩ = req
    · subst hreq
      rw [if_pos rfl, if_pos rfl]
      omega
    · rw [if_neg hreq, if_neg hreq]
      exact h.asked_le req

omit [Fintype ι] in
include hk hsch in
theorem Kept.reading (h : s.Kept) (hsec : sec < maxUint64) : (s.reading k sec sch).Kept := by
  have hrun : ∀ k', ((s.reading k sec sch).run k').bit = (s.run k').bit ∧
      ((s.reading k sec sch).run k').pend = (s.run k').pend ∧
      ∀ x, ((s.reading k sec sch).run k').sender = .notifying x →
        (s.run k').sender = .notifying x := by
    intro k'
    rw [Session.reading, setRun_run]
    split_ifs with hk'
    · subst hk'
      exact ⟨rfl, rfl, (fun x hx => by cases hx)⟩
    · exact ⟨rfl, rfl, fun x hx => hx⟩
  have hschedulers : ∀ b, (s.schedulers b).isSome = true →
      ((s.reading k sec sch).schedulers b).isSome = true := by
    intro b hb
    show (update s.schedulers _ _ b).isSome = true
    rw [update_apply]
    split_ifs
    · rfl
    · exact hb
  refine ⟨h.sorted, fun b x res hres => ?_, fun k' => ?_, fun k' x hx => ?_,
    fun r bit sections hr => hschedulers bit (h.served r bit sections hr), fun req hreq => ?_⟩
  · rw [reading_response hsch ⟨x, b⟩] at hres
    split_ifs at hres
    · cases hres
      rfl
    · exact h.closed b x res hres
  · rw [(hrun k').1]
    exact hschedulers _ (h.running k')
  · rw [(hrun k').1]
    apply reading_isSome hsch
    apply h.forwarded k' x
    rw [(hrun k').2.1] at hx
    rcases hx with hx | hx
    · exact .inl hx
    · exact .inr ((hrun k').2.2 x hx)
  · rw [reading_asked hk] at hreq
    by_cases hnew : ⟨sec, (s.run k).bit⟩ = req
    · rw [← hnew]
      exact hsec
    · rw [if_neg hnew] at hreq
      exact h.bounded req hreq

end Reading

theorem Inv.read (h : s.Inv) (hk : (s.run k).sender = .idle) (hsec : sec < maxUint64) :
    ∃ s', s.read k sec = .ok s' ∧ s'.Inv := by
  obtain ⟨sch, hsch⟩ := isSome_iff_exists.mp (h.kept.running k)
  have hresponse : s.response (s.run k).bit sec = sch.responses sec := by
    rw [response, hsch]
    rfl
  simp only [Session.read, hsch]
  refine ⟨_, rfl, ?_⟩
  cases hold : sch.responses sec with
  | some res =>
    have hunique : sch.unique sec = (sch, false) := by simp only [unique, hold]
    have hsame : s.setScheduler (s.run k).bit sch = s := by
      have hupdate : update s.schedulers (s.run k).bit (some sch) = s.schedulers :=
        hsch ▸ update_eq_self _ _
      rw [setScheduler, hupdate]
    rw [hunique, hsame]
    apply h.setRun
    · rfl
    · intro req
      simp [sends, hk]
    · intro x hx
      rcases hx with hx | hx
      · exact h.kept.forwarded k x (.inl hx)
      · have hx' : sec = x := by simpa using hx
        subst hx'
        show (s.response (s.run k).bit sec).isSome = true
        rw [hresponse, hold]
        rfl
  | none =>
    have hunique : sch.unique sec = (sch.setResponse sec ⟨none, false⟩, true) := by
      simp only [unique, hold]
    rw [hunique, if_pos rfl]
    exact ⟨h.owned, ⟨h.counted.listening, h.counted.allocs⟩, h.ledger.reading hk hsch hold,
      h.kept.reading hk hsch hsec⟩

end Runs

end Session

end Fiscobcos.Bloombits
