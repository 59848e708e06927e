import Fiscobcos.Lib.FairRuns

/-! # Resubscribe (event/subscription.go:97-205)

The loop calls `fn` until it returns a subscription, keeps it until it ends, and starts again unless
it ended without an error. `Unsubscribe` hands over on `unsub`, which the loop receives from at
three places, and waits for `err` to be closed. A loop that has ended by itself does not receive,
and a subscription that `fn` returns after it was cancelled is dropped.

Every call of `fn` returns a subscription or an error. -/

namespace Fiscobcos.Event
open Steps Function

inductive LoopPc where
  /-- In `subscribe`, with the context cancelled or not, and the result of the
  call that is in flight once it has returned. -/
  | calling (cancelled : Bool) (result : Option (Option ℕ))
  | backoff
  /-- In `waitForError`, and how the subscription ended: with an error or not. -/
  | holding (sub : ℕ) (failed : Option Bool)
  /-- Before `sub.Unsubscribe()`, which may be called any number of times. -/
  | leaving (sub : ℕ) (done : Bool)
  | closing
  | ended
deriving DecidableEq

inductive CallerPc where
  | idle
  | blocked
  | sending
  | waiting
  | returned
deriving DecidableEq

inductive Once where
  | fresh
  | running (i : ℕ)
  | done
deriving DecidableEq

/-- `subs` counts the subscriptions that `fn` has returned without an error. -/
structure Resub where
  loop : LoopPc
  once : Once
  caller : ℕ → CallerPc
  subs : ℕ
  unsubscribed : Finset ℕ
  waitTime : Int64

inductive ResubAct where
  | call (i : ℕ)
  | fnReturn (succeeds : Bool)
  | gotResult (elapsed : Int64)
  | unsub
  | timer
  | subEnds (failed : Bool)
  | gotEnd
  | release
  | close
  | wake (i : ℕ)
deriving DecidableEq

def Resub.init (backoffMax : Int64) : Resub where
  loop := .calling false none
  once := .fresh
  caller := fun _ => .idle
  subs := 0
  unsubscribed := ∅
  waitTime := backoffMax / 10

def nextWait (backoffMax elapsed waitTime : Int64) : Int64 :=
  if backoffMax < elapsed then backoffMax / 10
  else if backoffMax < waitTime * 2 then backoffMax
  else waitTime * 2

def LoopPc.unsub : LoopPc → Option LoopPc
  | .calling false result => some (.calling true result)
  | .backoff => some .closing
  | .holding sub _ => some (.leaving sub true)
  | _ => none

inductive ResubStep (backoffMax : Int64) : Resub → ResubAct → Resub → Prop
  | callFirst {s : Resub} {i : ℕ} (hi : s.caller i = .idle) (ho : s.once = .fresh) :
    ResubStep backoffMax s (.call i)
      { s with once := .running i, caller := Function.update s.caller i .sending }
  | callBlocked {s : Resub} {i j : ℕ} (hi : s.caller i = .idle) (ho : s.once = .running j) :
    ResubStep backoffMax s (.call i) { s with caller := Function.update s.caller i .blocked }
  | callDone {s : Resub} {i : ℕ} (hi : s.caller i = .idle) (ho : s.once = .done) :
    ResubStep backoffMax s (.call i) { s with caller := Function.update s.caller i .returned }
  | fnSucceeds {s : Resub} {c : Bool} (hl : s.loop = .calling c none) :
    ResubStep backoffMax s (.fnReturn true)
      { s with loop := .calling c (some (some s.subs)), subs := s.subs + 1 }
  | fnFails {s : Resub} {c : Bool} (hl : s.loop = .calling c none) :
    ResubStep backoffMax s (.fnReturn false) { s with loop := .calling c (some none) }
  | gotSub {s : Resub} {sub : ℕ} {elapsed : Int64} (hl : s.loop = .calling false (some (some sub))) :
    ResubStep backoffMax s (.gotResult elapsed) { s with loop := .holding sub none }
  | gotError {s : Resub} {elapsed : Int64} (hl : s.loop = .calling false (some none)) :
    ResubStep backoffMax s (.gotResult elapsed)
      { s with loop := .backoff, waitTime := nextWait backoffMax elapsed s.waitTime }
  -- whatever the cancelled call has returned, it is not looked at
  | gotCancelled {s : Resub} {result : Option ℕ} {elapsed : Int64}
      (hl : s.loop = .calling true (some result)) :
    ResubStep backoffMax s (.gotResult elapsed) { s with loop := .closing }
  | unsub {s : Resub} {i : ℕ} {pc : LoopPc} (ho : s.once = .running i)
      (hi : s.caller i = .sending) (hl : s.loop.unsub = some pc) :
    ResubStep backoffMax s .unsub
      { s with loop := pc, caller := Function.update s.caller i .waiting }
  | timer {s : Resub} (hl : s.loop = .backoff) :
    ResubStep backoffMax s .timer { s with loop := .calling false none }
  | subEnds {s : Resub} {sub : ℕ} {failed : Bool} (hl : s.loop = .holding sub none) :
    ResubStep backoffMax s (.subEnds failed) { s with loop := .holding sub (some failed) }
  | gotEnd {s : Resub} {sub : ℕ} {failed : Bool} (hl : s.loop = .holding sub (some failed)) :
    ResubStep backoffMax s .gotEnd { s with loop := .leaving sub (!failed) }
  | releaseDone {s : Resub} {sub : ℕ} (hl : s.loop = .leaving sub true) :
    ResubStep backoffMax s .release
      { s with loop := .closing, unsubscribed := insert sub s.unsubscribed }
  | releaseAgain {s : Resub} {sub : ℕ} (hl : s.loop = .leaving sub false) :
    ResubStep backoffMax s .release
      { s with loop := .calling false none, unsubscribed := insert sub s.unsubscribed }
  | close {s : Resub} (hl : s.loop = .closing) :
    ResubStep backoffMax s .close { s with loop := .ended }
  | wakeFirst {s : Resub} {i : ℕ} (hi : s.caller i = .waiting) (hl : s.loop = .ended) :
    ResubStep backoffMax s (.wake i)
      { s with once := .done, caller := Function.update s.caller i .returned }
  | wakeBlocked {s : Resub} {i : ℕ} (hi : s.caller i = .blocked) (ho : s.once = .done) :
    ResubStep backoffMax s (.wake i) { s with caller := Function.update s.caller i .returned }

def LoopPc.open : LoopPc → Bool
  | .calling cancelled _ => !cancelled
  | .backoff => true
  | .holding _ _ => true
  | .leaving _ done => !done
  | .closing => false
  | .ended => false

/-- `Unsubscribe` is not called first when the loop has ended by itself, the loop
takes no normal end while `Unsubscribe` is under way, and a call of `fn` that
`Unsubscribe` cancels fails. -/
def Resub.Careful (s : Resub) : ResubAct → Prop
  | .call _ => s.once = .fresh → s.loop.open = true
  | .gotEnd => ∀ sub, s.loop = .holding sub (some false) → s.once = .fresh
  | .unsub => ∀ sub, s.loop ≠ .calling false (some (some sub))
  | .fnReturn succeeds => s.loop = .calling true none → succeeds = false
  | _ => True

def LoopPc.current : LoopPc → Option ℕ
  | .calling false (some (some sub)) => some sub
  | .holding sub _ => some sub
  | .leaving sub _ => some sub
  | _ => none

structure ResubInv (s : Resub) : Prop where
  kept : ∀ k < s.subs, k ∈ s.unsubscribed ∨ s.loop.current = some k
  sending : ∀ i, s.caller i = .sending → s.once = .running i ∧ s.loop.open = true
  waiting : ∀ i, s.caller i = .waiting → s.once = .running i ∧ s.loop.open = false
  running : ∀ i, s.once = .running i → s.caller i = .sending ∨ s.caller i = .waiting
  fresh : ∀ i, s.once = .fresh → s.caller i = .idle
  done : s.once = .done → s.loop = .ended

theorem ResubInv.init (backoffMax : Int64) : ResubInv (.init backoffMax) where
  kept k hk := absurd hk (Nat.not_lt_zero k)
  sending i h := by cases h
  waiting i h := by cases h
  running i h := by cases h
  fresh i _ := rfl
  done h := by cases h

variable {pc : LoopPc} {i : ℕ}

section Invariant
variable {backoffMax : Int64} {s s' : Resub} {a : ResubAct}

theorem ResubInv.loopStep (h : ResubInv s) (hcaller : s'.caller = s.caller)
    (honce : s'.once = s.once)
    (hkept : ∀ k < s'.subs, k ∈ s'.unsubscribed ∨ s'.loop.current = some k)
    (hopen : s'.loop.open = s.loop.open ∨ s.once = .fresh) (hne : s.loop ≠ .ended) :
    ResubInv s' where
  kept := hkept
  sending i hi := by
    rw [hcaller] at hi
    rw [honce]
    rcases hopen with hopen | hfresh
    · exact hopen ▸ h.sending i hi
    · simp [h.fresh i hfresh] at hi
  waiting i hi := by
    rw [hcaller] at hi
    rw [honce]
    rcases hopen with hopen | hfresh
    · exact hopen ▸ h.waiting i hi
    · simp [h.fresh i hfresh] at hi
  running i hi := by
    rw [hcaller]
    exact h.running i (honce ▸ hi)
  fresh i hi := by
    rw [hcaller]
    exact h.fresh i (honce ▸ hi)
  done hd := absurd (h.done (honce ▸ hd)) hne

theorem ResubInv.keepsCurrent (h : ResubInv s) {pc' : LoopPc} {waitTime : Int64}
    (hl : s.loop = pc) (hcur : pc'.current = pc.current)
    (hopen : pc'.open = pc.open ∨ s.once = .fresh) (hne : pc ≠ .ended) :
    ResubInv { s with loop := pc', waitTime := waitTime } := by
  subst hl
  refine h.loopStep rfl rfl (fun k hk => ?_) hopen hne
  rw [hcur]
  exact h.kept k hk

theorem ResubInv.all_unsubscribed (h : ResubInv s) (hcur : s.loop.current = none) :
    ∀ k < s.subs, k ∈ s.unsubscribed := by
  intro k hk
  rcases h.kept k hk with hmem | hcur'
  · exact hmem
  · simp [hcur] at hcur'

theorem ResubInv.fnSucceeds (h : ResubInv s) {c : Bool} (hl : s.loop = .calling c none)
    (hok : s.Careful (.fnReturn true)) :
    ResubInv { s with loop := .calling c (some (some s.subs)), subs := s.subs + 1 } := by
  have hall := h.all_unsubscribed (by simp [hl, LoopPc.current])
  cases c with
  | true => simpa using hok hl
  | false =>
    refine h.loopStep rfl rfl (fun k hk => ?_) (.inl (by simp [hl, LoopPc.open])) (by simp [hl])
    have hk' : k < s.subs + 1 := hk
    rcases Nat.lt_succ_iff_lt_or_eq.mp hk' with hlt | rfl
    · exact .inl (hall k hlt)
    · exact .inr rfl

theorem ResubInv.release (h : ResubInv s) {sub : ℕ} {done : Bool} (hl : s.loop = .leaving sub done)
    (hopen : pc.open = !done) :
    ResubInv { s with loop := pc, unsubscribed := insert sub s.unsubscribed } := by
  refine h.loopStep rfl rfl (fun k hk => .inl ?_) (.inl (by simpa [hl, LoopPc.open] using hopen))
    (by simp [hl])
  rcases h.kept k hk with hmem | hcur
  · exact Finset.mem_insert_of_mem hmem
  · simp only [hl, LoopPc.current, Option.some.injEq] at hcur
    exact hcur ▸ Finset.mem_insert_self _ _

theorem ResubInv.unsub (h : ResubInv s) (ho : s.once = .running i)
    (hi : s.caller i = .sending) (hl : s.loop.unsub = some pc) (hok : s.Careful .unsub) :
    ResubInv { s with loop := pc, caller := update s.caller i .waiting } := by
  have hpc : pc.open = false ∧ pc ≠ .ended ∧ pc.current = s.loop.current := by
    cases hloop : s.loop with
    | calling c result =>
      rw [hloop] at hl
      cases c with
      | true => simp [LoopPc.unsub] at hl
      | false =>
        cases hl
        rcases result with _ | _ | sub
        · exact ⟨rfl, nofun, rfl⟩
        · exact ⟨rfl, nofun, rfl⟩
        · exact absurd hloop (hok sub)
    | backoff | holding sub failed =>
      rw [hloop] at hl
      cases hl
      exact ⟨rfl, nofun, rfl⟩
    | leaving sub done | closing | ended => simp [hloop, LoopPc.unsub] at hl
  obtain ⟨hopen, hended, hcur⟩ := hpc
  have hother : ∀ j, j ≠ i → s.caller j ≠ .sending ∧ s.caller j ≠ .waiting := by
    intro j hj
    exact ⟨fun hs => hj (Once.running.inj (ho ▸ (h.sending j hs).1)).symm,
      fun hw => hj (Once.running.inj (ho ▸ (h.waiting j hw).1)).symm⟩
  refine ⟨fun k hk => ?_, fun j hj => ?_, fun j hj => ?_, fun j hj => ?_, fun j hf => ?_, fun hd => ?_⟩
  · rw [hcur]
    exact h.kept k hk
  · dsimp only at hj
    rw [update_apply] at hj
    split_ifs at hj with hji
    exact absurd hj (hother j hji).1
  · dsimp only at hj
    rw [update_apply] at hj
    split_ifs at hj with hji
    · exact ⟨hji ▸ ho, hopen⟩
    · exact absurd hj (hother j hji).2
  · have hji : j = i := (Once.running.inj (ho.symm.trans hj)).symm
    subst hji
    exact .inr (update_self ..)
  · simp [ho] at hf
  · simp [ho] at hd

theorem ResubInv.callFirst (h : ResubInv s) (ho : s.once = .fresh) (hok : s.Careful (.call i)) :
    ResubInv { s with once := .running i, caller := update s.caller i .sending } := by
  refine ⟨h.kept, fun j hj => ?_, fun j hj => ?_, fun j hj => ?_, fun j hf => ?_, fun hd => ?_⟩
  · dsimp only at hj
    rw [update_apply] at hj
    split_ifs at hj with hji
    · exact ⟨hji ▸ rfl, hok ho⟩
    · simp [h.fresh j ho] at hj
  · dsimp only at hj
    rw [update_apply] at hj
    split_ifs at hj with hji
    simp [h.fresh j ho] at hj
  · cases hj
    exact .inl (update_self ..)
  · cases hf
  · cases hd

theorem ResubInv.moveCaller (h : ResubInv s) {c : CallerPc} (ho : s.once ≠ .fresh)
    (hold : s.caller i ≠ .sending ∧ s.caller i ≠ .waiting) (hs : c ≠ .sending) (hw : c ≠ .waiting) :
    ResubInv { s with caller := update s.caller i c } := by
  refine ⟨h.kept, fun j hj => ?_, fun j hj => ?_, fun j hj => ?_, fun j hf => absurd hf ho, h.done⟩
  · dsimp only at hj
    rw [update_apply] at hj
    split_ifs at hj with hji
    · exact absurd hj hs
    · exact h.sending j hj
  · dsimp only at hj
    rw [update_apply] at hj
    split_ifs at hj with hji
    · exact absurd hj hw
    · exact h.waiting j hj
  · dsimp only
    rw [update_apply]
    split_ifs with hji
    · subst hji
      rcases h.running j hj with hs' | hw'
      · exact absurd hs' hold.1
      · exact absurd hw' hold.2
    · exact h.running j hj

theorem ResubInv.wakeFirst (h : ResubInv s) (hi : s.caller i = .waiting) (hl : s.loop = .ended) :
    ResubInv { s with once := .done, caller := update s.caller i .returned } := by
  have ho := (h.waiting i hi).1
  refine ⟨h.kept, fun j hj => ?_, fun j hj => ?_, fun j hj => ?_, fun j hf => ?_, fun _ => hl⟩
  · dsimp only at hj
    rw [update_apply] at hj
    split_ifs at hj with hji
    have hopen := (h.sending j hj).2
    simp [hl, LoopPc.open] at hopen
  · dsimp only at hj
    rw [update_apply] at hj
    split_ifs at hj with hji
    exact absurd (Once.running.inj (ho.symm.trans (h.waiting j hj).1)).symm hji
  · cases hj
  · cases hf

theorem ResubInv.step (h : ResubInv s) (hok : s.Careful a) (hs : ResubStep backoffMax s a s') :
    ResubInv s' := by
  cases hs with
  | callFirst hi ho => exact h.callFirst ho hok
  | callBlocked hi ho | callDone hi ho | wakeBlocked hi ho =>
    exact h.moveCaller (by simp [ho]) (by simp [hi]) nofun nofun
  | fnSucceeds hl => exact h.fnSucceeds hl hok
  | @fnFails c hl => exact h.keepsCurrent hl (by cases c <;> rfl) (.inl rfl) nofun
  | gotSub hl | gotError hl | gotCancelled hl | timer hl | subEnds hl | close hl =>
    exact h.keepsCurrent hl rfl (.inl rfl) nofun
  | unsub ho hi hl => exact h.unsub ho hi hl hok
  | @gotEnd sub failed hl =>
    cases failed with
    | true => exact h.keepsCurrent hl rfl (.inl rfl) nofun
    | false => exact h.keepsCurrent hl rfl (.inr (hok sub hl)) nofun
  | releaseDone hl | releaseAgain hl => exact h.release hl rfl
  | wakeFirst hi hl => exact h.wakeFirst hi hl

theorem resub_invariant (h : Reach (ResubStep backoffMax) Resub.Careful (.init backoffMax) s) :
    ResubInv s :=
  h.invariant (.init backoffMax) fun _ _ _ hi hok hs => hi.step hok hs

def LoopPc.rank : LoopPc → ℕ
  | .calling _ none => 5
  | .calling _ (some _) => 4
  | .leaving _ _ => 3
  | .closing => 2
  | .ended => 1
  | _ => 0

theorem waiting_step (h : ResubInv s) (hi : s.caller i = .waiting)
    (hs : ResubStep backoffMax s a s') : s'.once = .done ∨ s'.caller i = .waiting ∧
      (s'.loop.rank < s.loop.rank ∨ s'.loop = s.loop ∧ ∃ j, a = .call j) := by
  obtain ⟨honce, hopen⟩ := h.waiting i hi
  have hcall : ∀ {j c}, s.caller j = .idle → update s.caller j c i = .waiting := by
    intro j c hj
    rw [update_of_ne (fun hij => by simp [← hij, hi] at hj), hi]
  cases hs with
  | callFirst hj ho | callDone hj ho | wakeBlocked hj ho => simp [ho] at honce
  | callBlocked hj ho => exact .inr ⟨hcall hj, .inr ⟨rfl, _, rfl⟩⟩
  | fnSucceeds hl | fnFails hl | gotCancelled hl | releaseDone hl | close hl =>
    exact .inr ⟨hi, .inl (by simp [hl, LoopPc.rank])⟩
  | gotSub hl | gotError hl | timer hl | subEnds hl | gotEnd hl | releaseAgain hl =>
    simp [hl, LoopPc.open] at hopen
  | unsub ho hj hl =>
    cases honce.symm.trans ho
    simp [hi] at hj
  | wakeFirst hj hl => exact .inl rfl

theorem sending_step (h : ResubInv s) (hi : s.caller i = .sending)
    (hs : ResubStep backoffMax s a s') :
    s'.caller i = .waiting ∨ s'.caller i = .sending ∧ a ≠ .unsub := by
  obtain ⟨honce, hopen⟩ := h.sending i hi
  have hkeep : ∀ {j c}, s.caller j ≠ .sending → update s.caller j c i = .sending := by
    intro j c hj
    rw [update_of_ne (fun hij : i = j => hj (hij ▸ hi)), hi]
  cases hs with
  | callFirst hj ho | callBlocked hj ho | callDone hj ho | wakeFirst hj hl | wakeBlocked hj ho =>
    exact .inr ⟨hkeep (by simp [hj]), nofun⟩
  | unsub ho hj hl =>
    cases honce.symm.trans ho
    exact .inl (update_self ..)
  | _ => exact .inr ⟨hi, nofun⟩

theorem blocked_step (h : ResubInv s) (ho : s.once = .done) (hi : s.caller i = .blocked)
    (hs : ResubStep backoffMax s a s') :
    s'.caller i = .returned ∨ s'.once = .done ∧ s'.caller i = .blocked ∧ a ≠ .wake i := by
  have hkeep : ∀ {j c}, s.caller j = .idle → update s.caller j c i = .blocked := by
    intro j c hj
    rw [update_of_ne (fun hij => by simp [← hij, hi] at hj), hi]
  cases hs with
  | callFirst hj ho' | callBlocked hj ho' | unsub ho' hj hl => simp [ho] at ho'
  | callDone hj ho' => exact .inr ⟨ho, hkeep hj, nofun⟩
  | @wakeFirst j hj hl => exact absurd (h.waiting j hj).1 (by simp [ho])
  | @wakeBlocked j hj ho' =>
    by_cases hij : i = j
    · exact .inl (hij ▸ update_self ..)
    · refine .inr ⟨ho, ?_, fun heq => hij (ResubAct.wake.inj heq).symm⟩
      exact (update_of_ne hij _ _).trans hi
  | _ => exact .inr ⟨ho, hi, nofun⟩

theorem called_step (hi : s.caller i ≠ .idle) (hs : ResubStep backoffMax s a s') :
    s'.caller i ≠ .idle := by
  have hkeep : ∀ {j c}, c ≠ CallerPc.idle → update s.caller j c i ≠ .idle := by
    intro j c hc
    rw [update_apply]
    split_ifs
    · exact hc
    · exact hi
  cases hs with
  | callFirst | callBlocked | callDone | unsub | wakeFirst | wakeBlocked => exact hkeep nofun
  | _ => exact hi

theorem leaving_step {sub : ℕ} (hl : s.loop = .leaving sub false)
    (hs : ResubStep backoffMax s a s') :
    s'.loop = .calling false none ∨ s'.loop = s.loop ∧ a ≠ .release := by
  cases hs with
  | callFirst | callBlocked | callDone | wakeFirst | wakeBlocked => exact .inr ⟨rfl, nofun⟩
  | unsub ho hj hl' => simp [hl, LoopPc.unsub] at hl'
  | releaseAgain => exact .inl rfl
  | fnSucceeds hl' | fnFails hl' | gotSub hl' | gotError hl' | gotCancelled hl' | timer hl'
  | subEnds hl' | gotEnd hl' | releaseDone hl' | close hl' => simp [hl] at hl'

end Invariant

variable {s : Resub}

section Runs
variable {backoffMax : Int64}

/-- Every call of `fn` returns, the goroutines run, and a handover on `unsub` that
is possible again and again is not passed over for ever. -/
structure FairResub (r : Run (ResubStep backoffMax) Resub.Careful (.init backoffMax)) : Prop where
  fn : r.Fair fun a => ∃ succeeds, a = .fnReturn succeeds
  got : r.Fair fun a => ∃ elapsed, a = .gotResult elapsed
  unsub : r.Fair (· = .unsub)
  release : r.Fair (· = .release)
  close : r.Fair (· = .close)
  wake : ∀ i, r.Fair (· = .wake i)

variable {r : Run (ResubStep backoffMax) Resub.Careful (.init backoffMax)}

theorem unsub_enabled (h : ResubInv s) (hi : s.caller i = .sending)
    (hl : s.loop.unsub = some pc) : Enabled (ResubStep backoffMax) (· = .unsub) s :=
  ⟨_, _, rfl, .unsub (h.sending i hi).1 hi hl⟩

theorem leads_to_select (hf : FairResub r) (i : ℕ) :
    r.LeadsTo (fun s => ResubInv s ∧ s.caller i = .sending) fun s =>
      (ResubInv s ∧ s.caller i = .waiting) ∨ Enabled (ResubStep backoffMax) (· = .unsub) s := by
  have hleaving : r.LeadsTo
      (fun s => (ResubInv s ∧ s.caller i = .sending) ∧ ∃ sub, s.loop = .leaving sub false) fun s =>
      (ResubInv s ∧ s.caller i = .waiting) ∨ Enabled (ResubStep backoffMax) (· = .unsub) s := by
    have henabled : ∀ s' : Resub, ResubInv s' → s'.caller i = .sending →
        s'.loop = .calling false none → Enabled (ResubStep backoffMax) (· = .unsub) s' :=
      fun s' hinv' hi' hl' => unsub_enabled hinv' hi' (by rw [hl']; rfl)
    refine Run.leadsTo_of_fair hf.release ?_ ?_ ?_
    · intro s a s' h hok hs
      obtain ⟨⟨hinv, hi⟩, sub, hl⟩ := h
      have hinv' := hinv.step hok hs
      rcases sending_step hinv hi hs with hw | ⟨hi', -⟩
      · exact .inr (.inl ⟨hinv', hw⟩)
      · rcases leaving_step hl hs with hl' | ⟨hl', -⟩
        · exact .inr (.inr (henabled s' hinv' hi' hl'))
        · exact .inl ⟨⟨hinv', hi'⟩, sub, hl'.trans hl⟩
    · intro s a s' h hrelease hok hs
      obtain ⟨⟨hinv, hi⟩, sub, hl⟩ := h
      have hinv' := hinv.step hok hs
      rcases sending_step hinv hi hs with hw | ⟨hi', -⟩
      · exact .inl ⟨hinv', hw⟩
      · rcases leaving_step hl hs with hl' | ⟨-, hne⟩
        · exact .inr (henabled s' hinv' hi' hl')
        · exact absurd hrelease hne
    · intro n h
      obtain ⟨-, sub, hl⟩ := h
      exact ⟨n, le_rfl, .inr ⟨_, _, rfl, .releaseAgain hl⟩⟩
  intro n h
  obtain ⟨hinv, hi⟩ := h
  have hopen := (hinv.sending i hi).2
  cases hl : (r.state n).loop with
  | calling c result =>
    cases c with
    | true => simp [hl, LoopPc.open] at hopen
    | false => exact ⟨n, le_rfl, .inr (unsub_enabled hinv hi (by rw [hl]; rfl))⟩
  | backoff | holding sub failed =>
    exact ⟨n, le_rfl, .inr (unsub_enabled hinv hi (by rw [hl]; rfl))⟩
  | leaving sub done =>
    cases done with
    | true => simp [hl, LoopPc.open] at hopen
    | false => exact hleaving n ⟨⟨hinv, hi⟩, sub, hl⟩
  | closing | ended => simp [hl, LoopPc.open] at hopen

theorem sending_leads_to_waiting (hf : FairResub r) (i : ℕ) :
    r.LeadsTo (fun s => ResubInv s ∧ s.caller i = .sending)
      fun s => ResubInv s ∧ s.caller i = .waiting := by
  refine Run.leadsTo_of_fair hf.unsub ?_ ?_ (leads_to_select hf i)
  · intro s a s' h hok hs
    obtain ⟨hinv, hi⟩ := h
    have hinv' := hinv.step hok hs
    rcases sending_step hinv hi hs with hw | ⟨hi', -⟩
    · exact .inr ⟨hinv', hw⟩
    · exact .inl ⟨hinv', hi'⟩
  · intro s a s' h hunsub hok hs
    obtain ⟨hinv, hi⟩ := h
    rcases sending_step hinv hi hs with hw | ⟨-, hne⟩
    · exact ⟨hinv.step hok hs, hw⟩
    · exact absurd hunsub hne

def stopAction (i : ℕ) : ℕ → ResubAct → Prop
  | 5 => fun a => ∃ succeeds, a = .fnReturn succeeds
  | 4 => fun a => ∃ elapsed, a = .gotResult elapsed
  | 3 => (· = .release)
  | 2 => (· = .close)
  | _ => (· = .wake i)

theorem stopAction_fair (hf : FairResub r) (i k : ℕ) : r.Fair (stopAction i k) := by
  unfold stopAction
  split
  · exact hf.fn
  · exact hf.got
  · exact hf.release
  · exact hf.close
  · exact hf.wake i

theorem not_stopAction_call (i j k : ℕ) : ¬ stopAction i k (.call j) := by
  unfold stopAction
  split <;> simp

theorem stopAction_enabled (h : ResubInv s) (hi : s.caller i = .waiting) :
    Enabled (ResubStep backoffMax) (stopAction i s.loop.rank) s := by
  have hopen := (h.waiting i hi).2
  cases hl : s.loop with
  | calling c result =>
    cases c with
    | false => simp [hl, LoopPc.open] at hopen
    | true =>
      cases result with
      | none => exact ⟨_, _, ⟨false, rfl⟩, .fnFails hl⟩
      | some result => exact ⟨_, _, ⟨0, rfl⟩, .gotCancelled hl⟩
  | backoff | holding sub failed => simp [hl, LoopPc.open] at hopen
  | leaving sub done =>
    cases done with
    | true => exact ⟨_, _, rfl, .releaseDone hl⟩
    | false => simp [hl, LoopPc.open] at hopen
  | closing => exact ⟨_, _, rfl, .close hl⟩
  | ended => exact ⟨_, _, rfl, .wakeFirst hi hl⟩

theorem waiting_leads_to_done (hf : FairResub r) (i : ℕ) :
    r.LeadsTo (fun s => ResubInv s ∧ s.caller i = .waiting) (·.once = .done) := by
  refine Run.leadsTo_of_rank (fun s => s.loop.rank) (stopAction i) (stopAction_fair hf i) ?_ ?_ ?_
  · intro s a s' h hok hs
    obtain ⟨hinv, hi⟩ := h
    rcases waiting_step hinv hi hs with hd | ⟨hi', hlt | ⟨heq, -⟩⟩
    · exact .inl hd
    · exact .inr ⟨⟨hinv.step hok hs, hi'⟩, hlt.le⟩
    · exact .inr ⟨⟨hinv.step hok hs, hi'⟩, by rw [heq]⟩
  · intro s a s' h hstop hok hs
    obtain ⟨hinv, hi⟩ := h
    rcases waiting_step hinv hi hs with hd | ⟨hi', hlt | ⟨-, j, rfl⟩⟩
    · exact .inl hd
    · exact .inr ⟨⟨hinv.step hok hs, hi'⟩, hlt⟩
    · exact absurd hstop (not_stopAction_call i j _)
  · intro s h
    exact stopAction_enabled h.1 h.2

theorem blocked_leads_to_returned (hf : FairResub r) (i : ℕ) :
    r.LeadsTo (fun s => ResubInv s ∧ s.once = .done ∧ s.caller i = .blocked)
      (·.caller i = .returned) := by
  refine Run.leadsTo_of_fair (hf.wake i) ?_ ?_ ?_
  · intro s a s' h hok hs
    obtain ⟨hinv, ho, hi⟩ := h
    rcases blocked_step hinv ho hi hs with hret | ⟨ho', hi', -⟩
    · exact .inr hret
    · exact .inl ⟨hinv.step hok hs, ho', hi'⟩
  · intro s a s' h hwake hok hs
    obtain ⟨hinv, ho, hi⟩ := h
    rcases blocked_step hinv ho hi hs with hret | ⟨-, -, hne⟩
    · exact hret
    · exact absurd hwake hne
  · intro n h
    exact ⟨n, le_rfl, .inr ⟨_, _, rfl, .wakeBlocked h.2.2 h.2.1⟩⟩

theorem called_leads_to_done (hf : FairResub r) :
    r.LeadsTo (fun s => ResubInv s ∧ s.once ≠ .fresh) (·.once = .done) := by
  intro n h
  obtain ⟨hinv, hne⟩ := h
  cases ho : (r.state n).once with
  | fresh => exact absurd ho hne
  | done => exact ⟨n, le_rfl, ho⟩
  | running i =>
    rcases hinv.running i ho with hs | hw
    · exact (sending_leads_to_waiting hf i).trans (waiting_leads_to_done hf i) n ⟨hinv, hs⟩
    · exact waiting_leads_to_done hf i n ⟨hinv, hw⟩

theorem called_returns (hf : FairResub r) (i n : ℕ) (hi : (r.state n).caller i ≠ .idle) :
    ∃ m ≥ n, (r.state m).caller i = .returned := by
  have hinv : ∀ m, ResubInv (r.state m) := fun m => resub_invariant (r.reach m)
  have hfresh : (r.state n).once ≠ .fresh := fun ho => hi ((hinv n).fresh i ho)
  obtain ⟨m, hm, hdone⟩ := called_leads_to_done hf n ⟨hinv n, hfresh⟩
  have hcalled : (r.state m).caller i ≠ .idle :=
    r.stable (P := fun s => s.caller i ≠ .idle) (fun _ _ _ h _ hs => called_step h hs) hi hm
  cases hc : (r.state m).caller i with
  | idle => exact absurd hc hcalled
  | sending => simp [((hinv m).sending i hc).1] at hdone
  | waiting => simp [((hinv m).waiting i hc).1] at hdone
  | returned => exact ⟨m, hm, hc⟩
  | blocked =>
    obtain ⟨k, hk, hret⟩ := blocked_leads_to_returned hf i m ⟨hinv m, hdone, hc⟩
    exact ⟨k, hm.trans hk, hret⟩

/-- In every fair run whose steps are careful, each call of `Unsubscribe` returns,
and when the loop has ended all subscriptions have been unsubscribed. -/
theorem resubscribe_lets_go (backoffMax : Int64)
    (r : Run (ResubStep backoffMax) Resub.Careful (.init backoffMax)) (hf : FairResub r) :
    (∀ i n, (r.state n).caller i ≠ .idle → ∃ m ≥ n, (r.state m).caller i = .returned) ∧
    ∀ n, (r.state n).loop = .ended → ∀ k < (r.state n).subs, k ∈ (r.state n).unsubscribed := by
  refine ⟨called_returns hf, fun n hl => ?_⟩
  exact (resub_invariant (r.reach n)).all_unsubscribed (by rw [hl]; rfl)

end Runs

/-- `fn` returns a subscription, which is held when two callers come to `Unsubscribe`. -/
def stopState (n : ℕ) : Resub :=
  let s₀ : Resub := .init 0
  let s₁ := { s₀ with loop := .calling false (some (some 0)), subs := 1 }
  let s₂ := { s₁ with loop := .holding 0 none }
  let s₃ := { s₂ with once := .running 0, caller := Function.update s₂.caller 0 .sending }
  let s₄ := { s₃ with caller := Function.update s₃.caller 1 .blocked }
  let s₅ := { s₄ with loop := .leaving 0 true, caller := Function.update s₄.caller 0 .waiting }
  let s₆ := { s₅ with loop := .closing, unsubscribed := {0} }
  let s₇ := { s₆ with loop := .ended }
  let s₈ := { s₇ with once := .done, caller := Function.update s₇.caller 0 .returned }
  let s₉ := { s₈ with caller := Function.update s₈.caller 1 .returned }
  match n with
  | 0 => s₀
  | 1 => s₁
  | 2 => s₂
  | 3 => s₃
  | 4 => s₄
  | 5 => s₅
  | 6 => s₆
  | 7 => s₇
  | 8 => s₈
  | _ + 9 => s₉

def stopRun : Run (ResubStep 0) Resub.Careful (.init 0) where
  state := stopState
  action
    | 0 => some (.fnReturn true)
    | 1 => some (.gotResult 0)
    | 2 => some (.call 0)
    | 3 => some (.call 1)
    | 4 => some .unsub
    | 5 => some .release
    | 6 => some .close
    | 7 => some (.wake 0)
    | 8 => some (.wake 1)
    | _ + 9 => none
  start := rfl
  next
    | 0 => ⟨nofun, .fnSucceeds rfl⟩
    | 1 => ⟨trivial, .gotSub rfl⟩
    | 2 => ⟨fun _ => rfl, .callFirst rfl rfl⟩
    | 3 => ⟨nofun, .callBlocked rfl rfl⟩
    | 4 => ⟨nofun, .unsub rfl rfl rfl⟩
    | 5 => ⟨trivial, .releaseDone rfl⟩
    | 6 => ⟨trivial, .close rfl⟩
    | 7 => ⟨trivial, .wakeFirst rfl rfl⟩
    | 8 => ⟨trivial, .wakeBlocked rfl rfl⟩
    | _ + 9 => rfl

theorem stopRun_fair : FairResub stopRun := by
  have hlast : ∀ {A : ResubAct → Prop}, ¬ Enabled (ResubStep 0) A (stopState 9) → stopRun.Fair A := by
    intro A hnot hen
    obtain ⟨m, hm, h⟩ := hen 9
    obtain ⟨k, rfl⟩ := Nat.exists_eq_add_of_le hm
    rw [Nat.add_comm] at h
    exact absurd h hnot
  have hidle : ∀ i, (stopState 9).caller i = .returned ∨ (stopState 9).caller i = .idle := by
    intro i
    match i with
    | 0 | 1 => exact .inl rfl
    | i + 2 => exact .inr rfl
  refine ⟨hlast ?_, hlast ?_, hlast ?_, hlast ?_, hlast ?_, fun i => hlast ?_⟩
  · intro h
    obtain ⟨a, s', ⟨b, rfl⟩, hs⟩ := h
    cases hs with
    | fnSucceeds hl | fnFails hl => cases hl
  · intro h
    obtain ⟨a, s', ⟨e, rfl⟩, hs⟩ := h
    cases hs with
    | gotSub hl | gotError hl | gotCancelled hl => cases hl
  · intro h
    obtain ⟨a, s', rfl, hs⟩ := h
    cases hs with
    | unsub ho hi hl => cases ho
  · intro h
    obtain ⟨a, s', rfl, hs⟩ := h
    cases hs with
    | releaseDone hl | releaseAgain hl => cases hl
  · intro h
    obtain ⟨a, s', rfl, hs⟩ := h
    cases hs with
    | close hl => cases hl
  · intro h
    obtain ⟨a, s', rfl, hs⟩ := h
    cases hs with
    | wakeFirst hi hl | wakeBlocked hi ho => rcases hidle i with h' | h' <;> simp [h'] at hi

theorem resubscribe_lets_go_stop : FairResub stopRun ∧
    (∀ i < 2, (stopRun.state 4).caller i ≠ .idle ∧
      ∃ m ≥ 4, (stopRun.state m).caller i = .returned) ∧
    (stopRun.state 4).loop = .holding 0 none ∧ (stopRun.state 7).loop = .ended ∧
    0 ∈ (stopRun.state 7).unsubscribed := by
  have h := resubscribe_lets_go 0 stopRun stopRun_fair
  have hcalled : ∀ i < 2, (stopRun.state 4).caller i ≠ .idle
    | 0, _ | 1, _ => nofun
  exact ⟨stopRun_fair, fun i hi => ⟨hcalled i hi, h.1 i 4 (hcalled i hi)⟩, rfl, rfl,
    h.2 7 rfl 0 Nat.zero_lt_one⟩

structure Resub.Stuck (s : Resub) (i : ℕ) : Prop where
  loop : s.loop = .ended
  once : s.once = .running i
  caller : s.caller i = .sending
  others : ∀ j, s.caller j ≠ .waiting

theorem Resub.Stuck.step {backoffMax : Int64} {s' : Resub} {a : ResubAct} (h : s.Stuck i)
    (hs : ResubStep backoffMax s a s') : s'.Stuck i := by
  obtain ⟨hl, ho, hi, hothers⟩ := h
  cases hs with
  | callFirst hj ho' | callDone hj ho' | wakeBlocked hj ho' => simp [ho] at ho'
  | @callBlocked j k hj ho' =>
    have hij : i ≠ j := fun hij => by simp [← hij, hi] at hj
    refine ⟨hl, ho, (update_of_ne hij _ _).trans hi, fun k => ?_⟩
    dsimp only
    rw [update_apply]
    split_ifs
    · nofun
    · exact hothers k
  | unsub ho' hj hl' => simp [hl, LoopPc.unsub] at hl'
  | fnSucceeds hl' | fnFails hl' | gotSub hl' | gotError hl' | gotCancelled hl' | timer hl'
  | subEnds hl' | gotEnd hl' | releaseDone hl' | releaseAgain hl' | close hl' => simp [hl] at hl'
  | @wakeFirst j hj hl' => exact absurd hj (hothers j)

/-- After a normal end of the subscription `Unsubscribe` never returns; and a
subscription that `fn` returns after it was cancelled is never unsubscribed. -/
theorem resubscribe_holds_on :
    (∃ s, Reach (ResubStep 0) (fun _ _ => True) (.init 0) s ∧ s.caller 0 = .sending ∧
      ∀ s', Reach (ResubStep 0) (fun _ _ => True) s s' → s'.caller 0 = .sending) ∧
    ∃ s, Reach (ResubStep 0) (fun _ _ => True) (.init 0) s ∧ s.loop = .ended ∧
      0 < s.subs ∧ 0 ∉ s.unsubscribed := by
  have hinit : Reach (ResubStep 0) (fun _ _ => True) (.init 0) (.init 0) := .refl _
  constructor
  · have hsub := (hinit.tail (.fnSucceeds rfl) trivial).tail (.gotSub rfl) trivial (a := .gotResult 0)
    have hended := (((hsub.tail (.subEnds rfl) trivial (a := .subEnds false)).tail (.gotEnd rfl)
      trivial).tail (.releaseDone rfl) trivial).tail (.close rfl) trivial
    have hcall := hended.tail (.callFirst rfl rfl) trivial (a := .call 0)
    refine ⟨_, hcall, rfl, fun s' hs' => ?_⟩
    have hstuck : s'.Stuck 0 :=
      hs'.invariant (I := fun s => s.Stuck 0) ⟨rfl, rfl, rfl, fun j => by cases j <;> nofun⟩
        fun _ _ _ h _ hs => h.step hs
    exact hstuck.caller
  · have hcancelled := (hinit.tail (.callFirst rfl rfl) trivial (a := .call 0)).tail
      (.unsub rfl rfl rfl) trivial
    have hended := ((hcancelled.tail (.fnSucceeds rfl) trivial).tail (.gotCancelled rfl) trivial
      (a := .gotResult 0)).tail (.close rfl) trivial
    exact ⟨_, hended, rfl, Nat.zero_lt_one, Finset.notMem_empty 0⟩

end Fiscobcos.Event
