import Fiscobcos.Lib.Numerals
import Fiscobcos.Lib.Steps
import Mathlib.Logic.Function.Basic

/-! # Unlocked keys (accounts/keystore/keystore.go:254-275, 317-368, 388-406)

`TimedUnlock` leaves a goroutine that waits for its timer or for its abort channel to be closed.
`Lock` runs the same code itself after it has let go of the mutex. What is done under the mutex is
a single step; a timer may fire at any time. -/

namespace Fiscobcos.Keystore
open Numerals Steps Function

/-- An `*unlocked`. `ptr` is the pointer and also names the channel; `abort` is false for
a nil channel. The fields are never assigned to. -/
structure Unlocked where
  ptr : ℕ
  key : ℕ
  abort : Bool
deriving DecidableEq

/-- Who runs `expire`: the goroutine of a `TimedUnlock`, or a `Lock`. -/
inductive Caller where
  | goroutine
  | lock
deriving DecidableEq

/-- Where a thread is: `decrypting` is `getDecryptedKey`, `waiting` the `select` of `expire`,
and `fired` after its timer has won. -/
inductive UnlockPc where
  | absent
  | decrypting (timeout : ℤ)
  | unlocking (addr : Bytes) (key : ℕ) (timeout : ℤ)
  | locking (addr : Bytes)
  | waiting (caller : Caller) (addr : Bytes) (u : Unlocked)
  | fired (caller : Caller) (addr : Bytes) (u : Unlocked)
  | returned
deriving DecidableEq

/-- `closes` counts the closings of a channel, `zeroed` has the keys wiped by `zeroKey`, and
pointers from `next` on are free. -/
structure UnlockState where
  unlocked : Bytes → Option Unlocked
  closes : ℕ → ℕ
  zeroed : ℕ → Bool
  next : ℕ
  threads : ℕ → UnlockPc

def UnlockState.init : UnlockState where
  unlocked := fun _ => none
  closes := fun _ => 0
  zeroed := fun _ => false
  next := 0
  threads := fun _ => .absent

def UnlockState.zeroKey (s : UnlockState) (key : ℕ) : UnlockState :=
  { s with zeroed := Function.update s.zeroed key true }

def UnlockState.closeAbort (s : UnlockState) (u : Unlocked) : UnlockState :=
  { s with closes := Function.update s.closes u.ptr (s.closes u.ptr + 1) }

def UnlockState.delete (s : UnlockState) (addr : Bytes) : UnlockState :=
  { s with unlocked := Function.update s.unlocked addr none }

def UnlockState.store (s : UnlockState) (addr : Bytes) (key : ℕ) (timeout : ℤ) :
    UnlockState × Option Unlocked :=
  let u : Unlocked := ⟨s.next, key, decide (timeout > 0)⟩
  ({ s with unlocked := Function.update s.unlocked addr (some u), next := s.next + 1 },
    if timeout > 0 then some u else none)

def UnlockState.timedUnlock (s : UnlockState) (addr : Bytes) (key : ℕ) (timeout : ℤ) :
    UnlockState × Option Unlocked :=
  match s.unlocked addr with
  | some u =>
    if u.abort then (s.closeAbort u).store addr key timeout else (s.zeroKey key, none)
  | none => s.store addr key timeout

def UnlockState.expire (s : UnlockState) (addr : Bytes) (u : Unlocked) : UnlockState :=
  match s.unlocked addr with
  | some v =>
    if v.ptr = u.ptr then (s.zeroKey u.key).delete addr else s
  | none => s

def UnlockState.goto (s : UnlockState) (t : ℕ) (pc : UnlockPc) : UnlockState :=
  { s with threads := Function.update s.threads t pc }

inductive UnlockAct where
  | timedUnlock (t : ℕ) (timeout : ℤ)
  | lock (t : ℕ) (addr : Bytes)
  | getDecryptedKey (t : ℕ) (found : Option Bytes)
  | store (t : ℕ)
  | lookup (t : ℕ)
  | quit (t : ℕ)
  | fire (t : ℕ)
  | expire (t : ℕ)

def UnlockAct.thread : UnlockAct → ℕ
  | timedUnlock t _ | lock t _ | getDecryptedKey t _ | store t | lookup t | quit t | fire t
  | expire t => t

inductive UnlockStep : UnlockState → UnlockAct → UnlockState → Prop
  | timedUnlock {s : UnlockState} {t : ℕ} (timeout : ℤ) (ht : s.threads t = .absent) :
    UnlockStep s (.timedUnlock t timeout) (s.goto t (.decrypting timeout))
  | lock {s : UnlockState} {t : ℕ} (addr : Bytes) (ht : s.threads t = .absent) :
    UnlockStep s (.lock t addr) (s.goto t (.locking addr))
  | decryptFail {s : UnlockState} {t : ℕ} {timeout : ℤ} (ht : s.threads t = .decrypting timeout) :
    UnlockStep s (.getDecryptedKey t none) (s.goto t .returned)
  | decrypt {s : UnlockState} {t : ℕ} {timeout : ℤ} (addr : Bytes)
      (ht : s.threads t = .decrypting timeout) :
    UnlockStep s (.getDecryptedKey t (some addr))
      ({ s with next := s.next + 1 }.goto t (.unlocking addr s.next timeout))
  | store {s s' : UnlockState} {t : ℕ} {addr : Bytes} {key : ℕ} {timeout : ℤ}
      (ht : s.threads t = .unlocking addr key timeout)
      (hs : s.timedUnlock addr key timeout = (s', none)) :
    UnlockStep s (.store t) (s'.goto t .returned)
  -- the goroutine starts as a thread of its own
  | storeTimed {s s' : UnlockState} {t g : ℕ} {addr : Bytes} {key : ℕ} {timeout : ℤ} {u : Unlocked}
      (ht : s.threads t = .unlocking addr key timeout)
      (hs : s.timedUnlock addr key timeout = (s', some u)) (hg : s.threads g = .absent) :
    UnlockStep s (.store t) ((s'.goto t .returned).goto g (.waiting .goroutine addr u))
  | lookupMiss {s : UnlockState} {t : ℕ} {addr : Bytes} (ht : s.threads t = .locking addr)
      (hu : s.unlocked addr = none) :
    UnlockStep s (.lookup t) (s.goto t .returned)
  | lookup {s : UnlockState} {t : ℕ} {addr : Bytes} {u : Unlocked}
      (ht : s.threads t = .locking addr) (hu : s.unlocked addr = some u) :
    UnlockStep s (.lookup t) (s.goto t (.waiting .lock addr u))
  -- nothing is ever received from a nil channel
  | quit {s : UnlockState} {t : ℕ} {c : Caller} {addr : Bytes} {u : Unlocked}
      (ht : s.threads t = .waiting c addr u) (ha : u.abort = true) (hc : 0 < s.closes u.ptr) :
    UnlockStep s (.quit t) (s.goto t .returned)
  | fire {s : UnlockState} {t : ℕ} {c : Caller} {addr : Bytes} {u : Unlocked}
      (ht : s.threads t = .waiting c addr u) :
    UnlockStep s (.fire t) (s.goto t (.fired c addr u))
  | expire {s : UnlockState} {t : ℕ} {c : Caller} {addr : Bytes} {u : Unlocked}
      (ht : s.threads t = .fired c addr u) :
    UnlockStep s (.expire t) ((s.expire addr u).goto t .returned)

abbrev UnlockReach := Reach UnlockStep fun _ _ => True

open UnlockState

section Sections
variable {s s' : UnlockState} {addr : Bytes} {key : ℕ} {timeout : ℤ} {o : Option Unlocked}

theorem UnlockState.timedUnlock_cases (hs : s.timedUnlock addr key timeout = (s', o)) :
    (∃ u, s.unlocked addr = some u ∧ u.abort = false ∧ s' = s.zeroKey key ∧ o = none) ∨
    (s.unlocked addr = none ∧ s.store addr key timeout = (s', o)) ∨
    ∃ u, s.unlocked addr = some u ∧ u.abort = true ∧
      (s.closeAbort u).store addr key timeout = (s', o) := by
  unfold timedUnlock at hs
  split at hs
  · rename_i u hu
    split_ifs at hs with ha
    · exact .inr (.inr ⟨u, hu, ha, hs⟩)
    · cases hs
      exact .inl ⟨u, hu, by simpa using ha, rfl, rfl⟩
  · rename_i hu
    exact .inr (.inl ⟨hu, hs⟩)

theorem UnlockState.store_eq (hs : s.store addr key timeout = (s', o)) :
    s' = { s with
      unlocked := update s.unlocked addr (some ⟨s.next, key, decide (timeout > 0)⟩)
      next := s.next + 1 } ∧
    o = if timeout > 0 then some ⟨s.next, key, decide (timeout > 0)⟩ else none := by
  cases hs
  exact ⟨rfl, rfl⟩

theorem UnlockState.timedUnlock_threads (hs : s.timedUnlock addr key timeout = (s', o)) :
    s'.threads = s.threads := by
  obtain ⟨u, -, -, rfl, -⟩ | ⟨-, hst⟩ | ⟨u, -, -, hst⟩ := timedUnlock_cases hs
  · rfl
  · rw [(store_eq hst).1]
  · rw [(store_eq hst).1]
    rfl

theorem UnlockState.expire_cases (s : UnlockState) (addr : Bytes) (u : Unlocked) :
    ((∃ v, s.unlocked addr = some v ∧ v.ptr = u.ptr) ∧
      s.expire addr u = (s.zeroKey u.key).delete addr) ∨
    ((∀ v, s.unlocked addr = some v → v.ptr ≠ u.ptr) ∧ s.expire addr u = s) := by
  unfold expire
  split
  · rename_i v hv
    split_ifs with heq
    · exact .inl ⟨⟨v, hv, heq⟩, rfl⟩
    · refine .inr ⟨?_, rfl⟩
      intro w hw
      rw [hv] at hw
      cases hw
      exact heq
  · rename_i hv
    refine .inr ⟨?_, rfl⟩
    intro w hw
    rw [hv] at hw
    cases hw

end Sections

variable {addr a : Bytes} {u : Unlocked}

theorem UnlockState.delete_unlocked {s : UnlockState}
    (h : (s.delete addr).unlocked a = some u) : a ≠ addr ∧ s.unlocked a = some u := by
  change update s.unlocked addr none a = some u at h
  by_cases ha : a = addr
  · rw [ha, update_self] at h
    cases h
  · rw [update_of_ne ha] at h
    exact ⟨ha, h⟩

theorem UnlockState.store_unlocked {s s' : UnlockState} {key : ℕ} {timeout : ℤ}
    {o : Option Unlocked} {v : Unlocked} (hs : s.store addr key timeout = (s', o))
    (hv : s'.unlocked a = some v) :
    (a = addr ∧ v = ⟨s.next, key, decide (timeout > 0)⟩) ∨ (s.delete addr).unlocked a = some v := by
  obtain ⟨rfl, -⟩ := store_eq hs
  by_cases ha : a = addr
  · dsimp only at hv
    rw [ha, update_self] at hv
    cases hv
    exact .inl ⟨ha, rfl⟩
  · dsimp only at hv
    rw [update_of_ne ha] at hv
    exact .inr ((update_of_ne ha _ _).trans hv)

def UnlockPc.Runs (pc : UnlockPc) (c : Caller) (addr : Bytes) (u : Unlocked) : Prop :=
  pc = .waiting c addr u ∨ pc = .fired c addr u

def UnlockPc.Idle (pc : UnlockPc) : Prop := ∀ c a u, ¬ pc.Runs c a u

def UnlockPc.inExpire : UnlockPc → Bool
  | .waiting _ _ _ | .fired _ _ _ => true
  | _ => false

variable {s s' s₁ : UnlockState} {act : UnlockAct} {t g r : ℕ} {pc pc₀ : UnlockPc} {c : Caller}

section Threads

theorem UnlockPc.idle_of (h : pc.inExpire = false) : pc.Idle := by
  intro c a u hrun
  rcases hrun with hrun | hrun <;> simp [hrun, inExpire] at h

theorem UnlockPc.runs_waiting {c' : Caller} {v : Unlocked} :
    (waiting c' a v).Runs c addr u ↔ c = c' ∧ addr = a ∧ u = v := by
  simp [Runs, eq_comm]

theorem UnlockPc.runs_fired {c' : Caller} {v : Unlocked} :
    (fired c' a v).Runs c addr u ↔ c = c' ∧ addr = a ∧ u = v := by
  simp [Runs, eq_comm]

theorem UnlockState.goto_self (s : UnlockState) (t : ℕ) (pc : UnlockPc) :
    (s.goto t pc).threads t = pc := update_self _ _ _

theorem UnlockState.goto_ne (h : r ≠ t) : (s.goto t pc).threads r = s.threads r :=
  update_of_ne h _ _

theorem UnlockState.runs_goto : ((s.goto t pc).threads r).Runs c a u ↔
    (r = t ∧ pc.Runs c a u) ∨ (r ≠ t ∧ (s.threads r).Runs c a u) := by
  by_cases hrt : r = t
  · rw [hrt, goto_self]
    simp
  · rw [goto_ne hrt]
    simp [hrt]

theorem UnlockState.expire_threads (s : UnlockState) (addr : Bytes) (u : Unlocked) :
    (s.expire addr u).threads = s.threads := by
  obtain ⟨-, heq⟩ | ⟨-, heq⟩ := s.expire_cases addr u
  · rw [heq]
    rfl
  · rw [heq]

end Threads

/-- What a step of thread `t` does to the entries. -/
inductive TableStep (s : UnlockState) (t : ℕ) (s' : UnlockState) : Prop
  | keep (next : s.next ≤ s'.next) (unlocked : s'.unlocked = s.unlocked)
      (closes : s'.closes = s.closes)
  | store {addr : Bytes} {key : ℕ} {timeout : ℤ} {v : Unlocked}
      (ht : s.threads t = .unlocking addr key timeout) (hnone : s.unlocked addr = none)
      (fresh : v.ptr = s.next ∧ s.next < s'.next)
      (unlocked : s'.unlocked = update s.unlocked addr (some v)) (closes : s'.closes = s.closes)
  | replace {addr : Bytes} {key : ℕ} {timeout : ℤ} {u v : Unlocked}
      (ht : s.threads t = .unlocking addr key timeout) (hu : s.unlocked addr = some u)
      (abort : u.abort = true) (fresh : v.ptr = s.next ∧ s.next < s'.next)
      (unlocked : s'.unlocked = update s.unlocked addr (some v))
      (closes : s'.closes = update s.closes u.ptr (s.closes u.ptr + 1))
  | remove {c : Caller} {addr : Bytes} {u v : Unlocked} (ht : s.threads t = .fired c addr u)
      (hv : s.unlocked addr = some v) (hptr : v.ptr = u.ptr) (next : s.next ≤ s'.next)
      (unlocked : s'.unlocked = update s.unlocked addr none) (closes : s'.closes = s.closes)

/-- What a step does to the threads inside of `expire`. -/
structure ThreadStep (s s' : UnlockState) : Prop where
  starts : ∀ r c a u, (s'.threads r).Runs c a u →
    (s.threads r).Runs c a u ∨ (s'.unlocked a = some u ∧ (c = .goroutine → u.abort = true))
  /-- A thread leaves if the channel is closed, or with its entry removed. -/
  leaves : ∀ r c a u, (s.threads r).Runs c a u → (s'.threads r).Runs c a u ∨
    (s'.threads r = .returned ∧ ((s'.unlocked = s.unlocked ∧ 0 < s.closes u.ptr) ∨
      ∀ v, s'.unlocked a = some v → v.ptr ≠ u.ptr))
  /-- An entry with time-out comes with its goroutine. -/
  stored : ∀ a u, s'.unlocked a = some u → u.abort = true →
    s.unlocked a = some u ∨ ∃ r, (s'.threads r).Runs .goroutine a u
  returned : ∀ r, s.threads r = .returned → s'.threads r = .returned

section Effects

theorem tableStep_timedUnlock {key : ℕ} {timeout : ℤ} {o : Option Unlocked}
    (ht : s.threads t = .unlocking addr key timeout)
    (hs : s.timedUnlock addr key timeout = (s₁, o)) (hu : s'.unlocked = s₁.unlocked)
    (hc : s'.closes = s₁.closes) (hn : s'.next = s₁.next) : TableStep s t s' := by
  obtain ⟨u, -, -, rfl, -⟩ | ⟨hnone, hst⟩ | ⟨u, hsome, hab, hst⟩ := timedUnlock_cases hs
  · exact .keep hn.ge hu hc
  · obtain ⟨rfl, -⟩ := store_eq hst
    exact .store ht hnone ⟨rfl, hn ▸ Nat.lt_succ_self _⟩ hu hc
  · obtain ⟨rfl, -⟩ := store_eq hst
    exact .replace ht hsome hab ⟨rfl, hn ▸ Nat.lt_succ_self _⟩ hu hc

theorem UnlockStep.table (hs : UnlockStep s act s') : TableStep s act.thread s' := by
  cases hs with
  | timedUnlock _ _ | lock _ _ | decryptFail _ | lookupMiss _ _ | lookup _ _ | quit _ _ _ | fire _ =>
    exact .keep le_rfl rfl rfl
  | decrypt _ _ => exact .keep (Nat.le_succ _) rfl rfl
  | store ht hst | storeTimed ht hst _ => exact tableStep_timedUnlock ht hst rfl rfl rfl
  | @expire t c addr u ht =>
    obtain ⟨⟨v, hv, hptr⟩, heq⟩ | ⟨-, heq⟩ := s.expire_cases addr u
    · rw [heq]
      exact .remove ht hv hptr le_rfl rfl rfl
    · rw [heq]
      exact .keep le_rfl rfl rfl

/-- A thread goes from `pc₀` to `pc`, with or without entering or leaving `expire`. -/
theorem threadStep_goto (ht : s.threads t = pc₀) (hret : pc₀ ≠ .returned)
    (hthr : s₁.threads = s.threads)
    (hst : ∀ a u, s₁.unlocked a = some u → u.abort = true → s.unlocked a = some u)
    (hin : ∀ c a u, pc.Runs c a u →
      pc₀.Runs c a u ∨ (s₁.unlocked a = some u ∧ (c = .goroutine → u.abort = true)))
    (hout : ∀ c a u, pc₀.Runs c a u → pc.Runs c a u ∨
      (pc = .returned ∧ ((s₁.unlocked = s.unlocked ∧ 0 < s.closes u.ptr) ∨
        ∀ v, s₁.unlocked a = some v → v.ptr ≠ u.ptr))) : ThreadStep s (s₁.goto t pc) where
  starts r c a u hr := by
    rcases runs_goto.mp hr with ⟨rfl, hrun⟩ | ⟨-, hrun⟩
    · rw [ht]
      exact hin c a u hrun
    · exact .inl (hthr ▸ hrun)
  leaves r c a u hr := by
    by_cases hrt : r = t
    · rw [hrt, ht] at hr
      rw [hrt, goto_self]
      exact hout c a u hr
    · rw [goto_ne hrt, hthr]
      exact .inl hr
  stored a u hu hab := .inl (hst a u hu hab)
  returned r hr := by
    have hrt : r ≠ t := by
      rintro rfl
      exact hret (ht.symm.trans hr)
    rw [goto_ne hrt, hthr, hr]

theorem threadStep_idle (ht : s.threads t = pc₀) (hret : pc₀ ≠ .returned)
    (hthr : s₁.threads = s.threads)
    (hst : ∀ a u, s₁.unlocked a = some u → u.abort = true → s.unlocked a = some u)
    (hpc : pc.inExpire = false) (hpc₀ : pc₀.inExpire = false) : ThreadStep s (s₁.goto t pc) :=
  threadStep_goto ht hret hthr hst (fun c a u hrun => absurd hrun (UnlockPc.idle_of hpc c a u))
    fun c a u hrun => absurd hrun (UnlockPc.idle_of hpc₀ c a u)

theorem UnlockState.timedUnlock_stored {key : ℕ} {timeout : ℤ} {o : Option Unlocked}
    (hs : s.timedUnlock addr key timeout = (s₁, o)) (hu : s₁.unlocked a = some u)
    (hab : u.abort = true) : s.unlocked a = some u ∨ (a = addr ∧ o = some u) := by
  have hstore : ∀ s₀ : UnlockState, s₀.unlocked = s.unlocked →
      s₀.store addr key timeout = (s₁, o) → s.unlocked a = some u ∨ (a = addr ∧ o = some u) := by
    intro s₀ hsame hst
    obtain ⟨-, rfl⟩ := store_eq hst
    rcases store_unlocked hst hu with ⟨rfl, rfl⟩ | hold
    · exact .inr ⟨rfl, if_pos (of_decide_eq_true hab)⟩
    · exact .inl (hsame ▸ (delete_unlocked hold).2)
  obtain ⟨v, -, -, rfl, -⟩ | ⟨-, hst⟩ | ⟨v, -, -, hst⟩ := timedUnlock_cases hs
  · exact .inl hu
  · exact hstore s rfl hst
  · exact hstore (s.closeAbort v) rfl hst

theorem UnlockState.timedUnlock_some {key : ℕ} {timeout : ℤ}
    (hs : s.timedUnlock addr key timeout = (s₁, some u)) :
    s₁.unlocked addr = some u ∧ u.abort = true := by
  have hstore : ∀ s₀ : UnlockState, s₀.store addr key timeout = (s₁, some u) →
      s₁.unlocked addr = some u ∧ u.abort = true := by
    intro s₀ hst
    obtain ⟨rfl, ho⟩ := store_eq hst
    split_ifs at ho with hto
    cases ho
    exact ⟨update_self _ _ _, decide_eq_true hto⟩
  obtain ⟨v, -, -, -, ho⟩ | ⟨-, hst⟩ | ⟨v, -, -, hst⟩ := timedUnlock_cases hs
  · cases ho
  · exact hstore s hst
  · exact hstore _ hst

theorem UnlockStep.thread (hs : UnlockStep s act s') : ThreadStep s s' := by
  cases hs with
  | timedUnlock _ ht | lock _ ht | decryptFail ht | lookupMiss ht _ | decrypt _ ht =>
    exact threadStep_idle ht nofun rfl (fun _ _ hu _ => hu) rfl rfl
  | store ht hst =>
    refine threadStep_idle ht nofun (timedUnlock_threads hst) (fun a u hu hab => ?_) rfl rfl
    exact (timedUnlock_stored hst hu hab).resolve_right (by simp)
  | @storeTimed s₁ t g addr key timeout u ht hst hg =>
    have hthr := timedUnlock_threads hst
    obtain ⟨hu, hab⟩ := timedUnlock_some hst
    have hidle : ∀ r, (r = t ∨ r = g) → (s.threads r).Idle := by
      rintro r (rfl | rfl)
      · exact UnlockPc.idle_of (ht ▸ rfl)
      · exact UnlockPc.idle_of (hg ▸ rfl)
    refine ⟨fun r c a v hr => ?_, fun r c a v hr => .inl ?_, fun a v hv hab => ?_, fun r hr => ?_⟩
    · rcases runs_goto.mp hr with ⟨-, hrun⟩ | ⟨-, hrun⟩
      · obtain ⟨-, rfl, rfl⟩ := UnlockPc.runs_waiting.mp hrun
        exact .inr ⟨hu, fun _ => hab⟩
      · rcases runs_goto.mp hrun with ⟨-, hrun⟩ | ⟨-, hrun⟩
        · exact absurd hrun (UnlockPc.idle_of rfl c a v)
        · exact .inl (hthr ▸ hrun)
    · refine runs_goto.mpr (.inr ⟨fun heq => hidle r (.inr heq) c a v hr, ?_⟩)
      exact runs_goto.mpr (.inr ⟨fun heq => hidle r (.inl heq) c a v hr, hthr ▸ hr⟩)
    · rcases timedUnlock_stored hst hv hab with hold | ⟨rfl, ho⟩
      · exact .inl hold
      · cases ho
        exact .inr ⟨g, runs_goto.mpr (.inl ⟨rfl, .inl rfl⟩)⟩
    · have hrg : r ≠ g := by
        rintro rfl
        cases hg.symm.trans hr
      rw [goto_ne hrg]
      by_cases hrt : r = t
      · rw [hrt, goto_self]
      · rw [goto_ne hrt, hthr, hr]
  | lookup ht hu =>
    refine threadStep_goto ht nofun rfl (fun _ _ hu _ => hu) (fun c a v hrun => ?_)
      fun c a v hrun => absurd hrun (UnlockPc.idle_of rfl c a v)
    obtain ⟨rfl, rfl, rfl⟩ := UnlockPc.runs_waiting.mp hrun
    exact .inr ⟨hu, nofun⟩
  | quit ht _ hc =>
    refine threadStep_goto ht nofun rfl (fun _ _ hu _ => hu)
      (fun c a v hrun => absurd hrun (UnlockPc.idle_of rfl c a v)) fun c a v hrun => ?_
    obtain ⟨-, -, rfl⟩ := UnlockPc.runs_waiting.mp hrun
    exact .inr ⟨rfl, .inl ⟨rfl, hc⟩⟩
  | fire ht =>
    refine threadStep_goto ht nofun rfl (fun _ _ hu _ => hu) (fun c a v hrun => .inl ?_)
      fun c a v hrun => .inl ?_
    · exact UnlockPc.runs_waiting.mpr (UnlockPc.runs_fired.mp hrun)
    · exact UnlockPc.runs_fired.mpr (UnlockPc.runs_waiting.mp hrun)
  | @expire t c addr u ht =>
    refine threadStep_goto ht nofun (s.expire_threads addr u) (fun a v hv _ => ?_)
      (fun c a v hrun => absurd hrun (UnlockPc.idle_of rfl c a v)) fun c a v hrun => ?_
    · obtain ⟨-, heq⟩ | ⟨-, heq⟩ := s.expire_cases addr u
      · rw [heq] at hv
        exact (delete_unlocked hv).2
      · rwa [heq] at hv
    · obtain ⟨-, rfl, rfl⟩ := UnlockPc.runs_fired.mp hrun
      refine .inr ⟨rfl, .inr fun w hw => ?_⟩
      obtain ⟨-, heq⟩ | ⟨hno, heq⟩ := s.expire_cases a v
      · rw [heq] at hw
        exact absurd rfl (delete_unlocked hw).1
      · rw [heq] at hw
        exact hno w hw

end Effects

structure TableInv (s : UnlockState) : Prop where
  below : ∀ a u, s.unlocked a = some u → u.ptr < s.next
  one : ∀ a b u v, s.unlocked a = some u → s.unlocked b = some v → u.ptr = v.ptr → a = b
  quiet : ∀ a u, s.unlocked a = some u → s.closes u.ptr = 0
  unborn : ∀ p, s.next ≤ p → s.closes p = 0
  once : ∀ p, s.closes p ≤ 1

structure ThreadInv (s : UnlockState) : Prop where
  held : ∀ t c a u, (s.threads t).Runs c a u → u.ptr < s.next ∧
    ∀ b v, s.unlocked b = some v → v.ptr = u.ptr → b = a ∧ v = u
  timed : ∀ t a u, (s.threads t).Runs .goroutine a u → u.abort = true
  alive : ∀ a u, s.unlocked a = some u → u.abort = true →
    ∃ t, (s.threads t).Runs .goroutine a u

def Gone (u : Unlocked) (s : UnlockState) : Prop :=
  u.ptr < s.next ∧ ∀ b v, s.unlocked b = some v → v.ptr ≠ u.ptr

section Invariants

theorem UnlockStep.next_le (hs : UnlockStep s act s') : s.next ≤ s'.next := by
  cases hs.table with
  | keep next _ _ | remove _ _ _ next _ _ => exact next
  | store _ _ fresh _ _ | replace _ _ _ fresh _ _ => exact fresh.2.le

/-- An entry after a step is an old one, or the only fresh one. -/
theorem TableStep.entry (h : TableStep s t s') (hu : s'.unlocked a = some u) :
    s.unlocked a = some u ∨ ((u.ptr = s.next ∧ s.next < s'.next) ∧
      ∀ b v, s'.unlocked b = some v → b = a ∨ s.unlocked b = some v) := by
  have hstored : ∀ {addr v}, s'.unlocked = update s.unlocked addr (some v) →
      v.ptr = s.next ∧ s.next < s'.next → s.unlocked a = some u ∨
        ((u.ptr = s.next ∧ s.next < s'.next) ∧
          ∀ b v, s'.unlocked b = some v → b = a ∨ s.unlocked b = some v) := by
    intro addr v heq hfresh
    have hother : ∀ b w, s'.unlocked b = some w → b = addr ∨ s.unlocked b = some w := by
      intro b w hw
      rw [heq] at hw
      by_cases hb : b = addr
      · exact .inl hb
      · rw [update_of_ne hb] at hw
        exact .inr hw
    rcases hother a u hu with rfl | hold
    · rw [heq, update_self] at hu
      cases hu
      exact .inr ⟨hfresh, hother⟩
    · exact .inl hold
  cases h with
  | keep _ unlocked _ => exact .inl (unlocked ▸ hu)
  | store _ _ fresh unlocked _ => exact hstored unlocked fresh
  | replace _ _ _ fresh unlocked _ => exact hstored unlocked fresh
  | remove _ _ _ _ unlocked _ =>
    rw [unlocked] at hu
    exact .inl (delete_unlocked hu).2

theorem TableStep.closed (h : TableStep s t s') (p : ℕ) : s'.closes p = s.closes p ∨
    (s'.closes p = s.closes p + 1 ∧ ∃ a u, s.unlocked a = some u ∧ u.ptr = p ∧
      ∀ v, s'.unlocked a = some v → v.ptr = s.next) := by
  cases h with
  | keep _ _ closes | store _ _ _ _ closes | remove _ _ _ _ _ closes =>
    exact .inl (congrFun closes p)
  | @replace addr key timeout u v _ hu _ fresh unlocked closes =>
    rw [closes]
    by_cases hp : p = u.ptr
    · refine .inr ⟨by rw [hp, update_self], addr, u, hu, hp.symm, fun w hw => ?_⟩
      rw [unlocked, update_self] at hw
      cases hw
      exact fresh.1
    · exact .inl (update_of_ne hp _ _)

theorem TableInv.mono (h : TableInv s) (hu : s'.unlocked = s.unlocked) (hc : s'.closes = s.closes)
    (hn : s.next ≤ s'.next) : TableInv s' := by
  constructor <;> simp only [hu, hc]
  · exact fun a u hu => (h.below a u hu).trans_le hn
  · exact h.one
  · exact h.quiet
  · exact fun p hp => h.unborn p (hn.trans hp)
  · exact h.once

theorem ThreadInv.mono (h : ThreadInv s) (hu : s'.unlocked = s.unlocked)
    (ht : s'.threads = s.threads) (hn : s.next ≤ s'.next) : ThreadInv s' := by
  constructor <;> simp only [hu, ht]
  · exact fun t c a u hr => ⟨(h.held t c a u hr).1.trans_le hn, (h.held t c a u hr).2⟩
  · exact h.timed
  · exact h.alive

theorem TableInv.step (h : TableInv s) (hs : UnlockStep s act s') : TableInv s' := by
  have hle := hs.next_le
  have hentry := fun {a u} => hs.table.entry (a := a) (u := u)
  have hclosed := hs.table.closed
  refine ⟨fun a u hu => ?_, fun a b u v hu hv heq => ?_, fun a u hu => ?_, fun p hp => ?_,
    fun p => ?_⟩
  · rcases hentry hu with hold | ⟨⟨hptr, hlt⟩, -⟩
    · exact (h.below a u hold).trans_le hle
    · exact hptr.trans_lt hlt
  · rcases hentry hu with hold | ⟨⟨hptr, -⟩, honly⟩
    · rcases hentry hv with hold' | ⟨⟨hptr, -⟩, -⟩
      · exact h.one a b u v hold hold' heq
      · exact absurd (heq.trans hptr) (h.below a u hold).ne
    · rcases honly b v hv with hba | hold
      · exact hba.symm
      · exact absurd (heq.symm.trans hptr) (h.below b v hold).ne
  · rcases hclosed u.ptr with hsame | ⟨-, b, v, hv, hptr, hnew⟩
    · rw [hsame]
      rcases hentry hu with hold | ⟨⟨hptr, -⟩, -⟩
      · exact h.quiet a u hold
      · exact h.unborn _ hptr.ge
    · have hlt := h.below b v hv
      rcases hentry hu with hold | ⟨⟨hfresh, -⟩, -⟩
      · obtain rfl := h.one b a v u hv hold hptr
        have := hnew u hu
        omega
      · omega
  · rcases hclosed p with hsame | ⟨-, b, v, hv, hptr, -⟩
    · exact hsame.trans (h.unborn p (hle.trans hp))
    · have := h.below b v hv
      omega
  · rcases hclosed p with hsame | ⟨hone, b, v, hv, rfl, -⟩
    · exact hsame.trans_le (h.once p)
    · rw [hone, h.quiet b v hv]

theorem TableInv.closed_gone (h : TableInv s) (hc : 0 < s.closes u.ptr) :
    ∀ b v, s.unlocked b = some v → v.ptr ≠ u.ptr := by
  intro b v hv heq
  have hzero := h.quiet b v hv
  rw [heq] at hzero
  omega

theorem Gone.step (h : Gone u s) (hs : UnlockStep s act s') : Gone u s' := by
  refine ⟨h.1.trans_le hs.next_le, fun b v hv => ?_⟩
  rcases hs.table.entry hv with hold | ⟨⟨hptr, -⟩, -⟩
  · exact h.2 b v hold
  · have := h.1
    omega

/-- A thread that leaves `expire` leaves no entry behind. -/
theorem ThreadInv.leaves (h : ThreadInv s) (htab : TableInv s) (hs : UnlockStep s act s')
    (hr : (s.threads r).Runs c a u) :
    (s'.threads r).Runs c a u ∨ (s'.threads r = .returned ∧ Gone u s') := by
  obtain ⟨hlt, hheld⟩ := h.held r c a u hr
  rcases hs.thread.leaves r c a u hr with hrun | ⟨hret, hwhy⟩
  · exact .inl hrun
  · refine .inr ⟨hret, hlt.trans_le hs.next_le, fun b v hv heq => ?_⟩
    rcases hwhy with ⟨hsame, hc⟩ | hno
    · exact htab.closed_gone hc b v (hsame ▸ hv) heq
    · rcases hs.table.entry hv with hold | ⟨⟨hptr, -⟩, -⟩
      · obtain ⟨rfl, -⟩ := hheld b v hold heq
        exact hno v hv heq
      · omega

theorem ThreadInv.step (h : ThreadInv s) (htab : TableInv s) (hs : UnlockStep s act s') :
    ThreadInv s' := by
  have htab' := htab.step hs
  refine ⟨fun r c a u hr => ?_, fun r a u hr => ?_, fun a u hu hab => ?_⟩
  · rcases hs.thread.starts r c a u hr with hold | ⟨hu, -⟩
    · obtain ⟨hlt, hheld⟩ := h.held r c a u hold
      refine ⟨hlt.trans_le hs.next_le, fun b v hv heq => ?_⟩
      rcases hs.table.entry hv with hv | ⟨⟨hptr, -⟩, -⟩
      · exact hheld b v hv heq
      · omega
    · refine ⟨htab'.below a u hu, fun b v hv heq => ?_⟩
      obtain rfl := htab'.one b a v u hv hu heq
      exact ⟨rfl, Option.some.inj (hv.symm.trans hu)⟩
  · rcases hs.thread.starts r _ a u hr with hold | ⟨-, hab⟩
    · exact h.timed r a u hold
    · exact hab rfl
  · rcases hs.thread.stored a u hu hab with hold | hrun
    · obtain ⟨r, hr⟩ := h.alive a u hold hab
      rcases h.leaves htab hs hr with hrun | ⟨-, hgone⟩
      · exact ⟨r, hrun⟩
      · exact absurd rfl (hgone.2 a u hu)
    · exact hrun

end Invariants

open UnlockPc

section Runs

theorem reach_unlockInv (h : UnlockReach s s') (htab : TableInv s) (hthr : ThreadInv s) :
    TableInv s' ∧ ThreadInv s' := by
  refine h.invariant (I := fun s => TableInv s ∧ ThreadInv s) ⟨htab, hthr⟩ ?_
  intro s act s' hinv _ hs
  exact ⟨hinv.1.step hs, hinv.2.step hinv.1 hs⟩

theorem init_unlockInv : TableInv .init ∧ ThreadInv .init := by
  have hidle : ∀ t c a u, ¬ (init.threads t).Runs c a u := fun t c a u => idle_of rfl c a u
  exact ⟨⟨nofun, nofun, nofun, fun _ _ => rfl, fun _ => Nat.zero_le _⟩,
    fun t c a u hr => absurd hr (hidle t c a u), fun t a u hr => absurd hr (hidle t _ a u), nofun⟩

def LockOf (t : ℕ) (addr : Bytes) (u : Unlocked) (s : UnlockState) : Prop :=
  (s.threads t).Runs .lock addr u ∨ (s.threads t = .returned ∧ Gone u s)

theorem LockOf.step (h : LockOf t addr u s) (htab : TableInv s) (hthr : ThreadInv s)
    (hs : UnlockStep s act s') : LockOf t addr u s' := by
  rcases h with hrun | ⟨hret, hgone⟩
  · exact hthr.leaves htab hs hrun
  · exact .inr ⟨hs.thread.returned t hret, hgone.step hs⟩

theorem LockOf.reach (h : LockOf t addr u s)
    (htab : TableInv s) (hthr : ThreadInv s) (hr : UnlockReach s s') : LockOf t addr u s' := by
  have hall := hr.invariant (I := fun s => LockOf t addr u s ∧ TableInv s ∧ ThreadInv s)
    ⟨h, htab, hthr⟩ (by
      intro s act s' hinv _ hs
      obtain ⟨h, htab, hthr⟩ := hinv
      exact ⟨h.step htab hthr hs, htab.step hs, hthr.step htab hs⟩)
  exact hall.1

structure UnlockSafe (s : UnlockState) : Prop where
  /-- Only a `Lock` that has looked it up removes an entry without time-out. -/
  indefinite : ∀ act s' addr u, s.unlocked addr = some u → u.abort = false →
    UnlockStep s act s' → s'.unlocked addr ≠ some u → s.threads act.thread = .fired .lock addr u
  /-- The timer of one entry leaves the others alone. -/
  other : ∀ act s' addr u c a v, s.unlocked addr = some u →
    (s.threads act.thread).Runs c a v → v ≠ u → UnlockStep s act s' →
    s'.unlocked addr = some u
  /-- An entry with time-out has its goroutine, which does not quit while the entry is there. -/
  started : ∀ addr u, s.unlocked addr = some u → u.abort = true →
    ∃ t, (s.threads t).Runs .goroutine addr u
  waits : ∀ t c addr u s', s.unlocked addr = some u → (s.threads t).Runs c addr u →
    ¬ UnlockStep s (.quit t) s'
  /-- A timer that has fired removes its entry. -/
  removes : ∀ t c addr u, s.unlocked addr = some u → s.threads t = .fired c addr u →
    (∃ s', UnlockStep s (.expire t) s') ∧
      ∀ s', UnlockStep s (.expire t) s' → s'.unlocked addr = none ∧ s'.zeroed u.key = true
  once : ∀ p, s.closes p ≤ 1
  /-- The entry that a `Lock` has found is gone for good when it returns. -/
  locked : ∀ t addr u s₁ s₂ s₃, s.threads t = .locking addr → s.unlocked addr = some u →
    UnlockStep s (.lookup t) s₁ → UnlockReach s₁ s₂ → s₂.threads t = .returned →
    UnlockReach s₂ s₃ → ∀ b v, s₃.unlocked b = some v → v.ptr ≠ u.ptr

theorem ThreadInv.indefinite (h : ThreadInv s)
    (hu : s.unlocked addr = some u) (hab : u.abort = false) (hs : UnlockStep s act s')
    (hne : s'.unlocked addr ≠ some u) : s.threads act.thread = .fired .lock addr u := by
  have hhere : ∀ {a o}, s'.unlocked = update s.unlocked a o → addr = a := by
    intro a o heq
    by_contra ha
    rw [heq, update_of_ne ha] at hne
    exact hne hu
  cases hs.table with
  | keep _ unlocked _ => exact absurd (unlocked ▸ hu) hne
  | store _ hnone _ unlocked _ =>
    rw [← hhere unlocked, hu] at hnone
    cases hnone
  | replace _ hv abort _ unlocked _ =>
    rw [← hhere unlocked, hu] at hv
    cases hv
    rw [hab] at abort
    cases abort
  | @remove c a w v ht hv hptr _ unlocked _ =>
    obtain rfl := hhere unlocked
    obtain ⟨-, rfl⟩ := (h.held _ c addr w (.inr ht)).2 addr v hv hptr
    rw [hu] at hv
    cases hv
    cases c with
    | goroutine =>
      rw [h.timed _ addr u (.inr ht)] at hab
      cases hab
    | lock => exact ht

theorem ThreadInv.other (h : ThreadInv s)
    {v : Unlocked} (hu : s.unlocked addr = some u) (hrun : (s.threads act.thread).Runs c a v)
    (hne : v ≠ u) (hs : UnlockStep s act s') : s'.unlocked addr = some u := by
  cases hs.table with
  | keep _ unlocked _ => exact unlocked ▸ hu
  | store ht _ _ _ _ | replace ht _ _ _ _ _ => exact absurd hrun (idle_of (ht ▸ rfl) _ _ _)
  | @remove c' b w x ht hx hptr _ unlocked _ =>
    rw [ht, runs_fired] at hrun
    obtain ⟨rfl, rfl, rfl⟩ := hrun
    obtain ⟨-, rfl⟩ := (h.held _ _ a v (.inr ht)).2 a x hx hptr
    have hba : addr ≠ a := by
      intro hba
      rw [hba, hx] at hu
      exact hne (Option.some.inj hu)
    rw [unlocked, update_of_ne hba]
    exact hu

theorem ThreadInv.removes (hu : s.unlocked addr = some u) (ht : s.threads t = .fired c addr u)
    (hs : UnlockStep s (.expire t) s') : s'.unlocked addr = none ∧ s'.zeroed u.key = true := by
  cases hs with
  | @expire t c' addr' u' ht' =>
    rw [ht] at ht'
    cases ht'
    obtain ⟨-, heq⟩ | ⟨hno, -⟩ := s.expire_cases addr u
    · rw [heq]
      exact ⟨update_self _ _ _, update_self _ _ _⟩
    · exact absurd rfl (hno u hu)

theorem unlock_safe (h : UnlockReach .init s) : UnlockSafe s := by
  obtain ⟨htab, hthr⟩ := reach_unlockInv h init_unlockInv.1 init_unlockInv.2
  exact
    { indefinite := fun act s' addr u hu hab hs => hthr.indefinite hu hab hs
      other := fun act s' addr u c a v hu hrun hne hs => hthr.other hu hrun hne hs
      started := hthr.alive
      waits := by
        intro t c addr u s' hu hrun hs
        cases hs with
        | quit ht _ hc =>
          rw [ht, runs_waiting] at hrun
          obtain ⟨-, -, rfl⟩ := hrun
          exact htab.closed_gone hc addr u hu rfl
      removes := by
        intro t c addr u hu ht
        exact ⟨⟨_, .expire ht⟩, fun s' hs => ThreadInv.removes hu ht hs⟩
      once := htab.once
      locked := by
        intro t addr u s₁ s₂ s₃ ht hu hs hr hret hr'
        have hlock : LockOf t addr u s₁ := by
          cases hs with
          | lookupMiss ht' hnone =>
            rw [ht] at ht'
            cases ht'
            rw [hu] at hnone
            cases hnone
          | lookup ht' hu' =>
            rw [ht] at ht'
            cases ht'
            rw [hu] at hu'
            cases hu'
            exact .inl (.inl (goto_self _ _ _))
        have htab₁ := htab.step hs
        have hthr₁ := hthr.step htab hs
        obtain ⟨htab₂, hthr₂⟩ := reach_unlockInv hr htab₁ hthr₁
        rcases hlock.reach htab₁ hthr₁ hr with hrun | hgone
        · rw [hret] at hrun
          exact absurd hrun (idle_of rfl _ _ _)
        · have hend : Gone u s₃ := hr'.invariant hgone.2 fun s act s' hg _ hs => hg.step hs
          exact hend.2 }

theorem unlock_safe_timed : ∃ s, UnlockReach .init s ∧
    s.unlocked [1] = some ⟨1, 0, true⟩ ∧ s.threads 1 = .waiting .goroutine [1] ⟨1, 0, true⟩ ∧
    UnlockSafe s := by
  have hcall : UnlockReach .init _ := (Reach.refl _).tail (.timedUnlock (t := 0) 5 rfl) trivial
  have hkey := hcall.tail (.decrypt (t := 0) [1] (goto_self _ _ _)) trivial
  have hstore := hkey.tail (.storeTimed (t := 0) (g := 1) (goto_self _ _ _) rfl rfl) trivial
  exact ⟨_, hstore, rfl, goto_self _ _ _, unlock_safe hstore⟩

end Runs

/-! ### The keys in memory

A decrypted key belongs to the call that decrypted it and then to an entry. It is wiped when its
owner lets go of it. -/

inductive Owner where
  | entry (addr : Bytes)
  | thread (t : ℕ)

def UnlockState.Owns (s : UnlockState) : Owner → ℕ → Prop
  | .entry addr, k => ∃ u, s.unlocked addr = some u ∧ u.key = k
  | .thread t, k => ∃ addr timeout, s.threads t = .unlocking addr k timeout

structure KeyInv (s : UnlockState) : Prop where
  below : ∀ o k, s.Owns o k → k < s.next
  one : ∀ o o' k, s.Owns o k → s.Owns o' k → o = o'
  live : ∀ o k, s.Owns o k → s.zeroed k = false
  unborn : ∀ k, s.next ≤ k → s.zeroed k = false

variable {k : ℕ}

section Keys
variable {key : ℕ} {timeout : ℤ} {o : Option Unlocked}

theorem KeyInv.shrink (h : KeyInv s) (hnext : s.next ≤ s'.next)
    (hown : ∀ o k, s'.Owns o k → s.Owns o k ∧ s'.zeroed k = s.zeroed k)
    (hzero : ∀ k, s'.next ≤ k → s'.zeroed k = s.zeroed k) : KeyInv s' where
  below o k ho := (h.below o k (hown o k ho).1).trans_le hnext
  one o o' k ho ho' := h.one o o' k (hown o k ho).1 (hown o' k ho').1
  live o k ho := (hown o k ho).2.trans (h.live o k (hown o k ho).1)
  unborn k hk := (hzero k hk).trans (h.unborn k (hnext.trans hk))

theorem KeyInv.handOver (h : KeyInv s) (owner : Owner) (k : ℕ) (hnext : s.next ≤ s'.next)
    (hk : k < s'.next) (hlive : s.zeroed k = false) (hzero : s'.zeroed = s.zeroed)
    (hown : ∀ o j, s'.Owns o j → (o = owner ∧ j = k) ∨ (s.Owns o j ∧ j ≠ k)) : KeyInv s' where
  below o j ho := by
    rcases hown o j ho with ⟨-, rfl⟩ | ⟨ho, -⟩
    · exact hk
    · exact (h.below o j ho).trans_le hnext
  one o o' j ho ho' := by
    rcases hown o j ho with ⟨rfl, rfl⟩ | ⟨ho, hne⟩
    · rcases hown o' j ho' with ⟨rfl, -⟩ | ⟨-, hne⟩
      · rfl
      · exact absurd rfl hne
    · rcases hown o' j ho' with ⟨-, rfl⟩ | ⟨ho', -⟩
      · exact absurd rfl hne
      · exact h.one o o' j ho ho'
  live o j ho := by
    rw [hzero]
    rcases hown o j ho with ⟨-, rfl⟩ | ⟨ho, -⟩
    · exact hlive
    · exact h.live o j ho
  unborn j hj := by
    rw [hzero]
    exact h.unborn j (hnext.trans hj)

theorem UnlockState.owns_goto {o : Owner} (h : (s.goto t pc).Owns o k) :
    (s.Owns o k ∧ o ≠ .thread t) ∨ (o = .thread t ∧ ∃ addr timeout, pc = .unlocking addr k timeout) := by
  cases o with
  | entry a => exact .inl ⟨h, by simp⟩
  | thread r =>
    obtain ⟨addr, timeout, hr⟩ := h
    by_cases hrt : r = t
    · rw [hrt, goto_self] at hr
      exact .inr ⟨by rw [hrt], addr, timeout, hr⟩
    · rw [goto_ne hrt] at hr
      exact .inl ⟨⟨addr, timeout, hr⟩, by simpa using hrt⟩

theorem UnlockState.owns_goto_of {o : Owner}
    (hpc : ∀ a k timeout, pc ≠ .unlocking a k timeout) (h : (s.goto t pc).Owns o k) :
    s.Owns o k ∧ o ≠ .thread t := by
  rcases owns_goto h with h | ⟨-, addr, timeout, heq⟩
  · exact h
  · exact absurd heq (hpc _ _ _)

theorem KeyInv.goto (h : KeyInv s) (hpc : ∀ a k timeout, pc ≠ .unlocking a k timeout) :
    KeyInv (s.goto t pc) :=
  h.shrink le_rfl (fun _ _ ho => ⟨(owns_goto_of hpc ho).1, rfl⟩) fun _ _ => rfl

theorem KeyInv.decrypt (h : KeyInv s) :
    KeyInv ({ s with next := s.next + 1 }.goto t (.unlocking addr s.next timeout)) := by
  refine h.handOver (.thread t) s.next (Nat.le_succ _) (Nat.lt_succ_self _)
    (h.unborn _ le_rfl) rfl ?_
  intro o j ho
  rcases owns_goto ho with ⟨hold, -⟩ | ⟨ht, a, to', heq⟩
  · have hold' : s.Owns o j := by
      cases o with
      | entry a | thread r => exact hold
    exact .inr ⟨hold', (h.below o j hold').ne⟩
  · cases heq
    exact .inl ⟨ht, rfl⟩

theorem KeyInv.timedUnlock (h : KeyInv s) (ht : s.threads t = .unlocking addr key timeout)
    (hs : s.timedUnlock addr key timeout = (s', o)) : KeyInv (s'.goto t .returned) := by
  have hkey : s.Owns (.thread t) key := ⟨addr, timeout, ht⟩
  have hother : ∀ o j, s.Owns o j → o ≠ .thread t → j ≠ key := by
    intro o j ho hne heq
    exact hne (h.one _ _ _ ho (heq ▸ hkey))
  have hstore : ∀ s₀ : UnlockState, s₀.threads = s.threads → s₀.unlocked = s.unlocked →
      s₀.next = s.next → s₀.zeroed = s.zeroed → s₀.store addr key timeout = (s', o) →
      KeyInv (s'.goto t .returned) := by
    intro s₀ hthr hunl hnext hz hst
    have hcases := fun b v => store_unlocked (a := b) (v := v) hst
    obtain ⟨rfl, -⟩ := store_eq hst
    refine h.handOver (.entry addr) key ?_ ?_ (h.live _ _ hkey) hz ?_
    · show s.next ≤ s₀.next + 1
      omega
    · have := h.below _ _ hkey
      show key < s₀.next + 1
      omega
    · intro o j ho
      obtain ⟨ho, hne⟩ := owns_goto_of (by simp) ho
      cases o with
      | entry a =>
        obtain ⟨v, hv, rfl⟩ := ho
        rcases hcases a v hv with ⟨rfl, rfl⟩ | hold
        · exact .inl ⟨rfl, rfl⟩
        · have hown : s.Owns (.entry a) v.key :=
            ⟨v, hunl ▸ (delete_unlocked hold).2, rfl⟩
          exact .inr ⟨hown, hother _ _ hown hne⟩
      | thread r =>
        obtain ⟨a, to', hr⟩ := ho
        have hown : s.Owns (.thread r) j := ⟨a, to', hthr ▸ hr⟩
        exact .inr ⟨hown, hother _ _ hown hne⟩
  obtain ⟨u, -, -, rfl, -⟩ | ⟨-, hst⟩ | ⟨u, -, -, hst⟩ := timedUnlock_cases hs
  · have hz : ∀ j, j ≠ key → (s.zeroKey key).zeroed j = s.zeroed j :=
      fun j hj => update_of_ne hj _ _
    refine h.shrink le_rfl ?_ ?_
    · intro o j ho
      obtain ⟨ho, hne⟩ := owns_goto_of (by simp) ho
      have hown : s.Owns o j := by
        cases o with
        | entry a | thread r => exact ho
      exact ⟨hown, hz j (hother o j hown hne)⟩
    · intro j hj
      exact hz j ((h.below _ _ hkey).trans_le hj).ne'
  · exact hstore s rfl rfl rfl rfl hst
  · exact hstore (s.closeAbort u) rfl rfl rfl rfl hst

theorem KeyInv.expire (h : KeyInv s) (hthr : ThreadInv s)
    (ht : (s.threads t).Runs c addr u) : KeyInv (s.expire addr u) := by
  obtain ⟨⟨v, hv, hptr⟩, heq⟩ | ⟨-, heq⟩ := s.expire_cases addr u
  · obtain ⟨-, rfl⟩ := (hthr.held t c addr u ht).2 addr v hv hptr
    have hkey : s.Owns (.entry addr) v.key := ⟨v, hv, rfl⟩
    have hz : ∀ j, j ≠ v.key → ((s.zeroKey v.key).delete addr).zeroed j = s.zeroed j :=
      fun j hj => update_of_ne hj _ _
    rw [heq]
    refine h.shrink le_rfl ?_ ?_
    · intro o j ho
      cases o with
      | entry a =>
        obtain ⟨w, hw, rfl⟩ := ho
        obtain ⟨hne, hw⟩ := delete_unlocked hw
        have hown : s.Owns (.entry a) w.key := ⟨w, hw, rfl⟩
        refine ⟨hown, hz _ ?_⟩
        intro hk
        have hoo := h.one _ _ _ hown (hk ▸ hkey)
        cases hoo
        exact hne rfl
      | thread r =>
        have hown : s.Owns (.thread r) j := ho
        refine ⟨hown, hz _ ?_⟩
        intro hk
        have hoo := h.one _ _ _ hown (hk ▸ hkey)
        cases hoo
    · intro j hj
      exact hz j ((h.below _ _ hkey).trans_le hj).ne'
  · rwa [heq]

theorem KeyInv.step (h : KeyInv s) (hthr : ThreadInv s) (hs : UnlockStep s act s') : KeyInv s' := by
  cases hs with
  | timedUnlock _ _ | lock _ _ | decryptFail _ | lookupMiss _ _ | lookup _ _ | quit _ _ _ | fire _ =>
    exact h.goto (by simp)
  | decrypt _ _ => exact h.decrypt
  | store ht hst => exact h.timedUnlock ht hst
  | storeTimed ht hst _ => exact (h.timedUnlock ht hst).goto (by simp)
  | expire ht => exact (h.expire hthr (.inr ht)).goto (by simp)

/-- The key `SignHash` and `SignTx` sign with; none is `ErrLocked`. -/
def UnlockState.signKey (s : UnlockState) (addr : Bytes) : Option ℕ :=
  (s.unlocked addr).map Unlocked.key

theorem signKey_live (h : UnlockReach .init s) (hk : s.signKey addr = some k) :
    s.zeroed k = false := by
  have hinit : KeyInv .init := by
    have hnone : ∀ o k, ¬ init.Owns o k := by
      intro o k ho
      cases o with
      | entry a =>
        obtain ⟨u, hu, -⟩ := ho
        cases hu
      | thread t =>
        obtain ⟨a, to', ht⟩ := ho
        cases ht
    exact ⟨fun o k ho => absurd ho (hnone o k), fun o _ k ho => absurd ho (hnone o k),
      fun o k ho => absurd ho (hnone o k), fun _ _ => rfl⟩
  have hall := h.invariant (I := fun s => KeyInv s ∧ TableInv s ∧ ThreadInv s)
    ⟨hinit, init_unlockInv⟩ (by
      intro s act s' hinv _ hs
      obtain ⟨hkey, htab, hthr⟩ := hinv
      exact ⟨hkey.step hthr hs, htab.step hs, hthr.step htab hs⟩)
  obtain ⟨u, hu, rfl⟩ := Option.map_eq_some_iff.mp hk
  exact hall.1.live (.entry addr) u.key ⟨u, hu, rfl⟩

end Keys

theorem signKey_live_timed : ∃ s : UnlockState, s.signKey [1] = some 0 ∧ s.zeroed 0 = false := by
  have hcall : UnlockReach .init _ := (Reach.refl _).tail (.timedUnlock (t := 0) 5 rfl) trivial
  have hkey := hcall.tail (.decrypt (t := 0) [1] (goto_self _ _ _)) trivial
  have hstore := hkey.tail (.storeTimed (t := 0) (g := 1) (goto_self _ _ _) rfl rfl) trivial
  exact ⟨_, rfl, signKey_live hstore (rfl : signKey _ [1] = some 0)⟩

end Fiscobcos.Keystore
