import Fiscobcos.Lib.Steps
import Mathlib.Data.List.Basic

/-! # The dispatch loop (rpc/client.go:464-614, rpc/handler.go:150-194, 262-287)

A caller hands its operation to `dispatch`, which lets nobody else write until the write is over.
The caller may reconnect in between; the operation is then registered once more, in the new handler.
A read error closes all registered operations but the one being written.

`dispatch` handles one event after the other; a batch is a sequence of responses. -/

namespace Fiscobcos.Rpc
open Steps Function List

/-- The places of an operation: its messages are made, `send` has its turn, `dispatch` was told of
a write without or with an error, and the caller has its responses, an error or a time-out. -/
inductive OpPc where
  | created
  | inflight
  | acked
  | failed
  | over
deriving DecidableEq

/-- The client. Operations are numbers; `answered` has the ids of the messages sent on `resp`, and
`respWait` is the map of the handler of the current connection. The buffer `reqSent` holds whether
the write was without error. -/
structure Dispatch where
  idCounter : UInt32
  ids : ℕ → List UInt32
  status : ℕ → OpPc
  answered : ℕ → List UInt32
  closed : ℕ → Bool
  respWait : List (UInt32 × ℕ)
  reading : Bool
  lastOp : Option ℕ
  writeConn : Bool
  retry : Bool
  reqSent : Option Bool
  closing : Bool

def Dispatch.init (idCounter : UInt32) : Dispatch where
  idCounter := idCounter
  ids := fun _ => []
  status := fun _ => .created
  answered := fun _ => []
  closed := fun _ => false
  respWait := []
  reading := true
  lastOp := none
  writeConn := true
  retry := false
  reqSent := none
  closing := false

def removeRequestOp (respWait : List (UInt32 × ℕ)) (ids : List UInt32) : List (UInt32 × ℕ) :=
  respWait.filter fun e => e.1 ∉ ids

def addRequestOp (respWait : List (UInt32 × ℕ)) (ids : List UInt32) (op : ℕ) : List (UInt32 × ℕ) :=
  ids.map (fun id => (id, op)) ++ removeRequestOp respWait ids

def Dispatch.cancelAllRequests (s : Dispatch) (op : ℕ) : Bool :=
  s.closed op || (s.respWait.any (fun e => e.2 = op) && s.lastOp ≠ some op)

def Dispatch.waiting (s : Dispatch) (k : ℕ) : Prop :=
  s.status k = .acked ∨ (s.status k = .inflight ∧ s.lastOp = some k ∧ s.reqSent = some true)

inductive DispatchAct where
  | newMessage (k : ℕ)
  | reqInit (k : ℕ)
  | write (ok : Bool)
  | reconnect (ok : Bool)
  | reqSent
  | response (id : UInt32)
  | readErr
  | reqTimeout (k : ℕ)
  | back (k : ℕ)
  | close

inductive DispatchStep : Dispatch → DispatchAct → Dispatch → Prop
  | newMessage {s : Dispatch} {k : ℕ} (hk : s.status k = .created) :
    DispatchStep s (.newMessage k)
      { s with
        idCounter := s.idCounter + 1
        ids := Function.update s.ids k (s.ids k ++ [s.idCounter + 1]) }
  | reqInit {s : Dispatch} {k : ℕ} (ho : s.closing = false) (hk : s.status k = .created)
      (hl : s.lastOp = none) :
    DispatchStep s (.reqInit k)
      { s with
        status := Function.update s.status k .inflight
        lastOp := some k
        retry := false
        respWait := addRequestOp s.respWait (s.ids k) k }
  | writeOk {s : Dispatch} {k : ℕ} (hl : s.lastOp = some k) (hb : s.reqSent = none)
      (hw : s.writeConn = true) :
    DispatchStep s (.write true) { s with reqSent := some true }
  | writeAgain {s : Dispatch} {k : ℕ} (hl : s.lastOp = some k) (hb : s.reqSent = none)
      (hw : s.writeConn = true) (hr : s.retry = false) :
    DispatchStep s (.write false) { s with writeConn := false, retry := true }
  | writeFail {s : Dispatch} {k : ℕ} (hl : s.lastOp = some k) (hb : s.reqSent = none)
      (hw : s.writeConn = true) (hr : s.retry = true) :
    DispatchStep s (.write false) { s with writeConn := false, reqSent := some false }
  | reconnectFail {s : Dispatch} {k : ℕ} (hl : s.lastOp = some k) (hb : s.reqSent = none)
      (hw : s.writeConn = false) :
    DispatchStep s (.reconnect false) { s with reqSent := some false }
  -- while `reading`, the old handler is closed and the old reader drained
  | reconnect {s : Dispatch} {k : ℕ} (ho : s.closing = false) (hl : s.lastOp = some k)
      (hb : s.reqSent = none) (hw : s.writeConn = false) :
    DispatchStep s (.reconnect true)
      { s with
        closed := if s.reading then s.cancelAllRequests else s.closed
        respWait := addRequestOp [] (s.ids k) k
        reading := true
        writeConn := true }
  | ackOk {s : Dispatch} {k : ℕ} (ho : s.closing = false) (hl : s.lastOp = some k)
      (hb : s.reqSent = some true) :
    DispatchStep s .reqSent
      { s with
        status := if s.status k = .inflight then Function.update s.status k .acked else s.status
        lastOp := none
        reqSent := none }
  | ackFail {s : Dispatch} {k : ℕ} (ho : s.closing = false) (hl : s.lastOp = some k)
      (hb : s.reqSent = some false) :
    DispatchStep s .reqSent
      { s with
        status := Function.update s.status k .failed
        respWait := removeRequestOp s.respWait (s.ids k)
        lastOp := none
        reqSent := none }
  | response {s : Dispatch} {id : UInt32} {k : ℕ} (ho : s.closing = false) (hr : s.reading = true)
      (hm : (id, k) ∈ s.respWait) :
    DispatchStep s (.response id)
      { s with
        respWait := removeRequestOp s.respWait [id]
        answered := Function.update s.answered k (s.answered k ++ [id]) }
  | readErr {s : Dispatch} (ho : s.closing = false) (hr : s.reading = true) :
    DispatchStep s .readErr
      { s with closed := s.cancelAllRequests, respWait := [], reading := false }
  | reqTimeout {s : Dispatch} {k : ℕ} (ho : s.closing = false) (hk : s.waiting k) :
    DispatchStep s (.reqTimeout k)
      { s with
        status := Function.update s.status k .over
        respWait := removeRequestOp s.respWait (s.ids k) }
  -- the caller has as many messages as it waits for, or finds `resp` closed
  | back {s : Dispatch} {k : ℕ} (hk : s.waiting k)
      (hd : s.closed k = true ∨ (s.ids k).length ≤ (s.answered k).length) :
    DispatchStep s (.back k) { s with status := Function.update s.status k .over }
  | close {s : Dispatch} : DispatchStep s .close { s with closing := true }

section Map
variable {m : List (UInt32 × ℕ)} {ids : List UInt32} {op op' : ℕ} {id : UInt32}

@[simp] theorem mem_removeRequestOp :
    (id, op) ∈ removeRequestOp m ids ↔ (id, op) ∈ m ∧ id ∉ ids := by
  simp [removeRequestOp]

@[simp] theorem mem_addRequestOp :
    (id, op) ∈ addRequestOp m ids op' ↔ (id ∈ ids ∧ op = op') ∨ ((id, op) ∈ m ∧ id ∉ ids) := by
  simp only [addRequestOp, mem_append, mem_map, Prod.mk.injEq, mem_removeRequestOp]
  constructor
  · intro h
    rcases h with ⟨x, hx, rfl, rfl⟩ | h
    · exact .inl ⟨hx, rfl⟩
    · exact .inr h
  · intro h
    rcases h with ⟨hx, rfl⟩ | h
    · exact .inl ⟨id, hx, rfl, rfl⟩
    · exact .inr h

def Functional (m : List (UInt32 × ℕ)) : Prop :=
  ∀ id op op', (id, op) ∈ m → (id, op') ∈ m → op = op'

theorem Functional.remove (h : Functional m) : Functional (removeRequestOp m ids) := by
  intro id op op' hop hop'
  exact h id op op' (mem_removeRequestOp.mp hop).1 (mem_removeRequestOp.mp hop').1

theorem Functional.add (h : Functional m) : Functional (addRequestOp m ids op) := by
  intro id a b ha hb
  rcases mem_addRequestOp.mp ha with ⟨hid, rfl⟩ | ⟨hma, hid⟩ <;>
    rcases mem_addRequestOp.mp hb with ⟨hid', rfl⟩ | ⟨hmb, hid'⟩
  · rfl
  · exact absurd hid hid'
  · exact absurd hid' hid
  · exact h id a b hma hmb

end Map

variable {s : Dispatch}

theorem Dispatch.cancel_closed {op : ℕ} (h : s.closed op = true) :
    s.cancelAllRequests op = true := by
  simp [Dispatch.cancelAllRequests, h]

variable {id : UInt32}

theorem Dispatch.cancel_registered {op : ℕ}
    (h : (id, op) ∈ s.respWait) (hl : s.lastOp ≠ some op) : s.cancelAllRequests op = true := by
  have hany : s.respWait.any (fun e => e.2 = op) = true := by
    rw [any_eq_true]
    exact ⟨(id, op), h, by simp⟩
  simp [Dispatch.cancelAllRequests, hany, hl]

def Dispatch.underWay (s : Dispatch) (k : ℕ) : Prop := s.status k = .inflight ∨ s.status k = .acked

def Dispatch.Served (s : Dispatch) : Prop :=
  ∀ k id, s.status k = .acked → id ∈ s.ids k → id ∉ s.answered k →
    (s.reading = true ∧ (id, k) ∈ s.respWait) ∨ s.closed k = true ∨ s.closing = true

def Dispatch.AckOk (s : Dispatch) : Prop :=
  ∀ k, s.lastOp = some k → s.status k = .inflight → s.reqSent = some true →
    s.reading = true ∨ ∀ id ∈ s.ids k, id ∈ s.answered k

def Dispatch.NewIds (s : Dispatch) (k : ℕ) : Prop :=
  ∀ k', s.underWay k' → ∀ id ∈ s.ids k, id ∉ s.ids k'

def Dispatch.Careful (s : Dispatch) : DispatchAct → Prop
  | .reqInit k => s.NewIds k
  | .reqSent => s.AckOk
  | _ => True

structure DispatchInv (s : Dispatch) : Prop where
  inflight : ∀ k, s.status k = .inflight → s.lastOp = some k
  writing : ∀ k, s.lastOp = some k →
    s.status k = .inflight ∨ (s.status k = .over ∧ s.reqSent = some true)
  idle : s.lastOp = none → s.reqSent = none
  apart : ∀ k k', s.underWay k → s.underWay k' → k ≠ k' → ∀ id ∈ s.ids k, id ∉ s.ids k'
  last : ∀ k id, s.status k = .inflight → s.reading = true → id ∈ s.ids k → id ∉ s.answered k →
    (id, k) ∈ s.respWait
  served : ∀ k id, s.status k = .acked → id ∈ s.ids k → id ∉ s.answered k → s.closed k = false →
    s.reading = true ∧ (id, k) ∈ s.respWait
  map : Functional s.respWait

theorem DispatchInv.init (c : UInt32) : DispatchInv (.init c) where
  inflight k h := by simp [Dispatch.init] at h
  writing k h := by simp [Dispatch.init] at h
  idle _ := rfl
  apart k k' h := by simp [Dispatch.init, Dispatch.underWay] at h
  last k id h := by simp [Dispatch.init] at h
  served k id h := by simp [Dispatch.init] at h
  map id op op' h := by simp [Dispatch.init] at h

theorem DispatchInv.toServed (h : DispatchInv s) : s.Served := by
  intro k id hk hid hun
  cases hc : s.closed k with
  | true => exact .inr (.inl rfl)
  | false => exact .inl (h.served k id hk hid hun hc)

variable {a : ℕ}

section Steps
variable {s s' : Dispatch} {k : ℕ}

theorem Dispatch.waiting.underWay (h : s.waiting k) : s.underWay k := by
  rcases h with hk | ⟨hk, -, -⟩
  · exact .inr hk
  · exact .inl hk

theorem DispatchInv.last_ne (h : DispatchInv s) (ha : s.status a = .acked) : s.lastOp ≠ some a := by
  intro hl
  rcases h.writing a hl with hw | ⟨hw, -⟩ <;> simp [ha] at hw

theorem DispatchInv.newMessage (h : DispatchInv s) (hk : s.status k = .created) {c : UInt32}
    {ids : List UInt32} : DispatchInv { s with idCounter := c, ids := update s.ids k ids } := by
  have hids : ∀ k', s.underWay k' → update s.ids k ids k' = s.ids k' := by
    intro k' hk'
    refine update_of_ne (fun heq => ?_) _ _
    subst heq
    rcases hk' with hk' | hk' <;> simp [hk] at hk'
  refine ⟨h.inflight, h.writing, h.idle, fun a b ha hb hab => ?_, fun a id ha => ?_,
    fun a id ha => ?_, h.map⟩
  · dsimp only
    rw [hids a ha, hids b hb]
    exact h.apart a b ha hb hab
  · dsimp only
    rw [hids a (.inl ha)]
    exact h.last a id ha
  · dsimp only
    rw [hids a (.inr ha)]
    exact h.served a id ha

theorem DispatchInv.write (h : DispatchInv s) (hl : s.lastOp = some k) (hb : s.reqSent = none)
    {w r : Bool} {sent : Option Bool} :
    DispatchInv { s with writeConn := w, retry := r, reqSent := sent } := by
  refine ⟨h.inflight, fun a ha => .inl ?_, fun hno => ?_, h.apart, h.last, h.served, h.map⟩
  · rcases h.writing a ha with hw | ⟨-, hw⟩
    · exact hw
    · simp [hb] at hw
  · dsimp only at hno
    rw [hl] at hno
    cases hno

theorem DispatchInv.reqInit (h : DispatchInv s) (hk : s.status k = .created)
    (hl : s.lastOp = none) (hnew : s.NewIds k) {r : Bool} :
    DispatchInv { s with
      status := update s.status k .inflight
      lastOp := some k
      retry := r
      respWait := addRequestOp s.respWait (s.ids k) k } := by
  have hno : ∀ a, s.status a ≠ .inflight := by
    intro a ha
    have := h.inflight a ha
    rw [hl] at this
    cases this
  have hold : ∀ {a : ℕ} {p : OpPc}, update s.status k .inflight a = p → a ≠ k →
      s.status a = p := by
    intro a p ha hak
    rwa [update_of_ne hak] at ha
  refine ⟨fun a ha => ?_, fun a ha => .inl ?_, (fun hnone => by cases hnone),
    fun a b ha hb hab => ?_, fun a id ha hr hid hun => ?_, fun a id ha hid hun hc => ?_, h.map.add⟩
  · by_cases hak : a = k
    · rw [hak]
    · exact absurd (hold ha hak) (hno a)
  · cases ha
    exact update_self _ _ _
  · have hway : ∀ {x : ℕ}, Dispatch.underWay { s with
        status := update s.status k .inflight, lastOp := some k, retry := r
        respWait := addRequestOp s.respWait (s.ids k) k } x → x ≠ k → s.underWay x := by
      intro x hx hxk
      rcases hx with hx | hx
      · exact .inl (hold hx hxk)
      · exact .inr (hold hx hxk)
    by_cases hak : a = k
    · subst hak
      exact hnew b (hway hb (Ne.symm hab))
    · by_cases hbk : b = k
      · subst hbk
        intro id hid hid'
        exact hnew a (hway ha hak) id hid' hid
      · exact h.apart a b (hway ha hak) (hway hb hbk) hab
  · by_cases hak : a = k
    · exact mem_addRequestOp.mpr (.inl ⟨hak ▸ hid, hak⟩)
    · exact absurd (hold ha hak) (hno a)
  · have hak : a ≠ k := by
      intro hak
      subst hak
      dsimp only at ha
      rw [update_self] at ha
      cases ha
    have hacked := hold ha hak
    obtain ⟨hr, hmem⟩ := h.served a id hacked hid hun hc
    refine ⟨hr, mem_addRequestOp.mpr (.inr ⟨hmem, fun hid' => ?_⟩)⟩
    exact hnew a (.inr hacked) id hid' hid

theorem DispatchInv.cancelled (h : DispatchInv s) (ha : s.status a = .acked)
    (hid : id ∈ s.ids a) (hun : id ∉ s.answered a) : s.cancelAllRequests a = true := by
  cases hc : s.closed a with
  | true => exact s.cancel_closed hc
  | false => exact s.cancel_registered (h.served a id ha hid hun hc).2 (h.last_ne ha)

theorem DispatchInv.readErr (h : DispatchInv s) :
    DispatchInv { s with closed := s.cancelAllRequests, respWait := [], reading := false } := by
  refine ⟨h.inflight, h.writing, h.idle, h.apart, fun a id _ hr => (by cases hr),
    fun a id ha hid hun hc => ?_, fun id op op' hop => by simp at hop⟩
  dsimp only at hc
  rw [h.cancelled ha hid hun] at hc
  cases hc

theorem DispatchInv.reconnect (h : DispatchInv s) (hl : s.lastOp = some k) {w : Bool} :
    DispatchInv { s with
      closed := if s.reading then s.cancelAllRequests else s.closed
      respWait := addRequestOp [] (s.ids k) k
      reading := true
      writeConn := w } := by
  have hempty : Functional [] := fun id op op' hop => by simp at hop
  refine ⟨h.inflight, h.writing, h.idle, h.apart, fun a id ha _ hid hun => ?_,
    fun a id ha hid hun hc => ?_, hempty.add⟩
  · have hak := h.inflight a ha
    rw [hl] at hak
    cases hak
    exact mem_addRequestOp.mpr (.inl ⟨hid, rfl⟩)
  · dsimp only at hc
    split_ifs at hc with hr
    · rw [h.cancelled ha hid hun] at hc
      cases hc
    · exact absurd (h.served a id ha hid hun hc).1 hr

theorem DispatchInv.leave (h : DispatchInv s) (hk : s.underWay k) {p : OpPc}
    (hp : p = .over ∨ p = .failed) {m : List (UInt32 × ℕ)} (hm : Functional m)
    (hkeep : ∀ id a, (id, a) ∈ s.respWait → id ∉ s.ids k → (id, a) ∈ m)
    {last : Option ℕ} {sent : Option Bool}
    (hin : ∀ a, a ≠ k → s.status a = .inflight → last = some a)
    (hwriting : ∀ a, last = some a →
      (a ≠ k ∧ (s.status a = .inflight ∨ (s.status a = .over ∧ sent = some true))) ∨
      (a = k ∧ p = .over ∧ sent = some true))
    (hidle : last = none → sent = none) :
    DispatchInv { s with
      status := update s.status k p, respWait := m, lastOp := last, reqSent := sent } := by
  have hold : ∀ {a : ℕ} {q : OpPc}, q = .inflight ∨ q = .acked →
      update s.status k p a = q → a ≠ k ∧ s.status a = q := by
    intro a q hq ha
    by_cases hak : a = k
    · subst hak
      rw [update_self] at ha
      rcases hp with rfl | rfl <;> rcases hq with rfl | rfl <;> cases ha
    · rw [update_of_ne hak] at ha
      exact ⟨hak, ha⟩
  have hway : ∀ {a : ℕ}, Dispatch.underWay { s with
      status := update s.status k p, respWait := m, lastOp := last, reqSent := sent } a →
      a ≠ k ∧ s.underWay a := by
    intro a ha
    rcases ha with ha | ha
    · exact ⟨(hold (.inl rfl) ha).1, .inl (hold (.inl rfl) ha).2⟩
    · exact ⟨(hold (.inr rfl) ha).1, .inr (hold (.inr rfl) ha).2⟩
  have hmem : ∀ {a : ℕ} {id : UInt32}, a ≠ k → s.underWay a → id ∈ s.ids a →
      (id, a) ∈ s.respWait → (id, a) ∈ m := by
    intro a id hak ha hid hreg
    exact hkeep id a hreg (h.apart a k ha hk hak id hid)
  refine ⟨fun a ha => ?_, fun a ha => ?_, hidle, fun a b ha hb hab => ?_,
    fun a id ha hr hid hun => ?_, fun a id ha hid hun hc => ?_, hm⟩
  · obtain ⟨hak, ha⟩ := hold (.inl rfl) ha
    exact hin a hak ha
  · rcases hwriting a ha with ⟨hak, hst⟩ | ⟨rfl, hover, hsent⟩
    · dsimp only
      rw [update_of_ne hak]
      exact hst
    · dsimp only
      rw [update_self]
      exact .inr ⟨hover, hsent⟩
  · exact h.apart a b (hway ha).2 (hway hb).2 hab
  · obtain ⟨hak, ha⟩ := hold (.inl rfl) ha
    exact hmem hak (.inl ha) hid (h.last a id ha hr hid hun)
  · obtain ⟨hak, ha⟩ := hold (.inr rfl) ha
    obtain ⟨hr, hreg⟩ := h.served a id ha hid hun hc
    exact ⟨hr, hmem hak (.inr ha) hid hreg⟩

theorem DispatchInv.endCall (h : DispatchInv s) (hk : s.waiting k) {m : List (UInt32 × ℕ)}
    (hm : Functional m) (hkeep : ∀ id a, (id, a) ∈ s.respWait → id ∉ s.ids k → (id, a) ∈ m) :
    DispatchInv { s with status := update s.status k .over, respWait := m } := by
  refine h.leave hk.underWay (.inl rfl) hm hkeep (fun a _ ha => h.inflight a ha) (fun a ha => ?_)
    h.idle
  by_cases hak : a = k
  · subst hak
    rcases hk with hk | ⟨-, -, hsent⟩
    · exact absurd ha (h.last_ne hk)
    · exact .inr ⟨rfl, rfl, hsent⟩
  · exact .inl ⟨hak, h.writing a ha⟩

theorem DispatchInv.ackFail (h : DispatchInv s) (hl : s.lastOp = some k)
    (hb : s.reqSent = some false) :
    DispatchInv { s with
      status := update s.status k .failed
      respWait := removeRequestOp s.respWait (s.ids k), lastOp := none, reqSent := none } := by
  have hk : s.status k = .inflight := by
    rcases h.writing k hl with hk | ⟨-, hk⟩
    · exact hk
    · simp [hb] at hk
  refine h.leave (.inl hk) (.inr rfl) h.map.remove (fun id a hreg hid => ?_) (fun a hak ha => ?_)
    (fun a ha => by cases ha) (fun _ => rfl)
  · exact mem_removeRequestOp.mpr ⟨hreg, hid⟩
  · have hlast := h.inflight a ha
    rw [hl] at hlast
    cases hlast
    exact absurd rfl hak

theorem DispatchInv.ackOk (h : DispatchInv s) (hl : s.lastOp = some k)
    (hb : s.reqSent = some true) (hack : s.AckOk) :
    DispatchInv { s with
      status := if s.status k = .inflight then update s.status k .acked else s.status
      lastOp := none, reqSent := none } := by
  have hno : ∀ a, a ≠ k → s.status a ≠ .inflight := by
    intro a hak ha
    have hlast := h.inflight a ha
    rw [hl] at hlast
    cases hlast
    exact hak rfl
  by_cases hk : s.status k = .inflight
  · rw [if_pos hk]
    have hold : ∀ {a : ℕ} {q : OpPc}, update s.status k .acked a = q → a ≠ k →
        s.status a = q := by
      intro a q ha hak
      rwa [update_of_ne hak] at ha
    have hway : ∀ {a : ℕ}, Dispatch.underWay { s with
        status := update s.status k .acked, lastOp := none, reqSent := none } a →
        s.underWay a := by
      intro a ha
      by_cases hak : a = k
      · exact .inl (hak ▸ hk)
      · rcases ha with ha | ha
        · exact .inl (hold ha hak)
        · exact .inr (hold ha hak)
    have hnone : ∀ a, update s.status k .acked a ≠ .inflight := by
      intro a ha
      by_cases hak : a = k
      · subst hak
        rw [update_self] at ha
        cases ha
      · exact hno a hak (hold ha hak)
    refine ⟨fun a ha => absurd ha (hnone a), (fun a ha => by cases ha), fun _ => rfl,
      fun a b ha hb hab => h.apart a b (hway ha) (hway hb) hab,
      fun a id ha => absurd ha (hnone a), fun a id ha hid hun hc => ?_, h.map⟩
    by_cases hak : a = k
    · subst hak
      rcases hack a hl hk hb with hr | hall
      · exact ⟨hr, h.last a id hk hr hid hun⟩
      · exact absurd (hall id hid) hun
    · exact h.served a id (hold ha hak) hid hun hc
  · rw [if_neg hk]
    have hnone : ∀ a, s.status a ≠ .inflight := by
      intro a
      by_cases hak : a = k
      · rw [hak]
        exact hk
      · exact hno a hak
    exact ⟨fun a ha => absurd ha (hnone a), (fun a ha => by cases ha), fun _ => rfl, h.apart,
      fun a id ha => absurd ha (hnone a), h.served, h.map⟩

theorem DispatchInv.response (h : DispatchInv s) (hm : (id, k) ∈ s.respWait) :
    DispatchInv { s with
      respWait := removeRequestOp s.respWait [id]
      answered := update s.answered k (s.answered k ++ [id]) } := by
  -- an id that is still unanswered is another one
  have hkeep : ∀ {a : ℕ} {x : UInt32}, (x ∉ s.answered a → (x, a) ∈ s.respWait) →
      x ∉ update s.answered k (s.answered k ++ [id]) a →
      (x, a) ∈ removeRequestOp s.respWait [id] := by
    intro a x hreg hun
    rw [update_apply] at hun
    by_cases hak : a = k
    · subst hak
      rw [if_pos rfl, mem_append, not_or, mem_singleton] at hun
      exact mem_removeRequestOp.mpr ⟨hreg hun.1, by simpa using hun.2⟩
    · rw [if_neg hak] at hun
      refine mem_removeRequestOp.mpr ⟨hreg hun, fun hx => ?_⟩
      have hxid : x = id := mem_singleton.mp hx
      exact hak (h.map id a k (hxid ▸ hreg hun) hm)
  have hbefore : ∀ {a : ℕ} {x : UInt32},
      x ∉ update s.answered k (s.answered k ++ [id]) a → x ∉ s.answered a := by
    intro a x hun hx
    rw [update_apply] at hun
    split_ifs at hun with hak
    · subst hak
      exact hun (mem_append_left _ hx)
    · exact hun hx
  refine ⟨h.inflight, h.writing, h.idle, h.apart, fun a x ha hr hx hun => ?_,
    fun a x ha hx hun hc => ?_, h.map.remove⟩
  · exact hkeep (h.last a x ha hr hx) hun
  · have hsv := h.served a x ha hx (hbefore hun) hc
    exact ⟨hsv.1, hkeep (fun _ => hsv.2) hun⟩

theorem DispatchInv.step {a : DispatchAct} (h : DispatchInv s) (hok : s.Careful a)
    (hs : DispatchStep s a s') : DispatchInv s' := by
  cases hs with
  | newMessage hk => exact h.newMessage hk
  | reqInit _ hk hl => exact h.reqInit hk hl hok
  | writeOk hl hb _ | writeAgain hl hb _ _ | writeFail hl hb _ _ | reconnectFail hl hb _ =>
    exact h.write hl hb
  | reconnect _ hl _ _ => exact h.reconnect hl
  | ackOk _ hl hb => exact h.ackOk hl hb hok
  | ackFail _ hl hb => exact h.ackFail hl hb
  | response _ _ hm => exact h.response hm
  | readErr _ _ => exact h.readErr
  | reqTimeout _ hk =>
    exact h.endCall hk h.map.remove fun id a hreg hid => mem_removeRequestOp.mpr ⟨hreg, hid⟩
  | back hk _ => exact h.endCall hk h.map fun _ _ hreg _ => hreg
  | close => exact ⟨h.inflight, h.writing, h.idle, h.apart, h.last, h.served, h.map⟩

structure CloseInv (s : Dispatch) : Prop where
  created : ∀ k, s.status k = .created → s.closed k = false ∧ ∀ id, (id, k) ∉ s.respWait
  inflight : ∀ k, s.status k = .inflight → s.closed k = false

theorem CloseInv.init (c : UInt32) : CloseInv (.init c) where
  created k _ := ⟨rfl, fun id => by simp [Dispatch.init]⟩
  inflight k h := by simp [Dispatch.init] at h

theorem CloseInv.frame (h : CloseInv s)
    (hcreated : ∀ k, s'.status k = .created → s.status k = .created)
    (hinflight : ∀ k, s'.status k = .inflight → s.status k = .inflight ∨ s.status k = .created)
    (hclosed : ∀ k, s.status k = .created ∨ s.status k = .inflight → s.closed k = false →
      s'.closed k = false)
    (hreg : ∀ id k, s'.status k = .created → (id, k) ∈ s'.respWait → (id, k) ∈ s.respWait) :
    CloseInv s' := by
  refine ⟨fun a ha => ?_, fun a ha => ?_⟩
  · have hc := hcreated a ha
    exact ⟨hclosed a (.inl hc) (h.created a hc).1,
      fun id hmem => (h.created a hc).2 id (hreg id a ha hmem)⟩
  · rcases hinflight a ha with hi | hc
    · exact hclosed a (.inr hi) (h.inflight a hi)
    · exact hclosed a (.inl hc) (h.created a hc).1

theorem CloseInv.cancel (h : CloseInv s) (hd : DispatchInv s)
    (ha : s.status a = .created ∨ s.status a = .inflight) (hc : s.closed a = false) :
    s.cancelAllRequests a = false := by
  rcases ha with ha | ha
  · have hany : s.respWait.any (fun e => e.2 = a) = false := by
      rw [any_eq_false]
      intro e he heq
      rw [decide_eq_true_iff] at heq
      subst heq
      exact (h.created e.2 ha).2 e.1 he
    simp [Dispatch.cancelAllRequests, hc, hany]
  · simp [Dispatch.cancelAllRequests, hc, hd.inflight a ha]

theorem status_update {status : ℕ → OpPc} {p q : OpPc}
    (h : update status k p a = q) (hpq : p ≠ q) : a ≠ k ∧ status a = q := by
  rw [update_apply] at h
  split_ifs at h with hak
  · exact absurd h hpq
  · exact ⟨hak, h⟩

theorem CloseInv.step {a : DispatchAct} (h : CloseInv s) (hd : DispatchInv s)
    (hs : DispatchStep s a s') : CloseInv s' := by
  cases hs with
  | newMessage | writeOk | writeAgain | writeFail | reconnectFail | close =>
    exact h.frame (fun _ hx => hx) (fun _ hx => .inl hx) (fun _ _ hc => hc) (fun _ _ _ hx => hx)
  | reqInit _ hk _ =>
    refine h.frame (fun x hx => (status_update hx (by simp)).2) (fun x hx => ?_)
      (fun _ _ hc => hc) (fun id x hx hmem => ?_)
    · dsimp only at hx
      rw [update_apply] at hx
      split_ifs at hx with hxk
      · exact .inr (hxk ▸ hk)
      · exact .inl hx
    · rcases mem_addRequestOp.mp hmem with ⟨-, heq⟩ | ⟨hmem, -⟩
      · exact absurd heq (status_update hx (by simp)).1
      · exact hmem
  | @reconnect k _ hl hb _ =>
    refine h.frame (fun _ hx => hx) (fun _ hx => .inl hx) (fun x hx hc => ?_)
      (fun id x hx hmem => ?_)
    · dsimp only
      split_ifs
      · exact h.cancel hd hx hc
      · exact hc
    · rcases mem_addRequestOp.mp hmem with ⟨-, rfl⟩ | ⟨hmem, -⟩
      · dsimp only at hx
        rcases hd.writing x hl with hw | ⟨hw, -⟩ <;> simp [hx] at hw
      · simp at hmem
  | ackOk _ _ _ =>
    refine h.frame (fun x hx => ?_) (fun x hx => .inl ?_) (fun _ _ hc => hc) (fun _ _ _ hx => hx)
    all_goals
      dsimp only at hx
      split_ifs at hx
    · exact (status_update hx (by simp)).2
    · exact hx
    · exact (status_update hx (by simp)).2
    · exact hx
  | ackFail _ _ _ | reqTimeout _ _ =>
    exact h.frame (fun x hx => (status_update hx (by simp)).2)
      (fun x hx => .inl (status_update hx (by simp)).2) (fun _ _ hc => hc)
      (fun _ _ _ hmem => (mem_removeRequestOp.mp hmem).1)
  | response _ _ _ =>
    exact h.frame (fun _ hx => hx) (fun _ hx => .inl hx) (fun _ _ hc => hc)
      (fun _ _ _ hmem => (mem_removeRequestOp.mp hmem).1)
  | readErr _ _ =>
    exact h.frame (fun _ hx => hx) (fun _ hx => .inl hx) (fun x hx hc => h.cancel hd hx hc)
      (fun _ _ _ hmem => by simp at hmem)
  | back _ _ =>
    exact h.frame (fun x hx => (status_update hx (by simp)).2)
      (fun x hx => .inl (status_update hx (by simp)).2) (fun _ _ hc => hc) (fun _ _ _ hx => hx)

theorem CloseInv.ackOk_of_served (h : CloseInv s) (hs : DispatchStep s .reqSent s')
    (hserved : s'.Served) : s.AckOk := by
  intro k hl hk hb
  cases hs with
  | @ackOk k' ho hl' _ =>
    rw [hl] at hl'
    cases hl'
    by_contra hno
    obtain ⟨hr, hall⟩ := not_or.mp hno
    obtain ⟨id, hid, hun⟩ : ∃ id ∈ s.ids k, id ∉ s.answered k := by
      by_contra hnone
      exact hall fun id hid => by_contra fun hun => hnone ⟨id, hid, hun⟩
    have hacked : (if s.status k = .inflight then update s.status k .acked
        else s.status) k = .acked := by
      rw [if_pos hk, update_self]
    rcases hserved k id hacked hid hun with ⟨hreading, -⟩ | hclosed | hclosing
    · exact hr hreading
    · dsimp only at hclosed
      simp [h.inflight k hk] at hclosed
    · dsimp only at hclosing
      simp [ho] at hclosing
  | ackFail _ _ hb' => simp [hb] at hb'

end Steps

theorem no_call_orphaned {c : UInt32} {s : Dispatch}
    (h : Reach DispatchStep Dispatch.Careful (.init c) s) :
    s.Served ∧ ∀ s', DispatchStep s .reqSent s' → ¬ s.AckOk → ¬ s'.Served := by
  have hinv : DispatchInv s ∧ CloseInv s :=
    h.invariant (I := fun s => DispatchInv s ∧ CloseInv s) ⟨.init c, .init c⟩
      fun _ _ _ h hok hs => ⟨h.1.step hok hs, h.2.step h.1 hs⟩
  exact ⟨hinv.1.toServed, fun s' hs hack hserved => hack (hinv.2.ackOk_of_served hs hserved)⟩

theorem no_call_orphaned_reconnect : ∃ s : Dispatch,
    Reach DispatchStep Dispatch.Careful (.init 0) s ∧ s.status 0 = .acked ∧ s.answered 0 = [] ∧
      s.Served := by
  have h0 : Reach DispatchStep Dispatch.Careful (.init 0) (.init 0) := .refl _
  have h1 := h0.tail (.newMessage (k := 0) rfl) trivial
  have h2 := h1.tail (.reqInit (k := 0) rfl rfl rfl)
    (fun k hk => by rcases hk with hk | hk <;> cases hk)
  have h3 := h2.tail (.writeAgain (k := 0) rfl rfl rfl rfl) trivial
  have h4 := h3.tail (.reconnect (k := 0) rfl rfl rfl rfl) trivial
  have h5 := h4.tail (.writeOk (k := 0) rfl rfl rfl) trivial
  have h6 := h5.tail (.ackOk (k := 0) rfl rfl rfl) (fun _ _ _ _ => .inl rfl)
  exact ⟨_, h6, rfl, rfl, (no_call_orphaned h6).1⟩

/-- The read error is handled while the operation is being written, and the write is without error;
or the operation is accepted on the connection that is already down, and lost when another one
reconnects. -/
theorem call_orphaned :
    (∃ s : Dispatch, Reach DispatchStep (fun _ _ => True) (.init 0) s ∧ s.reading = false ∧
      ¬ s.Served) ∧
    ∃ s : Dispatch, Reach DispatchStep (fun _ _ => True) (.init 0) s ∧ s.reading = true ∧
      ¬ s.Served := by
  have h0 : Reach DispatchStep (fun _ _ => True) (.init 0) (.init 0) := .refl _
  have h1 := h0.tail (.newMessage (k := 0) rfl) trivial
  constructor
  · have h2 := h1.tail (.reqInit (k := 0) rfl rfl rfl) trivial
    have h3 := h2.tail (.readErr rfl rfl) trivial
    have h4 := h3.tail (.writeOk (k := 0) rfl rfl rfl) trivial
    have h5 := h4.tail (.ackOk (k := 0) rfl rfl rfl) trivial
    refine ⟨_, h5, rfl, fun hserved => ?_⟩
    have h := hserved 0 1 rfl (by decide) (by decide)
    revert h
    decide
  · have h2 := h1.tail (.readErr rfl rfl) trivial
    have h3 := h2.tail (.reqInit (k := 0) rfl rfl rfl) trivial
    have h4 := h3.tail (.writeOk (k := 0) rfl rfl rfl) trivial
    have h5 := h4.tail (.ackOk (k := 0) rfl rfl rfl) trivial
    have h6 := h5.tail (.newMessage (k := 1) rfl) trivial
    have h7 := h6.tail (.reqInit (k := 1) rfl rfl rfl) trivial
    have h8 := h7.tail (.writeAgain (k := 1) rfl rfl rfl rfl) trivial
    have h9 := h8.tail (.reconnect (k := 1) rfl rfl rfl rfl) trivial
    refine ⟨_, h9, rfl, fun hserved => ?_⟩
    have h := hserved 0 1 rfl (by decide) (by decide)
    revert h
    decide

end Fiscobcos.Rpc
