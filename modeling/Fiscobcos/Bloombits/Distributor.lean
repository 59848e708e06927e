import Mathlib.Data.Finset.Insert
import Mathlib.Data.Finset.Erase
import Fiscobcos.Lib.Numerals
import Fiscobcos.Lib.SortedSearch
import Fiscobcos.Lib.Steps

/-! # Schedulers and the request distributor (core/bloombits/scheduler.go, matcher.go)

The event loop of `Matcher.distributor` and the retrievers that talk to it. A session is run up to
its shutdown: `quit` and `kill` are not closed. -/

namespace Fiscobcos.Bloombits

open Numerals SortedSearch

inductive Panic
  | indexOutOfRange
  | nilPointer
  | closeOfClosedChannel
  deriving DecidableEq, Repr

def maxUint64 : ℕ := 2 ^ 64 - 1

structure Request where
  sec : ℕ
  bit : ℕ
  deriving DecidableEq, Repr

structure Response where
  cached : Option Bytes
  closed : Bool
  deriving DecidableEq, Repr

structure Scheduler where
  responses : ℕ → Option Response

def newScheduler : Scheduler := ⟨fun _ => none⟩

def Scheduler.setResponse (s : Scheduler) (sec : ℕ) (res : Response) : Scheduler :=
  ⟨Function.update s.responses sec (some res)⟩

def Scheduler.reset (s : Scheduler) : Scheduler :=
  ⟨fun sec => (s.responses sec).filter fun res => res.cached.isSome⟩

def Scheduler.Valid (s : Scheduler) : Prop :=
  ∀ sec res, s.responses sec = some res → res.closed = res.cached.isSome

/-- Under the lock in `scheduleRequests`: whether the section has not been asked for before. -/
def Scheduler.unique (s : Scheduler) (sec : ℕ) : Scheduler × Bool :=
  match s.responses sec with
  | none => (s.setResponse sec ⟨none, false⟩, true)
  | some _ => (s, false)

def Scheduler.deliverOne (s : Scheduler) (sec : ℕ) (data : Bytes) : Except Panic Scheduler :=
  match s.responses sec with
  | none => .ok s
  | some res =>
    if res.cached = none then
      if res.closed then .error .closeOfClosedChannel
      else .ok (s.setResponse sec ⟨some data, true⟩)
    else .ok s

def Scheduler.deliver (s : Scheduler) : List ℕ → List Bytes → Except Panic Scheduler
  | [], _ => .ok s
  | _ :: _, [] => .error .indexOutOfRange
  | sec :: sections, d :: data =>
    match s.deliverOne sec d with
    | .error p => .error p
    | .ok s' => s'.deliver sections data

inductive Sender
  | idle
  | sending (sec : ℕ)
  | notifying (sec : ℕ)
  deriving DecidableEq, Repr

/-- The two goroutines of one `run` of the scheduler for `bit`: `pend` is the channel between
them, `done` what has been put out. -/
structure SchedulerRun where
  bit : ℕ
  sender : Sender
  pend : List ℕ
  done : List (Option Bytes)

inductive Retriever
  | idle
  /-- Inside `AllocateRetrieval`. -/
  | waiting
  /-- Between `AllocateRetrieval` and `AllocateSections`. -/
  | holding (bit : ℕ)
  /-- Between `AllocateSections` and `DeliverSections`. -/
  | fetching (bit : ℕ) (sections : List ℕ)
  deriving DecidableEq, Repr

variable {ι κ : Type}

/-- `requests`, `unallocs`, `listening` (the channel `retrievers` is not nil) and `allocs` are
the variables of the distributor; `arrived` is the history of what it has taken from `dist`. -/
structure Session (ι κ : Type) where
  schedulers : ℕ → Option Scheduler
  run : κ → SchedulerRun
  dist : List Request
  requests : ℕ → List ℕ
  unallocs : Finset ℕ
  listening : Bool
  allocs : ℤ
  retriever : ι → Retriever
  arrived : List Request

/-- `Matcher.Start`: the schedulers are reset; `bits` are those that the sub-matchers run. -/
def Session.start (ι : Type) (schedulers : ℕ → Option Scheduler) (bits : κ → ℕ) : Session ι κ where
  schedulers bit := (schedulers bit).map Scheduler.reset
  run k := ⟨bits k, .idle, [], []⟩
  dist := []
  requests _ := []
  unallocs := ∅
  listening := false
  allocs := 0
  retriever _ := .idle
  arrived := []

namespace Session

variable [DecidableEq ι] [DecidableEq κ] (s : Session ι κ)

def setRun (k : κ) (r : SchedulerRun) : Session ι κ := { s with run := Function.update s.run k r }

def setRetriever (r : ι) (x : Retriever) : Session ι κ :=
  { s with retriever := Function.update s.retriever r x }

def setRequests (bit : ℕ) (queue : List ℕ) : Session ι κ :=
  { s with requests := Function.update s.requests bit queue }

def setScheduler (bit : ℕ) (sch : Scheduler) : Session ι κ :=
  { s with schedulers := Function.update s.schedulers bit (some sch) }

def read (k : κ) (sec : ℕ) : Except Panic (Session ι κ) :=
  match s.schedulers (s.run k).bit with
  | none => .error .nilPointer
  | some sch =>
    .ok <| (s.setScheduler (s.run k).bit (sch.unique sec).1).setRun k
      { s.run k with sender := if (sch.unique sec).2 then .sending sec else .notifying sec }

def send (k : κ) (sec : ℕ) : Session ι κ :=
  ({ s with dist := s.dist ++ [⟨sec, (s.run k).bit⟩] } : Session ι κ).setRun k
    { s.run k with sender := .notifying sec }

def notify (k : κ) (sec : ℕ) : Session ι κ :=
  s.setRun k { s.run k with sender := .idle, pend := (s.run k).pend ++ [sec] }

def response (bit sec : ℕ) : Option Response :=
  (s.schedulers bit).bind fun sch => sch.responses sec

def collect (k : κ) (idx : ℕ) (rest : List ℕ) : Except Panic (Session ι κ) :=
  match s.response (s.run k).bit idx with
  | none => .error .nilPointer
  | some res =>
    .ok <| s.setRun k { s.run k with pend := rest, done := (s.run k).done ++ [res.cached] }

/-- `assign`; `fetcher` is the retriever that the `select` finds waiting. -/
def assign (bit : ℕ) : Option ι → Session ι κ
  | some fetcher => { s.setRetriever fetcher (.holding bit) with allocs := s.allocs + 1 }
  | none => { s with listening := true, unallocs := insert bit s.unallocs }

/-- The choice of the `select` in `assign`: the default only if nobody waits. -/
def Finds : Option ι → Prop
  | some fetcher => s.retriever fetcher = .waiting
  | none => ∀ r, s.retriever r ≠ .waiting

end Session

def insertSection (queue : List ℕ) (sec : ℕ) : List ℕ :=
  insertAt queue (searchList queue fun q => decide (sec ≤ q)) sec

def lowest (requests : ℕ → List ℕ) : List ℕ → ℕ → ℕ → Except Panic ℕ
  | [], bit, _ => .ok bit
  | idx :: rest, bit, best =>
    match requests idx with
    | [] => .error .indexOutOfRange
    | q :: _ => if q < best then lowest requests rest idx q else lowest requests rest bit best

structure Delivery where
  sections : List ℕ
  bitsets : List Bytes
  missing : List ℕ
  deriving DecidableEq, Repr

def splitDelivery : List ℕ → List Bytes → Except Panic Delivery
  | _, [] => .ok ⟨[], [], []⟩
  | [], _ :: _ => .error .indexOutOfRange
  | sec :: sections, bitset :: bitsets =>
    match splitDelivery sections bitsets with
    | .error p => .error p
    | .ok d =>
      if bitset.length = 0 then .ok { d with missing := sec :: d.missing }
      else .ok { d with sections := sec :: d.sections, bitsets := bitset :: d.bitsets }

namespace Session

variable [DecidableEq ι] [DecidableEq κ] (s : Session ι κ)

def receive (req : Request) (rest : List Request) (fetcher : Option ι) : Session ι κ :=
  let queue := s.requests req.bit
  let s' : Session ι κ :=
    { s.setRequests req.bit (insertSection queue req.sec) with
      dist := rest, arrived := req :: s.arrived }
  if queue.length = 0 then s'.assign req.bit fetcher else s'

def retrieve (fetcher : ι) (order : List ℕ) : Except Panic (Session ι κ) :=
  match lowest s.requests order 0 maxUint64 with
  | .error p => .error p
  | .ok bit =>
    let unallocs := s.unallocs.erase bit
    .ok { s.setRetriever fetcher (.holding bit) with
      unallocs := unallocs
      listening := if unallocs.card = 0 then false else s.listening
      allocs := s.allocs + 1 }

def pendingSections (bit : ℕ) : ℕ := (s.requests bit).length

def allocate (r : ι) (bit want : ℕ) (fetcher : Option ι) : Session ι κ :=
  let queue := s.requests bit
  let s' : Session ι κ :=
    if want ≥ queue.length then (s.setRequests bit []).setRetriever r (.fetching bit queue)
    else (s.setRequests bit (queue.drop want)).setRetriever r (.fetching bit (queue.take want))
  if (s'.requests bit).length > 0 then s'.assign bit fetcher else s'

def released (r : ι) (again : Bool) : Session ι κ :=
  s.setRetriever r (if again then .waiting else .idle)

def deliver (bit : ℕ) (sections : List ℕ) (bitsets : List Bytes) (fetcher : Option ι) :
    Except Panic (Session ι κ) :=
  match splitDelivery sections bitsets with
  | .error p => .error p
  | .ok d =>
    match s.schedulers bit with
    | none => .error .nilPointer
    | some sch =>
      match sch.deliver d.sections d.bitsets with
      | .error p => .error p
      | .ok sch' =>
        let s' : Session ι κ := { s.setScheduler bit sch' with allocs := s.allocs - 1 }
        if d.missing.length > 0 then
          let queue := d.missing.foldl insertSection (s'.requests bit)
          let s'' := s'.setRequests bit queue
          .ok (if queue.length = d.missing.length then s''.assign bit fetcher else s'')
        else .ok s'

end Session

inductive Act (ι κ : Type)
  | read (k : κ) (sec : ℕ)
  | send (k : κ)
  | notify (k : κ)
  | collect (k : κ)
  | receive (fetcher : Option ι)
  | wait (r : ι)
  | retrieve (r : ι)
  | pending (r : ι) (n : ℕ)
  | allocate (r : ι) (want : ℕ) (fetcher : Option ι)
  | deliver (r : ι) (sections : List ℕ) (bitsets : List Bytes) (again : Bool) (fetcher : Option ι)

def Act.OfRetriever : Act ι κ → Prop
  | .wait _ | .retrieve _ | .allocate _ _ _ | .deliver _ _ _ _ _ => True
  | _ => False

inductive Step [DecidableEq ι] [DecidableEq κ] (s : Session ι κ) :
    Act ι κ → Except Panic (Session ι κ) → Prop
  | read {k sec} : (s.run k).sender = .idle → sec ≤ maxUint64 → Step s (.read k sec) (s.read k sec)
  | send {k sec} : (s.run k).sender = .sending sec → Step s (.send k) (.ok (s.send k sec))
  | notify {k sec} : (s.run k).sender = .notifying sec → Step s (.notify k) (.ok (s.notify k sec))
  | collect {k idx rest} : (s.run k).pend = idx :: rest →
      (∀ res, s.response (s.run k).bit idx = some res → res.closed = true) →
      Step s (.collect k) (s.collect k idx rest)
  | receive {req rest fetcher} : s.dist = req :: rest → s.Finds fetcher →
      Step s (.receive fetcher) (.ok (s.receive req rest fetcher))
  | wait {r} : s.retriever r = .idle → Step s (.wait r) (.ok (s.setRetriever r .waiting))
  | retrieve {r order} : s.listening = true → s.retriever r = .waiting →
      order.Nodup → (∀ bit, bit ∈ order ↔ bit ∈ s.unallocs) →
      Step s (.retrieve r) (s.retrieve r order)
  | pending {r bit} : s.retriever r = .holding bit →
      Step s (.pending r (s.pendingSections bit)) (.ok s)
  | allocate {r bit want fetcher} : s.retriever r = .holding bit → s.Finds fetcher →
      Step s (.allocate r want fetcher) (.ok (s.allocate r bit want fetcher))
  | deliver {r bit allocated sections bitsets again fetcher} :
      s.retriever r = .fetching bit allocated → sections.Perm allocated →
      bitsets.length = sections.length → (s.released r again).Finds fetcher →
      Step s (.deliver r sections bitsets again fetcher)
        ((s.released r again).deliver bit sections bitsets fetcher)

def SessionReach [DecidableEq ι] [DecidableEq κ] (ok : Session ι κ → Act ι κ → Prop) :
    Session ι κ → Session ι κ → Prop :=
  Steps.Reach (fun s a s' => Step s a (.ok s')) ok

end Fiscobcos.Bloombits
