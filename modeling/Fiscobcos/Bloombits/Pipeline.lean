import Fiscobcos.Bloombits.Answers
import Fiscobcos.Bloombits.Matcher

/-! # The matching pipeline (core/bloombits/matcher.go:147-378)

The goroutines of `Start`, `run` and `subMatch`. A channel is a queue; it is closed when the
goroutine that writes to it has returned. -/

namespace Fiscobcos.Bloombits

open Numerals Bitset

namespace Matcher
variable (m : Matcher)

abbrev Stage := Fin m.filters.length

abbrev Run := Σ j : m.Stage, Fin (m.filters.get j).length × Fin 3

def runBit (k : m.Run) : ℕ := (m.filters.get k.1).get k.2.1 k.2.2

def clauses (j : m.Stage) : List (List m.Run) :=
  (List.finRange (m.filters.get j).length).map fun i => (List.finRange 3).map fun l => ⟨j, i, l⟩

end Matcher

/-- The goroutine that gives sections to the schedulers; `runs` are those still to get one. -/
inductive Mux (κ : Type)
  | idle
  | sending (subres : PartialMatches) (runs : List κ)
  | returned

/-- The goroutine that merges vectors; `todo` are the runs whose vector is still to come. -/
inductive Merger (κ : Type)
  | idle
  | gathering (subres : PartialMatches) (orVector andVector : Option Bytes) (todo : List (List κ))
  | returned

inductive Sink
  | idle
  | scanning (res : PartialMatches) (i last : ℕ)
  | returned

/-- `source j` is the channel into sub-matcher `j`, or into the last goroutine; `feeder` is the
next section to be fed. -/
structure Pipeline (m : Matcher) (ι : Type) where
  session : Session ι m.Run
  feeder : Option ℕ
  source : ℕ → List PartialMatches
  mux : m.Stage → Mux m.Run
  bitSource : m.Run → List ℕ
  process : m.Stage → List PartialMatches
  merger : m.Stage → Merger m.Run
  sink : Sink
  results : List ℕ

variable {m : Matcher} {ι : Type}

namespace Pipeline

def start (m : Matcher) (ι : Type) (begin : ℕ) : Pipeline m ι where
  session := Session.start ι m.schedulers m.runBit
  feeder := some (begin / m.sectionSize)
  source _ := []
  mux _ := .idle
  bitSource _ := []
  process _ := []
  merger _ := .idle
  sink := .idle
  results := []

variable (p : Pipeline m ι)

def Closed : ℕ → Prop
  | 0 => p.feeder = none
  | j + 1 => ∃ h : j < m.filters.length, p.merger ⟨j, h⟩ = .returned

def setSource (j : ℕ) (l : List PartialMatches) : Pipeline m ι :=
  { p with source := Function.update p.source j l }

def setMux (j : m.Stage) (x : Mux m.Run) : Pipeline m ι :=
  { p with mux := Function.update p.mux j x }

def setProcess (j : m.Stage) (l : List PartialMatches) : Pipeline m ι :=
  { p with process := Function.update p.process j l }

def setMerger (j : m.Stage) (x : Merger m.Run) : Pipeline m ι :=
  { p with merger := Function.update p.merger j x }

def setBitSource (k : m.Run) (l : List ℕ) : Pipeline m ι :=
  { p with bitSource := Function.update p.bitSource k l }

def fullSection (m : Matcher) (sec : ℕ) : PartialMatches :=
  ⟨sec, List.replicate (m.sectionSize / 8) 255⟩

def feed (i : ℕ) : Pipeline m ι :=
  { p.setSource 0 (p.source 0 ++ [fullSection m i]) with feeder := some (u64 (i + 1)) }

def taken (size : ℕ) (subres : PartialMatches) (orVec andVec : Option Bytes) (data : Bytes)
    (ks : List m.Run) (cs : List (List m.Run)) : Merger m.Run :=
  match ks with
  | [] => .gathering subres (orVector orVec (andVector size andVec data)) none cs
  | _ :: _ => .gathering subres orVec (andVector size andVec data) (ks :: cs)

def takeDone (k : m.Run) (rest : List (Option Bytes)) : Pipeline m ι :=
  { p with session := p.session.setRun k { p.session.run k with done := rest } }

end Pipeline

inductive Event (m : Matcher) (ι : Type)
  | internal
  | session (a : Act ι m.Run)

open Pipeline in
/-- One operation of one goroutine, in a search from block `begin` to block `last`. -/
inductive PipelineStep [DecidableEq ι] (begin last : ℕ) (p : Pipeline m ι) :
    Event m ι → Except Panic (Pipeline m ι) → Prop
  | feed {i} : p.feeder = some i → i ≤ last / m.sectionSize →
      PipelineStep begin last p .internal (.ok (p.feed i))
  | feedEnd {i} : p.feeder = some i → ¬ i ≤ last / m.sectionSize →
      PipelineStep begin last p .internal (.ok { p with feeder := none })
  | muxRead {j : m.Stage} {subres rest} : p.mux j = .idle → p.source j = subres :: rest →
      PipelineStep begin last p .internal
        (.ok ((p.setSource j rest).setMux j (.sending subres (m.clauses j).flatten)))
  | muxSend {j subres k ks} : p.mux j = .sending subres (k :: ks) →
      PipelineStep begin last p .internal
        (.ok ((p.setBitSource k (p.bitSource k ++ [subres.sec])).setMux j (.sending subres ks)))
  | muxProcess {j subres} : p.mux j = .sending subres [] →
      PipelineStep begin last p .internal
        (.ok ((p.setProcess j (p.process j ++ [subres])).setMux j .idle))
  | muxEnd {j : m.Stage} : p.mux j = .idle → p.source j = [] → p.Closed j →
      PipelineStep begin last p .internal (.ok (p.setMux j .returned))
  | read {k sec rest res} : p.bitSource k = sec :: rest → Step p.session (.read k sec) res →
      PipelineStep begin last p (.session (.read k sec))
        (res.map fun s => { p.setBitSource k rest with session := s })
  | session {a res} : (∀ k sec, a ≠ .read k sec) → Step p.session a res →
      PipelineStep begin last p (.session a) (res.map fun s => { p with session := s })
  | mergeRead {j subres rest} : p.merger j = .idle → p.process j = subres :: rest →
      PipelineStep begin last p .internal
        (.ok ((p.setProcess j rest).setMerger j (.gathering subres none none (m.clauses j))))
  | mergeTake {j subres orVec andVec k ks cs data rest} :
      p.merger j = .gathering subres orVec andVec ((k :: ks) :: cs) →
      (p.session.run k).done = data :: rest →
      PipelineStep begin last p .internal
        (.ok ((p.takeDone k rest).setMerger j
          (taken m.sectionSize subres orVec andVec (data.getD []) ks cs)))
  | mergeSend {j subres orVec andVec} : p.merger j = .gathering subres orVec andVec [] →
      PipelineStep begin last p .internal
        (.ok ((p.setSource (j + 1) (p.source (j + 1) ++
          (forward m.sectionSize orVec subres).toList)).setMerger j .idle))
  | mergeEnd {j} : p.merger j = .idle → p.process j = [] → p.mux j = .returned →
      PipelineStep begin last p .internal (.ok (p.setMerger j .returned))
  | sinkRead {res rest} : p.sink = .idle → p.source m.filters.length = res :: rest →
      PipelineStep begin last p .internal
        (.ok { p.setSource m.filters.length rest with
          sink := .scanning res (firstBlock m.sectionSize begin res.sec)
            (lastBlock m.sectionSize last res.sec) })
  | scan {res i hi} : p.sink = .scanning res i hi → i ≤ hi →
      PipelineStep begin last p .internal
        ((scanBlock m.sectionSize res i).map fun out =>
          { p with sink := .scanning res out.2 hi, results := p.results ++ out.1.toList })
  | scanEnd {res i hi} : p.sink = .scanning res i hi → ¬ i ≤ hi →
      PipelineStep begin last p .internal (.ok { p with sink := .idle })
  | sinkEnd : p.sink = .idle → p.source m.filters.length = [] → p.Closed m.filters.length →
      PipelineStep begin last p .internal (.ok { p with sink := .returned })

def PipelineHonest (ans : ℕ → ℕ → Bytes) (p : Pipeline m ι) : Event m ι → Prop
  | .internal => True
  | .session a => Session.Honest ans p.session a

def PipelineReach [DecidableEq ι] (begin last : ℕ) (ans : ℕ → ℕ → Bytes) :
    Pipeline m ι → Pipeline m ι → Prop :=
  Steps.Reach (fun p e p' => PipelineStep begin last p e (.ok p')) (PipelineHonest ans)

end Fiscobcos.Bloombits
