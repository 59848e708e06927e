import Fiscobcos.Lib.Belts
import Fiscobcos.Bloombits.Pipeline

/-! # The pipeline as a line

The sections under way are the items of a line of stages, one for each filter. A sub-matcher works
on an item with the vectors its schedulers put out, which come in order. -/

namespace Fiscobcos.Bloombits
open Function List

open Numerals Bitset Belts

namespace Matcher
variable (m : Matcher)

theorem mem_clauses (k : m.Run) : k ∈ (m.clauses k.1).flatten := by
  rw [mem_flatten]
  refine ⟨(finRange 3).map fun l => ⟨k.1, k.2.1, l⟩, ?_, ?_⟩
  · exact mem_map.mpr ⟨k.2.1, mem_finRange _, rfl⟩
  · exact mem_map.mpr ⟨k.2.2, mem_finRange _, rfl⟩

variable {m}

theorem clauses_stage {j : m.Stage} {k : m.Run} (h : k ∈ (m.clauses j).flatten) : k.1 = j := by
  obtain ⟨c, hc, hk⟩ := mem_flatten.mp h
  obtain ⟨i, _, rfl⟩ := mem_map.mp hc
  obtain ⟨l, _, rfl⟩ := mem_map.mp hk
  rfl

theorem clauses_ne_nil {j : m.Stage} {c : List m.Run} (h : c ∈ m.clauses j) : c ≠ [] := by
  obtain ⟨i, _, rfl⟩ := mem_map.mp h
  rw [Ne, map_eq_nil_iff]
  exact ne_nil_of_mem (mem_finRange (0 : Fin 3))

theorem clauses_nodup (j : m.Stage) : (m.clauses j).flatten.Nodup := by
  rw [clauses, ← flatMap_def, nodup_flatMap]
  constructor
  · intro i _
    apply (nodup_finRange 3).map
    intro l l' h
    simpa using h
  · apply (nodup_finRange _).imp
    intro i i' hne k hk hk'
    obtain ⟨l, _, hl⟩ := mem_map.mp hk
    obtain ⟨l', _, hl'⟩ := mem_map.mp hk'
    apply hne
    have heq : (⟨j, i, l⟩ : m.Run) = ⟨j, i', l'⟩ := hl.trans hl'.symm
    simpa using (by simpa using heq : i = i' ∧ l = l').1

variable (m)

def ruleVector (ans : ℕ → ℕ → Bytes) (j : m.Stage) (sec : ℕ) : Option Bytes :=
  gather m.sectionSize (fun k => ans (m.runBit k) sec) none none (m.clauses j)

def stageResult (ans : ℕ → ℕ → Bytes) (j : ℕ) (subres : PartialMatches) : Option PartialMatches :=
  if h : j < m.filters.length then
    forward m.sectionSize (m.ruleVector ans ⟨j, h⟩ subres.sec) subres
  else none

def blocksOf (begin last : ℕ) (res : PartialMatches) : List ℕ :=
  blocksFrom m.sectionSize res (firstBlock m.sectionSize begin res.sec)
    (lastBlock m.sectionSize last res.sec)

end Matcher

def Mux.item {κ : Type} : Mux κ → List PartialMatches
  | .sending subres _ => [subres]
  | _ => []

def Merger.item {κ : Type} : Merger κ → List PartialMatches
  | .gathering subres _ _ _ => [subres]
  | _ => []

def Sink.rest (size : ℕ) : Sink → List ℕ
  | .scanning res i last => blocksFrom size res i last
  | _ => []

variable {m : Matcher} {ι : Type}

namespace Pipeline

section Abstraction
variable (p : Pipeline m ι) (last : ℕ)

def unsent : List PartialMatches :=
  match p.feeder with
  | some i => (List.range' i (last / m.sectionSize + 1 - i)).map (fullSection m)
  | none => []

def held (j : ℕ) : List PartialMatches :=
  if h : j < m.filters.length then
    (p.merger ⟨j, h⟩).item ++ p.process ⟨j, h⟩ ++ (p.mux ⟨j, h⟩).item
  else []

def belt (j : ℕ) : List PartialMatches :=
  p.held j ++ p.source j ++ if j = 0 then p.unsent last else []

def line : Line PartialMatches ℕ := ⟨p.belt last, p.results ++ p.sink.rest m.sectionSize⟩

end Abstraction

section Belts
variable {p p' : Pipeline m ι} {last : ℕ}

theorem held_stage (j : m.Stage) :
    p.held j = (p.merger j).item ++ p.process j ++ (p.mux j).item := dif_pos j.isLt

theorem line_eq (hbelt : ∀ i, p'.belt last i = p.belt last i)
    (hout : p'.results ++ p'.sink.rest m.sectionSize = p.results ++ p.sink.rest m.sectionSize) :
    p'.line last = p.line last := by
  rw [line, line, hout, funext hbelt]

/-- Only stage `j` is touched, and it holds the same items. -/
theorem line_stage (j : m.Stage) (hfeeder : p'.feeder = p.feeder) (hother : ∀ i, i ≠ j →
      p'.merger i = p.merger i ∧ p'.process i = p.process i ∧ p'.mux i = p.mux i)
    (hsource : ∀ i, i ≠ j.val → p'.source i = p.source i)
    (hout : p'.results = p.results ∧ p'.sink = p.sink)
    (hj : p'.held j ++ p'.source j = p.held j ++ p.source j) : p'.line last = p.line last := by
  refine line_eq (fun i => ?_) (by rw [hout.1, hout.2])
  have hunsent : p'.unsent last = p.unsent last := by rw [unsent, hfeeder, unsent]
  rw [belt, belt, hunsent]
  by_cases hi : i = j.val
  · rw [hi, hj]
  · have hheld : p'.held i = p.held i := by
      unfold held
      split_ifs with h
      · obtain ⟨hmerger, hprocess, hmux⟩ := hother ⟨i, h⟩ fun he => hi (congrArg Fin.val he)
        rw [hmerger, hprocess, hmux]
      · rfl
    rw [hheld, hsource i hi]

theorem line_feed {i : ℕ} (hi : p.feeder = some i) (hle : i ≤ last / m.sectionSize)
    (hlast : last < 2 ^ 63) : (p.feed i).line last = p.line last := by
  have hnext : u64 (i + 1) = i + 1 := by
    apply u64_of_lt
    have hdiv := Nat.div_le_self last m.sectionSize
    omega
  have hunsent : p.unsent last = fullSection m i :: (p.feed i).unsent last := by
    have hsucc : last / m.sectionSize + 1 - i = last / m.sectionSize + 1 - (i + 1) + 1 := by omega
    have hfeeder : (p.feed i).feeder = some (i + 1) := congrArg some hnext
    simp only [unsent, hi, hfeeder]
    rw [hsucc, range'_succ, map_cons]
  refine line_eq (fun j => ?_) rfl
  have hheld : (p.feed i).held j = p.held j := rfl
  rw [belt, belt, hheld, hunsent]
  by_cases hj : j = 0 <;> simp [hj, feed, setSource]

theorem line_feedEnd {i : ℕ} (hi : p.feeder = some i) (hle : ¬ i ≤ last / m.sectionSize) :
    ({ p with feeder := none } : Pipeline m ι).line last = p.line last := by
  have hzero : last / m.sectionSize + 1 - i = 0 := by omega
  have hunsent : p.unsent last = [] := by simp [unsent, hi, hzero]
  refine line_eq (fun j => ?_) rfl
  rw [belt, belt, hunsent]
  rfl

variable {j : m.Stage} {subres : PartialMatches} {rest : List PartialMatches}

theorem line_muxRead
    {ks : List m.Run} (hmux : p.mux j = .idle) (hsource : p.source j = subres :: rest) :
    ((p.setSource j rest).setMux j (.sending subres ks)).line last = p.line last := by
  refine line_stage j rfl (fun i hi => ?_) (fun i hi => ?_) ⟨rfl, rfl⟩ ?_
  · simp [setMux, setSource, hi]
  · simp [setMux, setSource, hi]
  · rw [held_stage, held_stage, hmux, hsource]
    simp [setMux, setSource, Mux.item]

theorem line_muxSend {k : m.Run} {ks : List m.Run}
    {l : List ℕ} (hmux : p.mux j = .sending subres (k :: ks)) :
    ((p.setBitSource k l).setMux j (.sending subres ks)).line last = p.line last := by
  refine line_stage j rfl (fun i hi => ?_) (fun i hi => rfl) ⟨rfl, rfl⟩ ?_
  · simp [setMux, setBitSource, hi]
  · rw [held_stage, held_stage, hmux]
    simp [setMux, setBitSource, Mux.item]

theorem line_muxProcess (hmux : p.mux j = .sending subres []) :
    ((p.setProcess j (p.process j ++ [subres])).setMux j .idle).line last = p.line last := by
  refine line_stage j rfl (fun i hi => ?_) (fun i hi => rfl) ⟨rfl, rfl⟩ ?_
  · simp [setMux, setProcess, hi]
  · rw [held_stage, held_stage, hmux]
    simp [setMux, setProcess, Mux.item]

theorem line_muxEnd (hmux : p.mux j = .idle) : (p.setMux j .returned).line last = p.line last := by
  refine line_stage j rfl (fun i hi => ?_) (fun i hi => rfl) ⟨rfl, rfl⟩ ?_
  · simp [setMux, hi]
  · rw [held_stage, held_stage, hmux]
    simp [setMux, Mux.item]

theorem line_mergeRead {todo : List (List m.Run)} (hmerger : p.merger j = .idle)
    (hprocess : p.process j = subres :: rest) :
    ((p.setProcess j rest).setMerger j (.gathering subres none none todo)).line last =
      p.line last := by
  refine line_stage j rfl (fun i hi => ?_) (fun i hi => rfl) ⟨rfl, rfl⟩ ?_
  · simp [setMerger, setProcess, hi]
  · rw [held_stage, held_stage, hmerger, hprocess]
    simp [setMerger, setProcess, Merger.item]

theorem line_setMerger {x : Merger m.Run} (hitem : x.item = (p.merger j).item) :
    (p.setMerger j x).line last = p.line last := by
  refine line_stage j rfl (fun i hi => ?_) (fun i hi => rfl) ⟨rfl, rfl⟩ ?_
  · simp [Pipeline.setMerger, hi]
  · rw [held_stage, held_stage]
    simp [Pipeline.setMerger, hitem]

theorem line_mergeSend {ans : ℕ → ℕ → Bytes} {g : PartialMatches → List ℕ}
    {orVec andVec : Option Bytes} (hmerger : p.merger j = .gathering subres orVec andVec [])
    (hvector : orVec = m.ruleVector ans j subres.sec) :
    Move (m.stageResult ans) g m.filters.length (p.line last)
      (((p.setSource (j + 1) (p.source (j + 1) ++
        (forward m.sectionSize orVec subres).toList)).setMerger j .idle).line last) := by
  have hresult : m.stageResult ans j subres = forward m.sectionSize orVec subres := by
    rw [Matcher.stageResult, dif_pos j.isLt, hvector]
  have hbelt : (p.line last).belt j = subres :: (p.process j ++ (p.mux j).item ++ p.source j ++
      if j.val = 0 then p.unsent last else []) := by
    show p.belt last j = _
    rw [belt, held_stage, hmerger]
    simp [Merger.item]
  have hmove := Move.pass (g := g) (f := m.stageResult ans) j.isLt hbelt
  rw [hresult] at hmove
  convert hmove using 1
  -- the belts after the step, one by one
  refine congrArg (Line.mk · _) (funext fun i => ?_)
  by_cases hi : i = j.val + 1
  · subst hi
    simp [line, belt, held, setMerger, setSource, Fin.ext_iff]
  · by_cases hij : i = j.val
    · subst hij
      simp [belt, held_stage, setMerger, setSource, Merger.item, unsent]
    · have hne : ∀ h : i < m.filters.length, (⟨i, h⟩ : m.Stage) ≠ j := by
        intro h he
        exact hij (congrArg Fin.val he)
      simp [line, belt, held, unsent, setMerger, setSource, hi, hij, hne]

theorem line_sinkRead {f : ℕ → PartialMatches → Option PartialMatches} {begin : ℕ}
    {res : PartialMatches} (hsink : p.sink = .idle)
    (hsource : p.source m.filters.length = res :: rest) :
    Move f (m.blocksOf begin last) m.filters.length (p.line last)
      (({ p.setSource m.filters.length rest with
        sink := .scanning res (firstBlock m.sectionSize begin res.sec)
          (lastBlock m.sectionSize last res.sec) } : Pipeline m ι).line last) := by
  have hnone : ∀ q : Pipeline m ι, q.held m.filters.length = [] := fun q =>
    dif_neg (lt_irrefl _)
  have hbelt : (p.line last).belt m.filters.length =
      res :: (rest ++ if m.filters.length = 0 then p.unsent last else []) := by
    show p.belt last m.filters.length = _
    rw [belt, hnone, hsource]
    rfl
  have hmove := Move.emit (f := f) (g := m.blocksOf begin last) hbelt
  convert hmove using 1
  have hout : (p.line last).out = p.results := by simp [line, hsink, Sink.rest]
  rw [hout]
  refine congrArg (Line.mk · _) (funext fun i => ?_)
  by_cases hi : i = m.filters.length
  · subst hi
    simp [belt, hnone, setSource, unsent]
  · simp [line, belt, held, unsent, setSource, hi]

end Belts

end Pipeline

def Sender.sections : Sender → List ℕ
  | .idle => []
  | .sending sec => [sec]
  | .notifying sec => [sec]

def Mux.sent {κ : Type} [DecidableEq κ] (k : κ) : Mux κ → List ℕ
  | .sending subres ks => if k ∈ ks then [] else [subres.sec]
  | _ => []

def Merger.awaited {κ : Type} [DecidableEq κ] (k : κ) : Merger κ → List ℕ
  | .gathering subres _ _ todo => if k ∈ todo.flatten then [subres.sec] else []
  | _ => []

namespace Pipeline

def awaited (p : Pipeline m ι) (k : m.Run) : List ℕ :=
  (p.merger k.1).awaited k ++ (p.process k.1).map (fun subres => subres.sec) ++ (p.mux k.1).sent k

def inside (p : Pipeline m ι) (k : m.Run) : List ℕ :=
  (p.session.run k).pend ++ (p.session.run k).sender.sections ++ p.bitSource k

variable (ans : ℕ → ℕ → Bytes)

def InOrder (p : Pipeline m ι) (k : m.Run) : Prop :=
  ∃ ready, p.awaited k = ready ++ p.inside k ∧
    (p.session.run k).done = ready.map fun sec => some (ans (m.runBit k) sec)

structure Gathering (j : m.Stage) (subres : PartialMatches) (orVec andVec : Option Bytes)
    (todo : List (List m.Run)) : Prop where
  nodup : todo.flatten.Nodup
  stage : ∀ k ∈ todo.flatten, k.1 = j
  ne_nil : ∀ c ∈ todo, c ≠ []
  vector : gather m.sectionSize (fun k => ans (m.runBit k) subres.sec) orVec andVec todo =
    m.ruleVector ans j subres.sec

structure FlowInv (p : Pipeline m ι) : Prop where
  answered : p.session.Answered ans
  bits : ∀ k, (p.session.run k).bit = m.runBit k
  ordered : ∀ k, p.InOrder ans k
  muxing : ∀ j subres ks, p.mux j = .sending subres ks → ks.Nodup ∧ ∀ k ∈ ks, k.1 = j
  gathering : ∀ j subres orVec andVec todo, p.merger j = .gathering subres orVec andVec todo →
    Gathering ans j subres orVec andVec todo

variable {ans} {p p' : Pipeline m ι}

variable {k : m.Run} {j : m.Stage} {subres : PartialMatches} {ks : List m.Run}
  {orVec andVec : Option Bytes} {cs : List (List m.Run)}

theorem InOrder.congr (h : p.InOrder ans k) (hawaited : p'.awaited k = p.awaited k)
    (hinside : p'.inside k = p.inside k)
    (hdone : (p'.session.run k).done = (p.session.run k).done) : p'.InOrder ans k := by
  obtain ⟨ready, hready, hput⟩ := h
  exact ⟨ready, by rw [hawaited, hinside, hready], by rw [hdone, hput]⟩

theorem setMux_mux (p : Pipeline m ι) (j : m.Stage) (x : Mux m.Run) (j' : m.Stage) :
    (p.setMux j x).mux j' = if j' = j then x else p.mux j' := update_apply _ _ _ _

theorem setMerger_merger (p : Pipeline m ι) (j : m.Stage) (x : Merger m.Run) (j' : m.Stage) :
    (p.setMerger j x).merger j' = if j' = j then x else p.merger j' := update_apply _ _ _ _

theorem FlowInv.muxRead (h : p.FlowInv ans) {rest : List PartialMatches} (hmux : p.mux j = .idle) :
    ((p.setSource j rest).setMux j (.sending subres (m.clauses j).flatten)).FlowInv ans := by
  refine ⟨h.answered, h.bits, fun k => (h.ordered k).congr ?_ rfl rfl, ?_, h.gathering⟩
  · have hmem := m.mem_clauses k
    simp only [awaited, setMux_mux]
    split_ifs with hk
    · simp only [hk] at hmem
      simp [hk, hmux, Mux.sent, hmem, setMux, setSource]
    · rfl
  · intro j' a ks hsending
    rw [setMux_mux] at hsending
    split_ifs at hsending with hj
    · cases hsending
      rw [hj]
      exact ⟨Matcher.clauses_nodup j, fun k hk => Matcher.clauses_stage hk⟩
    · exact h.muxing j' a ks hsending

theorem FlowInv.muxSend (h : p.FlowInv ans) (hmux : p.mux j = .sending subres (k :: ks)) :
    ((p.setBitSource k (p.bitSource k ++ [subres.sec])).setMux j (.sending subres ks)).FlowInv
      ans := by
  obtain ⟨hnodup, hstage⟩ := h.muxing j subres _ hmux
  obtain ⟨hnot, hnodup⟩ := nodup_cons.mp hnodup
  have hkj : k.1 = j := hstage k mem_cons_self
  refine ⟨h.answered, h.bits, fun k' => ?_, ?_, h.gathering⟩
  · by_cases hk : k' = k
    · -- the section is at the end of both
      subst hk
      obtain ⟨ready, hready, hput⟩ := h.ordered k'
      refine ⟨ready, ?_, hput⟩
      have hend := congrArg (· ++ [subres.sec]) hready
      simpa [awaited, inside, hkj, hmux, Mux.sent, hnot, setMux, setBitSource] using hend
    · refine (h.ordered k').congr ?_ ?_ rfl
      · by_cases hj : k'.1 = j
        · simp [awaited, setMux, setBitSource, hj, hmux, Mux.sent, hk]
        · simp [awaited, setMux, setBitSource, hj]
      · simp [inside, setMux, setBitSource, hk]
  · intro j' a ks' hsending
    rw [setMux_mux] at hsending
    split_ifs at hsending with hj
    · cases hsending
      rw [hj]
      exact ⟨hnodup, fun k' hk' => hstage k' (mem_cons_of_mem _ hk')⟩
    · exact h.muxing j' a ks' hsending

theorem FlowInv.muxProcess (h : p.FlowInv ans) (hmux : p.mux j = .sending subres []) :
    ((p.setProcess j (p.process j ++ [subres])).setMux j .idle).FlowInv ans := by
  refine ⟨h.answered, h.bits, fun k => (h.ordered k).congr ?_ rfl rfl, ?_, h.gathering⟩
  · by_cases hk : k.1 = j
    · simp [awaited, setMux, setProcess, hk, hmux, Mux.sent]
    · simp [awaited, setMux, setProcess, hk]
  · intro j' a ks hsending
    rw [setMux_mux] at hsending
    split_ifs at hsending
    exact h.muxing j' a ks hsending

theorem FlowInv.muxEnd (h : p.FlowInv ans) (hmux : p.mux j = .idle) :
    (p.setMux j .returned).FlowInv ans := by
  refine ⟨h.answered, h.bits, fun k => (h.ordered k).congr ?_ rfl rfl, ?_, h.gathering⟩
  · by_cases hk : k.1 = j
    · simp [awaited, setMux, hk, hmux, Mux.sent]
    · simp [awaited, setMux, hk]
  · intro j' a ks hsending
    rw [setMux_mux] at hsending
    split_ifs at hsending
    exact h.muxing j' a ks hsending

theorem FlowInv.mergeRead (h : p.FlowInv ans)
    {rest : List PartialMatches} (hmerger : p.merger j = .idle)
    (hprocess : p.process j = subres :: rest) :
    ((p.setProcess j rest).setMerger j (.gathering subres none none (m.clauses j))).FlowInv ans := by
  refine ⟨h.answered, h.bits, fun k => (h.ordered k).congr ?_ rfl rfl, h.muxing, ?_⟩
  · by_cases hk : k.1 = j
    · have hmem := m.mem_clauses k
      rw [hk] at hmem
      simp [awaited, Pipeline.setMerger, setProcess, hk, hmerger, hprocess, Merger.awaited,
        mem_flatten.mp hmem]
    · simp [awaited, Pipeline.setMerger, setProcess, hk]
  · intro j' a orVec andVec todo hgathering
    rw [setMerger_merger] at hgathering
    split_ifs at hgathering with hj
    · cases hgathering
      rw [hj]
      exact ⟨Matcher.clauses_nodup j, fun k hk => Matcher.clauses_stage hk,
        fun c hc => Matcher.clauses_ne_nil hc, rfl⟩
    · exact h.gathering j' a orVec andVec todo hgathering

theorem FlowInv.setMerger (h : p.FlowInv ans) {x : Merger m.Run}
    (hold : ∀ k, (p.merger j).awaited k = []) (hnew : ∀ k, x.awaited k = [])
    (hitem : ∀ subres orVec andVec todo, x ≠ .gathering subres orVec andVec todo) :
    (p.setMerger j x).FlowInv ans := by
  refine ⟨h.answered, h.bits, fun k => (h.ordered k).congr ?_ rfl rfl, h.muxing, ?_⟩
  · by_cases hk : k.1 = j
    · simp [awaited, Pipeline.setMerger, hk, hold, hnew]
    · simp [awaited, Pipeline.setMerger, hk]
  · intro j' a orVec andVec todo hgathering
    rw [setMerger_merger] at hgathering
    split_ifs at hgathering
    · exact absurd hgathering (hitem a orVec andVec todo)
    · exact h.gathering j' a orVec andVec todo hgathering

theorem Gathering.taken (h : Gathering ans j subres orVec andVec ((k :: ks) :: cs)) :
    ∃ orVec' andVec' todo, Pipeline.taken m.sectionSize subres orVec andVec
        (ans (m.runBit k) subres.sec) ks cs = .gathering subres orVec' andVec' todo ∧
      todo.flatten = ks ++ cs.flatten ∧ Gathering ans j subres orVec' andVec' todo := by
  have hflat : (k :: (ks ++ cs.flatten)).Nodup := h.nodup
  have hstage : ∀ k' ∈ ks ++ cs.flatten, k'.1 = j := fun k' hk' =>
    h.stage k' (mem_cons_of_mem _ hk')
  have hrest : ∀ c ∈ cs, c ≠ [] := fun c hc => h.ne_nil c (mem_cons_of_mem _ hc)
  cases ks with
  | nil =>
    refine ⟨_, _, cs, rfl, rfl, ⟨(nodup_cons.mp hflat).2, hstage, hrest, ?_⟩⟩
    rw [← h.vector]
    cases cs with
    | nil => rfl
    | cons c cs => rfl
  | cons k' ks =>
    refine ⟨_, _, (k' :: ks) :: cs, rfl, rfl, ⟨(nodup_cons.mp hflat).2, hstage, ?_, ?_⟩⟩
    · intro c hc
      rcases mem_cons.mp hc with hc | hc
      · rw [hc]
        exact cons_ne_nil _ _
      · exact hrest c hc
    · rw [← h.vector]
      rfl

theorem FlowInv.next_vector (h : p.FlowInv ans) {data : Option Bytes} {rest : List (Option Bytes)}
    (hmerger : p.merger j = .gathering subres orVec andVec ((k :: ks) :: cs))
    (hdone : (p.session.run k).done = data :: rest) : data = some (ans (m.runBit k) subres.sec) ∧
    ∃ ready, (p.process k.1).map (fun subres => subres.sec) ++ (p.mux k.1).sent k =
      ready ++ p.inside k ∧ rest = ready.map fun sec => some (ans (m.runBit k) sec) := by
  have hg := h.gathering j subres orVec andVec _ hmerger
  have hmem : k ∈ ((k :: ks) :: cs).flatten := mem_cons_self
  have hkj : k.1 = j := hg.stage k hmem
  obtain ⟨ready, hready, hput⟩ := h.ordered k
  have hawaited : (p.merger k.1).awaited k = [subres.sec] := by
    rw [hkj, hmerger]
    exact if_pos hmem
  rw [awaited, hawaited, append_assoc] at hready
  rw [hdone] at hput
  cases ready with
  | nil => cases hput
  | cons sec ready =>
    rw [map_cons] at hput
    obtain ⟨hdata, hrest⟩ := cons.inj hput
    obtain ⟨hsec, htail⟩ := cons.inj hready
    rw [hsec]
    exact ⟨hdata, ready, htail, hrest⟩

theorem FlowInv.mergeTake (h : p.FlowInv ans) {data : Option Bytes} {rest : List (Option Bytes)}
    (hmerger : p.merger j = .gathering subres orVec andVec ((k :: ks) :: cs))
    (hdone : (p.session.run k).done = data :: rest) : ((p.takeDone k rest).setMerger j
      (taken m.sectionSize subres orVec andVec (data.getD []) ks cs)).FlowInv ans := by
  have hg := h.gathering j subres orVec andVec _ hmerger
  have hkj : k.1 = j := hg.stage k mem_cons_self
  obtain ⟨hdata, ready, hready, hrest⟩ := h.next_vector hmerger hdone
  obtain ⟨orVec', andVec', todo, htaken, hflat, hg'⟩ := hg.taken
  rw [hdata, Option.getD_some, htaken]
  have hnotin : k ∉ todo.flatten := by
    rw [hflat]
    exact (nodup_cons.mp hg.nodup).1
  have hrun : ∀ k', (p.session.setRun k { p.session.run k with done := rest }).run k' =
      if k' = k then { p.session.run k with done := rest } else p.session.run k' :=
    Session.setRun_run p.session k _
  refine ⟨h.answered, fun k' => ?_, fun k' => ?_, h.muxing, ?_⟩
  · show ((p.session.setRun k _).run k').bit = _
    rw [hrun]
    split_ifs with hk
    · rw [hk]
      exact h.bits k
    · exact h.bits k'
  · by_cases hk : k' = k
    · subst hk
      refine ⟨ready, ?_, ?_⟩
      · have hnone : (Merger.gathering subres orVec' andVec' todo).awaited k' = [] := if_neg hnotin
        simpa [awaited, inside, Pipeline.setMerger, takeDone, hrun, hkj, hnone] using hready
      · simpa [Pipeline.setMerger, takeDone, hrun] using hrest
    · refine (h.ordered k').congr ?_ ?_ ?_
      · by_cases hj : k'.1 = j
        · have hiff : k' ∈ todo.flatten ↔ k' ∈ ((k :: ks) :: cs).flatten := by
            rw [hflat, flatten_cons, cons_append, mem_cons]
            exact (or_iff_right hk).symm
          simp only [awaited, Pipeline.setMerger, takeDone, hj, update_self, hmerger,
            Merger.awaited, hiff]
        · simp [awaited, Pipeline.setMerger, takeDone, hj]
      · simp [inside, Pipeline.setMerger, takeDone, hrun, hk]
      · simp [Pipeline.setMerger, takeDone, hrun, hk]
  · intro j' a orVec₁ andVec₁ todo₁ hgathering
    rw [setMerger_merger] at hgathering
    split_ifs at hgathering with hj
    · cases hgathering
      rw [hj]
      exact hg'
    · exact h.gathering j' a orVec₁ andVec₁ todo₁ hgathering

section Session
variable {s' : Session ι m.Run} {l : m.Run → List ℕ}

theorem FlowInv.setRun (h : p.FlowInv ans) {k : m.Run} {r : SchedulerRun}
    (hanswered : s'.Answered ans) (hrun : s'.run = update p.session.run k r)
    (hbit : r.bit = (p.session.run k).bit) (hother : ∀ k', k' ≠ k → l k' = p.bitSource k')
    (hk : ∃ ready, p.awaited k = ready ++ (r.pend ++ r.sender.sections ++ l k) ∧
      r.done = ready.map fun sec => some (ans (m.runBit k) sec)) :
    ({ p with session := s', bitSource := l } : Pipeline m ι).FlowInv ans := by
  refine ⟨hanswered, fun k' => ?_, fun k' => ?_, h.muxing, h.gathering⟩
  · by_cases hk' : k' = k
    · simp [hk', hrun, hbit, h.bits k]
    · simp [hk', hrun, h.bits k']
  · by_cases hk' : k' = k
    · subst hk'
      obtain ⟨ready, hready, hput⟩ := hk
      have hread : s'.run k' = r := by rw [hrun, update_self]
      refine ⟨ready, hready.trans ?_, ?_⟩
      · simp [inside, hread]
      · rw [hread, hput]
    · refine (h.ordered k').congr rfl ?_ ?_
      · simp [inside, hrun, hk', hother k' hk']
      · simp [hrun, hk']

theorem InOrder.inside_eq {k : m.Run} (h : p.InOrder ans k) {l : List ℕ} (hl : l = p.inside k) :
    ∃ ready, p.awaited k = ready ++ l ∧
      (p.session.run k).done = ready.map fun sec => some (ans (m.runBit k) sec) := by
  rw [hl]
  exact h

variable [DecidableEq ι] {a : Act ι m.Run}

theorem FlowInv.read (h : p.FlowInv ans) {k : m.Run} {sec : ℕ} {rest : List ℕ}
    (hsource : p.bitSource k = sec :: rest) (hstep : Step p.session (.read k sec) (.ok s')) :
    ({ p.setBitSource k rest with session := s' } : Pipeline m ι).FlowInv ans := by
  have hhonest : Session.Honest ans p.session (.read k sec) := trivial
  have hrun := Session.step_run hstep
  generalize hs' : s'.run = runs at hrun
  cases hrun with
  | @read _ _ sender hk hsender =>
    refine h.setRun (h.answered.step hhonest hstep) hs' rfl
      (fun k' hk' => update_of_ne hk' _ _) ((h.ordered k).inside_eq ?_)
    have hsections : sender.sections = [sec] := by
      rcases hsender with hsender | hsender
      · rw [hsender]
        rfl
      · rw [hsender]
        rfl
    have hrest : (p.setBitSource k rest).bitSource k = rest := update_self _ _ _
    rw [inside, hk, hsource, hrest, hsections]
    simp [Sender.sections]
  | other ha => exact absurd rfl (ha k sec)

theorem FlowInv.session (h : p.FlowInv ans)
    (hclosed : ∀ bit sec res, p.session.response bit sec = some res →
      res.closed = res.cached.isSome)
    (ha : ∀ k sec, a ≠ .read k sec) (hhonest : Session.Honest ans p.session a)
    (hstep : Step p.session a (.ok s')) : ({ p with session := s' } : Pipeline m ι).FlowInv ans := by
  have hanswered := h.answered.step hhonest hstep
  have hrun := Session.step_run hstep
  generalize hs' : s'.run = runs at hrun
  cases hrun with
  | @read k sec sender hk hsender => exact absurd rfl (ha k sec)
  | @send k sec hk =>
    refine h.setRun hanswered hs' rfl (fun _ _ => rfl) ((h.ordered k).inside_eq ?_)
    rw [inside, hk]
    rfl
  | @notify k sec hk =>
    refine h.setRun hanswered hs' rfl (fun _ _ => rfl) ((h.ordered k).inside_eq ?_)
    rw [inside, hk]
    simp [Sender.sections]
  | @collect k idx rest res hk hres hdone =>
    -- a closed response holds the vector of its section
    have hcached : res.cached = some (ans (m.runBit k) idx) := by
      have hsome : res.cached.isSome = true := by
        rw [← hclosed _ _ _ hres]
        exact hdone
      obtain ⟨x, hx⟩ := Option.isSome_iff_exists.mp hsome
      rw [hx, h.answered _ _ _ _ hres hx, h.bits]
    refine h.setRun hanswered hs' rfl (fun _ _ => rfl) ?_
    obtain ⟨ready, hready, hput⟩ := h.ordered k
    refine ⟨ready ++ [idx], ?_, ?_⟩
    · rw [hready, inside, hk]
      simp
    · rw [map_append, ← hput, hcached]
      rfl
  | other _ =>
    refine ⟨hanswered, fun k => ?_, fun k => (h.ordered k).congr rfl ?_ ?_, h.muxing, h.gathering⟩
    · rw [hs']
      exact h.bits k
    · show (s'.run k).pend ++ (s'.run k).sender.sections ++ p.bitSource k = p.inside k
      rw [hs']
      rfl
    · show (s'.run k).done = _
      rw [hs']

end Session

end Pipeline

end Fiscobcos.Bloombits
