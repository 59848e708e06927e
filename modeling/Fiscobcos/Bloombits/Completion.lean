import Fiscobcos.Bloombits.Flow

/-! # Runs of the pipeline

Every step is a move of the line or leaves it as it is. When the last goroutine has returned, all
channels are closed and the line is empty. -/

namespace Fiscobcos.Bloombits
open Function List

open Numerals Bitset Belts

variable {m : Matcher} {ι : Type}

namespace Pipeline

structure Drained (p : Pipeline m ι) : Prop where
  mux : ∀ j : m.Stage, p.mux j = .returned → p.source j = [] ∧ p.Closed j
  merger : ∀ j, p.merger j = .returned → p.process j = [] ∧ p.mux j = .returned
  sink : p.sink = .returned → p.source m.filters.length = [] ∧ p.Closed m.filters.length

section Closing
variable {p p' : Pipeline m ι}

variable {i : ℕ} {j : m.Stage} {subres : PartialMatches} {rest : List PartialMatches}

theorem Closed.mono (hfeeder : p.feeder = none → p'.feeder = none)
    (hmerger : ∀ j, p.merger j = .returned → p'.merger j = .returned) (h : p.Closed i) :
    p'.Closed i := by
  cases i with
  | zero => exact hfeeder h
  | succ i =>
    obtain ⟨hi, hret⟩ := h
    exact ⟨hi, hmerger _ hret⟩

theorem Drained.of (h : p.Drained) (hfeeder : p.feeder = none → p'.feeder = none)
    (hkeep : ∀ j, p.merger j = .returned → p'.merger j = .returned)
    (hsource : ∀ i, p.Closed i → p.source i = [] → p'.source i = [])
    (hprocess : ∀ j, p.mux j = .returned → p.process j = [] → p'.process j = [])
    (hmuxkeep : ∀ j, p.mux j = .returned → p'.mux j = .returned)
    (hmux : ∀ j, p'.mux j = .returned → p.mux j = .returned ∨ p.source j = [] ∧ p.Closed j)
    (hmerger : ∀ j, p'.merger j = .returned →
      p.merger j = .returned ∨ p.process j = [] ∧ p.mux j = .returned)
    (hsink : p'.sink = .returned → p.sink = .returned ∨
      p.source m.filters.length = [] ∧ p.Closed m.filters.length) : p'.Drained := by
  have hclosed : ∀ i, p.Closed i → p'.Closed i := fun i => Closed.mono hfeeder hkeep
  constructor
  · intro j hj
    obtain ⟨hempty, hc⟩ : p.source j = [] ∧ p.Closed j := by
      rcases hmux j hj with hj | hj
      · exact h.mux j hj
      · exact hj
    exact ⟨hsource j hc hempty, hclosed j hc⟩
  · intro j hj
    obtain ⟨hempty, hret⟩ : p.process j = [] ∧ p.mux j = .returned := by
      rcases hmerger j hj with hj | hj
      · exact h.merger j hj
      · exact hj
    exact ⟨hprocess j hret hempty, hmuxkeep j hret⟩
  · intro hret
    obtain ⟨hempty, hc⟩ : p.source m.filters.length = [] ∧ p.Closed m.filters.length := by
      rcases hsink hret with hret | hret
      · exact h.sink hret
      · exact hret
    exact ⟨hsource _ hc hempty, hclosed _ hc⟩

theorem Drained.empty (h : p.Drained) (hclosed : p.Closed i) :
    p.feeder = none ∧ ∀ j < i, p.held j = [] ∧ p.source j = [] := by
  induction i with
  | zero => exact ⟨hclosed, fun j hj => absurd hj (Nat.not_lt_zero j)⟩
  | succ i ih =>
    obtain ⟨hi, hret⟩ := hclosed
    obtain ⟨hprocess, hmux⟩ := h.merger _ hret
    obtain ⟨hsource, hc⟩ := h.mux _ hmux
    obtain ⟨hfeeder, hrest⟩ := ih hc
    refine ⟨hfeeder, fun j hj => ?_⟩
    by_cases hij : j = i
    · subst hij
      refine ⟨?_, hsource⟩
      rw [held, dif_pos hi, hret, hprocess, hmux]
      rfl
    · exact hrest j (by omega)

theorem Drained.complete (h : p.Drained) (hret : p.sink = .returned) (last : ℕ) :
    ∀ j, j ≤ m.filters.length → p.belt last j = [] := by
  obtain ⟨hempty, hclosed⟩ := h.sink hret
  obtain ⟨hfeeder, hrest⟩ := h.empty hclosed
  have hunsent : p.unsent last = [] := by
    simp only [unsent, hfeeder]
  intro j hj
  rw [belt, hunsent]
  by_cases hn : j = m.filters.length
  · have hnone : p.held m.filters.length = [] := dif_neg (lt_irrefl _)
    rw [hn, hnone, hempty]
    split_ifs <;> rfl
  · obtain ⟨hheld, hsource⟩ := hrest j (by omega)
    rw [hheld, hsource]
    split_ifs <;> rfl

theorem update_eq_iff {α β : Type} [DecidableEq α] {f : α → β} {a : α} {x v : β} (hold : f a ≠ v)
    (hnew : x ≠ v) (b : α) : update f a x b = v ↔ f b = v := by
  rw [update_apply]
  split_ifs with hb
  · rw [hb]
    exact iff_of_false hnew hold
  · rfl

theorem Drained.feed (h : p.Drained) (hi : p.feeder = some i) : (p.feed i).Drained := by
  refine h.of (fun hnone => ?_) (fun _ => id) (fun i' hclosed hempty => ?_) (fun _ _ => id)
    (fun _ => id) (fun _ => .inl) (fun _ => .inl) .inl
  · rw [hi] at hnone
    cases hnone
  · by_cases hzero : i' = 0
    · subst hzero
      have hnone : p.feeder = none := hclosed
      rw [hi] at hnone
      cases hnone
    · have hsource : (p.feed i).source i' = p.source i' := update_of_ne hzero _ _
      rw [hsource]
      exact hempty

theorem Drained.feedEnd (h : p.Drained) : ({ p with feeder := none } : Pipeline m ι).Drained :=
  h.of (fun _ => rfl) (fun _ => id) (fun _ _ => id) (fun _ _ => id) (fun _ => id) (fun _ => .inl)
    (fun _ => .inl) .inl

theorem Drained.muxRead (h : p.Drained) {ks : List m.Run} (hmux : p.mux j = .idle)
    (hsource : p.source j = subres :: rest) :
    ((p.setSource j rest).setMux j (.sending subres ks)).Drained := by
  have hiff := update_eq_iff (f := p.mux) (a := j) (x := .sending subres ks) (v := .returned)
    (by simp [hmux]) (by simp)
  refine h.of id (fun _ => id) (fun i _ hempty => ?_) (fun _ _ => id) (fun j' => (hiff j').mpr)
    (fun j' hj' => .inl ((hiff j').mp hj')) (fun _ => .inl) .inl
  have hij : i ≠ j.val := by
    intro hij
    rw [hij, hsource] at hempty
    cases hempty
  have hother : ((p.setSource j rest).setMux j (.sending subres ks)).source i = p.source i :=
    update_of_ne hij _ _
  rw [hother]
  exact hempty

theorem Drained.muxSend (h : p.Drained) {k : m.Run}
    {ks : List m.Run} {l : List ℕ} (hmux : p.mux j = .sending subres (k :: ks)) :
    ((p.setBitSource k l).setMux j (.sending subres ks)).Drained := by
  have hiff := update_eq_iff (f := p.mux) (a := j) (x := .sending subres ks) (v := .returned)
    (by simp [hmux]) (by simp)
  exact h.of id (fun _ => id) (fun _ _ => id) (fun _ _ => id) (fun j' => (hiff j').mpr)
    (fun j' hj' => .inl ((hiff j').mp hj')) (fun _ => .inl) .inl

theorem Drained.muxProcess (h : p.Drained)
    {l : List PartialMatches} (hmux : p.mux j = .sending subres []) :
    ((p.setProcess j l).setMux j .idle).Drained := by
  have hiff := update_eq_iff (f := p.mux) (a := j) (x := .idle) (v := .returned)
    (by simp [hmux]) (by simp)
  refine h.of id (fun _ => id) (fun _ _ => id) (fun j' hret hempty => ?_) (fun j' => (hiff j').mpr)
    (fun j' hj' => .inl ((hiff j').mp hj')) (fun _ => .inl) .inl
  have hj' : j' ≠ j := by
    intro hj'
    rw [hj', hmux] at hret
    cases hret
  have hother : ((p.setProcess j l).setMux j .idle).process j' = p.process j' :=
    update_of_ne hj' _ _
  rw [hother]
  exact hempty

theorem Drained.muxEnd (h : p.Drained) (hempty : p.source j = [])
    (hclosed : p.Closed j) : (p.setMux j .returned).Drained := by
  refine h.of id (fun _ => id) (fun _ _ => id) (fun _ _ => id) (fun j' hret => ?_)
    (fun j' hret => ?_) (fun _ => .inl) .inl
  · rw [setMux_mux, hret, ite_self]
  · by_cases hj' : j' = j
    · rw [hj']
      exact .inr ⟨hempty, hclosed⟩
    · rw [setMux_mux, if_neg hj'] at hret
      exact .inl hret

theorem Drained.mergeRead (h : p.Drained) {todo : List (List m.Run)} (hmerger : p.merger j = .idle)
    (hprocess : p.process j = subres :: rest) :
    ((p.setProcess j rest).setMerger j (.gathering subres none none todo)).Drained := by
  have hiff := update_eq_iff (f := p.merger) (a := j) (x := .gathering subres none none todo)
    (v := .returned) (by simp [hmerger]) (by simp)
  refine h.of id (fun j' => (hiff j').mpr) (fun _ _ => id) (fun j' _ hempty => ?_) (fun _ => id)
    (fun _ => .inl) (fun j' hj' => .inl ((hiff j').mp hj')) .inl
  have hj' : j' ≠ j := by
    intro hj'
    rw [hj', hprocess] at hempty
    cases hempty
  have hother : ((p.setProcess j rest).setMerger j (.gathering subres none none todo)).process j' =
      p.process j' := update_of_ne hj' _ _
  rw [hother]
  exact hempty

theorem Drained.setMerger (h : p.Drained) {x : Merger m.Run}
    (hold : p.merger j ≠ .returned) (hnew : x ≠ .returned) : (p.setMerger j x).Drained := by
  have hiff := update_eq_iff (f := p.merger) (a := j) hold hnew
  exact h.of id (fun j' => (hiff j').mpr) (fun _ _ => id) (fun _ _ => id) (fun _ => id)
    (fun _ => .inl) (fun j' hj' => .inl ((hiff j').mp hj')) .inl

theorem Drained.mergeSend (h : p.Drained) {l : List PartialMatches}
    (hold : p.merger j ≠ .returned) : ((p.setSource (j + 1) l).setMerger j .idle).Drained := by
  have hiff := update_eq_iff (f := p.merger) (a := j) (x := .idle) hold (by simp)
  refine h.of id (fun j' => (hiff j').mpr) (fun i hclosed hempty => ?_) (fun _ _ => id)
    (fun _ => id) (fun _ => .inl) (fun j' hj' => .inl ((hiff j').mp hj')) .inl
  have hi : i ≠ j.val + 1 := by
    intro hi
    subst hi
    obtain ⟨_, hret⟩ := hclosed
    exact hold hret
  have hother : ((p.setSource (j + 1) l).setMerger j .idle).source i = p.source i :=
    update_of_ne hi _ _
  rw [hother]
  exact hempty

theorem Drained.mergeEnd (h : p.Drained) (hempty : p.process j = [])
    (hmux : p.mux j = .returned) : (p.setMerger j .returned).Drained := by
  refine h.of id (fun j' hret => ?_) (fun _ _ => id) (fun _ _ => id) (fun _ => id)
    (fun _ => .inl) (fun j' hret => ?_) .inl
  · rw [setMerger_merger, hret, ite_self]
  · by_cases hj' : j' = j
    · rw [hj']
      exact .inr ⟨hempty, hmux⟩
    · rw [setMerger_merger, if_neg hj'] at hret
      exact .inl hret

theorem Drained.sinkRead (h : p.Drained) {sink : Sink} {res : PartialMatches}
    (hsink : sink ≠ .returned) (hsource : p.source m.filters.length = res :: rest) :
    ({ p.setSource m.filters.length rest with sink := sink } : Pipeline m ι).Drained := by
  refine h.of id (fun _ => id) (fun i _ hempty => ?_) (fun _ _ => id) (fun _ => id) (fun _ => .inl)
    (fun _ => .inl) fun hret => absurd hret hsink
  have hi : i ≠ m.filters.length := by
    intro hi
    rw [hi, hsource] at hempty
    cases hempty
  have hother : (p.setSource m.filters.length rest).source i = p.source i :=
    update_of_ne hi _ _
  show (p.setSource m.filters.length rest).source i = []
  rw [hother]
  exact hempty

theorem Drained.setSink (h : p.Drained) {sink : Sink} {results : List ℕ}
    (hsink : sink = .returned → p.source m.filters.length = [] ∧ p.Closed m.filters.length) :
    ({ p with sink := sink, results := results } : Pipeline m ι).Drained :=
  h.of id (fun _ => id) (fun _ _ => id) (fun _ _ => id) (fun _ => id) (fun _ => .inl)
    (fun _ => .inl) fun hret => .inr (hsink hret)

theorem Drained.setSession (h : p.Drained) {s : Session ι m.Run} {l : m.Run → List ℕ} :
    ({ p with session := s, bitSource := l } : Pipeline m ι).Drained :=
  h.of id (fun _ => id) (fun _ _ => id) (fun _ _ => id) (fun _ => id) (fun _ => .inl)
    (fun _ => .inl) .inl

end Closing

end Pipeline

namespace Matcher
variable (m)

def Sized (last : ℕ) (res : PartialMatches) : Prop :=
  res.bitset.length = m.sectionSize / 8 ∧ res.sec ≤ last / m.sectionSize

/-- What a matcher, a search and the vectors that are delivered have to be. -/
structure Searchable (last : ℕ) (ans : ℕ → ℕ → Bytes) : Prop where
  dvd : m.sectionSize % 8 = 0
  pos : 0 < m.sectionSize
  lt : m.sectionSize < 2 ^ 64
  last_lt : last < 2 ^ 63
  ne_nil : ∀ lists ∈ m.filters, lists ≠ []
  length_ans : ∀ (k : m.Run) sec, (ans (m.runBit k) sec).length = m.sectionSize / 8

variable {m} {last : ℕ} {ans : ℕ → ℕ → Bytes} (hs : m.Searchable last ans)
include hs

theorem Searchable.ruleVector_bits (j : m.Stage) (sec : ℕ) :
    HasBits m.sectionSize (m.ruleVector ans j sec) fun i =>
      (m.clauses j).any fun bits => bits.all fun k => bitAt (ans (m.runBit k) sec) i := by
  apply gather_bits (fun k => hs.length_ans k sec)
  · have hne := hs.ne_nil _ (get_mem m.filters j)
    rw [Ne, clauses, map_eq_nil_iff, finRange_eq_nil_iff, length_eq_zero_iff]
    exact hne
  · exact fun c hc => clauses_ne_nil hc

theorem Searchable.sized_stageResult {j : ℕ} {res res' : PartialMatches} (h : m.Sized last res)
    (hresult : m.stageResult ans j res = some res') : m.Sized last res' := by
  rw [stageResult] at hresult
  split_ifs at hresult with hj
  rcases forward_bits (hs.ruleVector_bits ⟨j, hj⟩ res.sec) h.1 with
    ⟨out, hout, hsec, hlen, _⟩ | ⟨hnone, _⟩
  · rw [hout] at hresult
    cases hresult
    exact ⟨hlen, hsec ▸ h.2⟩
  · rw [hnone] at hresult
    cases hresult

theorem Searchable.start_le {sec : ℕ} (hsec : sec ≤ last / m.sectionSize) :
    sectionStart m.sectionSize sec = sec * m.sectionSize ∧ sec * m.sectionSize ≤ last := by
  have hle : sec * m.sectionSize ≤ last := by
    calc sec * m.sectionSize ≤ last / m.sectionSize * m.sectionSize := Nat.mul_le_mul_right _ hsec
      _ ≤ last := Nat.div_mul_le_self _ _
  have hlast := hs.last_lt
  exact ⟨u64_of_lt (by omega), hle⟩

theorem Searchable.lastBlock_eq {sec : ℕ} (hsec : sec ≤ last / m.sectionSize) :
    lastBlock m.sectionSize last sec = min last (sec * m.sectionSize + m.sectionSize - 1) := by
  obtain ⟨hstart, hle⟩ := hs.start_le hsec
  have hlast := hs.last_lt
  have hpos := hs.pos
  have hbound : sec * m.sectionSize + m.sectionSize - 1 < 2 ^ 64 := by
    -- a section that is not the first is not larger than the blocks before it
    rcases Nat.eq_zero_or_pos sec with hzero | hone
    · have hlt := hs.lt
      rw [hzero, Nat.zero_mul]
      omega
    · have hmul : m.sectionSize ≤ sec * m.sectionSize := Nat.le_mul_of_pos_left _ hone
      omega
  have hwrap : sub64 (u64 (sec * m.sectionSize + m.sectionSize)) 1 =
      sec * m.sectionSize + m.sectionSize - 1 := by
    unfold sub64 u64
    split_ifs <;> omega
  rw [lastBlock, hstart, hwrap]
  split_ifs <;> omega

theorem Searchable.scanBlock_spec {res : PartialMatches} (h : m.Sized last res) {i : ℕ}
    (hge : sectionStart m.sectionSize res.sec ≤ i) (hle : i ≤ lastBlock m.sectionSize last res.sec) :
    ∃ out i', scanBlock m.sectionSize res i = .ok (out, i') ∧ i < i' ∧
      blocksFrom m.sectionSize res i (lastBlock m.sectionSize last res.sec) =
        out.toList ++ blocksFrom m.sectionSize res i' (lastBlock m.sectionSize last res.sec) := by
  obtain ⟨hstart, _⟩ := hs.start_le h.2
  have hlastBlock := hs.lastBlock_eq h.2
  have hpos := hs.pos
  have hlast := hs.last_lt
  apply Bloombits.scanBlock_spec h.1 hs.dvd _ hge hle
  · rw [hlastBlock, hstart]
    omega
  · rw [hlastBlock]
    omega
  · rw [hstart]
    exact Nat.mod_eq_zero_of_dvd (Dvd.dvd.mul_left (Nat.dvd_of_mod_eq_zero hs.dvd) _)

end Matcher

namespace Pipeline
variable [Fintype ι]

structure SearchInv (last : ℕ) (ans : ℕ → ℕ → Bytes) (p : Pipeline m ι) : Prop where
  session : p.session.Inv
  flow : p.FlowInv ans
  drained : p.Drained
  sized : ∀ j, ∀ res ∈ p.belt last j, m.Sized last res
  scanning : ∀ res i hi, p.sink = .scanning res i hi → m.Sized last res ∧
    hi = lastBlock m.sectionSize last res.sec ∧ sectionStart m.sectionSize res.sec ≤ i

def Advances (begin last : ℕ) (ans : ℕ → ℕ → Bytes) (p p' : Pipeline m ι) : Prop :=
  p'.line last = p.line last ∨
    Move (m.stageResult ans) (m.blocksOf begin last) m.filters.length (p.line last) (p'.line last)

variable {begin last : ℕ} {ans : ℕ → ℕ → Bytes} {p p' : Pipeline m ι}

variable {k : m.Run} {sec : ℕ} {j : m.Stage}

omit [Fintype ι] in
theorem mem_belt_of_awaited (h : sec ∈ p.awaited k) : ∃ res ∈ p.belt last k.1, res.sec = sec := by
  have hbelt : ∀ res, res ∈ (p.merger k.1).item ∨ res ∈ p.process k.1 ∨ res ∈ (p.mux k.1).item →
      res ∈ p.belt last k.1 := by
    intro res hres
    rw [belt, held_stage]
    simp only [mem_append]
    tauto
  rw [awaited, mem_append, mem_append] at h
  rcases h with (h | h) | h
  · cases hmerger : p.merger k.1 with
    | gathering subres orVec andVec todo =>
      rw [hmerger, Merger.awaited] at h
      split_ifs at h
      · refine ⟨subres, hbelt _ (.inl ?_), (mem_singleton.mp h).symm⟩
        rw [hmerger]
        exact mem_singleton_self _
      · cases h
    | _ =>
      rw [hmerger] at h
      cases h
  · obtain ⟨res, hres, hsec⟩ := mem_map.mp h
    exact ⟨res, hbelt _ (.inr (.inl hres)), hsec⟩
  · cases hmux : p.mux k.1 with
    | sending subres ks =>
      rw [hmux, Mux.sent] at h
      split_ifs at h
      · cases h
      · refine ⟨subres, hbelt _ (.inr (.inr ?_)), (mem_singleton.mp h).symm⟩
        rw [hmux]
        exact mem_singleton_self _
    | _ =>
      rw [hmux] at h
      cases h

theorem SearchInv.below (hs : m.Searchable last ans) (h : p.SearchInv last ans)
    {rest : List ℕ} (hsource : p.bitSource k = sec :: rest) : sec < maxUint64 := by
  obtain ⟨ready, hready, _⟩ := h.flow.ordered k
  have hmem : sec ∈ p.awaited k := by
    rw [hready, inside, hsource]
    simp
  have hitem : ∃ res ∈ p.belt last k.1, res.sec = sec := mem_belt_of_awaited hmem
  obtain ⟨res, hres, hsec⟩ := hitem
  have hle := (h.sized _ res hres).2
  have hdiv := Nat.div_le_self last m.sectionSize
  have hlast := hs.last_lt
  have hmax : maxUint64 = 2 ^ 64 - 1 := rfl
  omega

omit [Fintype ι] in
theorem Advances.sized (hs : m.Searchable last ans) (hadv : Advances begin last ans p p')
    (h : ∀ j, ∀ res ∈ p.belt last j, m.Sized last res) :
    ∀ j, ∀ res ∈ p'.belt last j, m.Sized last res := by
  rcases hadv with hsame | hmove
  · have hbelt : p'.belt last = p.belt last := congrArg Line.belt hsame
    rw [hbelt]
    exact h
  · exact hmove.forall (fun j res res' hres hresult => hs.sized_stageResult hres hresult) h

theorem SearchInv.next (hs : m.Searchable last ans) (h : p.SearchInv last ans)
    (hsession : p'.session.Inv) (hflow : p'.FlowInv ans) (hdrained : p'.Drained)
    (hsink : p'.sink = p.sink) (hadv : Advances begin last ans p p') :
    p'.SearchInv last ans ∧ Advances begin last ans p p' := by
  refine ⟨⟨hsession, hflow, hdrained, hadv.sized hs h.sized, ?_⟩, hadv⟩
  rw [hsink]
  exact h.scanning

theorem SearchInv.feed (hs : m.Searchable last ans) (h : p.SearchInv last ans) {i : ℕ}
    (hi : p.feeder = some i) (hle : i ≤ last / m.sectionSize) :
    (p.feed i).SearchInv last ans ∧ Advances begin last ans p (p.feed i) := by
  have hf := h.flow
  exact h.next hs h.session ⟨hf.answered, hf.bits, hf.ordered, hf.muxing, hf.gathering⟩
    (h.drained.feed hi) rfl (.inl (line_feed hi hle hs.last_lt))

theorem SearchInv.feedEnd (hs : m.Searchable last ans) (h : p.SearchInv last ans) {i : ℕ}
    (hi : p.feeder = some i) (hle : ¬ i ≤ last / m.sectionSize) :
    ({ p with feeder := none } : Pipeline m ι).SearchInv last ans ∧
      Advances begin last ans p { p with feeder := none } := by
  have hf := h.flow
  exact h.next hs h.session ⟨hf.answered, hf.bits, hf.ordered, hf.muxing, hf.gathering⟩
    h.drained.feedEnd rfl (.inl (line_feedEnd hi hle))

theorem taken_eq (size : ℕ) (subres : PartialMatches) (orVec andVec : Option Bytes) (data : Bytes)
    (ks : List m.Run) (cs : List (List m.Run)) : ∃ orVec' andVec' todo,
      taken size subres orVec andVec data ks cs = .gathering subres orVec' andVec' todo := by
  cases ks with
  | nil | cons k ks => exact ⟨_, _, _, rfl⟩

theorem SearchInv.mergeTake (hs : m.Searchable last ans) (h : p.SearchInv last ans)
    {subres : PartialMatches} {orVec andVec : Option Bytes} {ks : List m.Run}
    {cs : List (List m.Run)} {data : Option Bytes} {rest : List (Option Bytes)}
    (hmerger : p.merger j = .gathering subres orVec andVec ((k :: ks) :: cs))
    (hdone : (p.session.run k).done = data :: rest) : ((p.takeDone k rest).setMerger j
        (taken m.sectionSize subres orVec andVec (data.getD []) ks cs)).SearchInv last ans ∧
      Advances begin last ans p ((p.takeDone k rest).setMerger j
        (taken m.sectionSize subres orVec andVec (data.getD []) ks cs)) := by
  have hflow := h.flow.mergeTake hmerger hdone
  obtain ⟨orVec', andVec', todo, htaken⟩ := taken_eq m.sectionSize subres orVec andVec
    (data.getD []) ks cs
  rw [htaken] at hflow ⊢
  have hsession : (p.takeDone k rest).session.Inv :=
    h.session.setRun rfl (fun _ => rfl) fun sec hsec => h.session.kept.forwarded k sec hsec
  have hitem : (Merger.gathering subres orVec' andVec' todo).item =
      ((p.takeDone k rest).merger j).item := by
    show [subres] = (p.merger j).item
    rw [hmerger]
    rfl
  have hdrained : (p.takeDone k rest).Drained := h.drained.setSession
  refine h.next hs hsession hflow (hdrained.setMerger ?_ (by simp)) rfl
    (.inl (line_setMerger hitem))
  show p.merger j ≠ _
  rw [hmerger]
  simp

theorem SearchInv.mergeSend (hs : m.Searchable last ans) (h : p.SearchInv last ans)
    {subres : PartialMatches} {orVec andVec : Option Bytes}
    (hmerger : p.merger j = .gathering subres orVec andVec []) :
    ((p.setSource (j + 1) (p.source (j + 1) ++
        (forward m.sectionSize orVec subres).toList)).setMerger j .idle).SearchInv last ans ∧
      Advances begin last ans p ((p.setSource (j + 1) (p.source (j + 1) ++
        (forward m.sectionSize orVec subres).toList)).setMerger j .idle) := by
  have hf := h.flow
  have hvector : orVec = m.ruleVector ans j subres.sec :=
    (hf.gathering j subres orVec andVec [] hmerger).vector
  have hsource : (p.setSource (j + 1) (p.source (j + 1) ++
      (forward m.sectionSize orVec subres).toList)).FlowInv ans :=
    ⟨hf.answered, hf.bits, hf.ordered, hf.muxing, hf.gathering⟩
  refine h.next hs h.session (hsource.setMerger (fun k => ?_) (fun _ => rfl) (by simp))
    (h.drained.mergeSend (by simp [hmerger])) rfl (.inr (line_mergeSend hmerger hvector))
  show (p.merger j).awaited k = []
  rw [hmerger, Merger.awaited, flatten_nil]
  exact if_neg not_mem_nil

theorem SearchInv.mergeEnd (hs : m.Searchable last ans) (h : p.SearchInv last ans)
    (hmerger : p.merger j = .idle) (hempty : p.process j = []) (hmux : p.mux j = .returned) :
    (p.setMerger j .returned).SearchInv last ans ∧
      Advances begin last ans p (p.setMerger j .returned) := by
  have hflow : (p.setMerger j .returned).FlowInv ans := by
    refine h.flow.setMerger (fun k => ?_) (fun _ => rfl) (by simp)
    rw [hmerger]
    rfl
  have hline : (p.setMerger j .returned).line last = p.line last := by
    apply line_setMerger
    rw [hmerger]
    rfl
  exact h.next hs h.session hflow (h.drained.mergeEnd hempty hmux) rfl (.inl hline)

theorem SearchInv.sinkRead (hs : m.Searchable last ans) (h : p.SearchInv last ans)
    {res : PartialMatches} {rest : List PartialMatches} (hsink : p.sink = .idle)
    (hsource : p.source m.filters.length = res :: rest) :
    ({ p.setSource m.filters.length rest with
        sink := .scanning res (firstBlock m.sectionSize begin res.sec)
          (lastBlock m.sectionSize last res.sec) } : Pipeline m ι).SearchInv last ans ∧
      Advances begin last ans p { p.setSource m.filters.length rest with
        sink := .scanning res (firstBlock m.sectionSize begin res.sec)
          (lastBlock m.sectionSize last res.sec) } := by
  have hf := h.flow
  have hadv : Advances begin last ans p { p.setSource m.filters.length rest with
      sink := .scanning res (firstBlock m.sectionSize begin res.sec)
        (lastBlock m.sectionSize last res.sec) } := .inr (line_sinkRead hsink hsource)
  have hres : m.Sized last res := by
    apply h.sized m.filters.length
    rw [belt, hsource]
    simp
  refine ⟨⟨h.session, ⟨hf.answered, hf.bits, hf.ordered, hf.muxing, hf.gathering⟩,
    h.drained.sinkRead (by simp) hsource, hadv.sized hs h.sized, ?_⟩, hadv⟩
  intro res' i hi hscan
  cases hscan
  refine ⟨hres, rfl, ?_⟩
  rw [firstBlock]
  split_ifs with hgt
  · exact hgt.le
  · exact le_rfl

theorem SearchInv.setSink (hs : m.Searchable last ans) (h : p.SearchInv last ans) {sink : Sink}
    {results : List ℕ}
    (hout : results ++ sink.rest m.sectionSize = p.results ++ p.sink.rest m.sectionSize)
    (hscanning : ∀ res i hi, sink = .scanning res i hi → m.Sized last res ∧
      hi = lastBlock m.sectionSize last res.sec ∧ sectionStart m.sectionSize res.sec ≤ i)
    (hsink : sink = .returned → p.source m.filters.length = [] ∧ p.Closed m.filters.length) :
    ({ p with sink := sink, results := results } : Pipeline m ι).SearchInv last ans ∧
      Advances begin last ans p { p with sink := sink, results := results } := by
  have hf := h.flow
  have hadv : Advances begin last ans p { p with sink := sink, results := results } :=
    .inl (line_eq (fun _ => rfl) hout)
  exact ⟨⟨h.session, ⟨hf.answered, hf.bits, hf.ordered, hf.muxing, hf.gathering⟩,
    h.drained.setSink hsink, hadv.sized hs h.sized, hscanning⟩, hadv⟩

theorem SearchInv.scan (hs : m.Searchable last ans) (h : p.SearchInv last ans)
    {res : PartialMatches} {i hi : ℕ} (hsink : p.sink = .scanning res i hi) (hle : i ≤ hi) :
    ∃ out i', scanBlock m.sectionSize res i = .ok (out, i') ∧
      ({ p with sink := .scanning res i' hi, results := p.results ++ out.toList } :
        Pipeline m ι).SearchInv last ans ∧
      Advances begin last ans p
        { p with sink := .scanning res i' hi, results := p.results ++ out.toList } := by
  obtain ⟨hres, hlast, hge⟩ := h.scanning res i hi hsink
  obtain ⟨out, i', hscan, hlt, hblocks⟩ := hs.scanBlock_spec hres hge (hlast ▸ hle)
  refine ⟨out, i', hscan, h.setSink hs ?_ ?_ (by simp)⟩
  · rw [hsink]
    show p.results ++ out.toList ++ blocksFrom m.sectionSize res i' hi =
      p.results ++ blocksFrom m.sectionSize res i hi
    rw [hlast, hblocks, append_assoc]
  · intro res' i₁ hi₁ hscanning
    cases hscanning
    exact ⟨hres, hlast, by omega⟩

variable [DecidableEq ι]

theorem SearchInv.read (hs : m.Searchable last ans) (h : p.SearchInv last ans)
    {rest : List ℕ} {out : Except Panic (Session ι m.Run)} (hsource : p.bitSource k = sec :: rest)
    (hstep : Step p.session (.read k sec) out) : ∃ s, out = .ok s ∧
      ({ p.setBitSource k rest with session := s } : Pipeline m ι).SearchInv last ans ∧
      Advances begin last ans p { p.setBitSource k rest with session := s } := by
  have hbelow : Session.Below p.session (.read k sec) := h.below hs hsource
  obtain ⟨s, hout, hs'⟩ := h.session.step hbelow hstep
  subst hout
  exact ⟨s, rfl, h.next hs hs' (h.flow.read hsource hstep) h.drained.setSession rfl (.inl rfl)⟩

theorem SearchInv.sessionStep (hs : m.Searchable last ans) (h : p.SearchInv last ans)
    {a : Act ι m.Run} {out : Except Panic (Session ι m.Run)} (ha : ∀ k sec, a ≠ .read k sec)
    (hhonest : Session.Honest ans p.session a) (hstep : Step p.session a out) :
    ∃ s, out = .ok s ∧ ({ p with session := s } : Pipeline m ι).SearchInv last ans ∧
      Advances begin last ans p { p with session := s } := by
  have hbelow : Session.Below p.session a := by
    cases a with
    | read k sec => exact absurd rfl (ha k sec)
    | _ => trivial
  obtain ⟨s, hout, hs'⟩ := h.session.step hbelow hstep
  subst hout
  exact ⟨s, rfl, h.next hs hs' (h.flow.session h.session.kept.closed ha hhonest hstep)
    h.drained.setSession rfl (.inl rfl)⟩

theorem SearchInv.step (hs : m.Searchable last ans) (h : p.SearchInv last ans) {e : Event m ι}
    {out : Except Panic (Pipeline m ι)} (hhonest : PipelineHonest ans p e)
    (hstep : PipelineStep begin last p e out) :
    ∃ p', out = .ok p' ∧ p'.SearchInv last ans ∧ Advances begin last ans p p' := by
  cases hstep with
  | feed hi hle => exact ⟨_, rfl, h.feed hs hi hle⟩
  | feedEnd hi hle => exact ⟨_, rfl, h.feedEnd hs hi hle⟩
  | muxRead hmux hsource =>
    exact ⟨_, rfl, h.next hs h.session (h.flow.muxRead hmux) (h.drained.muxRead hmux hsource) rfl
      (.inl (line_muxRead hmux hsource))⟩
  | muxSend hmux =>
    exact ⟨_, rfl, h.next hs h.session (h.flow.muxSend hmux) (h.drained.muxSend hmux) rfl
      (.inl (line_muxSend hmux))⟩
  | muxProcess hmux =>
    exact ⟨_, rfl, h.next hs h.session (h.flow.muxProcess hmux) (h.drained.muxProcess hmux) rfl
      (.inl (line_muxProcess hmux))⟩
  | muxEnd hmux hempty hclosed =>
    exact ⟨_, rfl, h.next hs h.session (h.flow.muxEnd hmux) (h.drained.muxEnd hempty hclosed) rfl
      (.inl (line_muxEnd hmux))⟩
  | read hsource hread =>
    obtain ⟨s, hout, hinv⟩ := h.read hs hsource hread
    subst hout
    exact ⟨_, rfl, hinv⟩
  | session ha hsession =>
    obtain ⟨s, hout, hinv⟩ := h.sessionStep hs ha hhonest hsession
    subst hout
    exact ⟨_, rfl, hinv⟩
  | mergeRead hmerger hprocess =>
    exact ⟨_, rfl, h.next hs h.session (h.flow.mergeRead hmerger hprocess)
      (h.drained.mergeRead hmerger hprocess) rfl (.inl (line_mergeRead hmerger hprocess))⟩
  | mergeTake hmerger hdone => exact ⟨_, rfl, h.mergeTake hs hmerger hdone⟩
  | mergeSend hmerger => exact ⟨_, rfl, h.mergeSend hs hmerger⟩
  | mergeEnd hmerger hempty hmux => exact ⟨_, rfl, h.mergeEnd hs hmerger hempty hmux⟩
  | sinkRead hsink hsource => exact ⟨_, rfl, h.sinkRead hs hsink hsource⟩
  | scan hsink hle =>
    obtain ⟨out, i', hscan, hinv⟩ := h.scan hs hsink hle
    rw [hscan]
    exact ⟨_, rfl, hinv⟩
  | @scanEnd res i hi hsink hle =>
    refine ⟨_, rfl, h.setSink hs ?_ (by simp) (by simp)⟩
    rw [hsink]
    show p.results ++ [] = p.results ++ blocksFrom m.sectionSize res i hi
    rw [blocksFrom_of_lt (by omega)]
  | sinkEnd hsink hempty hclosed =>
    refine ⟨_, rfl, h.setSink hs ?_ (by simp) fun _ => ⟨hempty, hclosed⟩⟩
    rw [hsink]
    rfl

end Pipeline

/-- The schedulers of a matcher at the start of a session: what they keep from earlier ones is
what `ans` gives. -/
structure Matcher.Ready (m : Matcher) (ans : ℕ → ℕ → Bytes) : Prop where
  valid : ∀ bit sch, m.schedulers bit = some sch → sch.Valid
  scheduled : ∀ k : m.Run, (m.schedulers (m.runBit k)).isSome
  cached : ∀ bit sch sec res x, m.schedulers bit = some sch → sch.responses sec = some res →
    res.cached = some x → x = ans bit sec

namespace Pipeline

section Start
variable {begin last : ℕ} {ans : ℕ → ℕ → Bytes}

theorem start_line : (start m ι begin).line last = ⟨fun j => if j = 0 then
    (range' (begin / m.sectionSize) (last / m.sectionSize + 1 - begin / m.sectionSize)).map
      (fullSection m) else [], []⟩ := by
  have hbelt : (start m ι begin).belt last = fun j => if j = 0 then
      (range' (begin / m.sectionSize) (last / m.sectionSize + 1 - begin / m.sectionSize)).map
        (fullSection m) else [] := by
    funext j
    have hheld : (start m ι begin).held j = [] := by
      rw [held]
      split_ifs <;> rfl
    rw [belt, hheld]
    rfl
  rw [line, hbelt]
  rfl

theorem start_answered (hr : m.Ready ans) : (start m ι begin).session.Answered ans := by
  intro bit sec res x hres hx
  obtain ⟨sch', hsch', hres⟩ := Option.bind_eq_some_iff.mp hres
  obtain ⟨sch, hsch, heq⟩ := Option.map_eq_some_iff.mp hsch'
  subst heq
  obtain ⟨hold, _⟩ := Option.filter_eq_some_iff.mp hres
  exact hr.cached bit sch sec res x hsch hold hx

theorem SearchInv.start [Fintype ι] (hr : m.Ready ans) :
    (Pipeline.start m ι begin).SearchInv last ans := by
  refine ⟨Session.Inv.start hr.valid hr.scheduled, ⟨start_answered hr, fun _ => rfl,
    fun _ => ⟨[], rfl, rfl⟩, ?_, ?_⟩, ⟨?_, ?_, ?_⟩, ?_, ?_⟩
  · intro j subres ks hmux
    cases hmux
  · intro j subres orVec andVec todo hmerger
    cases hmerger
  · intro j hmux
    cases hmux
  · intro j hmerger
    cases hmerger
  · intro hsink
    cases hsink
  · intro j res hres
    have hbelt : (Pipeline.start m ι begin).belt last j =
        ((Pipeline.start m ι begin).line last).belt j := rfl
    rw [hbelt, start_line] at hres
    by_cases hj : j = 0
    · simp only [hj, if_true, mem_map, mem_range'_1] at hres
      obtain ⟨sec, hsec, hfull⟩ := hres
      subst hfull
      exact ⟨length_replicate, by show sec ≤ _; omega⟩
    · simp [hj] at hres
  · intro res i hi hsink
    cases hsink

end Start

section Reach
variable [Fintype ι] [DecidableEq ι] {begin last : ℕ} {ans : ℕ → ℕ → Bytes} {p : Pipeline m ι}

theorem SearchInv.reach (hs : m.Searchable last ans) (hr : m.Ready ans)
    (h : PipelineReach begin last ans (Pipeline.start m ι begin) p) :
    p.SearchInv last ans ∧ Moves (m.stageResult ans) (m.blocksOf begin last) m.filters.length
      ((Pipeline.start m ι begin).line last) (p.line last) := by
  refine Steps.Reach.invariant (I := fun q : Pipeline m ι => q.SearchInv last ans ∧ Moves
    (m.stageResult ans) (m.blocksOf begin last) m.filters.length
    ((Pipeline.start m ι begin).line last) (q.line last))
    h ⟨SearchInv.start hr, .refl⟩ ?_
  intro q e q' hq hhonest hstep
  obtain ⟨hinv, hmoves⟩ := hq
  obtain ⟨q₁, heq, hinv', hadv⟩ := hinv.step hs hhonest hstep
  cases heq
  rcases hadv with hsame | hmove
  · exact ⟨hinv', hsame ▸ hmoves⟩
  · exact ⟨hinv', hmoves.tail hmove⟩

theorem results_of_returned (hs : m.Searchable last ans) (hr : m.Ready ans)
    (h : PipelineReach begin last ans (start m ι begin) p) (hret : p.sink = .returned) :
    p.results = ((range' (begin / m.sectionSize)
      (last / m.sectionSize + 1 - begin / m.sectionSize)).map (fullSection m)).flatMap
        (value (m.stageResult ans) (m.blocksOf begin last) m.filters.length 0) := by
  obtain ⟨hinv, hmoves⟩ := SearchInv.reach hs hr h
  rw [start_line] at hmoves
  have hout : (p.line last).out = p.results := by
    show p.results ++ p.sink.rest m.sectionSize = p.results
    rw [hret]
    exact append_nil _
  rw [← hout]
  exact hmoves.complete (hinv.drained.complete hret last)

end Reach

end Pipeline

end Fiscobcos.Bloombits
