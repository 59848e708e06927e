import Fiscobcos.Bloombits.Completion

/-! # Searches over rotated blooms

The pipeline finds the blocks that a search over the blooms of the blocks finds. -/

namespace Fiscobcos.Bloombits

open Numerals Bitset Belts Fiscobcos.Types

variable {m : Matcher} {ι : Type}

namespace Matcher

section Value
variable {begin last : ℕ} {ans : ℕ → ℕ → Bytes} {res : PartialMatches} {n : ℕ}

variable (m) in
def ruleBit (ans : ℕ → ℕ → Bytes) (j : m.Stage) (sec i : ℕ) : Bool :=
  (m.clauses j).any fun bits => bits.all fun k => bitAt (ans (m.runBit k) sec) i

theorem ruleBit_iff {j : m.Stage} {sec i : ℕ} : m.ruleBit ans j sec i = true ↔
    ∃ indexes ∈ m.filters.get j, ∀ l, bitAt (ans (indexes l) sec) i = true := by
  simp only [ruleBit, clauses, List.any_map, List.any_eq_true, Function.comp_apply, List.all_map,
    List.all_eq_true, List.mem_finRange, true_and, forall_const]
  constructor
  · intro h
    obtain ⟨c, hc⟩ := h
    exact ⟨(m.filters.get j).get c, List.get_mem _ _, hc⟩
  · intro h
    obtain ⟨indexes, hmem, hbits⟩ := h
    obtain ⟨c, hc⟩ := List.mem_iff_get.mp hmem
    refine ⟨c, fun l => ?_⟩
    have hbit : bitAt (ans ((m.filters.get j).get c l) sec) i = true := by
      rw [hc]
      exact hbits l
    exact hbit

theorem mem_blocksOf : n ∈ m.blocksOf begin last res ↔
    (firstBlock m.sectionSize begin res.sec ≤ n ∧ n ≤ lastBlock m.sectionSize last res.sec) ∧
      bitAt res.bitset (n - sectionStart m.sectionSize res.sec) = true := mem_blocksFrom

theorem blocksOf_sorted : (m.blocksOf begin last res).Pairwise (· < ·) :=
  List.Pairwise.filter _ List.pairwise_lt_range'

variable (begin) in
theorem Searchable.mem_stage (hs : m.Searchable last ans) (h : m.Sized last res) (j : m.Stage) :
    (∃ res', m.stageResult ans j res = some res' ∧ m.Sized last res' ∧ res'.sec = res.sec ∧
      ∀ n, n ∈ m.blocksOf begin last res' ↔ n ∈ m.blocksOf begin last res ∧
        m.ruleBit ans j res.sec (n - sectionStart m.sectionSize res.sec) = true) ∨
    (m.stageResult ans j res = none ∧ ∀ n ∈ m.blocksOf begin last res,
      m.ruleBit ans j res.sec (n - sectionStart m.sectionSize res.sec) = false) := by
  have hresult : m.stageResult ans j res =
      forward m.sectionSize (m.ruleVector ans j res.sec) res := dif_pos j.isLt
  rcases forward_bits (hs.ruleVector_bits j res.sec) h.1 with
    ⟨res', hres', hsec, _, hbits⟩ | ⟨hnone, hbits⟩
  · refine .inl ⟨res', hresult.trans hres', hs.sized_stageResult h (hresult.trans hres'), hsec,
      fun n => ?_⟩
    rw [mem_blocksOf, mem_blocksOf, hsec, hbits, Bool.and_eq_true, ← ruleBit]
    tauto
  · refine .inr ⟨hresult.trans hnone, fun n hn => ?_⟩
    have hfalse := hbits (n - sectionStart m.sectionSize res.sec)
    rw [(mem_blocksOf.mp hn).2, Bool.and_true] at hfalse
    exact hfalse

theorem Searchable.mem_value (hs : m.Searchable last ans) (h : m.Sized last res) {d j : ℕ}
    (hd : j + d = m.filters.length) :
    n ∈ value (m.stageResult ans) (m.blocksOf begin last) d j res ↔
      n ∈ m.blocksOf begin last res ∧ ∀ j' : m.Stage, j ≤ j'.val →
        m.ruleBit ans j' res.sec (n - sectionStart m.sectionSize res.sec) = true := by
  induction d generalizing j res with
  | zero =>
    rw [value]
    constructor
    · intro hn
      refine ⟨hn, fun j' hj' => ?_⟩
      have hlt := j'.isLt
      omega
    · intro hn
      exact hn.1
  | succ d ih =>
    have hj : j < m.filters.length := by omega
    have hrules : (∀ j' : m.Stage, j ≤ j'.val →
        m.ruleBit ans j' res.sec (n - sectionStart m.sectionSize res.sec) = true) ↔
        m.ruleBit ans ⟨j, hj⟩ res.sec (n - sectionStart m.sectionSize res.sec) = true ∧
        ∀ j' : m.Stage, j + 1 ≤ j'.val →
          m.ruleBit ans j' res.sec (n - sectionStart m.sectionSize res.sec) = true := by
      constructor
      · intro hall
        exact ⟨hall ⟨j, hj⟩ le_rfl, fun j' hj' => hall j' (by omega)⟩
      · intro hall j' hj'
        rcases Nat.eq_or_lt_of_le hj' with heq | hlt
        · have hstage : j' = ⟨j, hj⟩ := Fin.ext heq.symm
          rw [hstage]
          exact hall.1
        · exact hall.2 j' hlt
    rw [value, hrules]
    rcases hs.mem_stage begin h ⟨j, hj⟩ with
      ⟨res', hresult, hsized, hsec, hmem⟩ | ⟨hnone, hfalse⟩
    · have hresult : m.stageResult ans j res = some res' := hresult
      rw [hresult, Option.elim_some, ih hsized (by omega), hmem, hsec, and_assoc]
    · have hnone : m.stageResult ans j res = none := hnone
      rw [hnone, Option.elim_none]
      constructor
      · intro hn
        cases hn
      · intro hn
        have hbit := hfalse n hn.1
        rw [hn.2.1] at hbit
        cases hbit

theorem value_sorted (d j : ℕ) (res : PartialMatches) :
    (value (m.stageResult ans) (m.blocksOf begin last) d j res).Pairwise (· < ·) := by
  induction d generalizing j res with
  | zero => exact blocksOf_sorted
  | succ d ih =>
    rw [value]
    cases m.stageResult ans j res with
    | none => exact List.Pairwise.nil
    | some res' => exact ih (j + 1) res'

theorem Searchable.mem_fullSection (hs : m.Searchable last ans) {sec : ℕ}
    (hsec : sec ≤ last / m.sectionSize) : n ∈ m.blocksOf begin last (Pipeline.fullSection m sec) ↔
      begin ≤ n ∧ n ≤ last ∧ n / m.sectionSize = sec := by
  obtain ⟨hstart, _⟩ := hs.start_le hsec
  have hlast := hs.lastBlock_eq hsec
  have hpos := hs.pos
  have hdvd := hs.dvd
  have hfirst : firstBlock m.sectionSize begin sec = max begin (sec * m.sectionSize) := by
    rw [firstBlock, hstart]
    split_ifs <;> omega
  have hdiv : n / m.sectionSize = sec ↔
      sec * m.sectionSize ≤ n ∧ n < sec * m.sectionSize + m.sectionSize := by
    rw [Nat.div_eq_iff hpos]
    omega
  rw [mem_blocksOf]
  show ((firstBlock m.sectionSize begin sec ≤ n ∧ n ≤ lastBlock m.sectionSize last sec) ∧
    bitAt (List.replicate (m.sectionSize / 8) 255) (n - sectionStart m.sectionSize sec) = true) ↔ _
  rw [hfirst, hlast, hstart, hdiv]
  constructor
  · intro h
    omega
  · intro h
    exact ⟨by omega, bitAt_ones (by omega)⟩

end Value

end Matcher

namespace Pipeline

section Results
variable [Fintype ι] [DecidableEq ι] {begin last : ℕ} {ans : ℕ → ℕ → Bytes} {p : Pipeline m ι}

theorem mem_sections {sec : ℕ} : sec ∈ List.range' (begin / m.sectionSize)
    (last / m.sectionSize + 1 - begin / m.sectionSize) ↔
      begin / m.sectionSize ≤ sec ∧ sec ≤ last / m.sectionSize := by
  rw [List.mem_range'_1]
  omega

theorem mem_value_fullSection (hs : m.Searchable last ans) {sec n : ℕ}
    (hsec : sec ≤ last / m.sectionSize) :
    n ∈ value (m.stageResult ans) (m.blocksOf begin last) m.filters.length 0 (fullSection m sec) ↔
      (begin ≤ n ∧ n ≤ last ∧ n / m.sectionSize = sec) ∧ ∀ lists ∈ m.filters,
        ∃ indexes ∈ lists, ∀ l,
          bitAt (ans (indexes l) (n / m.sectionSize)) (n % m.sectionSize) = true := by
  have hsized : m.Sized last (fullSection m sec) := ⟨List.length_replicate, hsec⟩
  rw [hs.mem_value hsized (Nat.zero_add _), hs.mem_fullSection hsec]
  apply and_congr_right
  intro h
  have hstart : n - sectionStart m.sectionSize sec = n % m.sectionSize := by
    rw [(hs.start_le hsec).1, ← h.2.2, Nat.mod_eq_sub_mul_div, Nat.mul_comm]
  have hrule : ∀ j : m.Stage, m.ruleBit ans j sec (n - sectionStart m.sectionSize sec) = true ↔
      ∃ indexes ∈ m.filters.get j, ∀ l,
        bitAt (ans (indexes l) (n / m.sectionSize)) (n % m.sectionSize) = true := by
    intro j
    rw [Matcher.ruleBit_iff, hstart, h.2.2]
  constructor
  · intro hall lists hlists
    obtain ⟨j, hj⟩ := List.mem_iff_get.mp hlists
    rw [← hj]
    exact (hrule j).mp (hall j (Nat.zero_le _))
  · intro hall j _
    exact (hrule j).mpr (hall _ (List.get_mem _ _))

theorem mem_results (hs : m.Searchable last ans) (hr : m.Ready ans)
    (h : PipelineReach begin last ans (start m ι begin) p) (hret : p.sink = .returned) {n : ℕ} :
    n ∈ p.results ↔ begin ≤ n ∧ n ≤ last ∧ ∀ lists ∈ m.filters, ∃ indexes ∈ lists, ∀ l,
      bitAt (ans (indexes l) (n / m.sectionSize)) (n % m.sectionSize) = true := by
  rw [results_of_returned hs hr h hret, List.flatMap_map, List.mem_flatMap]
  constructor
  · intro hmem
    obtain ⟨sec, hsec, hn⟩ := hmem
    obtain ⟨⟨hbegin, hlast, _⟩, hrules⟩ :=
      (mem_value_fullSection hs (mem_sections.mp hsec).2).mp hn
    exact ⟨hbegin, hlast, hrules⟩
  · intro hmem
    obtain ⟨hbegin, hlast, hrules⟩ := hmem
    have hsec : n / m.sectionSize ≤ last / m.sectionSize := Nat.div_le_div_right hlast
    refine ⟨n / m.sectionSize, mem_sections.mpr ⟨Nat.div_le_div_right hbegin, hsec⟩, ?_⟩
    exact (mem_value_fullSection hs hsec).mpr ⟨⟨hbegin, hlast, rfl⟩, hrules⟩

theorem results_sorted (hs : m.Searchable last ans) (hr : m.Ready ans)
    (h : PipelineReach begin last ans (start m ι begin) p) (hret : p.sink = .returned) :
    p.results.Pairwise (· < ·) := by
  rw [results_of_returned hs hr h hret, List.flatMap_map, List.pairwise_flatMap]
  refine ⟨fun sec _ => Matcher.value_sorted _ _ _, ?_⟩
  -- blocks of an earlier section are smaller
  refine List.Pairwise.imp_of_mem ?_ List.pairwise_lt_range'
  intro sec sec' hsec hsec' hlt n hn n' hn'
  obtain ⟨⟨_, _, hdiv⟩, _⟩ := (mem_value_fullSection hs (mem_sections.mp hsec).2).mp hn
  obtain ⟨⟨_, _, hdiv'⟩, _⟩ := (mem_value_fullSection hs (mem_sections.mp hsec').2).mp hn'
  apply Nat.lt_of_div_lt_div
  rw [hdiv, hdiv']
  exact hlt

end Results

end Pipeline

def sectionBitset (size : ℕ) (blooms : ℕ → Bloom) (bit sec : ℕ) : Except GeneratorError Bytes := do
  let b ← newGenerator size
  let b ← b.addBlooms (fun i => blooms (sec * size + i)) size
  b.bitset bit

def sectionVector (size : ℕ) (blooms : ℕ → Bloom) (bit sec : ℕ) : Bytes :=
  (sectionBitset size blooms bit sec).toOption.getD []

theorem sectionBitset_eq {size : ℕ} (hdvd : size % 8 = 0) (blooms : ℕ → Bloom) {bit : ℕ}
    (hbit : bit < bloomBitLength) (sec : ℕ) : ∃ bitset, sectionBitset size blooms bit sec =
      .ok bitset ∧ sectionVector size blooms bit sec = bitset ∧ bitset.length = size / 8 ∧
      ∀ j, bitAt bitset j = (decide (j < size) && (blooms (sec * size + j)).big.testBit bit) := by
  obtain ⟨b, hb, hbits⟩ := generator_bitset size (fun i => blooms (sec * size + i)) hdvd
  obtain ⟨bitset, hbitset, hlen, hat⟩ := hbits bit hbit
  have hok : sectionBitset size blooms bit sec = .ok bitset := by
    have hbind : sectionBitset size blooms bit sec = (newGenerator size >>= fun b =>
        b.addBlooms (fun i => blooms (sec * size + i)) size) >>= fun b => b.bitset bit := by
      rw [bind_assoc]
      rfl
    rw [hbind, hb]
    exact hbitset
  refine ⟨bitset, hok, ?_, hlen, hat⟩
  rw [sectionVector, hok]
  rfl

theorem mem_newFilters {hash : Bytes → Vector Byte 32} {filters : List (List (Option Bytes))}
    {lists : List BloomIndexes} : lists ∈ newFilters hash filters ↔
      ∃ clauses : List Bytes, clauses ≠ [] ∧ clauses.map some ∈ filters ∧
        lists = clauses.map (calcBloomIndexes hash) := by
  rw [newFilters, List.mem_filterMap]
  constructor
  · intro h
    obtain ⟨filter, hfilter, hlists⟩ := h
    split_ifs at hlists with hlen
    obtain ⟨clauses, hclauses, hmap⟩ := bloomBits_eq_some.mp hlists
    subst hclauses
    refine ⟨clauses, ?_, hfilter, hmap⟩
    intro hnil
    rw [hnil] at hlen
    exact hlen rfl
  · intro h
    obtain ⟨clauses, hne, hmem, hlists⟩ := h
    refine ⟨clauses.map some, hmem, ?_⟩
    rw [if_neg, bloomBits_eq_some]
    · exact ⟨clauses, rfl, hlists⟩
    · rw [List.length_map, List.length_eq_zero_iff]
      exact hne

theorem eq_map_some {α : Type} {rule : List (Option α)} (h : none ∉ rule) :
    ∃ clauses : List α, rule = clauses.map some := by
  induction rule with
  | nil => exact ⟨[], rfl⟩
  | cons clause rest ih =>
    rw [List.mem_cons, not_or] at h
    obtain ⟨clauses, hclauses⟩ := ih h.2
    obtain ⟨c, hc⟩ := Option.ne_none_iff_exists'.mp (Ne.symm h.1)
    exact ⟨c :: clauses, by rw [hc, hclauses]; rfl⟩

section NewMatcher
variable {hash : Bytes → Vector Byte 32} {size : ℕ} {filters : List (List (Option Bytes))}
  {blooms : ℕ → Bloom} {last : ℕ}

theorem runBit_lt (k : (newMatcher hash size filters).Run) :
    (newMatcher hash size filters).runBit k < bloomBitLength := by
  obtain ⟨j, i, l⟩ := k
  have hmem : ((newMatcher hash size filters).filters.get j).get i ∈
      (newMatcher hash size filters).filters.get j := List.get_mem _ _
  obtain ⟨clauses, _, _, hlists⟩ := mem_newFilters.mp (List.get_mem (newFilters hash filters) j)
  have hclause : ((newMatcher hash size filters).filters.get j).get i ∈
      clauses.map (calcBloomIndexes hash) := hlists ▸ hmem
  obtain ⟨clause, _, hclause⟩ := List.mem_map.mp hclause
  show ((newMatcher hash size filters).filters.get j).get i l < bloomBitLength
  rw [← hclause, calcBloomIndexes_eq]
  exact bloom9Bit_lt hash clause l

theorem newMatcher_searchable (hdvd : size % 8 = 0) (hpos : 0 < size) (hlt : size < 2 ^ 64)
    (hlast : last < 2 ^ 63) :
    (newMatcher hash size filters).Searchable last (sectionVector size blooms) := by
  refine ⟨hdvd, hpos, hlt, hlast, ?_, ?_⟩
  · intro lists hlists
    obtain ⟨clauses, hne, _, hmap⟩ := mem_newFilters.mp hlists
    rw [hmap, Ne, List.map_eq_nil_iff]
    exact hne
  · intro k sec
    obtain ⟨bitset, _, hvector, hlen, _⟩ := sectionBitset_eq hdvd blooms (runBit_lt k) sec
    rw [hvector]
    exact hlen

theorem mem_allIndexes {lists : List (List BloomIndexes)} {l : List BloomIndexes}
    {indexes : BloomIndexes} (hl : l ∈ lists) (hindexes : indexes ∈ l) (i : Fin 3) :
    indexes i ∈ allIndexes lists := by
  rw [allIndexes, List.mem_flatMap]
  refine ⟨l, hl, List.mem_flatMap.mpr ⟨indexes, hindexes, ?_⟩⟩
  exact List.mem_map_of_mem (List.mem_finRange i)

theorem newMatcher_ready (ans : ℕ → ℕ → Bytes) : (newMatcher hash size filters).Ready ans := by
  have hnew : ∀ bit sch, (newMatcher hash size filters).schedulers bit = some sch →
      sch = newScheduler := by
    intro bit sch hsch
    apply foldl_addScheduler_new _ hsch
    intro b s hs
    cases hs
  constructor
  · intro bit sch hsch sec res hres
    rw [hnew bit sch hsch] at hres
    cases hres
  · intro k
    obtain ⟨j, i, l⟩ := k
    exact (foldl_addScheduler_isSome _ _ _).mpr
      (.inr (mem_allIndexes (List.get_mem _ _) (List.get_mem _ _) l))
  · intro bit sch sec res x hsch hres
    rw [hnew bit sch hsch] at hres
    cases hres

theorem clause_bits (hdvd : size % 8 = 0) (hpos : 0 < size) (clause : Bytes) (n : ℕ) :
    (∀ l, bitAt (sectionVector size blooms (calcBloomIndexes hash clause l) (n / size))
      (n % size) = true) ↔ bloomLookup hash (blooms n) clause = true := by
  rw [bloomLookup_iff]
  apply forall_congr'
  intro l
  obtain ⟨bitset, _, hvector, _, hat⟩ :=
    sectionBitset_eq hdvd blooms (bloom9Bit_lt hash clause l) (n / size)
  have hblock : n / size * size + n % size = n := by
    rw [Nat.mul_comm]
    exact Nat.div_add_mod n size
  rw [calcBloomIndexes_eq, hvector, hat, hblock, decide_eq_true (Nat.mod_lt n hpos), Bool.true_and]

theorem rules_iff (hdvd : size % 8 = 0) (hpos : 0 < size) (n : ℕ) :
    (∀ lists ∈ (newMatcher hash size filters).filters, ∃ indexes ∈ lists, ∀ l,
      bitAt (sectionVector size blooms (indexes l) (n / size)) (n % size) = true) ↔
    ∀ rule ∈ filters, rule ≠ [] → none ∉ rule →
      ∃ clause, some clause ∈ rule ∧ bloomLookup hash (blooms n) clause = true := by
  constructor
  · intro h rule hrule hne hnil
    obtain ⟨clauses, hclauses⟩ := eq_map_some hnil
    subst hclauses
    have hmem : clauses.map (calcBloomIndexes hash) ∈ newFilters hash filters := by
      rw [mem_newFilters]
      refine ⟨clauses, ?_, hrule, rfl⟩
      intro hempty
      rw [hempty] at hne
      exact hne rfl
    obtain ⟨indexes, hindexes, hbits⟩ := h _ hmem
    obtain ⟨clause, hclause, heq⟩ := List.mem_map.mp hindexes
    subst heq
    exact ⟨clause, List.mem_map_of_mem hclause, (clause_bits hdvd hpos clause n).mp hbits⟩
  · intro h lists hlists
    obtain ⟨clauses, hne, hmem, hmap⟩ := mem_newFilters.mp hlists
    subst hmap
    have hnonempty : clauses.map some ≠ [] := by
      rw [Ne, List.map_eq_nil_iff]
      exact hne
    obtain ⟨clause, hclause, hlookup⟩ := h _ hmem hnonempty (by simp)
    obtain ⟨c, hc, heq⟩ := List.mem_map.mp hclause
    cases heq
    exact ⟨_, List.mem_map_of_mem hc, (clause_bits hdvd hpos clause n).mpr hlookup⟩

end NewMatcher

section Run
variable {begin last : ℕ} {ans : ℕ → ℕ → Bytes} {p₀ p p' : Pipeline m ι} [DecidableEq ι]

theorem PipelineReach.internal (h : PipelineReach begin last ans p₀ p)
    (hstep : PipelineStep begin last p .internal (.ok p')) : PipelineReach begin last ans p₀ p' :=
  Steps.Reach.tail h hstep trivial

theorem PipelineReach.act (h : PipelineReach begin last ans p₀ p) (a : Act ι m.Run)
    {s : Session ι m.Run} (ha : ∀ k sec, a ≠ .read k sec) (hok : Session.Honest ans p.session a)
    (hstep : Step p.session a (.ok s)) : PipelineReach begin last ans p₀ { p with session := s } :=
  Steps.Reach.tail h (PipelineStep.session ha hstep) hok

theorem PipelineReach.read (h : PipelineReach begin last ans p₀ p) (k : m.Run) {sec : ℕ}
    {rest : List ℕ} {s : Session ι m.Run} (hsource : p.bitSource k = sec :: rest)
    (hstep : Step p.session (.read k sec) (.ok s)) :
    PipelineReach begin last ans p₀ { p.setBitSource k rest with session := s } :=
  Steps.Reach.tail h (PipelineStep.read hsource hstep) trivial

theorem PipelineReach.collect (h : PipelineReach begin last ans p₀ p) (k : m.Run) {idx : ℕ}
    {rest : List ℕ} {res : Response} (hk : (p.session.run k).pend = idx :: rest)
    (hres : p.session.response (p.session.run k).bit idx = some res) (hclosed : res.closed = true) :
    PipelineReach begin last ans p₀ { p with session := (p.session.setRun k
      { p.session.run k with pend := rest, done := (p.session.run k).done ++ [res.cached] }) } := by
  have hstep : Step p.session (.collect k) (p.session.collect k idx rest) := by
    refine .collect hk fun res' hres' => ?_
    rw [hres] at hres'
    cases hres'
    exact hclosed
  rw [Session.collect, hres] at hstep
  exact h.act (.collect k) (by simp) trivial hstep

theorem PipelineReach.scan (h : PipelineReach begin last ans p₀ p) {res : PartialMatches}
    {i hi i' : ℕ} {out : Option ℕ} (hsink : p.sink = .scanning res i hi) (hle : i ≤ hi)
    (hscan : scanBlock m.sectionSize res i = .ok (out, i')) :
    PipelineReach begin last ans p₀
      { p with sink := .scanning res i' hi, results := p.results ++ out.toList } := by
  have hstep : PipelineStep begin last p .internal _ := .scan hsink hle
  rw [hscan] at hstep
  exact h.internal hstep

end Run

def oneRule : Matcher := newMatcher (fun _ => Vector.replicate 32 0) 8 [[some []]]

def evenBlocks (n : ℕ) : Bloom :=
  ⟨List.replicate 255 0 ++ [if n % 2 = 0 then 1 else 0], by
    rw [List.length_append, List.length_replicate]
    rfl⟩

def oneRuleStage : oneRule.Stage := ⟨0, by decide⟩

def oneRuleRun (l : Fin 3) : oneRule.Run := ⟨oneRuleStage, ⟨0, by decide⟩, l⟩

theorem oneRule_search : ∃ p : Pipeline oneRule Unit,
    PipelineReach 1 2 (sectionVector 8 evenBlocks) (Pipeline.start oneRule Unit 1) p ∧
      p.sink = .returned ∧ p.results = [2] := by
  have h : PipelineReach 1 2 (sectionVector 8 evenBlocks) (Pipeline.start oneRule Unit 1) _ :=
    Steps.Reach.refl _
  have h := h.internal (.feed rfl (Nat.zero_le _))
  have h := h.internal (.feedEnd rfl (by decide))
  have h := h.internal (.muxRead (j := oneRuleStage) rfl rfl)
  have h := h.internal (.muxSend (j := oneRuleStage) rfl)
  have h := h.internal (.muxSend (j := oneRuleStage) rfl)
  have h := h.internal (.muxSend (j := oneRuleStage) rfl)
  have h := h.internal (.muxProcess (j := oneRuleStage) rfl)
  have h := h.internal (.muxEnd (j := oneRuleStage) rfl rfl rfl)
  -- the first run asks for the section, and the retriever fetches it
  have h := h.read (oneRuleRun 0) rfl (.read rfl (Nat.zero_le _))
  have h := h.act (.send (oneRuleRun 0)) (by simp) trivial (.send rfl)
  have h := h.act (.receive none) (by simp) trivial (.receive rfl (fun _ hr => by cases hr))
  have h := h.act (.wait ()) (by simp) trivial (.wait rfl)
  have h := h.act (.retrieve ()) (by simp) trivial
    (.retrieve rfl rfl (List.nodup_singleton 0) (fun bit => by
      show bit ∈ [0] ↔ bit ∈ insert 0 (∅ : Finset ℕ)
      simp))
  have h := h.act (.allocate () 1 none) (by simp) trivial
    (.allocate rfl (fun _ hr => by cases hr))
  have h := h.act (.deliver () [0] [[170]] false none) (by simp)
    (by
      intro bit allocated hr x hx
      have hfetching : Retriever.fetching 0 [0] = .fetching bit allocated := hr
      cases hfetching
      cases List.mem_singleton.mp hx
      exact .inr (by decide +kernel))
    (@Step.deliver _ _ _ _ _ () 0 [0] [0] [[170]] false none rfl (.refl _) rfl
      (fun _ hr => by cases hr))
  have h := h.act (.notify (oneRuleRun 0)) (by simp) trivial (.notify rfl)
  have h := h.collect (oneRuleRun 0) rfl rfl rfl
  -- the other runs find the vector
  have h := h.read (oneRuleRun 1) rfl (.read rfl (Nat.zero_le _))
  have h := h.act (.notify (oneRuleRun 1)) (by simp) trivial (.notify rfl)
  have h := h.collect (oneRuleRun 1) rfl rfl rfl
  have h := h.read (oneRuleRun 2) rfl (.read rfl (Nat.zero_le _))
  have h := h.act (.notify (oneRuleRun 2)) (by simp) trivial (.notify rfl)
  have h := h.collect (oneRuleRun 2) rfl rfl rfl
  have h := h.internal (.mergeRead (j := oneRuleStage) rfl rfl)
  have h := h.internal (.mergeTake (j := oneRuleStage) rfl rfl)
  have h := h.internal (.mergeTake (j := oneRuleStage) rfl rfl)
  have h := h.internal (.mergeTake (j := oneRuleStage) rfl rfl)
  have h := h.internal (.mergeSend (j := oneRuleStage) rfl)
  have h := h.internal (.mergeEnd (j := oneRuleStage) rfl rfl rfl)
  have h := h.internal (.sinkRead rfl rfl)
  have h := h.scan rfl (by decide : 1 ≤ 2) rfl
  have h := h.scan rfl (by decide : 2 ≤ 2) rfl
  have h := h.internal (.scanEnd rfl (by decide : ¬ 3 ≤ 2))
  have h := h.internal (.sinkEnd rfl rfl ⟨oneRuleStage.isLt, rfl⟩)
  exact ⟨_, h, rfl, rfl⟩

/-- A search that has come to its end has sent, in increasing order, the blocks whose blooms a
plain search finds. -/
theorem rotated_search_exact (hash : Bytes → Vector Byte 32) (size : ℕ) (hpos : 0 < size)
    (hdvd : size % 8 = 0) (hsize : size < 2 ^ 64) (blooms : ℕ → Bloom)
    (filters : List (List (Option Bytes))) (begin last : ℕ) (hlast : last < 2 ^ 63) (ι : Type)
    [Fintype ι] [DecidableEq ι] (p : Pipeline (newMatcher hash size filters) ι)
    (hreach : PipelineReach begin last (sectionVector size blooms)
      (Pipeline.start (newMatcher hash size filters) ι begin) p) (hdone : p.sink = .returned) :
    p.results.Pairwise (· < ·) ∧
    ∀ n, n ∈ p.results ↔ begin ≤ n ∧ n ≤ last ∧ ∀ rule ∈ filters, rule ≠ [] → none ∉ rule →
      ∃ clause, some clause ∈ rule ∧ bloomLookup hash (blooms n) clause = true := by
  have hs : (newMatcher hash size filters).Searchable last (sectionVector size blooms) :=
    newMatcher_searchable hdvd hpos hsize hlast
  have hr : (newMatcher hash size filters).Ready (sectionVector size blooms) := newMatcher_ready _
  refine ⟨Pipeline.results_sorted hs hr hreach hdone, fun n => ?_⟩
  rw [Pipeline.mem_results hs hr hreach hdone, ← rules_iff hdvd hpos]
  rfl

theorem rotated_search_exact_oneRule : ∃ p : Pipeline oneRule Unit, p.sink = .returned ∧
    p.results = [2] ∧ p.results.Pairwise (· < ·) ∧
    ∀ n, n ∈ p.results ↔ 1 ≤ n ∧ n ≤ 2 ∧ ∀ rule ∈ [[some []]], rule ≠ [] → none ∉ rule →
      ∃ clause, some clause ∈ rule ∧
        bloomLookup (fun _ => Vector.replicate 32 0) (evenBlocks n) clause = true := by
  obtain ⟨p, hreach, hdone, hresults⟩ := oneRule_search
  exact ⟨p, hdone, hresults, rotated_search_exact (fun _ => Vector.replicate 32 0) 8 (by decide)
    (by decide) (by norm_num) evenBlocks [[some []]] 1 2 (by norm_num) Unit p hreach hdone⟩

end Fiscobcos.Bloombits
