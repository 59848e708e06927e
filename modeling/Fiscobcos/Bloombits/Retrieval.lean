import Fiscobcos.Bloombits.Ledger

/-! # The distributor keeps its ledger

What retrievers do with the distributor, and a request that arrives, keep the invariant of `Ledger`
without a panic. -/

namespace Fiscobcos.Bloombits
open Function List Option Retriever Scheduler SchedulerRun

open Numerals Tally

variable {ι κ : Type}

namespace Session

variable [Fintype ι] [Fintype κ] {s : Session ι κ}

/-! ## Waiting and being served -/

omit [Fintype ι] in
theorem setRequests_sorted (h : s.Kept) {bit : ℕ} {queue : List ℕ} (hq : queue.Pairwise (· ≤ ·))
    (b : ℕ) : ((s.setRequests bit queue).requests b).Pairwise (· ≤ ·) := by
  rw [setRequests_requests]
  split_ifs
  · exact hq
  · exact h.sorted b

theorem Inv.requests_of_owner (h : s.Inv) {bit : ℕ} (hpos : 0 < s.owners bit) :
    s.requests bit ≠ [] ∧ s.owners bit = 1 := by
  have howned := h.owned bit
  by_cases hnil : s.requests bit = []
  · rw [if_pos hnil] at howned
    omega
  · rw [if_neg hnil] at howned
    exact ⟨hnil, howned⟩

theorem Inv.response_isSome (h : s.Inv) {req : Request} (hasked : 0 < s.asked req) :
    (s.response req.bit req.sec).isSome = true := by
  have hle := h.ledger.asked_le req
  rw [known] at hle
  split_ifs at hle with hsome
  · exact hsome
  · omega

theorem Inv.scheduler_isSome (h : s.Inv) {req : Request} (hasked : 0 < s.asked req) :
    (s.schedulers req.bit).isSome = true := by
  have hsome := h.response_isSome hasked
  rw [response] at hsome
  cases hsch : s.schedulers req.bit with
  | none =>
    rw [hsch] at hsome
    cases hsome
  | some sch => rfl

theorem Inv.asked_of_queued (h : s.Inv) {bit sec : ℕ} (hmem : sec ∈ s.requests bit) :
    0 < s.asked ⟨sec, bit⟩ := by
  have hcount : 0 < s.queued ⟨sec, bit⟩ := count_pos_iff.mpr hmem
  have hplaced := h.ledger.placed ⟨sec, bit⟩
  have hle := h.ledger.pending_le ⟨sec, bit⟩
  omega

section Served
variable [DecidableEq ι]

theorem Inv.wait (h : s.Inv) {r : ι} (hr : s.retriever r = .idle) :
    (s.setRetriever r .waiting).Inv := by
  have hframe : Frame s (s.setRetriever r .waiting) :=
    setRetriever_frame (by simp) (by simp [hr])
  have hsame : ∀ f : Retriever → ℕ, f .idle = f .waiting →
      tally f (s.setRetriever r .waiting).retriever = tally f s.retriever := fun f hf => by
    have hsum := tally_retriever hr .waiting f
    rw [hf] at hsum
    exact Nat.add_right_cancel hsum
  refine ⟨fun bit => ?_, ⟨h.counted.listening, ?_⟩, hframe.ledger h.ledger, hframe.kept h.kept⟩
  · rw [owners, holders, hsame _ rfl]
    exact h.owned bit
  · rw [hsame _ rfl]
    exact h.counted.allocs

theorem Inv.retrieve (h : s.Inv) {r : ι} {order : List ℕ} (hlisten : s.listening = true)
    (hr : s.retriever r = .waiting) (horder : ∀ bit, bit ∈ order ↔ bit ∈ s.unallocs) :
    ∃ s', s.retrieve r order = .ok s' ∧ s'.Inv := by
  have hqueues : ∀ idx ∈ order, ∃ q rest, s.requests idx = q :: rest ∧ q < maxUint64 := by
    intro idx hidx
    have hpos : 0 < s.owners idx := by
      rw [owners, if_pos ((horder idx).mp hidx)]
      omega
    obtain ⟨q, rest, hq⟩ := exists_cons_of_ne_nil (h.requests_of_owner hpos).1
    have hmem : q ∈ s.requests idx := by
      rw [hq]
      exact mem_cons_self
    exact ⟨q, rest, hq, h.kept.bounded _ (h.asked_of_queued hmem)⟩
  have hne : order ≠ [] := by
    obtain ⟨bit, hbit⟩ := h.counted.listening.mp hlisten
    exact ne_nil_of_mem ((horder bit).mpr hbit)
  obtain ⟨low, hlow, hmem⟩ := @lowest_mem s.requests order 0 maxUint64 hqueues (.inl ⟨rfl, hne⟩)
  have hin : low ∈ s.unallocs := by
    rcases hmem with hmem | ⟨_, hlt⟩
    · exact (horder low).mp hmem
    · exact absurd hlt (lt_irrefl _)
  have hframe : Frame s (s.setRetriever r (.holding low)) :=
    setRetriever_frame (by simp) (by simp [hr])
  simp only [Session.retrieve, hlow]
  refine ⟨_, rfl, ⟨fun bit => ?_, ⟨?_, ?_⟩, ?_, ?_⟩⟩
  · have hholders : (s.setRetriever r (.holding low)).holders bit + 0 =
        s.holders bit + if low = bit then 1 else 0 :=
      tally_retriever hr (.holding low) (holds bit)
    have howned := h.owned bit
    rw [owners] at howned
    show (if bit ∈ s.unallocs.erase low then 1 else 0) +
      (s.setRetriever r (.holding low)).holders bit = if s.requests bit = [] then 0 else 1
    by_cases hbit : low = bit
    · subst hbit
      rw [if_neg (Finset.notMem_erase _ _)]
      rw [if_pos hin] at howned
      rw [if_pos rfl] at hholders
      omega
    · have hiff : bit ∈ s.unallocs.erase low ↔ bit ∈ s.unallocs := by
        rw [Finset.mem_erase]
        exact and_iff_right (Ne.symm hbit)
      rw [if_neg hbit] at hholders
      simp only [hiff]
      omega
  · show (if (s.unallocs.erase low).card = 0 then false else s.listening) = true ↔
      (s.unallocs.erase low).Nonempty
    rw [hlisten, ← Finset.card_pos]
    by_cases hcard : (s.unallocs.erase low).card = 0
    · simp [hcard]
    · rw [if_neg hcard]
      exact ⟨fun _ => Nat.pos_of_ne_zero hcard, fun _ => rfl⟩
  · have hsum : tally active (s.setRetriever r (.holding low)).retriever + 0 =
        tally active s.retriever + 1 := tally_retriever hr (.holding low) _
    show s.allocs + 1 = _
    rw [h.counted.allocs]
    exact_mod_cast hsum.symm
  · apply Frame.ledger _ h.ledger
    exact ⟨rfl, rfl, rfl, rfl, rfl, hframe.fetched, hframe.fetching⟩
  · apply Frame.kept _ h.kept
    exact ⟨rfl, rfl, rfl, rfl, rfl, hframe.fetched, hframe.fetching⟩

/-! ## Taking sections -/

section Taking
variable {r : ι} {bit want : ℕ} (hr : s.retriever r = .holding bit)

omit [Fintype ι] [Fintype κ] in
theorem taking_finds {fetcher : Option ι} (hr : s.retriever r = .holding bit)
    (hf : s.Finds fetcher) : (s.taking r bit want).Finds fetcher := by
  have hretriever : ∀ x, (s.taking r bit want).retriever x = .waiting ↔
      s.retriever x = .waiting := by
    intro x
    rw [taking, setRetriever_retriever]
    split_ifs with hx
    · rw [hx, hr]
      simp
    · rfl
  cases fetcher with
  | none => exact fun x hx => hf x ((hretriever x).mp hx)
  | some x => exact (hretriever x).mpr hf

include hr

omit [Fintype κ] in
theorem taking_owners (b : ℕ) :
    (s.taking r bit want).owners b + (if bit = b then 1 else 0) = s.owners b := by
  have hsum : (s.taking r bit want).holders b + (if bit = b then 1 else 0) = s.holders b + 0 :=
    tally_retriever hr _ (holds b)
  show (if b ∈ s.unallocs then 1 else 0) + (s.taking r bit want).holders b + _ = _
  rw [owners]
  omega

omit [Fintype κ] in
theorem Counted.taking (h : s.Counted) : (s.taking r bit want).Counted := by
  have hsum : tally active (s.taking r bit want).retriever + 1 =
      tally active s.retriever + 1 := tally_retriever hr _ _
  refine ⟨h.listening, ?_⟩
  rw [Nat.add_right_cancel hsum]
  exact h.allocs

theorem Ledger.taking (h : s.Ledger) : (s.taking r bit want).Ledger := by
  refine ⟨fun req => ?_, h.pending_le, h.asked_le⟩
  have hplaced := h.placed req
  have hqueued : (s.taking r bit want).queued req = if req.bit = bit then
      ((s.requests bit).drop want).count req.sec else s.queued req := queued_setRequests s bit _ req
  have hfetched : (s.taking r bit want).fetched req + 0 = s.fetched req +
      if bit = req.bit then ((s.requests bit).take want).count req.sec else 0 :=
    tally_retriever hr (.fetching bit ((s.requests bit).take want)) (fetches req)
  show s.sending req + s.dist.count req + (s.taking r bit want).queued req +
    (s.taking r bit want).fetched req = s.pending req
  by_cases hbit : bit = req.bit
  · have hsplit : ((s.requests bit).take want).count req.sec +
        ((s.requests bit).drop want).count req.sec = s.queued req := by
      rw [← count_append, take_append_drop, hbit]
      rfl
    rw [if_pos hbit.symm] at hqueued
    rw [if_pos hbit] at hfetched
    omega
  · rw [if_neg (Ne.symm hbit)] at hqueued
    rw [if_neg hbit] at hfetched
    omega

omit [Fintype ι] hr in
theorem Kept.taking (h : s.Kept) (hsome : (s.schedulers bit).isSome) :
    (s.taking r bit want).Kept := by
  refine ⟨?_, h.closed, h.running, h.forwarded, fun r' b sections hfetch => ?_, h.bounded⟩
  · exact setRequests_sorted h ((h.sorted bit).sublist (drop_sublist _ _))
  · rw [Session.taking, setRetriever_retriever] at hfetch
    split_ifs at hfetch
    · cases hfetch
      exact hsome
    · exact h.served r' b sections hfetch

theorem Inv.allocate (h : s.Inv) {fetcher : Option ι} (hf : s.Finds fetcher) :
    (s.allocate r bit want fetcher).Inv := by
  have hsame : ∀ b, (s.taking r bit want).owners b + (if bit = b then 1 else 0) = s.owners b :=
    taking_owners hr
  have hbit := hsame bit
  rw [if_pos rfl] at hbit
  have hpos : 0 < s.owners bit := by omega
  obtain ⟨hqueue, hone⟩ := h.requests_of_owner hpos
  have hsome : (s.schedulers bit).isSome = true := by
    obtain ⟨sec, hsec⟩ := exists_mem_of_ne_nil _ hqueue
    exact h.scheduler_isSome (h.asked_of_queued hsec)
  have hzero : (s.taking r bit want).owners bit = 0 := by omega
  have hnearly : (s.taking r bit want).Nearly bit := by
    refine ⟨fun b hb => ?_, h.counted.taking hr, h.ledger.taking hr, h.kept.taking hsome⟩
    have hb' := hsame b
    rw [if_neg (Ne.symm hb)] at hb'
    have hreq : (s.taking r bit want).requests b = s.requests b := update_of_ne hb _ _
    rw [hreq, ← h.owned b]
    exact hb'
  have hleft : (s.taking r bit want).requests bit = (s.requests bit).drop want :=
    update_self _ _ _
  rw [allocate_eq]
  by_cases hnil : (s.requests bit).drop want = []
  · rw [if_pos hnil]
    apply hnearly.inv
    rw [hzero, hleft, if_pos hnil]
  · rw [if_neg hnil]
    exact hnearly.assign (taking_finds hr hf) hzero (hleft ▸ hnil)

end Taking

/-! ## A request arrives -/

section Arriving
variable {req : Request} {rest : List Request} (hdist : s.dist = req :: rest)

def arriving (s : Session ι κ) (req : Request) (rest : List Request) : Session ι κ :=
  { s.setRequests req.bit (insertSection (s.requests req.bit) req.sec) with
    dist := rest, arrived := req :: s.arrived }

omit [Fintype ι] [Fintype κ] [DecidableEq ι] in
theorem arriving_queued (x : Request) :
    (s.arriving req rest).queued x = s.queued x + if req = x then 1 else 0 := by
  have hset : (s.arriving req rest).queued x =
      if x.bit = req.bit then (insertSection (s.requests req.bit) req.sec).count x.sec
      else s.queued x := queued_setRequests s _ _ _
  rw [hset]
  by_cases hbit : x.bit = req.bit
  · have hreq : (req.sec = x.sec) = (req = x) := by
      obtain ⟨_, _⟩ := req
      obtain ⟨_, _⟩ := x
      simp_all
    rw [if_pos hbit, insertSection_count, queued, hbit]
    simp only [hreq]
  · have hreq : req ≠ x := fun hx => hbit (hx ▸ rfl)
    rw [if_neg hbit, if_neg hreq, Nat.add_zero]

include hdist

omit [Fintype ι] [DecidableEq ι] in
theorem arriving_asked (x : Request) : (s.arriving req rest).asked x = s.asked x := by
  have hnew : (s.arriving req rest).asked x =
      s.sending x + rest.count x + (req :: s.arrived).count x := rfl
  rw [hnew, asked, hdist, count_cons, count_cons]
  omega

omit [DecidableEq ι] in
theorem Ledger.arriving (h : s.Ledger) : (s.arriving req rest).Ledger := by
  refine ⟨fun x => ?_, fun x => ?_, fun x => ?_⟩
  · have hplaced := h.placed x
    have hqueued : (s.arriving req rest).queued x = s.queued x + if req = x then 1 else 0 :=
      arriving_queued x
    rw [hdist, count_cons] at hplaced
    simp only [beq_iff_eq] at hplaced
    show s.sending x + rest.count x + (s.arriving req rest).queued x + s.fetched x = s.pending x
    omega
  · rw [arriving_asked hdist]
    exact h.pending_le x
  · rw [arriving_asked hdist]
    exact h.asked_le x

omit [Fintype ι] [DecidableEq ι] in
theorem Kept.arriving (h : s.Kept) : (s.arriving req rest).Kept := by
  refine ⟨?_, h.closed, h.running, h.forwarded, h.served, fun x hx => ?_⟩
  · exact setRequests_sorted h (insertSection_sorted (h.sorted req.bit) req.sec)
  · rw [arriving_asked hdist] at hx
    exact h.bounded x hx

theorem Inv.receive (h : s.Inv) {fetcher : Option ι} (hf : s.Finds fetcher) :
    (s.receive req rest fetcher).Inv := by
  have heq : s.receive req rest fetcher = if (s.requests req.bit).length = 0 then
      (s.arriving req rest).assign req.bit fetcher else s.arriving req rest := rfl
  have hne : (s.arriving req rest).requests req.bit ≠ [] := by
    have hqueue : (s.arriving req rest).requests req.bit =
        insertSection (s.requests req.bit) req.sec := update_self _ _ _
    rw [hqueue]
    exact insertSection_ne_nil _ _
  have hnearly : (s.arriving req rest).Nearly req.bit := by
    refine ⟨fun b hb => ?_, ⟨h.counted.listening, h.counted.allocs⟩, h.ledger.arriving hdist,
      h.kept.arriving hdist⟩
    have hreq : (s.arriving req rest).requests b = s.requests b := update_of_ne hb _ _
    rw [hreq]
    exact h.owned b
  have howned : (s.arriving req rest).owners req.bit =
      if s.requests req.bit = [] then 0 else 1 := h.owned req.bit
  rw [heq]
  by_cases hnil : s.requests req.bit = []
  · rw [if_pos (length_eq_zero_iff.mpr hnil)]
    rw [if_pos hnil] at howned
    exact hnearly.assign hf howned hne
  · rw [if_neg (fun hlen => hnil (length_eq_zero_iff.mp hlen))]
    apply hnearly.inv
    rw [howned, if_neg hnil, if_neg hne]

end Arriving

/-! ## A delivery -/

section Delivering
variable {r : ι} {bit : ℕ} {allocated : List ℕ} {again : Bool} {d : Delivery} {sch sch' : Scheduler}

def delivering (s : Session ι κ) (r : ι) (again : Bool) (bit : ℕ) (sch : Scheduler)
    (missing : List ℕ) : Session ι κ :=
  ({ (s.released r again).setScheduler bit sch with allocs := s.allocs - 1 } :
    Session ι κ).setRequests bit (missing.foldl insertSection (s.requests bit))

omit [Fintype ι] [Fintype κ] in
theorem deliver_eq {sections : List ℕ} {bitsets : List Bytes} {fetcher : Option ι}
    (hsplit : splitDelivery sections bitsets = .ok d) (hsch : s.schedulers bit = some sch)
    (hdeliver : sch.deliver d.sections d.bitsets = .ok sch') :
    (s.released r again).deliver bit sections bitsets fetcher = .ok
      (if d.missing ≠ [] ∧ s.requests bit = [] then
        (s.delivering r again bit sch' d.missing).assign bit fetcher
      else s.delivering r again bit sch' d.missing) := by
  have hsch' : (s.released r again).schedulers bit = some sch := hsch
  simp only [Session.deliver, hsplit, hsch', hdeliver]
  by_cases hnone : d.missing = []
  · have hsame : s.delivering r again bit sch' [] =
        { (s.released r again).setScheduler bit sch' with allocs := s.allocs - 1 } := by
      have hupdate : update s.requests bit (s.requests bit) = s.requests :=
        update_eq_self _ _
      simp only [delivering, setRequests, foldl_nil, released, setScheduler, setRetriever,
        hupdate]
    rw [hnone, if_neg (by simp), if_neg (by simp), hsame]
    rfl
  · have hlen : (d.missing.foldl insertSection (s.requests bit)).length = d.missing.length ↔
        s.requests bit = [] := by
      rw [foldl_insertSection_length, ← length_eq_zero_iff]
      omega
    rw [if_pos (length_pos_iff.mpr hnone)]
    show Except.ok (if (d.missing.foldl insertSection (s.requests bit)).length = d.missing.length
      then (s.delivering r again bit sch' d.missing).assign bit fetcher
      else s.delivering r again bit sch' d.missing) = _
    simp only [hlen, hnone, ne_eq, not_false_eq_true, true_and]

omit [DecidableEq ι] in
theorem Inv.fetching (h : s.Inv) (hr : s.retriever r = .fetching bit allocated) (sec : ℕ) :
    allocated.count sec ≤ s.fetched ⟨sec, bit⟩ ∧ s.fetched ⟨sec, bit⟩ ≤ s.pending ⟨sec, bit⟩ := by
  have hle := le_tally (fetches ⟨sec, bit⟩) s.retriever r
  have hcount : (s.retriever r).fetches ⟨sec, bit⟩ = allocated.count sec := by
    rw [hr]
    exact if_pos rfl
  have hplaced := h.ledger.placed ⟨sec, bit⟩
  rw [hcount] at hle
  refine ⟨hle, ?_⟩
  omega

omit [Fintype ι] [Fintype κ] [DecidableEq ι] in
theorem response_of_pending {req : Request} (h : 0 < s.pending req) :
    ∃ sch res, s.schedulers req.bit = some sch ∧ sch.responses req.sec = some res ∧
      res.cached = none := by
  rw [pending] at h
  split_ifs at h with hany
  · rw [Option.any_eq_true] at hany
    obtain ⟨res, hres, hcached⟩ := hany
    rw [response, bind_eq_some_iff] at hres
    obtain ⟨sch, hsch, hsec⟩ := hres
    exact ⟨sch, res, hsch, hsec, isNone_iff_eq_none.mp hcached⟩
  · omega

omit [Fintype ι] [Fintype κ] [DecidableEq ι] in
theorem response_setScheduler (s : Session ι κ) (bit : ℕ) (sch : Scheduler) (b sec : ℕ) :
    (s.setScheduler bit sch).response b sec =
      if b = bit then sch.responses sec else s.response b sec := by
  have hschedulers : (s.setScheduler bit sch).schedulers b =
      if b = bit then some sch else s.schedulers b := update_apply _ _ _ _
  rw [response, hschedulers]
  split_ifs <;> rfl

omit [Fintype ι] [Fintype κ] [DecidableEq ι] in
theorem pending_le_one (req : Request) : s.pending req ≤ 1 := by
  rw [pending]
  split_ifs <;> omega

section Parts
variable (hr : s.retriever r = .fetching bit allocated)
  (hperm : (d.sections ++ d.missing).Perm allocated) (hsch : s.schedulers bit = some sch)

omit [DecidableEq ι] in
include hr hperm in
theorem Inv.delivered_counts (h : s.Inv) (sec : ℕ) :
    d.sections.count sec + d.missing.count sec = allocated.count sec ∧
      allocated.count sec ≤ s.fetched ⟨sec, bit⟩ ∧ s.fetched ⟨sec, bit⟩ ≤ s.pending ⟨sec, bit⟩ := by
  refine ⟨?_, h.fetching hr sec⟩
  rw [← count_append, hperm.count_eq]

omit [DecidableEq ι] in
include hr hperm hsch in
theorem Inv.delivered_waiting (h : s.Inv) :
    d.sections.Nodup ∧ ∀ sec ∈ d.sections, sch.responses sec = some ⟨none, false⟩ := by
  constructor
  · rw [nodup_iff_count_le_one]
    intro sec
    have hcounts := h.delivered_counts hr hperm sec
    have hone := pending_le_one (s := s) ⟨sec, bit⟩
    omega
  · intro sec hsec
    have hcounts := h.delivered_counts hr hperm sec
    have hpos : 0 < d.sections.count sec := count_pos_iff.mpr hsec
    have hpending : 0 < s.pending ⟨sec, bit⟩ := by omega
    obtain ⟨sch₀, res, hsch₀, hres, hcached⟩ := response_of_pending hpending
    have hsame : sch = sch₀ := some.inj (hsch.symm.trans hsch₀)
    subst hsame
    have hclosed := h.kept.closed bit sec res (by rw [response, hsch]; exact hres)
    rw [hcached] at hclosed
    obtain ⟨cached, closed⟩ := res
    subst hcached hclosed
    exact hres

variable (hset : ∀ sec, (sec ∈ d.sections → ∃ x, sch'.responses sec = some ⟨some x, true⟩) ∧
  (sec ∉ d.sections → sch'.responses sec = sch.responses sec))

omit [Fintype ι] [Fintype κ] in
include hsch hset in
theorem delivering_response (r : ι) (again : Bool) (b sec : ℕ) :
    ((s.delivering r again bit sch' d.missing).response b sec = s.response b sec ∧
      ¬ (b = bit ∧ sec ∈ d.sections)) ∨ ((b = bit ∧ sec ∈ d.sections) ∧
      ∃ x, (s.delivering r again bit sch' d.missing).response b sec = some ⟨some x, true⟩) := by
  have hresponse : (s.delivering r again bit sch' d.missing).response b sec =
      if b = bit then sch'.responses sec else s.response b sec :=
    response_setScheduler (s.released r again) bit sch' b sec
  rw [hresponse]
  by_cases hb : b = bit
  · rw [if_pos hb]
    by_cases hsec : sec ∈ d.sections
    · exact .inr ⟨⟨hb, hsec⟩, (hset sec).1 hsec⟩
    · refine .inl ⟨?_, fun hboth => hsec hboth.2⟩
      rw [(hset sec).2 hsec, hb, response, hsch]
      rfl
  · rw [if_neg hb]
    exact .inl ⟨rfl, fun hboth => hb hboth.1⟩

omit [Fintype ι] [Fintype κ] in
include hsch hset in
theorem delivering_pending (r : ι) (again : Bool) (req : Request) :
    (s.delivering r again bit sch' d.missing).pending req =
      if req.bit = bit ∧ req.sec ∈ d.sections then 0 else s.pending req := by
  rcases delivering_response hsch hset r again req.bit req.sec with ⟨hres, hnot⟩ | ⟨hsec, x, hres⟩
  · rw [if_neg hnot, pending, pending, hres]
  · rw [if_pos hsec, pending, hres]
    rfl

include hr hperm hsch hset

theorem Inv.delivering_ledger (h : s.Inv) : (s.delivering r again bit sch' d.missing).Ledger := by
  refine ⟨fun req => ?_, fun req => ?_, fun req => (h.ledger.asked_le req).trans ?_⟩
  · have hplaced := h.ledger.placed req
    have hqueued : (s.delivering r again bit sch' d.missing).queued req = if req.bit = bit then
        (d.missing.foldl insertSection (s.requests bit)).count req.sec else s.queued req :=
      queued_setRequests _ bit _ req
    have hfetched : (s.delivering r again bit sch' d.missing).fetched req +
        (if bit = req.bit then allocated.count req.sec else 0) = s.fetched req +
          (if again then waiting else .idle).fetches req :=
      tally_retriever hr _ (fetches req)
    have hnow : (if again then waiting else .idle).fetches req = 0 := by
      cases again <;> rfl
    show s.sending req + s.dist.count req + (s.delivering r again bit sch' d.missing).queued req +
      (s.delivering r again bit sch' d.missing).fetched req = _
    rw [delivering_pending hsch hset]
    by_cases hbit : req.bit = bit
    · subst hbit
      have hcounts : d.sections.count req.sec + d.missing.count req.sec =
          allocated.count req.sec ∧ allocated.count req.sec ≤ s.fetched req ∧
          s.fetched req ≤ s.pending req := h.delivered_counts hr hperm req.sec
      have hone := pending_le_one (s := s) req
      rw [if_pos rfl, foldl_insertSection_count, ← queued] at hqueued
      rw [if_pos rfl] at hfetched
      by_cases hsec : req.sec ∈ d.sections
      · have hpos : 0 < d.sections.count req.sec := count_pos_iff.mpr hsec
        rw [if_pos ⟨rfl, hsec⟩]
        omega
      · have hzero : d.sections.count req.sec = 0 := count_eq_zero.mpr hsec
        rw [if_neg fun hboth => hsec hboth.2]
        omega
    · rw [if_neg hbit] at hqueued
      rw [if_neg (Ne.symm hbit)] at hfetched
      rw [if_neg fun hboth => hbit hboth.1]
      omega
  · refine le_trans ?_ (h.ledger.pending_le req)
    rw [delivering_pending hsch hset]
    split_ifs <;> omega
  · rcases delivering_response hsch hset r again req.bit req.sec with ⟨hres, _⟩ | ⟨_, x, hres⟩
    · rw [known, known, hres]
    · rw [known, known, hres]
      simp only [isSome_some, if_true]
      split_ifs <;> omega

omit hr hperm in
theorem Inv.delivering_kept (h : s.Inv) : (s.delivering r again bit sch' d.missing).Kept := by
  have hschedulers : ∀ b, (s.schedulers b).isSome = true →
      ((s.delivering r again bit sch' d.missing).schedulers b).isSome = true := by
    intro b hb
    have hset : (s.delivering r again bit sch' d.missing).schedulers b =
        if b = bit then some sch' else s.schedulers b := update_apply _ _ _ _
    rw [hset]
    split_ifs
    · rfl
    · exact hb
  refine ⟨?_, ?_, fun k => hschedulers _ (h.kept.running k), ?_, ?_, h.kept.bounded⟩
  · exact setRequests_sorted h.kept (foldl_insertSection_sorted (h.kept.sorted bit))
  · intro b sec res hres
    rcases delivering_response hsch hset r again b sec with ⟨hold, _⟩ | ⟨_, x, hnew⟩
    · exact h.kept.closed b sec res (hold ▸ hres)
    · rw [hnew] at hres
      cases hres
      rfl
  · intro k sec hsec
    rcases delivering_response hsch hset r again (s.run k).bit sec with ⟨hold, _⟩ | ⟨_, x, hnew⟩
    · show ((s.delivering r again bit sch' d.missing).response (s.run k).bit sec).isSome = true
      rw [hold]
      exact h.kept.forwarded k sec hsec
    · show ((s.delivering r again bit sch' d.missing).response (s.run k).bit sec).isSome = true
      rw [hnew]
      rfl
  · intro r' b sections hfetch
    apply hschedulers
    have hretriever : (s.delivering r again bit sch' d.missing).retriever r' =
        if r' = r then if again then .waiting else .idle else s.retriever r' :=
      setRetriever_retriever s r _ r'
    rw [hretriever] at hfetch
    split_ifs at hfetch
    exact h.kept.served r' b sections hfetch

omit [Fintype κ] hperm hsch hset in
theorem Counted.delivering (h : s.Counted) : (s.delivering r again bit sch' d.missing).Counted := by
  have hsum : tally active (s.delivering r again bit sch' d.missing).retriever + 1 =
      tally active s.retriever + (if again then waiting else .idle).active :=
    tally_retriever hr _ _
  have hnow : (if again then waiting else .idle).active = 0 := by cases again <;> rfl
  refine ⟨h.listening, ?_⟩
  show s.allocs - 1 = _
  rw [h.allocs]
  omega

omit [Fintype κ] hperm hsch hset in
theorem delivering_owners (b : ℕ) :
    (s.delivering r again bit sch' d.missing).owners b = s.owners b := by
  have hsum : (s.delivering r again bit sch' d.missing).holders b + 0 =
      s.holders b + (if again then waiting else .idle).holds b :=
    tally_retriever hr _ (holds b)
  have hnow : (if again then waiting else .idle).holds b = 0 := by cases again <;> rfl
  show (if b ∈ s.unallocs then 1 else 0) + (s.delivering r again bit sch' d.missing).holders b = _
  rw [owners]
  omega

theorem Inv.delivering_nearly (h : s.Inv) :
    (s.delivering r again bit sch' d.missing).Nearly bit := by
  refine ⟨fun b hb => ?_, h.counted.delivering hr, h.delivering_ledger hr hperm hsch hset,
    h.delivering_kept hsch hset⟩
  have hrequests : (s.delivering r again bit sch' d.missing).requests b = s.requests b :=
    update_of_ne hb _ _
  rw [delivering_owners hr, hrequests]
  exact h.owned b

end Parts

theorem Inv.deliver (h : s.Inv) {sections : List ℕ} {bitsets : List Bytes} {fetcher : Option ι}
    (hr : s.retriever r = .fetching bit allocated) (hsections : sections.Perm allocated)
    (hlen : bitsets.length = sections.length) (hf : (s.released r again).Finds fetcher) :
    ∃ s', (s.released r again).deliver bit sections bitsets fetcher = .ok s' ∧ s'.Inv := by
  obtain ⟨sch, hsch⟩ := isSome_iff_exists.mp (h.kept.served r bit allocated hr)
  obtain ⟨d, hsplit, hbitsets, hperm⟩ := splitDelivery_spec hlen
  replace hperm := hperm.trans hsections
  obtain ⟨hnodup, hwaiting⟩ := h.delivered_waiting hr hperm hsch
  obtain ⟨sch', hdeliver, hset⟩ := deliver_spec hbitsets hnodup hwaiting
  have hnearly : (s.delivering r again bit sch' d.missing).Nearly bit :=
    h.delivering_nearly hr hperm hsch hset
  have howned := h.owned bit
  have howners : (s.delivering r again bit sch' d.missing).owners bit = s.owners bit :=
    delivering_owners hr bit
  have hqueue : (s.delivering r again bit sch' d.missing).requests bit =
      d.missing.foldl insertSection (s.requests bit) := update_self _ _ _
  have hempty : (s.delivering r again bit sch' d.missing).requests bit = [] ↔
      s.requests bit = [] ∧ d.missing = [] := by
    rw [hqueue, ← length_eq_zero_iff, foldl_insertSection_length, ← length_eq_zero_iff,
      ← length_eq_zero_iff]
    omega
  refine ⟨_, deliver_eq hsplit hsch hdeliver, ?_⟩
  by_cases hassign : d.missing ≠ [] ∧ s.requests bit = []
  · rw [if_pos hassign]
    rw [if_pos hassign.2, ← howners] at howned
    exact hnearly.assign hf howned fun hnil => hassign.1 (hempty.mp hnil).2
  · rw [if_neg hassign]
    apply hnearly.inv
    have hiff : s.requests bit = [] ↔ (s.delivering r again bit sch' d.missing).requests bit = [] := by
      rw [hempty]
      constructor
      · intro hnil
        by_cases hnone : d.missing = []
        · exact ⟨hnil, hnone⟩
        · exact absurd ⟨hnone, hnil⟩ hassign
      · exact fun hboth => hboth.1
    simp only [howners, howned, hiff]

end Delivering

end Served

end Session

end Fiscobcos.Bloombits
