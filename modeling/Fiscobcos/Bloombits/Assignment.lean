import Fiscobcos.Bloombits.Scheduling

/-! # No retrieval is lost or duplicated

Every step of the session keeps the invariant of `Ledger`: no step panics, and every request that
reached the distributor is queued, with one retriever, or delivered. -/

namespace Fiscobcos.Bloombits
open Function List Option Retriever Scheduler SchedulerRun

open Numerals Tally

variable {ι κ : Type}

namespace Session

variable [Fintype ι] [Fintype κ] {s : Session ι κ}

/-! ## Runs -/

section Runs
variable [DecidableEq ι] [DecidableEq κ]

omit [Fintype ι] [Fintype κ] [DecidableEq ι] [DecidableEq κ] in
theorem start_response {schedulers : ℕ → Option Scheduler} {bits : κ → ℕ}
    (hvalid : ∀ bit sch, schedulers bit = some sch → sch.Valid) {bit sec : ℕ} {res : Response}
    (h : (Session.start ι schedulers bits).response bit sec = some res) :
    res.cached.isSome = true ∧ res.closed = res.cached.isSome := by
  obtain ⟨sch', hsch', hres⟩ := bind_eq_some_iff.mp h
  obtain ⟨sch, hsch, heq⟩ := map_eq_some_iff.mp hsch'
  subst heq
  obtain ⟨hold, hcached⟩ := filter_eq_some_iff.mp hres
  exact ⟨hcached, hvalid bit sch hsch sec res hold⟩

omit [DecidableEq ι] [DecidableEq κ] in
theorem Inv.start {schedulers : ℕ → Option Scheduler} {bits : κ → ℕ}
    (hvalid : ∀ bit sch, schedulers bit = some sch → sch.Valid)
    (hbits : ∀ k, (schedulers (bits k)).isSome) : (Session.start ι schedulers bits).Inv := by
  have hnone : ∀ f : Retriever → ℕ, f .idle = 0 →
      tally f (Session.start ι schedulers bits).retriever = 0 :=
    fun f hf => tally_eq_zero.mpr fun _ => hf
  have hsending : ∀ req, (Session.start ι schedulers bits).sending req = 0 :=
    fun req => tally_eq_zero.mpr fun k => by simp [Session.start, sends]
  have hpending : ∀ req, (Session.start ι schedulers bits).pending req = 0 := by
    intro req
    rw [pending, if_neg]
    intro hany
    obtain ⟨res, hres, hcached⟩ := any_eq_true _ _ |>.mp hany
    have hsome := (start_response hvalid hres).1
    rw [isNone_iff_eq_none] at hcached
    rw [hcached] at hsome
    cases hsome
  refine ⟨fun bit => ?_, ⟨?_, ?_⟩, ⟨fun req => ?_, fun req => ?_, fun req => ?_⟩, ⟨fun bit => ?_,
    fun bit sec res hres => (start_response hvalid hres).2, fun k => ?_, fun k sec hsec => ?_,
    fun r bit sections hr => ?_, fun req hreq => ?_⟩⟩
  · have hholders : (Session.start ι schedulers bits).holders bit = 0 := hnone _ rfl
    rw [owners, hholders]
    simp [Session.start]
  · simp [Session.start]
  · rw [hnone _ rfl]
    rfl
  · have hfetched : (Session.start ι schedulers bits).fetched req = 0 := hnone _ rfl
    rw [hsending, hpending, hfetched]
    rfl
  · rw [hpending]
    exact Nat.zero_le _
  · rw [asked, hsending]
    exact Nat.zero_le _
  · exact Pairwise.nil
  · have hk := hbits k
    rw [← isSome_map (f := reset)] at hk
    exact hk
  · rcases hsec with hsec | hsec
    · cases hsec
    · cases hsec
  · cases hr
  · rw [asked, hsending] at hreq
    cases hreq

def Below (_ : Session ι κ) : Act ι κ → Prop
  | .read _ sec => sec < maxUint64
  | _ => True

theorem Inv.step (h : s.Inv) {a : Act ι κ} {res : Except Panic (Session ι κ)} (hbelow : Below s a)
    (hstep : Step s a res) : ∃ s', res = .ok s' ∧ s'.Inv := by
  cases hstep with
  | read hk hle => exact h.read hk hbelow
  | send hk => exact ⟨_, rfl, h.send hk⟩
  | notify hk => exact ⟨_, rfl, h.notify hk⟩
  | collect hk hclosed => exact h.collect hk
  | receive hdist hf => exact ⟨_, rfl, h.receive hdist hf⟩
  | wait hr => exact ⟨_, rfl, h.wait hr⟩
  | retrieve hlisten hr hnodup horder => exact h.retrieve hlisten hr horder
  | pending hr => exact ⟨_, rfl, h⟩
  | allocate hr hf => exact ⟨_, rfl, h.allocate hr hf⟩
  | deliver hr hperm hlen hf => exact h.deliver hr hperm hlen hf

theorem Inv.reach {s₀ : Session ι κ} (h₀ : s₀.Inv) (h : SessionReach Below s₀ s) : s.Inv := by
  apply Steps.Reach.invariant h h₀
  intro s a s' hs hbelow hstep
  obtain ⟨s₁, heq, hs₁⟩ := hs.step hbelow hstep
  cases heq
  exact hs₁

end Runs

/-! ## What the distributor guarantees -/

section Exact

def Fetches (s : Session ι κ) (r : ι) (req : Request) : Prop :=
  ∃ sections, s.retriever r = .fetching req.bit sections ∧ req.sec ∈ sections

def Delivered (s : Session ι κ) (req : Request) : Prop :=
  ∃ res, s.response req.bit req.sec = some res ∧ res.cached.isSome

def Placed (s : Session ι κ) (req : Request) : Prop :=
  (req.sec ∈ s.requests req.bit ∧ (∀ r, ¬ s.Fetches r req) ∧ ¬ s.Delivered req) ∨
  (req.sec ∉ s.requests req.bit ∧ (∃! r, s.Fetches r req) ∧ ¬ s.Delivered req) ∨
  (req.sec ∉ s.requests req.bit ∧ (∀ r, ¬ s.Fetches r req) ∧ s.Delivered req)

structure Exact [DecidableEq ι] [DecidableEq κ] (s : Session ι κ) : Prop where
  queued_iff : ∀ bit, s.requests bit ≠ [] ↔
    bit ∈ s.unallocs ∨ ∃! r, s.retriever r = .holding bit
  one_owner : ∀ bit r, s.retriever r = .holding bit →
    bit ∉ s.unallocs ∧ ∀ r', s.retriever r' = .holding bit → r' = r
  distinct : s.arrived.Nodup
  placed : ∀ req ∈ s.arrived, s.Placed req
  requested : ∀ req, (req.sec ∈ s.requests req.bit ∨ ∃ r, s.Fetches r req) → req ∈ s.arrived
  sorted : ∀ bit, (s.requests bit).Pairwise (· < ·)
  allocs : s.allocs = (Finset.univ.filter fun r => (s.retriever r).busy).card
  nonempty : ∀ idx ∈ s.unallocs, s.requests idx ≠ []
  no_panic : ∀ a p, ¬ Step s a (.error p)

omit [Fintype ι] [Fintype κ] in
theorem fetches_pos {r : ι} {req : Request} :
    0 < (s.retriever r).fetches req ↔ s.Fetches r req := by
  rw [Fetches]
  cases hr : s.retriever r with
  | idle | waiting | holding b => simp [fetches]
  | fetching b sections =>
    simp only [fetches, fetching.injEq]
    constructor
    · intro hpos
      split_ifs at hpos with hb
      · exact ⟨sections, ⟨hb, rfl⟩, count_pos_iff.mp hpos⟩
      · omega
    · intro hex
      obtain ⟨_, ⟨hb, hsame⟩, hmem⟩ := hex
      subst hsame
      rw [if_pos hb]
      exact count_pos_iff.mpr hmem

omit [Fintype ι] [Fintype κ] in
theorem holds_pos {r : ι} {bit : ℕ} :
    0 < (s.retriever r).holds bit ↔ s.retriever r = .holding bit := by
  cases hr : s.retriever r with
  | idle | waiting | fetching b sections => simp [holds]
  | holding b =>
    simp only [holds, holding.injEq]
    split_ifs with hb <;> simp [hb]

theorem Inv.queued_iff (h : s.Inv) (bit : ℕ) : s.requests bit ≠ [] ↔
    bit ∈ s.unallocs ∨ ∃! r, s.retriever r = .holding bit := by
  constructor
  · intro hne
    have howned := h.owned bit
    rw [if_neg hne, owners] at howned
    by_cases hmem : bit ∈ s.unallocs
    · exact .inl hmem
    · rw [if_neg hmem, Nat.zero_add] at howned
      have hpos : 0 < tally (holds bit) s.retriever := by
        rw [← holders]
        omega
      obtain ⟨r, hr⟩ := exists_of_tally_pos hpos
      refine .inr ⟨r, holds_pos.mp hr, fun r' hr' => ?_⟩
      exact unique_of_tally_le_one (le_of_eq howned) (holds_pos.mpr hr') hr
  · intro howner
    have hpos : 0 < s.owners bit := by
      rcases howner with hmem | ⟨r, hr, _⟩
      · rw [owners, if_pos hmem]
        omega
      · have hle := le_tally (holds bit) s.retriever r
        have hr' := holds_pos.mpr hr
        rw [owners, holders]
        omega
    exact (h.requests_of_owner hpos).1

theorem Inv.one_owner (h : s.Inv) {bit : ℕ} {r : ι} (hr : s.retriever r = .holding bit) :
    bit ∉ s.unallocs ∧ ∀ r', s.retriever r' = .holding bit → r' = r := by
  have hle := le_tally (holds bit) s.retriever r
  have hpos := holds_pos.mpr hr
  have howners : 0 < s.owners bit := by
    rw [owners, holders]
    omega
  have hone := (h.requests_of_owner howners).2
  rw [owners, holders] at hone
  constructor
  · intro hmem
    rw [if_pos hmem] at hone
    omega
  · intro r' hr'
    exact unique_of_tally_le_one (by omega) (holds_pos.mpr hr') hpos

theorem Inv.placed (h : s.Inv) {req : Request} (hreq : req ∈ s.arrived) : s.Placed req := by
  have hcount : 0 < s.arrived.count req := count_pos_iff.mpr hreq
  have hasked : 0 < s.asked req := by
    rw [asked]
    omega
  obtain ⟨res, hres⟩ := isSome_iff_exists.mp (h.response_isSome hasked)
  have hle := h.ledger.asked_le req
  have hknown : s.known req = 1 := by
    rw [known, hres]
    rfl
  have hplaced := h.ledger.placed req
  rw [hknown, asked] at hle
  -- it has left the scheduler
  have hsum : s.queued req + s.fetched req = s.pending req := by omega
  have hone := pending_le_one (s := s) req
  have hqueued : 0 < s.queued req ↔ req.sec ∈ s.requests req.bit := count_pos_iff
  have hnobody : s.fetched req = 0 → ∀ r, ¬ s.Fetches r req := by
    intro hzero r hr
    have hr' := tally_eq_zero.mp hzero r
    have hpos := fetches_pos.mpr hr
    omega
  have hdelivered : s.Delivered req ↔ s.pending req = 0 := by
    rw [Delivered, hres, pending, hres]
    cases hcached : res.cached <;> simp [hcached]
  by_cases hpending : s.pending req = 0
  · right; right
    refine ⟨fun hmem => ?_, hnobody (by omega), hdelivered.mpr hpending⟩
    have hpos := hqueued.mpr hmem
    omega
  · have hnot : ¬ s.Delivered req := fun hd => hpending (hdelivered.mp hd)
    by_cases hin : req.sec ∈ s.requests req.bit
    · have hpos := hqueued.mpr hin
      exact .inl ⟨hin, hnobody (by omega), hnot⟩
    · right; left
      have hzero : ¬ 0 < s.queued req := fun hpos => hin (hqueued.mp hpos)
      have hfetched : s.fetched req = 1 := by omega
      obtain ⟨r, hr⟩ := exists_of_tally_pos (show 0 < tally (fetches req) s.retriever by
        rw [← fetched]
        omega)
      refine ⟨hin, ⟨r, fetches_pos.mp hr, fun r' hr' => ?_⟩, hnot⟩
      exact unique_of_tally_le_one (le_of_eq hfetched) (fetches_pos.mpr hr') hr

theorem Inv.requested (h : s.Inv) {req : Request}
    (hreq : req.sec ∈ s.requests req.bit ∨ ∃ r, s.Fetches r req) : req ∈ s.arrived := by
  have hpos : 0 < s.queued req + s.fetched req := by
    rcases hreq with hmem | ⟨r, hr⟩
    · have hq : 0 < s.queued req := count_pos_iff.mpr hmem
      omega
    · have hle := le_tally (fetches req) s.retriever r
      have hr' := fetches_pos.mpr hr
      rw [fetched]
      omega
  have hplaced := h.ledger.placed req
  have hle := h.ledger.pending_le req
  have hone := pending_le_one (s := s) req
  rw [asked] at hle
  exact count_pos_iff.mp (by omega)

theorem Inv.sorted_lt (h : s.Inv) (bit : ℕ) : (s.requests bit).Pairwise (· < ·) := by
  have hnodup : (s.requests bit).Nodup := by
    rw [nodup_iff_count_le_one]
    intro sec
    have hplaced := h.ledger.placed ⟨sec, bit⟩
    have hone := pending_le_one (s := s) ⟨sec, bit⟩
    have hqueued : s.queued ⟨sec, bit⟩ = (s.requests bit).count sec := rfl
    omega
  exact (h.kept.sorted bit).imp₂ (fun a b hle hne => lt_of_le_of_ne hle hne) hnodup

theorem Inv.arrived_nodup (h : s.Inv) : s.arrived.Nodup := by
  rw [nodup_iff_count_le_one]
  intro req
  have hle := h.ledger.asked_le req
  rw [known, asked] at hle
  split_ifs at hle <;> omega

variable [DecidableEq ι] [DecidableEq κ]

theorem Inv.no_panic (h : s.Inv) (a : Act ι κ) (p : Panic) : ¬ Step s a (.error p) := by
  intro hstep
  have hok : ∃ s', (.error p : Except Panic (Session ι κ)) = .ok s' := by
    generalize hres : (Except.error p : Except Panic (Session ι κ)) = res at hstep
    by_cases hbelow : Below s a
    · obtain ⟨s', heq, _⟩ := h.step hbelow hstep
      exact ⟨s', heq⟩
    · cases hstep with
      | @read k sec hk hle =>
        obtain ⟨sch, hsch⟩ := isSome_iff_exists.mp (h.kept.running k)
        simp only [Session.read, hsch]
        exact ⟨_, rfl⟩
      | _ => exact absurd trivial hbelow
  obtain ⟨s', heq⟩ := hok
  cases heq

theorem Inv.exact (h : s.Inv) : s.Exact where
  queued_iff := h.queued_iff
  one_owner := fun _ _ hr => h.one_owner hr
  distinct := h.arrived_nodup
  placed := fun _ hreq => h.placed hreq
  requested := fun _ hreq => h.requested hreq
  sorted := h.sorted_lt
  allocs := by
    have hcard : tally (fun x : Retriever => if x.busy = true then 1 else 0) s.retriever =
        (Finset.univ.filter fun r => (s.retriever r).busy = true).card :=
      tally_indicator s.retriever
    rw [h.counted.allocs, ← hcard]
    rfl
  nonempty := fun idx hidx => (h.queued_iff idx).mpr (.inl hidx)
  no_panic := h.no_panic

omit [Fintype ι] [Fintype κ] [DecidableEq ι] [DecidableEq κ] in
theorem exists_finds (s : Session ι κ) : ∃ fetcher, s.Finds fetcher := by
  by_cases hwaiting : ∃ r, s.retriever r = .waiting
  · obtain ⟨r, hr⟩ := hwaiting
    exact ⟨some r, hr⟩
  · exact ⟨none, fun r hr => hwaiting ⟨r, hr⟩⟩

theorem Inv.progress (h : s.Inv) {req : Request} (hreq : req ∈ s.arrived)
    (hnot : ¬ s.Delivered req) (r : ι) : ∃ a s', a.OfRetriever ∧ Step s a (.ok s') := by
  by_cases hbusy : ∃ r, (s.retriever r).busy = true
  · obtain ⟨r, hr⟩ := hbusy
    cases hstate : s.retriever r with
    | idle | waiting => simp [hstate, busy] at hr
    | holding bit =>
      obtain ⟨fetcher, hf⟩ := exists_finds s
      exact ⟨.allocate r 0 fetcher, _, trivial, .allocate hstate hf⟩
    | fetching bit sections =>
      obtain ⟨fetcher, hf⟩ := exists_finds (s.released r false)
      have hlen : (replicate sections.length ([] : Bytes)).length = sections.length :=
        length_replicate
      obtain ⟨s', heq, _⟩ := h.deliver hstate (.refl _) hlen hf
      have hstep := Step.deliver hstate (.refl _) hlen hf
      rw [heq] at hstep
      exact ⟨.deliver r sections _ false fetcher, s', trivial, hstep⟩
  · -- nobody has it, so it is queued and its bit is offered
    have hidle : ∀ r, (s.retriever r).busy = false := by
      intro r
      rw [← Bool.not_eq_true]
      exact fun hr => hbusy ⟨r, hr⟩
    have hqueued : s.requests req.bit ≠ [] := by
      rcases h.placed hreq with ⟨hmem, _⟩ | ⟨_, ⟨r, ⟨sections, hr, _⟩, _⟩, _⟩ | ⟨_, _, hd⟩
      · exact ne_nil_of_mem hmem
      · have hr' := hidle r
        rw [hr] at hr'
        cases hr'
      · exact absurd hd hnot
    have hlisten : s.listening = true := by
      rcases (h.queued_iff req.bit).mp hqueued with hmem | ⟨r, hr, _⟩
      · exact h.counted.listening.mpr ⟨_, hmem⟩
      · have hr' := hidle r
        rw [hr] at hr'
        cases hr'
    have hr := hidle r
    cases hstate : s.retriever r with
    | idle => exact ⟨.wait r, _, trivial, .wait hstate⟩
    | waiting =>
      have horder : ∀ bit, bit ∈ s.unallocs.toList ↔ bit ∈ s.unallocs := fun bit =>
        Finset.mem_toList
      obtain ⟨s', heq, _⟩ := h.retrieve hlisten hstate horder
      have hstep := Step.retrieve hlisten hstate s.unallocs.nodup_toList horder
      rw [heq] at hstep
      exact ⟨.retrieve r, s', trivial, hstep⟩
    | holding bit | fetching bit sections => simp [hstate, busy] at hr

/-- In a run that asks for no section `2^64 - 1` every state is exact, from whatever schedulers
the run starts. -/
theorem distributor_exact {schedulers : ℕ → Option Scheduler} {bits : κ → ℕ}
    (hvalid : ∀ bit sch, schedulers bit = some sch → sch.Valid)
    (hbits : ∀ k, (schedulers (bits k)).isSome)
    (h : SessionReach Below (Session.start ι schedulers bits) s) : s.Exact :=
  ((Inv.start hvalid hbits).reach h).exact

/-- While a request is out, some retriever can go on: the distributor does not come to a stop. -/
theorem distributor_progress {schedulers : ℕ → Option Scheduler} {bits : κ → ℕ}
    (hvalid : ∀ bit sch, schedulers bit = some sch → sch.Valid)
    (hbits : ∀ k, (schedulers (bits k)).isSome)
    (h : SessionReach Below (Session.start ι schedulers bits) s) {req : Request}
    (hreq : req ∈ s.arrived) (hnot : ¬ s.Delivered req) (r : ι) :
    ∃ a s', a.OfRetriever ∧ Step s a (.ok s') :=
  ((Inv.start hvalid hbits).reach h).progress hreq hnot r

end Exact

/-! ## The section `2^64 - 1` -/

def lone : Session Unit Unit :=
  Session.start Unit (fun bit => if bit = 5 then some newScheduler else none) fun _ => 5

def loneWaiting (sec : ℕ) : Session Unit Unit :=
  (((lone.reading () sec newScheduler).send () sec).receive ⟨sec, 5⟩ [] none).setRetriever ()
    .waiting

theorem loneWaiting_reach {ok : Session Unit Unit → Act Unit Unit → Prop} {sec : ℕ}
    (hsec : sec ≤ maxUint64) (hread : ∀ s, ok s (.read () sec))
    (hother : ∀ s a, (∀ k x, a ≠ .read k x) → ok s a) : SessionReach ok lone (loneWaiting sec) := by
  have hasked : SessionReach ok lone (lone.reading () sec newScheduler) :=
    Steps.Reach.tail (Steps.Reach.refl _) (Step.read rfl hsec) (hread _)
  have hsent : SessionReach ok lone ((lone.reading () sec newScheduler).send () sec) :=
    Steps.Reach.tail hasked (Step.send rfl) (hother _ _ (fun _ _ h => by cases h))
  have hnobody : ((lone.reading () sec newScheduler).send () sec).Finds none := by
    intro r hr
    cases hr
  have hqueued : SessionReach ok lone
      (((lone.reading () sec newScheduler).send () sec).receive ⟨sec, 5⟩ [] none) :=
    Steps.Reach.tail hsent (Step.receive rfl hnobody) (hother _ _ (fun _ _ h => by cases h))
  exact Steps.Reach.tail hqueued (Step.wait rfl) (hother _ _ (fun _ _ h => by cases h))

theorem lone_below {sec : ℕ} (hsec : sec < maxUint64) :
    SessionReach Below lone (loneWaiting sec) := by
  refine loneWaiting_reach hsec.le (fun _ => hsec) fun _ a ha => ?_
  cases a with
  | read k x => exact absurd rfl (ha k x)
  | _ => trivial

/-- The section comes back without data, is assigned again and delivered. -/
theorem distributor_exact_lone :
    ∃ s, SessionReach Below lone s ∧ s.Delivered ⟨3, 5⟩ ∧ s.retriever () = .idle ∧ s.Exact := by
  have horder : ∀ bit, bit ∈ [5] ↔ bit ∈ insert 5 (∅ : Finset ℕ) := by simp
  have hallocate : ∀ {s : Session Unit Unit}, s.retriever () = .holding 5 →
      Step s (.allocate () 1 none) (.ok (s.allocate () 5 1 none)) := by
    intro s hr
    exact .allocate hr fun _ h => by rw [hr] at h; cases h
  have hdeliver : ∀ {s : Session Unit Unit} (bitset : Bytes), s.retriever () = .fetching 5 [3] →
      Step s (.deliver () [3] [bitset] false none)
        ((s.released () false).deliver 5 [3] [bitset] none) := by
    intro s bitset hr
    exact .deliver hr (.refl _) rfl nofun
  have h := lone_below (by decide : 3 < maxUint64)
  have h := h.tail (.retrieve (r := ()) rfl rfl (nodup_singleton 5) horder) trivial
  have h := h.tail (hallocate rfl) trivial
  have h := h.tail (hdeliver [] rfl) trivial
  have h := h.tail (.wait (r := ()) rfl) trivial
  have h := h.tail (.retrieve (r := ()) rfl rfl (nodup_singleton 5) horder) trivial
  have h := h.tail (hallocate rfl) trivial
  have h := h.tail (hdeliver [255] rfl) trivial
  refine ⟨_, h, ⟨⟨some [255], true⟩, rfl, rfl⟩, rfl, distributor_exact ?_ (fun _ => rfl) h⟩
  intro bit sch hsch sec res hres
  split_ifs at hsch
  cases hsch
  cases hres

theorem distributor_progress_lone : ∃ a s', Act.OfRetriever a ∧ Step (loneWaiting 3) a (.ok s') := by
  refine distributor_progress (fun bit sch hsch sec res hres => ?_) (fun _ => rfl)
    (lone_below (by decide)) (show (⟨3, 5⟩ : Request) ∈ _ by decide) ?_ ()
  · split_ifs at hsch
    cases hsch
    cases hres
  · rintro ⟨res, hres, hsome⟩
    cases hres
    cases hsome

/-- A retriever that comes for the section `2^64 - 1` is given the bit 0. -/
theorem last_section_misassigned : ∃ s : Session Unit Unit, SessionReach (fun _ _ => True) lone s ∧
      s.retriever () = .holding 0 ∧ s.requests 0 = [] ∧ 5 ∈ s.unallocs ∧ ¬ s.Exact := by
  have hreach : SessionReach (fun _ _ => True) lone (loneWaiting maxUint64) :=
    loneWaiting_reach le_rfl (fun _ => trivial) fun _ _ _ => trivial
  have horder : ∀ bit, bit ∈ [5] ↔ bit ∈ (loneWaiting maxUint64).unallocs := by
    intro bit
    show bit ∈ [5] ↔ bit ∈ insert 5 (∅ : Finset ℕ)
    simp
  refine ⟨_, Steps.Reach.tail hreach
    (Step.retrieve (r := ()) rfl rfl (nodup_singleton 5) horder) trivial, rfl, rfl, ?_, ?_⟩
  · show 5 ∈ (insert 5 (∅ : Finset ℕ)).erase 0
    decide
  · intro hexact
    exact (hexact.queued_iff 0).mpr (.inr ⟨(), rfl, fun _ _ => rfl⟩) rfl

end Session

end Fiscobcos.Bloombits
