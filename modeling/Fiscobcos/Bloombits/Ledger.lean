import Fiscobcos.Lib.Tally
import Fiscobcos.Bloombits.Distributor

/-! # Counting retrievals

Who owns a bit with queued sections, and where a request is on its way to its response. -/

namespace Fiscobcos.Bloombits
open Function List Retriever

open Numerals SortedSearch Tally

theorem insertSection_perm (queue : List ℕ) (sec : ℕ) :
    (insertSection queue sec).Perm (sec :: queue) := insertAt_perm _ _ _

theorem insertSection_count (queue : List ℕ) (sec x : ℕ) :
    (insertSection queue sec).count x = queue.count x + if sec = x then 1 else 0 := by
  rw [(insertSection_perm queue sec).count_eq x, count_cons]
  simp only [beq_iff_eq]

theorem insertSection_sorted {queue : List ℕ} (h : queue.Pairwise (· ≤ ·)) (sec : ℕ) :
    (insertSection queue sec).Pairwise (· ≤ ·) := by
  have hp : ∀ q : ℕ, decide (sec ≤ q) = true ↔ sec ≤ id q := fun q => decide_eq_true_iff
  have hkey : queue.Pairwise fun a b => id a ≤ id b := h
  apply insertAt_sorted hkey
  · intro q hq
    exact le_of_lt (key_lt_of_take hkey hp rfl q hq)
  · intro q hq
    exact le_key_of_drop hkey hp rfl q hq

theorem insertSection_ne_nil (queue : List ℕ) (sec : ℕ) : insertSection queue sec ≠ [] :=
  append_ne_nil_of_right_ne_nil _ (cons_ne_nil _ _)

theorem foldl_insertSection_count (missing queue : List ℕ) (x : ℕ) :
    (missing.foldl insertSection queue).count x = queue.count x + missing.count x := by
  induction missing generalizing queue with
  | nil => simp
  | cons sec missing ih =>
    rw [foldl_cons, ih, insertSection_count, count_cons]
    simp only [beq_iff_eq]
    omega

theorem foldl_insertSection_length (missing queue : List ℕ) :
    (missing.foldl insertSection queue).length = queue.length + missing.length := by
  induction missing generalizing queue with
  | nil => simp
  | cons sec missing ih =>
    rw [foldl_cons, ih, (insertSection_perm queue sec).length_eq]
    simp only [length_cons]
    omega

theorem foldl_insertSection_sorted {missing queue : List ℕ} (h : queue.Pairwise (· ≤ ·)) :
    (missing.foldl insertSection queue).Pairwise (· ≤ ·) := by
  induction missing generalizing queue with
  | nil => exact h
  | cons sec missing ih => exact ih (insertSection_sorted h sec)

theorem lowest_mem {requests : ℕ → List ℕ} {order : List ℕ} {bit best : ℕ}
    (h : ∀ idx ∈ order, ∃ q rest, requests idx = q :: rest ∧ q < maxUint64)
    (hbest : best = maxUint64 ∧ order ≠ [] ∨ best < maxUint64) :
    ∃ low, lowest requests order bit best = .ok low ∧
      (low ∈ order ∨ low = bit ∧ best < maxUint64) := by
  induction order generalizing bit best with
  | nil =>
    rcases hbest with ⟨_, hne⟩ | hlt
    · exact absurd rfl hne
    · exact ⟨bit, rfl, .inr ⟨rfl, hlt⟩⟩
  | cons idx order ih =>
    obtain ⟨q, rest, hq, hlt⟩ := h idx mem_cons_self
    have hrest : ∀ idx ∈ order, ∃ q rest, requests idx = q :: rest ∧ q < maxUint64 :=
      fun idx hidx => h idx (mem_cons_of_mem _ hidx)
    simp only [lowest, hq]
    by_cases hbetter : q < best
    · rw [if_pos hbetter]
      obtain ⟨low, hlow, hmem⟩ := @ih idx q hrest (.inr hlt)
      refine ⟨low, hlow, .inl ?_⟩
      rcases hmem with hmem | ⟨rfl, _⟩
      · exact mem_cons_of_mem _ hmem
      · exact mem_cons_self
    · rw [if_neg hbetter]
      have hbelow : best < maxUint64 := by omega
      obtain ⟨low, hlow, hmem⟩ := @ih bit best hrest (.inr hbelow)
      refine ⟨low, hlow, ?_⟩
      rcases hmem with hmem | hbit
      · exact .inl (mem_cons_of_mem _ hmem)
      · exact .inr hbit

theorem splitDelivery_spec {sections : List ℕ} {bitsets : List Bytes}
    (h : bitsets.length = sections.length) :
    ∃ d, splitDelivery sections bitsets = .ok d ∧ d.bitsets.length = d.sections.length ∧
      (d.sections ++ d.missing).Perm sections := by
  induction sections generalizing bitsets with
  | nil =>
    rw [length_nil, length_eq_zero_iff] at h
    subst h
    exact ⟨⟨[], [], []⟩, rfl, rfl, .refl _⟩
  | cons sec sections ih =>
    cases bitsets with
    | nil => simp at h
    | cons bitset bitsets =>
      obtain ⟨d, hd, hlen, hperm⟩ := @ih bitsets (by simpa using h)
      simp only [splitDelivery, hd]
      by_cases hempty : bitset.length = 0
      · rw [if_pos hempty]
        exact ⟨_, rfl, hlen, perm_middle.trans (hperm.cons sec)⟩
      · rw [if_neg hempty]
        exact ⟨_, rfl, by simp [hlen], hperm.cons sec⟩

theorem Scheduler.setResponse_responses (sch : Scheduler) (sec : ℕ) (res : Response) (x : ℕ) :
    (sch.setResponse sec res).responses x = if x = sec then some res else sch.responses x :=
  update_apply _ _ _ _

theorem Scheduler.deliver_spec {sch : Scheduler} {sections : List ℕ} {data : List Bytes}
    (hlen : data.length = sections.length) (hnodup : sections.Nodup)
    (hwait : ∀ sec ∈ sections, sch.responses sec = some ⟨none, false⟩) :
    ∃ sch', sch.deliver sections data = .ok sch' ∧ ∀ sec,
      (sec ∈ sections → ∃ d, sch'.responses sec = some ⟨some d, true⟩) ∧
      (sec ∉ sections → sch'.responses sec = sch.responses sec) := by
  induction sections generalizing sch data with
  | nil => exact ⟨sch, rfl, fun sec => ⟨(fun h => by cases h), fun _ => rfl⟩⟩
  | cons sec sections ih =>
    cases data with
    | nil => simp at hlen
    | cons d data =>
      obtain ⟨hnot, hnodup⟩ := nodup_cons.mp hnodup
      have hone : sch.deliverOne sec d = .ok (sch.setResponse sec ⟨some d, true⟩) := by
        simp [Scheduler.deliverOne, hwait sec mem_cons_self]
      have hother : ∀ x, x ≠ sec →
          (sch.setResponse sec ⟨some d, true⟩).responses x = sch.responses x :=
        fun x hx => update_of_ne hx _ _
      have hrest : ∀ x ∈ sections,
          (sch.setResponse sec ⟨some d, true⟩).responses x = some ⟨none, false⟩ := by
        intro x hx
        have hne : x ≠ sec := fun h => hnot (h ▸ hx)
        rw [hother x hne]
        exact hwait x (mem_cons_of_mem _ hx)
      obtain ⟨sch', hdeliver, hsch'⟩ := @ih _ data (by simpa using hlen) hnodup hrest
      refine ⟨sch', ?_, fun x => ⟨fun hx => ?_, fun hx => ?_⟩⟩
      · simp only [Scheduler.deliver, hone, hdeliver]
      · by_cases hin : x ∈ sections
        · exact (hsch' x).1 hin
        · have heq : x = sec := (mem_cons.mp hx).resolve_right hin
          subst heq
          exact ⟨d, ((hsch' x).2 hin).trans (update_self _ _ _)⟩
      · rw [mem_cons, not_or] at hx
        rw [(hsch' x).2 hx.2, hother x hx.1]

def Retriever.holds (bit : ℕ) : Retriever → ℕ
  | .holding b => if b = bit then 1 else 0
  | _ => 0

def Retriever.fetches (req : Request) : Retriever → ℕ
  | .fetching bit sections => if bit = req.bit then sections.count req.sec else 0
  | _ => 0

theorem Retriever.fetches_eq_zero {x : Retriever} {req : Request}
    (h : ∀ bit sections, x ≠ .fetching bit sections) : x.fetches req = 0 := by
  cases x with
  | idle => rfl
  | waiting => rfl
  | holding b => rfl
  | fetching b sections => exact absurd rfl (h b sections)

def Retriever.busy : Retriever → Bool
  | .idle | .waiting => false
  | .holding _ | .fetching _ _ => true

def Retriever.active (x : Retriever) : ℕ := if x.busy then 1 else 0

def SchedulerRun.sends (req : Request) (run : SchedulerRun) : ℕ :=
  if run.bit = req.bit ∧ run.sender = .sending req.sec then 1 else 0

theorem SchedulerRun.sends_sending {run : SchedulerRun} {sec : ℕ} (h : run.sender = .sending sec)
    (req : Request) : run.sends req = if ⟨sec, run.bit⟩ = req then 1 else 0 := by
  rw [sends, h]
  obtain ⟨x, b⟩ := req
  simp only [Sender.sending.injEq, Request.mk.injEq]
  exact if_congr and_comm rfl rfl

variable {ι κ : Type}

namespace Session

section Counts
variable (s : Session ι κ)

def holders [Fintype ι] (bit : ℕ) : ℕ := tally (Retriever.holds bit) s.retriever

def owners [Fintype ι] (bit : ℕ) : ℕ := (if bit ∈ s.unallocs then 1 else 0) + s.holders bit

def sending [Fintype κ] (req : Request) : ℕ := tally (SchedulerRun.sends req) s.run

def queued (req : Request) : ℕ := (s.requests req.bit).count req.sec

def fetched [Fintype ι] (req : Request) : ℕ := tally (Retriever.fetches req) s.retriever

def pending (req : Request) : ℕ :=
  if (s.response req.bit req.sec).any fun res => res.cached.isNone then 1 else 0

def known (req : Request) : ℕ := if (s.response req.bit req.sec).isSome then 1 else 0

def asked [Fintype κ] (req : Request) : ℕ :=
  s.sending req + s.dist.count req + s.arrived.count req

end Counts

section Invariant
variable [Fintype ι] [Fintype κ]

def Owned (s : Session ι κ) : Prop :=
  ∀ bit, s.owners bit = if s.requests bit = [] then 0 else 1

structure Counted (s : Session ι κ) : Prop where
  listening : s.listening = true ↔ s.unallocs.Nonempty
  allocs : s.allocs = (tally Retriever.active s.retriever : ℕ)

/-- What a scheduler waits for is in one place, and is asked for once. -/
structure Ledger (s : Session ι κ) : Prop where
  placed : ∀ req, s.sending req + s.dist.count req + s.queued req + s.fetched req = s.pending req
  pending_le : ∀ req, s.pending req ≤ s.asked req
  asked_le : ∀ req, s.asked req ≤ s.known req

structure Kept (s : Session ι κ) : Prop where
  sorted : ∀ bit, (s.requests bit).Pairwise (· ≤ ·)
  closed : ∀ bit sec res, s.response bit sec = some res → res.closed = res.cached.isSome
  running : ∀ k, (s.schedulers (s.run k).bit).isSome
  forwarded : ∀ k sec, (sec ∈ (s.run k).pend ∨ (s.run k).sender = .notifying sec) →
    (s.response (s.run k).bit sec).isSome
  served : ∀ r bit sections, s.retriever r = .fetching bit sections → (s.schedulers bit).isSome
  bounded : ∀ req, 0 < s.asked req → req.sec < maxUint64

structure Inv (s : Session ι κ) : Prop where
  owned : s.Owned
  counted : s.Counted
  ledger : s.Ledger
  kept : s.Kept

end Invariant

section Fields
variable (s : Session ι κ)

theorem setRequests_requests (bit : ℕ) (queue : List ℕ) (b : ℕ) :
    (s.setRequests bit queue).requests b = if b = bit then queue else s.requests b :=
  update_apply _ _ _ _

theorem setRetriever_retriever [DecidableEq ι] (r : ι) (x : Retriever) (r' : ι) :
    (s.setRetriever r x).retriever r' = if r' = r then x else s.retriever r' :=
  update_apply _ _ _ _

theorem queued_setRequests (bit : ℕ) (queue : List ℕ) (req : Request) :
    (s.setRequests bit queue).queued req =
      if req.bit = bit then queue.count req.sec else s.queued req := by
  rw [queued, setRequests_requests]
  split_ifs <;> rfl

def taking [DecidableEq ι] (r : ι) (bit want : ℕ) : Session ι κ :=
  (s.setRequests bit ((s.requests bit).drop want)).setRetriever r
    (.fetching bit ((s.requests bit).take want))

theorem allocate_eq [DecidableEq ι] (r : ι) (bit want : ℕ) (fetcher : Option ι) :
    s.allocate r bit want fetcher =
      if (s.requests bit).drop want = [] then s.taking r bit want
      else (s.taking r bit want).assign bit fetcher := by
  have hmid : (if want ≥ (s.requests bit).length then
      (s.setRequests bit []).setRetriever r (.fetching bit (s.requests bit))
      else s.taking r bit want) = s.taking r bit want := by
    split_ifs with hwant
    · rw [taking, drop_of_length_le hwant, take_of_length_le hwant]
    · rfl
  have hleft : (s.taking r bit want).requests bit = (s.requests bit).drop want :=
    update_self _ _ _
  have heq : s.allocate r bit want fetcher =
      if ((s.taking r bit want).requests bit).length > 0 then (s.taking r bit want).assign bit fetcher
      else s.taking r bit want := by
    rw [← hmid]
    rfl
  rw [heq, hleft]
  by_cases hnil : (s.requests bit).drop want = []
  · rw [hnil, if_neg (by simp), if_pos rfl]
  · rw [if_pos (length_pos_iff.mpr hnil), if_neg hnil]

end Fields

section Retrievers
variable [Fintype ι] [DecidableEq ι] {s : Session ι κ}

structure Frame (s s' : Session ι κ) : Prop where
  schedulers : s'.schedulers = s.schedulers
  run : s'.run = s.run
  dist : s'.dist = s.dist
  requests : s'.requests = s.requests
  arrived : s'.arrived = s.arrived
  fetched : ∀ req, s'.fetched req = s.fetched req
  fetching : ∀ r bit sections, s'.retriever r = .fetching bit sections →
    s.retriever r = .fetching bit sections

theorem setRetriever_frame {r : ι} {x : Retriever} (hx : ∀ bit sections, x ≠ .fetching bit sections)
    (hr : ∀ bit sections, s.retriever r ≠ .fetching bit sections) :
    Frame s (s.setRetriever r x) := by
  refine ⟨rfl, rfl, rfl, rfl, rfl, fun req => tally_update_of_eq ?_, fun r' bit sections h => ?_⟩
  · rw [fetches_eq_zero hx, fetches_eq_zero hr]
  · rw [setRetriever_retriever] at h
    split_ifs at h
    · exact absurd h (hx bit sections)
    · exact h

theorem tally_retriever {r : ι} {x : Retriever} (hr : s.retriever r = x) (y : Retriever)
    (f : Retriever → ℕ) : tally f (update s.retriever r y) + f x = tally f s.retriever + f y := by
  rw [← hr]
  exact tally_update _ _ _ _

section Assign
variable {bit : ℕ} {fetcher : Option ι}

omit [Fintype ι] in
theorem assign_requests : (s.assign bit fetcher).requests = s.requests := by
  cases fetcher <;> rfl

theorem assign_frame (hf : s.Finds fetcher) : Frame s (s.assign bit fetcher) := by
  cases fetcher with
  | none => exact ⟨rfl, rfl, rfl, rfl, rfl, fun _ => rfl, fun _ _ _ h => h⟩
  | some r =>
    have hr : s.retriever r = .waiting := hf
    have hframe : Frame s (s.setRetriever r (.holding bit)) :=
      setRetriever_frame (by simp) (by simp [hr])
    exact ⟨rfl, rfl, rfl, rfl, rfl, hframe.fetched, hframe.fetching⟩

theorem assign_owners (hf : s.Finds fetcher) (hnot : bit ∉ s.unallocs) (b : ℕ) :
    (s.assign bit fetcher).owners b = s.owners b + if bit = b then 1 else 0 := by
  cases fetcher with
  | none =>
    have hmem : (s.assign bit none).owners b =
        (if b ∈ insert bit s.unallocs then 1 else 0) + s.holders b := rfl
    rw [hmem, owners]
    by_cases hb : bit = b
    · subst hb
      rw [if_pos (Finset.mem_insert_self _ _), if_neg hnot, if_pos rfl]
      omega
    · have hiff : b ∈ insert bit s.unallocs ↔ b ∈ s.unallocs := by
        rw [Finset.mem_insert]
        exact or_iff_right (Ne.symm hb)
      simp only [hiff, if_neg hb, Nat.add_zero]
  | some r =>
    have hsum : (s.assign bit (some r)).holders b + 0 = s.holders b + if bit = b then 1 else 0 :=
      tally_retriever (x := .waiting) hf (.holding bit) (holds b)
    show (if b ∈ s.unallocs then 1 else 0) + (s.assign bit (some r)).holders b = _
    rw [owners]
    omega

theorem Owned.assign (hf : s.Finds fetcher)
    (hother : ∀ b, b ≠ bit → s.owners b = if s.requests b = [] then 0 else 1)
    (hzero : s.owners bit = 0) (hne : s.requests bit ≠ []) : (s.assign bit fetcher).Owned := by
  have hnot : bit ∉ s.unallocs := by
    intro hmem
    rw [owners, if_pos hmem] at hzero
    omega
  intro b
  rw [assign_owners hf hnot, assign_requests]
  by_cases hb : bit = b
  · subst hb
    rw [hzero, if_pos rfl, if_neg hne]
  · rw [hother b (Ne.symm hb), if_neg hb]
    rfl

theorem Counted.assign (h : s.Counted) (hf : s.Finds fetcher) : (s.assign bit fetcher).Counted := by
  cases fetcher with
  | none => exact ⟨⟨fun _ => Finset.insert_nonempty _ _, fun _ => rfl⟩, h.allocs⟩
  | some r =>
    have hsum : tally active (s.assign bit (some r)).retriever + 0 =
        tally active s.retriever + 1 :=
      tally_retriever (x := .waiting) hf (.holding bit) active
    refine ⟨h.listening, ?_⟩
    show s.allocs + 1 = _
    rw [h.allocs]
    exact_mod_cast hsum.symm

end Assign

end Retrievers

variable [Fintype ι] [Fintype κ]

theorem Frame.ledger {s s' : Session ι κ} (h : Frame s s') (hs : s.Ledger) : s'.Ledger := by
  have hsending : ∀ req, s'.sending req = s.sending req := fun req => by
    rw [sending, h.run, sending]
  have hpending : ∀ req, s'.pending req = s.pending req := fun req => by
    rw [pending, response, h.schedulers, pending, response]
  have hasked : ∀ req, s'.asked req = s.asked req := fun req => by
    rw [asked, hsending, h.dist, h.arrived, asked]
  refine ⟨fun req => ?_, fun req => ?_, fun req => ?_⟩
  · rw [hsending, h.dist, queued, h.requests, h.fetched, hpending]
    exact hs.placed req
  · rw [hpending, hasked]
    exact hs.pending_le req
  · rw [hasked, known, response, h.schedulers]
    exact hs.asked_le req

theorem Frame.kept {s s' : Session ι κ} (h : Frame s s') (hs : s.Kept) : s'.Kept := by
  have hasked : ∀ req, s'.asked req = s.asked req := fun req => by
    rw [asked, sending, h.run, h.dist, h.arrived, asked, sending]
  have hresponse : ∀ bit sec, s'.response bit sec = s.response bit sec := fun bit sec => by
    rw [response, h.schedulers, response]
  refine ⟨?_, ?_, ?_, ?_, ?_, ?_⟩
  · rw [h.requests]
    exact hs.sorted
  · intro bit sec res hres
    rw [hresponse] at hres
    exact hs.closed bit sec res hres
  · rw [h.run, h.schedulers]
    exact hs.running
  · intro k sec hsec
    rw [h.run] at hsec ⊢
    rw [hresponse]
    exact hs.forwarded k sec hsec
  · intro r bit sections hr
    rw [h.schedulers]
    exact hs.served r bit sections (h.fetching r bit sections hr)
  · intro req hreq
    rw [hasked] at hreq
    exact hs.bounded req hreq

variable {s : Session ι κ}

structure Nearly (s : Session ι κ) (bit : ℕ) : Prop where
  owned : ∀ b, b ≠ bit → s.owners b = if s.requests b = [] then 0 else 1
  counted : s.Counted
  ledger : s.Ledger
  kept : s.Kept

theorem Nearly.inv {bit : ℕ} (h : s.Nearly bit)
    (hbit : s.owners bit = if s.requests bit = [] then 0 else 1) : s.Inv := by
  refine ⟨fun b => ?_, h.counted, h.ledger, h.kept⟩
  by_cases hb : b = bit
  · rw [hb]
    exact hbit
  · exact h.owned b hb

theorem Nearly.assign [DecidableEq ι] {bit : ℕ} {fetcher : Option ι} (h : s.Nearly bit)
    (hf : s.Finds fetcher) (hzero : s.owners bit = 0) (hne : s.requests bit ≠ []) :
    (s.assign bit fetcher).Inv := by
  have hframe : Frame s (s.assign bit fetcher) := assign_frame hf
  exact ⟨Owned.assign hf h.owned hzero hne, h.counted.assign hf, hframe.ledger h.ledger,
    hframe.kept h.kept⟩

end Session

end Fiscobcos.Bloombits
