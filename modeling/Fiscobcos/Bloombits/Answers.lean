import Fiscobcos.Bloombits.Assignment

/-! # What the schedulers put out

If retrievers deliver only right vectors or empty ones, each run puts out the right vectors of the
sections it has read, in their order. -/

namespace Fiscobcos.Bloombits

open Numerals

variable {sections : List ℕ} {sec : ℕ}

theorem Scheduler.deliver_cached {sch sch' : Scheduler} {data : List Bytes}
    (h : sch.deliver sections data = .ok sch') {res : Response} {x : Bytes}
    (hres : sch'.responses sec = some res) (hx : res.cached = some x) :
    (∃ old, sch.responses sec = some old ∧ old.cached = some x) ∨ (sec, x) ∈ sections.zip data := by
  induction sections generalizing sch data with
  | nil =>
    cases h
    exact .inl ⟨res, hres, hx⟩
  | cons sec₀ sections ih =>
    cases data with
    | nil => cases h
    | cons d data =>
      rw [Scheduler.deliver] at h
      cases hone : sch.deliverOne sec₀ d with
      | error p =>
        rw [hone] at h
        cases h
      | ok sch₁ =>
        rw [hone] at h
        rcases ih h with ⟨old, hold, holdx⟩ | hmem
        · -- the round for `sec₀` wrote it, or left it
          rw [Scheduler.deliverOne] at hone
          cases hwas : sch.responses sec₀ with
          | none =>
            rw [hwas] at hone
            cases hone
            exact .inl ⟨old, hold, holdx⟩
          | some r =>
            rw [hwas] at hone
            simp only at hone
            split_ifs at hone with hnone hclosed
            · cases hone
              rw [Scheduler.setResponse_responses] at hold
              split_ifs at hold with hsec
              · cases hold
                cases holdx
                rw [hsec]
                exact .inr List.mem_cons_self
              · exact .inl ⟨old, hold, holdx⟩
            · cases hone
              exact .inl ⟨old, hold, holdx⟩
        · exact .inr (List.mem_cons_of_mem _ hmem)

theorem splitDelivery_zip {bitsets : List Bytes} {d : Delivery}
    (h : splitDelivery sections bitsets = .ok d) {x : ℕ × Bytes}
    (hx : x ∈ d.sections.zip d.bitsets) : x ∈ sections.zip bitsets ∧ x.2.length ≠ 0 := by
  induction sections generalizing bitsets d with
  | nil =>
    cases bitsets with
    | nil =>
      cases h
      cases hx
    | cons b bitsets => cases h
  | cons sec sections ih =>
    cases bitsets with
    | nil =>
      cases h
      cases hx
    | cons b bitsets =>
      rw [splitDelivery] at h
      cases hrest : splitDelivery sections bitsets with
      | error p =>
        rw [hrest] at h
        cases h
      | ok d₀ =>
        rw [hrest] at h
        simp only at h
        split_ifs at h with hempty
        · cases h
          obtain ⟨hmem, hne⟩ := ih hrest hx
          exact ⟨List.mem_cons_of_mem _ hmem, hne⟩
        · cases h
          rcases List.mem_cons.mp hx with hx | hx
          · rw [hx]
            exact ⟨List.mem_cons_self, hempty⟩
          · obtain ⟨hmem, hne⟩ := ih hrest hx
            exact ⟨List.mem_cons_of_mem _ hmem, hne⟩

namespace Session

variable {ι κ : Type} {s s' : Session ι κ}

def Answered (s : Session ι κ) (ans : ℕ → ℕ → Bytes) : Prop :=
  ∀ bit sec res x, s.response bit sec = some res → res.cached = some x → x = ans bit sec

def Honest (ans : ℕ → ℕ → Bytes) (s : Session ι κ) : Act ι κ → Prop
  | .deliver r sections bitsets _ _ => ∀ bit allocated, s.retriever r = .fetching bit allocated →
      ∀ x ∈ sections.zip bitsets, x.2.length = 0 ∨ x.2 = ans bit x.1
  | _ => True

variable [DecidableEq ι]

theorem assign_same (s : Session ι κ) (bit : ℕ) (fetcher : Option ι) :
    (s.assign bit fetcher).schedulers = s.schedulers ∧ (s.assign bit fetcher).run = s.run := by
  cases fetcher with
  | none | some r => exact ⟨rfl, rfl⟩

theorem receive_same (s : Session ι κ) (req : Request) (rest : List Request) (fetcher : Option ι) :
    (s.receive req rest fetcher).schedulers = s.schedulers ∧
      (s.receive req rest fetcher).run = s.run := by
  rw [Session.receive]
  dsimp only
  split_ifs
  · exact assign_same _ _ _
  · exact ⟨rfl, rfl⟩

theorem allocate_same (s : Session ι κ) (r : ι) (bit want : ℕ) (fetcher : Option ι) :
    (s.allocate r bit want fetcher).schedulers = s.schedulers ∧
      (s.allocate r bit want fetcher).run = s.run := by
  rw [allocate_eq]
  split_ifs
  · exact ⟨rfl, rfl⟩
  · exact assign_same _ _ _

theorem retrieve_same {r : ι} {order : List ℕ} (h : s.retrieve r order = .ok s') :
    s'.schedulers = s.schedulers ∧ s'.run = s.run := by
  rw [Session.retrieve] at h
  cases hlow : lowest s.requests order 0 maxUint64 with
  | error p =>
    rw [hlow] at h
    cases h
  | ok bit =>
    rw [hlow] at h
    cases h
    exact ⟨rfl, rfl⟩

theorem deliver_same {bit : ℕ} {bitsets : List Bytes} {fetcher : Option ι}
    (h : s.deliver bit sections bitsets fetcher = .ok s') :
    s'.run = s.run ∧ ∃ d sch sch', splitDelivery sections bitsets = .ok d ∧
      s.schedulers bit = some sch ∧ sch.deliver d.sections d.bitsets = .ok sch' ∧
      s'.schedulers = Function.update s.schedulers bit (some sch') := by
  rw [Session.deliver] at h
  cases hsplit : splitDelivery sections bitsets with
  | error p =>
    rw [hsplit] at h
    cases h
  | ok d =>
    rw [hsplit] at h
    cases hsch : s.schedulers bit with
    | none =>
      simp only [hsch] at h
      cases h
    | some sch =>
      simp only [hsch] at h
      cases hdeliver : sch.deliver d.sections d.bitsets with
      | error p =>
        rw [hdeliver] at h
        cases h
      | ok sch' =>
        rw [hdeliver] at h
        simp only at h
        split_ifs at h
        · cases h
          obtain ⟨hsame, hrun⟩ := assign_same _ bit fetcher
          exact ⟨hrun, d, sch, sch', rfl, rfl, hdeliver, hsame⟩
        · cases h
          exact ⟨rfl, d, sch, sch', rfl, rfl, hdeliver, rfl⟩
        · cases h
          exact ⟨rfl, d, sch, sch', rfl, rfl, hdeliver, rfl⟩

variable {ans : ℕ → ℕ → Bytes}

omit [DecidableEq ι] in
theorem answered_of_same (h : s.Answered ans)
    (hsame : s'.schedulers = s.schedulers) : s'.Answered ans := by
  intro bit sec res x hres hx
  rw [response, hsame, ← response] at hres
  exact h bit sec res x hres hx

variable [DecidableEq κ]

omit [DecidableEq ι] in
theorem read_eq_ok {k : κ} (h : s.read k sec = .ok s') :
    ∃ sch, s.schedulers (s.run k).bit = some sch ∧
      s' = (s.setScheduler (s.run k).bit (sch.unique sec).1).setRun k
        { s.run k with sender := if (sch.unique sec).2 then .sending sec else .notifying sec } := by
  rw [Session.read] at h
  cases hsch : s.schedulers (s.run k).bit with
  | none =>
    rw [hsch] at h
    cases h
  | some sch =>
    rw [hsch] at h
    cases h
    exact ⟨sch, rfl, rfl⟩

omit [DecidableEq ι] in
theorem collect_eq_ok {k : κ} {idx : ℕ} {rest : List ℕ} (h : s.collect k idx rest = .ok s') :
    ∃ res, s.response (s.run k).bit idx = some res ∧ s' = s.setRun k
      { s.run k with pend := rest, done := (s.run k).done ++ [res.cached] } := by
  rw [Session.collect] at h
  cases hres : s.response (s.run k).bit idx with
  | none =>
    rw [hres] at h
    cases h
  | some res =>
    rw [hres] at h
    cases h
    exact ⟨res, rfl, rfl⟩

omit [DecidableEq ι] [DecidableEq κ] in
theorem Answered.unique (h : s.Answered ans) {bit : ℕ} {sch : Scheduler}
    (hsch : s.schedulers bit = some sch) : (s.setScheduler bit (sch.unique sec).1).Answered ans := by
  intro b y res x hres hx
  rw [response_setScheduler] at hres
  split_ifs at hres with hb
  · have hold : sch.responses y = some res → x = ans b y := by
      intro hold
      refine h b y res x ?_ hx
      rw [response, hb, hsch]
      exact hold
    rw [Scheduler.unique] at hres
    cases hsec : sch.responses sec with
    | some r =>
      rw [hsec] at hres
      exact hold hres
    | none =>
      rw [hsec] at hres
      simp only [Scheduler.setResponse_responses] at hres
      split_ifs at hres with hy
      · cases hres
        cases hx
      · exact hold hres
  · exact h b y res x hres hx

theorem Answered.step (h : s.Answered ans) {a : Act ι κ}
    (hhonest : Honest ans s a) (hstep : Step s a (.ok s')) : s'.Answered ans := by
  generalize hok : (Except.ok s' : Except Panic (Session ι κ)) = out at hstep
  cases hstep with
  | read hk hle =>
    obtain ⟨sch, hsch, hs'⟩ := read_eq_ok hok.symm
    subst hs'
    exact answered_of_same (h.unique hsch) rfl
  | send hk | notify hk | wait hr =>
    cases hok
    exact answered_of_same h rfl
  | collect hk hclosed =>
    obtain ⟨res, _, hs'⟩ := collect_eq_ok hok.symm
    subst hs'
    exact answered_of_same h rfl
  | receive hdist hf =>
    cases hok
    exact answered_of_same h (receive_same _ _ _ _).1
  | retrieve hlisten hr hnodup horder => exact answered_of_same h (retrieve_same hok.symm).1
  | pending hr =>
    cases hok
    exact h
  | allocate hr hf =>
    cases hok
    exact answered_of_same h (allocate_same _ _ _ _ _).1
  | @deliver r bit allocated sections bitsets again fetcher hr hperm hlen hf =>
    obtain ⟨_, d, sch, sch', hsplit, hsch, hdeliver, hsame⟩ := deliver_same hok.symm
    intro b sec res x hres hx
    rw [response, hsame, Function.update_apply] at hres
    split_ifs at hres with hb
    · -- old data, or from this delivery
      rcases Scheduler.deliver_cached hdeliver hres hx with ⟨old, hold, holdx⟩ | hmem
      · refine h b sec old x ?_ holdx
        have hsch' : s.schedulers bit = some sch := hsch
        rw [response, hb, hsch']
        exact hold
      · obtain ⟨hzip, hne⟩ := splitDelivery_zip hsplit hmem
        have hans := (hhonest bit allocated hr _ hzip).resolve_left hne
        rw [hb]
        exact hans
    · exact h b sec res x hres hx

inductive RunStep (s : Session ι κ) : Act ι κ → (κ → SchedulerRun) → Prop
  | read {k : κ} {sec : ℕ} {sender : Sender} (hk : (s.run k).sender = .idle)
      (hsender : sender = .sending sec ∨ sender = .notifying sec) :
      RunStep s (.read k sec) (Function.update s.run k { s.run k with sender := sender })
  | send {k : κ} {sec : ℕ} (hk : (s.run k).sender = .sending sec) :
      RunStep s (.send k) (Function.update s.run k { s.run k with sender := .notifying sec })
  | notify {k : κ} {sec : ℕ} (hk : (s.run k).sender = .notifying sec) :
      RunStep s (.notify k) (Function.update s.run k
        { s.run k with sender := .idle, pend := (s.run k).pend ++ [sec] })
  | collect {k : κ} {idx : ℕ} {rest : List ℕ} {res : Response} (hk : (s.run k).pend = idx :: rest)
      (hres : s.response (s.run k).bit idx = some res) (hclosed : res.closed = true) :
      RunStep s (.collect k) (Function.update s.run k
        { s.run k with pend := rest, done := (s.run k).done ++ [res.cached] })
  | other {a : Act ι κ} (ha : ∀ k sec, a ≠ .read k sec) : RunStep s a s.run

theorem step_run {a : Act ι κ} (hstep : Step s a (.ok s')) : RunStep s a s'.run := by
  generalize hok : (Except.ok s' : Except Panic (Session ι κ)) = out at hstep
  cases hstep with
  | read hk hle =>
    obtain ⟨sch, _, hs'⟩ := read_eq_ok hok.symm
    subst hs'
    apply RunStep.read hk
    split_ifs
    · exact .inl rfl
    · exact .inr rfl
  | send hk =>
    cases hok
    exact .send hk
  | notify hk =>
    cases hok
    exact .notify hk
  | collect hk hclosed =>
    obtain ⟨res, hres, hs'⟩ := collect_eq_ok hok.symm
    subst hs'
    exact .collect hk hres (hclosed res hres)
  | receive hdist hf =>
    cases hok
    rw [(receive_same _ _ _ _).2]
    exact .other (fun _ _ h => by cases h)
  | wait hr | pending hr =>
    cases hok
    exact .other (fun _ _ h => by cases h)
  | retrieve hlisten hr hnodup horder =>
    rw [(retrieve_same hok.symm).2]
    exact .other (fun _ _ h => by cases h)
  | allocate hr hf =>
    cases hok
    rw [(allocate_same _ _ _ _ _).2]
    exact .other (fun _ _ h => by cases h)
  | deliver hr hperm hlen hf =>
    rw [(deliver_same hok.symm).1]
    exact .other (fun _ _ h => by cases h)

end Session

end Fiscobcos.Bloombits
