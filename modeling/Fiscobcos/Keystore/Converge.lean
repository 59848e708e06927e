import Fiscobcos.Keystore.Scan

/-! # Convergence of the account cache (accounts/keystore)

Runs over a directory that does not change leave one account for each key file, if the earlier runs
did not take differences for a file on which another had still to act, and the key files taken for
unchanged are as they were when last read. -/

namespace Fiscobcos.Keystore
open Numerals JsonTree Hexutil Steps AccountCache Function List

variable {keyDir : Bytes}

def keyAccount (keyDir : Bytes) (f : File) : Option Account :=
  if nonKeyFile f.info then none else accountOf (joinPath keyDir f.info.name) f.content

def Store.quiet (s : Store) : Prop := ∀ t, s.run t = .idle

def Noticeable (keyDir : Bytes) (s : Store) : Prop :=
  ∀ fi ∈ s.dir.infos, nonKeyFile fi = false → joinPath keyDir fi.name ∈ s.fileC.all →
    fi.modTime ≤ s.fileC.lastMod →
    s.seen (joinPath keyDir fi.name) = readAccount keyDir s.dir (joinPath keyDir fi.name)

def still : ScanAct → Prop
  | .change => False
  | _ => True

theorem joinPath_inj {a b : Bytes} (h : joinPath keyDir a = joinPath keyDir b) : a = b := by
  have hcons := append_cancel_left h
  exact (cons.inj hcons).2

theorem Dir.osOpen_mem {d : Dir} {f : File} (hf : f ∈ d.files) :
    d.osOpen keyDir (joinPath keyDir f.info.name) = some f := by
  have hnodup := d.nodup
  unfold Dir.osOpen
  generalize d.files = files at hf hnodup
  induction files with
  | nil => simp at hf
  | cons g files ih =>
    obtain ⟨hg, hnodup⟩ := nodup_cons.mp hnodup
    rcases mem_cons.mp hf with rfl | hf
    · exact find?_cons_of_pos (by simp)
    · have hne : joinPath keyDir g.info.name ≠ joinPath keyDir f.info.name := by
        intro heq
        have hname : g.info.name ∈ files.map fun f => f.info.name := by
          rw [joinPath_inj heq]
          exact mem_map_of_mem hf
        exact hg hname
      rw [find?_cons_of_neg (by simpa using hne)]
      exact ih hf hnodup

theorem Dir.info_inj {d : Dir} {fi fi' : FileInfo} (hfi : fi ∈ d.infos) (hfi' : fi' ∈ d.infos)
    (h : fi.name = fi'.name) : fi = fi' := by
  obtain ⟨f, hf, rfl⟩ := mem_map.mp hfi
  obtain ⟨f', hf', rfl⟩ := mem_map.mp hfi'
  rw [inj_on_of_nodup_map d.nodup hf hf' h]

theorem Listed.iff_file {d : Dir} {p : Bytes} : Listed keyDir d.infos (fun _ => True) p ↔
    ∃ f ∈ d.files, nonKeyFile f.info = false ∧ joinPath keyDir f.info.name = p := by
  simp [Listed, Dir.infos]

theorem keyAccount_mem {d : Dir} {a : Account} : a ∈ d.files.filterMap (keyAccount keyDir) ↔
      Listed keyDir d.infos (fun _ => True) a.url.path ∧
        readAccount keyDir d a.url.path = some a := by
  rw [mem_filterMap, Listed.iff_file]
  constructor
  · intro h
    obtain ⟨f, hf, hacc⟩ := h
    unfold keyAccount at hacc
    split_ifs at hacc with hkey
    have hpath : a.url.path = joinPath keyDir f.info.name := by rw [accountOf_url hacc]
    refine ⟨⟨f, hf, by simpa using hkey, hpath.symm⟩, ?_⟩
    rw [hpath, readAccount, Dir.osOpen_mem hf]
    exact hacc
  · intro h
    obtain ⟨⟨f, hf, hkey, hpath⟩, hread⟩ := h
    refine ⟨f, hf, ?_⟩
    rw [← hpath, readAccount, Dir.osOpen_mem hf] at hread
    rw [keyAccount, if_neg (by simp [hkey])]
    exact hread

theorem keyAccount_nodup (keyDir : Bytes) (d : Dir) :
    (d.files.filterMap (keyAccount keyDir)).Nodup := by
  have hnames : d.files.Pairwise fun f g => f.info.name ≠ g.info.name :=
    pairwise_map.mp d.nodup
  refine hnames.filterMap _ fun f g hne a ha b hb hab => hne ?_
  subst hab
  unfold keyAccount at ha hb
  split_ifs at ha hb
  have hpaths := (accountOf_url ha).symm.trans (accountOf_url hb)
  exact joinPath_inj (URL.mk.inj hpaths).2

theorem AccountCache.nodup_of_cached {ac : AccountCache} (h : ∀ p, (ac.cached p).length ≤ 1) :
    ac.all.Nodup := by
  rw [nodup_iff_count_le_one]
  intro a
  have hcount : ac.all.count a = (ac.cached a.url.path).count a := by
    unfold cached
    rw [count_filter (by simp)]
  rw [hcount]
  exact count_le_length.trans (h _)

theorem AccountCache.mem_cached {ac : AccountCache} {a : Account} :
    a ∈ ac.all ↔ a ∈ ac.cached a.url.path := by
  simp [cached]

def Overlooked (keyDir : Bytes) (s : Store) (p : Bytes) : Prop :=
  p ∈ s.fileC.all ∧ ¬ Listed keyDir s.dir.infos (fun fi => s.fileC.lastMod < fi.modTime) p

open Classical in
noncomputable def settled (keyDir : Bytes) (s : Store) (p : Bytes) : Option Account :=
  if Overlooked keyDir s p then s.seen p else readAccount keyDir s.dir p

def Store.toRead (s : Store) (p : Bytes) : Prop :=
  ∃ t prog, s.run t = .working prog ∧ .read p ∈ prog

structure Settling (keyDir : Bytes) (s₀ s : Store) : Prop where
  all : ∀ p, p ∈ s.fileC.all ↔ Listed keyDir s₀.dir.infos (fun _ => True) p
  lastMod : ∀ fi ∈ s₀.dir.infos, nonKeyFile fi = false → fi.modTime ≤ s.fileC.lastMod
  seen : ∀ p, Listed keyDir s₀.dir.infos (fun _ => True) p →
    s.seen p = settled keyDir s₀ p ∨ s.toRead p
  reads : ∀ p, s.toRead p → settled keyDir s₀ p = readAccount keyDir s₀.dir p

structure Phase (keyDir : Bytes) (s₀ : Store) (t₀ : ℕ) (s : Store) : Prop where
  dir : s.dir = s₀.dir
  inv : StoreInv s
  listed : ∀ t files, s.run t = .listed files → files = s₀.dir.infos
  progress : (s.fileC = s₀.fileC ∧ s.seen = s₀.seen ∧ (∀ t prog, s.run t ≠ .working prog) ∧
    s.run t₀ ≠ .idle) ∨ Settling keyDir s₀ s

section Phase
variable {s₀ s s' : Store} {t t₀ : ℕ} {a : ScanAct}

theorem Settling.not_touched (h : Settling keyDir s₀ s) (p : Bytes) :
    ¬ Touched keyDir s.fileC s₀.dir.infos p := by
  intro htouch
  rcases htouch with hdiff | hmod
  · exact hdiff (h.all p)
  · obtain ⟨fi, hfi, hkey, -, hlt⟩ := hmod
    have hle := h.lastMod fi hfi hkey
    omega

theorem Phase.apart (h : Phase keyDir s₀ t₀ s) (t : ℕ) : Apart keyDir s t := by
  intro files hfiles u hu p htouch
  rcases h.progress with ⟨-, -, hno, -⟩ | hset
  · cases hrun : s.run u with
    | idle => rfl
    | listed files => rfl
    | working prog => exact absurd hrun (hno u prog)
  · rw [h.listed t files hfiles] at htouch
    exact absurd htouch (hset.not_touched p)

theorem Phase.careful (h : Phase keyDir s₀ t₀ s) (a : ScanAct) : Careful keyDir s a := by
  cases a with
  | diff t => exact h.apart t
  | _ => trivial

theorem Phase.start (h : StoreInv s) (hq : s.quiet) (hs : ScanStep keyDir s (.list t₀) s') :
    Phase keyDir s t₀ s' := by
  have hok : Careful keyDir s (.list t₀) := trivial
  have hinv := h.step hok hs
  cases hs with
  | list ht =>
    refine ⟨rfl, hinv, fun t files hfiles => ?_, .inl ⟨rfl, rfl, fun t prog => ?_, by simp⟩⟩
    · dsimp only at hfiles
      rw [update_apply] at hfiles
      split_ifs at hfiles with htt
      · cases hfiles
        rfl
      · rw [hq t] at hfiles
        cases hfiles
    · dsimp only
      rw [update_apply]
      split_ifs with htt
      · simp
      · rw [hq t]
        simp

variable {cs ds us : List Bytes} {p : Bytes} {r : RunPc}

theorem read_mem_program : .read p ∈ program cs ds us ↔ p ∈ cs ∨ p ∈ us := by
  simp only [program, mem_append, mem_flatMap, mem_cons, not_mem_nil, or_false]
  constructor
  · intro h
    rcases h with (⟨q, hq, heq⟩ | ⟨q, hq, heq⟩) | ⟨q, hq, heq | heq⟩
    · cases heq
      exact .inl hq
    · cases heq
    · cases heq
    · cases heq
      exact .inr hq
  · intro h
    rcases h with hp | hp
    · exact .inl (.inl ⟨p, hp, rfl⟩)
    · exact .inr ⟨p, hp, .inr rfl⟩

theorem toRead_update (ht : ∀ i prog, s.run t ≠ .working (i :: prog))
    (hrun : s'.run = update s.run t r) :
    s'.toRead p ↔ s.toRead p ∨ ∃ prog, r = .working prog ∧ .read p ∈ prog := by
  constructor
  · intro h
    obtain ⟨u, prog, hu, hmem⟩ := h
    rw [hrun, update_apply] at hu
    split_ifs at hu
    · exact .inr ⟨prog, hu, hmem⟩
    · exact .inl ⟨u, prog, hu, hmem⟩
  · intro h
    rcases h with ⟨u, prog, hu, hmem⟩ | ⟨prog, hr, hmem⟩
    · have hut : u ≠ t := by
        intro hut
        cases prog with
        | nil => simp at hmem
        | cons i prog => exact ht i prog (hut ▸ hu)
      exact ⟨u, prog, by rw [hrun, update_of_ne hut, hu], hmem⟩
    · exact ⟨t, prog, by rw [hrun, update_self, hr], hmem⟩

theorem read_first (hc : Enumerates cs (s.fileC.scan keyDir s.dir.infos).1.creates)
    (hu : Enumerates us (s.fileC.scan keyDir s.dir.infos).1.updates) : .read p ∈ program cs ds us ↔
      Listed keyDir s.dir.infos (fun _ => True) p ∧ ¬ Overlooked keyDir s p := by
  rw [read_mem_program, hc.mem, hu.mem, mem_creates, mem_updates, Overlooked, not_and_not_right]
  constructor
  · intro h
    rcases h with ⟨hp, hnew⟩ | ⟨hmod, hold⟩
    · exact ⟨hp, fun hold => absurd hold hnew⟩
    · exact ⟨hmod.listed, fun _ => hmod⟩
  · intro h
    by_cases hold : p ∈ s.fileC.all
    · exact .inr ⟨h.2 hold, hold⟩
    · exact .inl ⟨h.1, hold⟩

theorem Settling.first (hfile : s.fileC = s₀.fileC)
    (hseen : s.seen = s₀.seen) (hno : ∀ t prog, s.run t ≠ .working prog)
    (hc : Enumerates cs (s.fileC.scan keyDir s₀.dir.infos).1.creates)
    (hu : Enumerates us (s.fileC.scan keyDir s₀.dir.infos).1.updates) :
    Settling keyDir s₀ { s with
      fileC := (s.fileC.scan keyDir s₀.dir.infos).2
      run := update s.run t (.working (program cs ds us)) } := by
  rw [hfile] at hc hu
  have hread : ∀ p, ({ s with
      fileC := (s.fileC.scan keyDir s₀.dir.infos).2
      run := update s.run t (.working (program cs ds us)) } : Store).toRead p ↔
      Listed keyDir s₀.dir.infos (fun _ => True) p ∧ ¬ Overlooked keyDir s₀ p := by
    intro p
    rw [toRead_update (fun i prog => hno t (i :: prog)) rfl, ← read_first hc hu]
    constructor
    · intro hor
      rcases hor with ⟨u, prog, hrun, -⟩ | ⟨prog, heq, hmem⟩
      · exact absurd hrun (hno u prog)
      · cases heq
        exact hmem
    · intro hmem
      exact .inr ⟨_, rfl, hmem⟩
  refine ⟨fun _ => scan_all, scan_lastMod, fun p hp => ?_, fun p hp => ?_⟩
  · by_cases hover : Overlooked keyDir s₀ p
    · refine .inl ?_
      rw [settled, if_pos hover, hseen]
    · exact .inr ((hread p).mpr ⟨hp, hover⟩)
  · exact if_neg ((hread p).mp hp).2

theorem Settling.diff (h : Settling keyDir s₀ s) (ht : s.run t = .listed s₀.dir.infos)
    (hc : Enumerates cs (s.fileC.scan keyDir s₀.dir.infos).1.creates)
    (hu : Enumerates us (s.fileC.scan keyDir s₀.dir.infos).1.updates) :
    Settling keyDir s₀ { s with
      fileC := (s.fileC.scan keyDir s₀.dir.infos).2
      run := update s.run t (.working (program cs ds us)) } := by
  have hread : ∀ p, ({ s with
      fileC := (s.fileC.scan keyDir s₀.dir.infos).2
      run := update s.run t (.working (program cs ds us)) } : Store).toRead p ↔
      s.toRead p := by
    intro p
    rw [toRead_update (by simp [ht]) rfl, or_iff_left]
    intro hnew
    obtain ⟨prog, heq, hmem⟩ := hnew
    cases heq
    rw [read_mem_program, hc.mem, hu.mem, mem_creates, mem_updates] at hmem
    apply h.not_touched p
    rcases hmem with ⟨hp, hnew⟩ | ⟨hmod, -⟩
    · exact .inl fun hsame => hnew (hsame.mpr hp)
    · exact .inr hmod
  refine ⟨fun _ => scan_all, scan_lastMod, fun p hp => ?_, fun p hp => h.reads p ((hread p).mp hp)⟩
  rw [hread]
  exact h.seen p hp

theorem toRead_exec {i : Instr} {prog prog' : List Instr} (ht : s.run t = .working (i :: prog))
    (hrun : s'.run = update s.run t (.working prog')) (hprog : .read p ∈ prog' ↔ .read p ∈ prog) :
    (s'.toRead p → s.toRead p) ∧ (s.toRead p → i ≠ .read p → s'.toRead p) := by
  constructor
  · intro h
    obtain ⟨u, prog₁, hu, hmem⟩ := h
    rw [hrun, update_apply] at hu
    split_ifs at hu
    · cases hu
      exact ⟨t, _, ht, mem_cons_of_mem _ (hprog.mp hmem)⟩
    · exact ⟨u, prog₁, hu, hmem⟩
  · intro h hi
    obtain ⟨u, prog₁, hu, hmem⟩ := h
    by_cases hut : u = t
    · rw [hut, ht] at hu
      cases hu
      refine ⟨t, prog', by rw [hrun, update_self], hprog.mpr ?_⟩
      exact (mem_cons.mp hmem).resolve_left (Ne.symm hi)
    · exact ⟨u, prog₁, by rw [hrun, update_of_ne hut, hu], hmem⟩

theorem Settling.exec (h : Settling keyDir s₀ s) {i : Instr} {prog prog' : List Instr}
    (ht : s.run t = .working (i :: prog)) (hfile : s'.fileC = s.fileC)
    (hrun : s'.run = update s.run t (.working prog'))
    (hprog : ∀ p, .read p ∈ prog' ↔ .read p ∈ prog)
    (hread : ∀ p, i = .read p → s'.seen p = readAccount keyDir s₀.dir p)
    (hother : ∀ p, i ≠ .read p → s'.seen p = s.seen p) : Settling keyDir s₀ s' where
  all := by rw [hfile]; exact h.all
  lastMod := by rw [hfile]; exact h.lastMod
  seen p hp := by
    by_cases hi : i = .read p
    · have hnow : s.toRead p := ⟨t, _, ht, hi ▸ mem_cons_self⟩
      rw [hread p hi, h.reads p hnow]
      exact .inl rfl
    · rw [hother p hi]
      rcases h.seen p hp with hseen | hlater
      · exact .inl hseen
      · exact .inr ((toRead_exec ht hrun (hprog p)).2 hlater hi)
  reads p hp := h.reads p ((toRead_exec ht hrun (hprog p)).1 hp)

theorem Settling.frame (h : Settling keyDir s₀ s) (ht : ∀ i prog, s.run t ≠ .working (i :: prog))
    (hr : ∀ prog, r ≠ .working prog) : Settling keyDir s₀ { s with run := update s.run t r } := by
  have hread : ∀ p, ({ s with run := update s.run t r } : Store).toRead p ↔ s.toRead p := by
    intro p
    rw [toRead_update ht rfl, or_iff_left]
    intro hnew
    obtain ⟨prog, heq, -⟩ := hnew
    exact hr prog heq
  refine ⟨h.all, h.lastMod, fun p hp => ?_, fun p hp => h.reads p ((hread p).mp hp)⟩
  rw [hread]
  exact h.seen p hp

theorem Phase.listed_update (h : Phase keyDir s₀ t₀ s)
    (hr : ∀ files, r = .listed files → files = s₀.dir.infos) (u : ℕ) (files : List FileInfo)
    (hu : update s.run t r u = .listed files) : files = s₀.dir.infos := by
  rw [update_apply] at hu
  split_ifs at hu
  · exact hr files hu
  · exact h.listed u files hu

theorem Phase.settling (h : Phase keyDir s₀ t₀ s) {prog : List Instr}
    (ht : s.run t = .working prog) : Settling keyDir s₀ s := by
  rcases h.progress with ⟨-, -, hno, -⟩ | hset
  · exact absurd ht (hno t prog)
  · exact hset

theorem Phase.step (h : Phase keyDir s₀ t₀ s) (ha : still a) (hs : ScanStep keyDir s a s') :
    Phase keyDir s₀ t₀ s' := by
  have hinv := h.inv.step (h.careful a) hs
  cases hs with
  | change d => exact absurd ha id
  | @list t ht =>
    refine ⟨h.dir, hinv, h.listed_update fun files hfiles => ?_, ?_⟩
    · cases hfiles
      rw [h.dir]
    · rcases h.progress with ⟨hfile, hseen, hno, ht₀⟩ | hset
      · refine .inl ⟨hfile, hseen, fun u prog => ?_, ?_⟩
        · dsimp only
          rw [update_apply]
          split_ifs
          · simp
          · exact hno u prog
        · dsimp only
          rw [update_apply]
          split_ifs
          · simp
          · exact ht₀
      · exact .inr (hset.frame (by simp [ht]) (by simp))
  | diff ht hc hd hu =>
    cases h.listed _ _ ht
    refine ⟨h.dir, hinv, h.listed_update (by simp), .inr ?_⟩
    rcases h.progress with ⟨hfile, hseen, hno, -⟩ | hset
    · exact .first hfile hseen hno hc hu
    · exact hset.diff ht hc hu
  | @read t p prog ht =>
    refine ⟨h.dir, hinv, h.listed_update (by simp), .inr ?_⟩
    refine (h.settling ht).exec ht rfl rfl (fun q => ?_) ?_ ?_
    · simp
    · intro q hq
      cases hq
      rw [← h.dir]
      exact update_self _ _ _
    · intro q hq
      exact update_of_ne (fun heq => hq (by rw [heq])) _ _
  | add ht | remove ht =>
    refine ⟨h.dir, hinv, h.listed_update (by simp), .inr ?_⟩
    exact (h.settling ht).exec ht rfl rfl (fun _ => .rfl) (by simp) (fun _ _ => rfl)
  | finish ht =>
    refine ⟨h.dir, hinv, h.listed_update (by simp), .inr ?_⟩
    exact (h.settling ht).frame (by simp [ht]) (by simp)

theorem Phase.cached (h : Phase keyDir s₀ t₀ s) (hq : s.quiet) (p : Bytes) :
    (Listed keyDir s₀.dir.infos (fun _ => True) p →
      s.cache.cached p = (settled keyDir s₀ p).toList) ∧
    (¬ Listed keyDir s₀.dir.infos (fun _ => True) p → s.cache.cached p = []) := by
  have hset : Settling keyDir s₀ s := by
    rcases h.progress with ⟨-, -, -, ht₀⟩ | hset
    · exact absurd (hq t₀) ht₀
    · exact hset
  have hagrees := (h.inv.paths p).done fun u => by
    rw [hq u]
    rfl
  cases hagrees with
  | done hin hout =>
    rw [hset.all p] at hin hout
    refine ⟨fun hp => ?_, hout⟩
    rcases hset.seen p hp with hseen | ⟨t, prog, ht, -⟩
    · rw [← hseen]
      exact hin hp
    · rw [hq t] at ht
      cases ht

theorem settled_iff : Noticeable keyDir s ↔ ∀ p, Listed keyDir s.dir.infos (fun _ => True) p →
      settled keyDir s p = readAccount keyDir s.dir p := by
  constructor
  · intro h p hp
    unfold settled
    split_ifs with hover
    · obtain ⟨fi, hfi, hkey, hpath, -⟩ := hp
      subst hpath
      refine h fi hfi hkey hover.1 (le_of_not_gt fun hlt => ?_)
      exact hover.2 ⟨fi, hfi, hkey, rfl, hlt⟩
    · rfl
  · intro h fi hfi hkey hold hle
    have hover : Overlooked keyDir s (joinPath keyDir fi.name) := by
      refine ⟨hold, fun hmod => ?_⟩
      obtain ⟨fi', hfi', -, hpath, hlt⟩ := hmod
      rw [Dir.info_inj hfi' hfi (joinPath_inj hpath)] at hlt
      omega
    have hset := h _ ⟨fi, hfi, hkey, rfl, trivial⟩
    rwa [settled, if_pos hover] at hset

theorem Phase.perm_iff (h : Phase keyDir s₀ t₀ s) (hq : s.quiet) :
    s.cache.all.Perm (s₀.dir.files.filterMap (keyAccount keyDir)) ↔ Noticeable keyDir s₀ := by
  have hcached := h.cached hq
  have hlen : ∀ p, (s.cache.cached p).length ≤ 1 := by
    intro p
    by_cases hp : Listed keyDir s₀.dir.infos (fun _ => True) p
    · rw [(hcached p).1 hp]
      cases settled keyDir s₀ p <;> simp
    · simp [(hcached p).2 hp]
  rw [perm_ext_iff_of_nodup (nodup_of_cached hlen)
    (keyAccount_nodup keyDir s₀.dir), settled_iff]
  constructor
  · intro hperm p hp
    have hmem : ∀ x : Account, x.url.path = p →
        (x ∈ settled keyDir s₀ p ↔ readAccount keyDir s₀.dir p = some x) := by
      intro x hx
      have hiff := hperm x
      rw [mem_cached, keyAccount_mem, hx, (hcached p).1 hp] at hiff
      simpa [hp] using hiff
    ext x
    constructor
    · intro hx
      have hin : x ∈ s.cache.cached p := by simp [(hcached p).1 hp, hx]
      exact (hmem x (by simpa using (mem_filter.mp hin).2)).mp hx
    · intro hx
      exact (hmem x (by rw [readAccount_url hx])).mpr hx
  · intro hall x
    rw [mem_cached, keyAccount_mem]
    by_cases hp : Listed keyDir s₀.dir.infos (fun _ => True) x.url.path
    · rw [(hcached _).1 hp, hall _ hp]
      simp [hp]
    · simp [(hcached _).2 hp, hp]

end Phase

/-- After some history from an empty cache no run is under way; then one begins, the directory
does not change, and at the end no run is under way. -/
structure LastRun (keyDir : Bytes) (ok : Store → ScanAct → Prop) (d : Dir) (s s₂ : Store) :
    Prop where
  history : Reach (ScanStep keyDir) ok (Store.init d) s
  quiet : s.quiet
  last : ∃ t s₁, ScanStep keyDir s (.list t) s₁ ∧
    Reach (ScanStep keyDir) (fun _ a => still a) s₁ s₂
  ended : s₂.quiet

theorem cache_converges {d : Dir} {s s₂ : Store} (h : LastRun keyDir (Careful keyDir) d s s₂) :
    (s₂.cache.all.Perm (s.dir.files.filterMap (keyAccount keyDir)) ↔ Noticeable keyDir s) ∧
      ∀ addr, (s₂.cache.accountsOf addr).Perm
        (s₂.cache.all.filter fun a => decide (a.address = addr)) := by
  obtain ⟨hrun, hquiet, ⟨t, s₁, hlist, hlast⟩, hend⟩ := h
  have hinv : StoreInv s := hrun.invariant (.init d) fun _ _ _ h hok hs => h.step hok hs
  have hphase : Phase keyDir s t s₂ :=
    hlast.invariant (Phase.start hinv hquiet hlist) fun _ _ _ h hok hs => h.step hok hs
  exact ⟨hphase.perm_iff hend, hphase.inv.valid.listed⟩

theorem Enumerates.of_eq {l : List Bytes} {s : Finset Bytes} (hl : l.Nodup) (h : s = l.toFinset) :
    Enumerates l s := by
  subst h
  exact ⟨hl, fun p => mem_toFinset.symm⟩

section Alone
variable {ok : Store → ScanAct → Prop} {s : Store} {t : ℕ}
  (hdiff : ok { s with run := Function.update s.run t (.listed s.dir.infos) } (.diff t))
  (hfinish : ∀ s, ok s (.finish t)) (ht : s.run t = .idle)
include hdiff hfinish ht

theorem reach_new {p : Bytes} {a : Account} (hexec : ∀ s, ok s (.exec t))
    (hc : (s.fileC.scan keyDir s.dir.infos).1.creates = {p})
    (hd : (s.fileC.scan keyDir s.dir.infos).1.deletes = ∅)
    (hu : (s.fileC.scan keyDir s.dir.infos).1.updates = ∅)
    (hread : readAccount keyDir s.dir p = some a) :
    Reach (ScanStep keyDir) ok { s with run := update s.run t (.listed s.dir.infos) }
      { s with
        fileC := (s.fileC.scan keyDir s.dir.infos).2
        cache := s.cache.add a
        seen := update s.seen p (some a) } := by
  have h0 : Reach (ScanStep keyDir) ok
    { s with run := update s.run t (.listed s.dir.infos) }
    { s with run := update s.run t (.listed s.dir.infos) } := .refl _
  have h1 := h0.tail (.diff (update_self _ _ _) (.of_eq (nodup_singleton p) hc)
    (.of_eq nodup_nil hd) (.of_eq nodup_nil hu)) hdiff
  have h2 := h1.tail (.read (update_self _ _ _)) (hexec _)
  dsimp only at h2
  rw [hread] at h2
  have h3 := h2.tail (.add (update_self _ _ _)) (hexec _)
  have h4 := h3.tail (.finish (update_self _ _ _)) (hfinish _)
  dsimp only at h4
  rw [update_idem, update_idem, update_idem, update_idem, ← ht,
    update_eq_self] at h4
  exact h4

theorem reach_same (hc : (s.fileC.scan keyDir s.dir.infos).1.creates = ∅)
    (hd : (s.fileC.scan keyDir s.dir.infos).1.deletes = ∅)
    (hu : (s.fileC.scan keyDir s.dir.infos).1.updates = ∅) :
    Reach (ScanStep keyDir) ok { s with run := update s.run t (.listed s.dir.infos) }
      { s with fileC := (s.fileC.scan keyDir s.dir.infos).2 } := by
  have h0 : Reach (ScanStep keyDir) ok
    { s with run := update s.run t (.listed s.dir.infos) }
    { s with run := update s.run t (.listed s.dir.infos) } := .refl _
  have h1 := h0.tail (.diff (update_self _ _ _) (.of_eq nodup_nil hc)
    (.of_eq nodup_nil hd) (.of_eq nodup_nil hu)) hdiff
  have h2 := h1.tail (.finish (update_self _ _ _)) (hfinish _)
  dsimp only at h2
  rw [update_idem, update_idem, ← ht, update_eq_self] at h2
  exact h2

end Alone

def oneKey (address : Bytes) (modTime : ℤ) : Dir where
  files := [⟨⟨ascii "a", false, false, modTime⟩, some (.obj [(ascii "address", .str address)])⟩]
  nodup := by simp

def oneAccount (b : Byte) : Account :=
  ⟨List.replicate 19 0 ++ [b], keyStoreScheme, ascii "k/a"⟩

theorem apart_alone {s : Store} {t : ℕ} {r : RunPc} (hq : s.quiet) :
    Apart keyDir { s with run := update s.run t r } t := by
  intro files _ u hu p _
  dsimp only
  rw [update_of_ne hu, hq u]
  rfl

theorem noticeable_oneKey {s : Store} {address : Bytes} {m : ℤ} (hdir : s.dir = oneKey address m)
    (hseen : s.seen (ascii "k/a") = readAccount (ascii "k") (oneKey address m) (ascii "k/a")) :
    Noticeable (ascii "k") s := by
  intro fi hfi _ _ _
  have hname : joinPath (ascii "k") fi.name = ascii "k/a" := by
    rw [hdir] at hfi
    rw [mem_singleton.mp hfi]
    rfl
  rw [hname, hdir]
  exact hseen

def scannedOne : Store where
  dir := oneKey (ascii "01") 5
  fileC := (FileCache.empty.scan (ascii "k") (oneKey (ascii "01") 5).infos).2
  cache := AccountCache.empty.add (oneAccount 1)
  run := fun _ => .idle
  seen := Function.update (fun _ => none) (ascii "k/a") (some (oneAccount 1))

theorem reach_scannedOne {ok : Store → ScanAct → Prop} {t : ℕ} {run : ℕ → RunPc}
    (hrun : run = update (fun _ => .idle) t (.listed (oneKey (ascii "01") 5).infos))
    (hdiff : ok { Store.init (oneKey (ascii "01") 5) with run := run } (.diff t))
    (hexec : ∀ s, ok s (.exec t)) (hfinish : ∀ s, ok s (.finish t)) :
    Reach (ScanStep (ascii "k")) ok { Store.init (oneKey (ascii "01") 5) with run := run }
      scannedOne := by
  subst hrun
  exact reach_new (s := Store.init (oneKey (ascii "01") 5)) hdiff hfinish rfl hexec
    (by decide) (by decide) (by decide) (by decide)

theorem cache_converges_one : ∃ s₂ : Store,
    LastRun (ascii "k") (Careful (ascii "k")) (oneKey (ascii "01") 5)
      (Store.init (oneKey (ascii "01") 5)) s₂ ∧
    s₂.cache.all.Perm ((oneKey (ascii "01") 5).files.filterMap (keyAccount (ascii "k"))) := by
  have hlast : LastRun (ascii "k") (Careful (ascii "k")) (oneKey (ascii "01") 5)
      (Store.init (oneKey (ascii "01") 5)) scannedOne :=
    ⟨.refl _, fun _ => rfl, ⟨0, _, .list rfl,
      reach_scannedOne rfl trivial (fun _ => trivial) (fun _ => trivial)⟩, fun _ => rfl⟩
  refine ⟨scannedOne, hlast, (cache_converges hlast).1.mpr ?_⟩
  intro fi _ _ hold
  simp [Store.init, FileCache.empty] at hold

/-- A rewritten file with the same time stamp keeps its old account; and two runs that overlap
leave two accounts for one file. -/
theorem cache_diverges : (∃ d s s₂, LastRun (ascii "k") (Careful (ascii "k")) d s s₂ ∧
      ¬ s₂.cache.all.Perm (s.dir.files.filterMap (keyAccount (ascii "k")))) ∧
    ∃ d s s₂, LastRun (ascii "k") (fun _ _ => True) d s s₂ ∧ Noticeable (ascii "k") s ∧
      ¬ s₂.cache.all.Perm (s.dir.files.filterMap (keyAccount (ascii "k"))) := by
  constructor
  · have h0 : Reach (ScanStep (ascii "k")) (Careful (ascii "k")) (Store.init (oneKey (ascii "01") 5))
      (Store.init (oneKey (ascii "01") 5)) := .refl _
    have h1 := (h0.tail (.list (t := 0) rfl) trivial).trans
      (reach_scannedOne rfl (apart_alone fun _ => rfl) (fun _ => trivial) (fun _ => trivial))
    have h2 := h1.tail (.change (oneKey (ascii "02") 5)) trivial
    refine ⟨_, _, _, ⟨h2, fun _ => rfl, ⟨0, _, .list rfl, reach_same trivial (fun _ => trivial) rfl
      (by decide) (by decide) (by decide)⟩, fun _ => rfl⟩, ?_⟩
    decide
  · have h0 : Reach (ScanStep (ascii "k")) (fun _ _ => True) (Store.init (oneKey (ascii "01") 5))
      (Store.init (oneKey (ascii "01") 5)) := .refl _
    -- the first run has read the file, but not yet added its account
    have h1 := h0.tail (.list (t := 0) rfl) trivial
    have h2 := h1.tail (.diff (t := 0) rfl (.of_eq (nodup_singleton (ascii "k/a")) (by decide))
      (.of_eq nodup_nil (by decide)) (.of_eq nodup_nil (by decide))) trivial
    have h3 := h2.tail (.read (t := 0) (p := ascii "k/a") rfl) trivial
    have h4 := h3.tail (.change (oneKey (ascii "02") 6)) trivial
    have h5 := h4.tail (.list (t := 1) rfl) trivial
    have h6 := h5.tail (.diff (t := 1) rfl (.of_eq nodup_nil (by decide))
      (.of_eq nodup_nil (by decide)) (.of_eq (nodup_singleton (ascii "k/a")) (by decide)))
      trivial
    have h7 := h6.tail (.remove (t := 1) (p := ascii "k/a") rfl) trivial
    have h8 := h7.tail (.read (t := 1) (p := ascii "k/a") rfl) trivial
    have h9 := h8.tail (.add (t := 1) (a := oneAccount 2) rfl) trivial
    have h10 := h9.tail (.finish (t := 1) rfl) trivial
    have h11 := h10.tail (.add (t := 0) (a := oneAccount 1) rfl) trivial
    have h12 := h11.tail (.finish (t := 0) rfl) trivial
    refine ⟨_, _, _, ⟨h12, fun t => ?_, ⟨0, _, .list rfl, reach_same trivial (fun _ => trivial) rfl
      (by decide) (by decide) (by decide)⟩, fun t => ?_⟩, ?_, ?_⟩
    · rcases t with _ | _ | t <;> rfl
    · rcases t with _ | _ | t <;> rfl
    · exact noticeable_oneKey (m := 6) rfl (by decide)
    · decide

end Fiscobcos.Keystore
