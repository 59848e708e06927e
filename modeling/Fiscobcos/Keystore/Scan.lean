import Fiscobcos.Keystore.AccountCache
import Fiscobcos.Lib.Steps
import Mathlib.Data.Finset.Basic

/-! # Scanning the key directory (accounts/keystore/file_cache.go, account_cache.go)

A run of `scanAccounts` takes the differences to the previous listing under the lock of the file
cache, and applies them one by one. Runs and changes of the directory are interleaved. -/

namespace Fiscobcos.Keystore
open Numerals JsonTree Hexutil Steps Function List Option

/-- `special` for `Mode()&os.ModeType != 0`; times count from the zero time. -/
structure FileInfo where
  name : Bytes
  isDir : Bool
  special : Bool
  modTime : ℤ

/-- `content` is the first JSON value that reading the file gives, if it gives one. -/
structure File where
  info : FileInfo
  content : Option Value

structure Dir where
  files : List File
  nodup : (files.map fun f => f.info.name).Nodup

def Dir.infos (d : Dir) : List FileInfo := d.files.map File.info

/-- `filepath.Join` for a directory that is clean, as `filepath.Abs` leaves it, and not the root. -/
def joinPath (keyDir name : Bytes) : Bytes := keyDir ++ 47 :: name

def nonKeyFile (fi : FileInfo) : Bool :=
  fi.name.getLast? = some 126 || fi.name.head? = some 46 || fi.isDir || fi.special

def keyLayout : Layout Bytes where
  names := [ascii "address"]
  store _ v s := decodeString v s

def accountOf (path : Bytes) (content : Option Value) : Option Account := do
  let v ← content
  let address ← keyLayout.decodeValue v []
  if hexToAddress address = List.replicate 20 0 then none
  else some ⟨hexToAddress address, keyStoreScheme, path⟩

def Dir.osOpen (keyDir : Bytes) (d : Dir) (path : Bytes) : Option File :=
  d.files.find? fun f => joinPath keyDir f.info.name = path

def readAccount (keyDir : Bytes) (d : Dir) (path : Bytes) : Option Account :=
  (d.osOpen keyDir path).bind fun f => accountOf path f.content

structure FileCache where
  all : Finset Bytes
  lastMod : ℤ

def FileCache.empty : FileCache := ⟨∅, 0⟩

structure Gathered where
  all : Finset Bytes
  mods : Finset Bytes
  newLastMod : ℤ

def gather (keyDir : Bytes) (lastMod : ℤ) (g : Gathered) (fi : FileInfo) : Gathered :=
  if nonKeyFile fi then g
  else
    { all := insert (joinPath keyDir fi.name) g.all
      mods := if lastMod < fi.modTime then insert (joinPath keyDir fi.name) g.mods else g.mods
      newLastMod := if g.newLastMod < fi.modTime then fi.modTime else g.newLastMod }

structure Diffs where
  creates : Finset Bytes
  deletes : Finset Bytes
  updates : Finset Bytes

/-- `scan`, after the directory has been listed. -/
def FileCache.scan (keyDir : Bytes) (fc : FileCache) (files : List FileInfo) : Diffs × FileCache :=
  let g := files.foldl (gather keyDir fc.lastMod) ⟨∅, ∅, 0⟩
  let creates := g.all \ fc.all
  ({ creates := creates, deletes := fc.all \ g.all, updates := g.mods \ creates },
    { all := g.all, lastMod := g.newLastMod })

inductive Instr where
  | read (path : Bytes)
  | add (a : Account)
  | remove (path : Bytes)

def Instr.path : Instr → Bytes
  | .read path => path
  | .add a => a.url.path
  | .remove path => path

def program (creates deletes updates : List Bytes) : List Instr :=
  creates.flatMap (fun p => [.read p]) ++ deletes.flatMap (fun p => [.remove p]) ++
    updates.flatMap fun p => [.remove p, .read p]

/-- `ToSlice`, in any order. -/
structure Enumerates (l : List Bytes) (s : Finset Bytes) : Prop where
  nodup : l.Nodup
  mem : ∀ p, p ∈ l ↔ p ∈ s

inductive RunPc where
  | idle
  | listed (files : List FileInfo)
  | working (prog : List Instr)

/-- `seen` is the account that the last reading of a path gave. -/
structure Store where
  dir : Dir
  fileC : FileCache
  cache : AccountCache
  run : ℕ → RunPc
  seen : Bytes → Option Account

def Store.init (d : Dir) : Store := ⟨d, .empty, .empty, fun _ => .idle, fun _ => none⟩

inductive ScanAct where
  | change
  | list (t : ℕ)
  | diff (t : ℕ)
  | exec (t : ℕ)
  | finish (t : ℕ)

inductive ScanStep (keyDir : Bytes) : Store → ScanAct → Store → Prop
  | change {s : Store} (d : Dir) : ScanStep keyDir s .change { s with dir := d }
  | list {s : Store} {t : ℕ} (h : s.run t = .idle) :
    ScanStep keyDir s (.list t) { s with run := Function.update s.run t (.listed s.dir.infos) }
  | diff {s : Store} {t : ℕ} {files : List FileInfo} {cs ds us : List Bytes}
      (h : s.run t = .listed files) (hc : Enumerates cs (s.fileC.scan keyDir files).1.creates)
      (hd : Enumerates ds (s.fileC.scan keyDir files).1.deletes)
      (hu : Enumerates us (s.fileC.scan keyDir files).1.updates) :
    ScanStep keyDir s (.diff t)
      { s with
        fileC := (s.fileC.scan keyDir files).2
        run := Function.update s.run t (.working (program cs ds us)) }
  | read {s : Store} {t : ℕ} {p : Bytes} {prog : List Instr}
      (h : s.run t = .working (.read p :: prog)) :
    ScanStep keyDir s (.exec t)
      { s with
        seen := Function.update s.seen p (readAccount keyDir s.dir p)
        run := Function.update s.run t
          (.working ((readAccount keyDir s.dir p).toList.map .add ++ prog)) }
  | add {s : Store} {t : ℕ} {a : Account} {prog : List Instr}
      (h : s.run t = .working (.add a :: prog)) :
    ScanStep keyDir s (.exec t)
      { s with cache := s.cache.add a, run := Function.update s.run t (.working prog) }
  | remove {s : Store} {t : ℕ} {p : Bytes} {prog : List Instr}
      (h : s.run t = .working (.remove p :: prog)) :
    ScanStep keyDir s (.exec t)
      { s with
        cache := s.cache.deleteByFile p
        run := Function.update s.run t (.working prog) }
  | finish {s : Store} {t : ℕ} (h : s.run t = .working []) :
    ScanStep keyDir s (.finish t) { s with run := Function.update s.run t .idle }

section Scan
variable {keyDir : Bytes} {fc : FileCache} {files : List FileInfo} {p : Bytes}

def Listed (keyDir : Bytes) (files : List FileInfo) (ok : FileInfo → Prop) (p : Bytes) : Prop :=
  ∃ fi ∈ files, nonKeyFile fi = false ∧ joinPath keyDir fi.name = p ∧ ok fi

theorem Listed.cons_iff {fi : FileInfo} {ok : FileInfo → Prop} : Listed keyDir (fi :: files) ok p ↔
      (nonKeyFile fi = false ∧ joinPath keyDir fi.name = p ∧ ok fi) ∨ Listed keyDir files ok p := by
  simp [Listed]

theorem Listed.listed {ok : FileInfo → Prop} (h : Listed keyDir files ok p) :
    Listed keyDir files (fun _ => True) p := by
  obtain ⟨fi, hfi, hkey, hpath, -⟩ := h
  exact ⟨fi, hfi, hkey, hpath, trivial⟩

theorem foldl_gather (keyDir : Bytes) (lastMod : ℤ) (files : List FileInfo) (g : Gathered) :
    (∀ p, p ∈ (files.foldl (gather keyDir lastMod) g).all ↔
      p ∈ g.all ∨ Listed keyDir files (fun _ => True) p) ∧
    (∀ p, p ∈ (files.foldl (gather keyDir lastMod) g).mods ↔
      p ∈ g.mods ∨ Listed keyDir files (fun fi => lastMod < fi.modTime) p) ∧
    g.newLastMod ≤ (files.foldl (gather keyDir lastMod) g).newLastMod ∧
    ∀ fi ∈ files, nonKeyFile fi = false →
      fi.modTime ≤ (files.foldl (gather keyDir lastMod) g).newLastMod := by
  induction files generalizing g with
  | nil => simp [Listed]
  | cons fi files ih =>
    obtain ⟨hall, hmods, hle, hbound⟩ := ih (gather keyDir lastMod g fi)
    rw [foldl_cons]
    cases hkey : nonKeyFile fi with
    | true =>
      have hskip : gather keyDir lastMod g fi = g := by simp [gather, hkey]
      rw [hskip] at hall hmods hle hbound ⊢
      refine ⟨fun p => ?_, fun p => ?_, hle, fun fi' hfi' hkey' => ?_⟩
      · rw [hall, Listed.cons_iff]
        simp [hkey]
      · rw [hmods, Listed.cons_iff]
        simp [hkey]
      · rcases mem_cons.mp hfi' with rfl | hfi'
        · simp [hkey] at hkey'
        · exact hbound fi' hfi' hkey'
    | false =>
      have hnew : g.newLastMod ≤ (gather keyDir lastMod g fi).newLastMod ∧
          fi.modTime ≤ (gather keyDir lastMod g fi).newLastMod := by
        simp only [gather, hkey, Bool.false_eq_true, if_false]
        split_ifs <;> constructor <;> omega
      refine ⟨fun p => ?_, fun p => ?_, hnew.1.trans hle, fun fi' hfi' hkey' => ?_⟩
      · rw [hall, Listed.cons_iff]
        simp only [gather, hkey, Bool.false_eq_true, if_false, Finset.mem_insert]
        grind
      · rw [hmods, Listed.cons_iff]
        simp only [gather, hkey, Bool.false_eq_true, if_false]
        split_ifs with hlt
        · rw [Finset.mem_insert]
          grind
        · simp [hlt]
      · rcases mem_cons.mp hfi' with rfl | hfi'
        · exact hnew.2.trans hle
        · exact hbound fi' hfi' hkey'

theorem scan_all : p ∈ (fc.scan keyDir files).2.all ↔ Listed keyDir files (fun _ => True) p := by
  have h := (foldl_gather keyDir fc.lastMod files ⟨∅, ∅, 0⟩).1 p
  simpa [FileCache.scan] using h

theorem scan_lastMod : ∀ fi ∈ files, nonKeyFile fi = false →
    fi.modTime ≤ (fc.scan keyDir files).2.lastMod :=
  (foldl_gather keyDir fc.lastMod files ⟨∅, ∅, 0⟩).2.2.2

theorem mem_creates : p ∈ (fc.scan keyDir files).1.creates ↔
    Listed keyDir files (fun _ => True) p ∧ p ∉ fc.all := by
  have h := (foldl_gather keyDir fc.lastMod files ⟨∅, ∅, 0⟩).1 p
  simp only [Finset.notMem_empty, false_or] at h
  simp only [FileCache.scan, Finset.mem_sdiff, h]

theorem mem_deletes : p ∈ (fc.scan keyDir files).1.deletes ↔
    p ∈ fc.all ∧ ¬ Listed keyDir files (fun _ => True) p := by
  have h := (foldl_gather keyDir fc.lastMod files ⟨∅, ∅, 0⟩).1 p
  simp only [Finset.notMem_empty, false_or] at h
  simp only [FileCache.scan, Finset.mem_sdiff, h]

theorem mem_updates : p ∈ (fc.scan keyDir files).1.updates ↔
    Listed keyDir files (fun fi => fc.lastMod < fi.modTime) p ∧ p ∈ fc.all := by
  obtain ⟨hall, hmods, -⟩ := foldl_gather keyDir fc.lastMod files ⟨∅, ∅, 0⟩
  have hall' := hall p
  have hmods' := hmods p
  simp only [Finset.notMem_empty, false_or] at hall' hmods'
  simp only [FileCache.scan, Finset.mem_sdiff, hmods', hall', not_and, not_not]
  constructor
  · intro h
    exact ⟨h.1, h.2 h.1.listed⟩
  · intro h
    exact ⟨h.1, fun _ => h.2⟩

def Touched (keyDir : Bytes) (fc : FileCache) (files : List FileInfo) (p : Bytes) : Prop :=
  ¬ (p ∈ fc.all ↔ Listed keyDir files (fun _ => True) p) ∨
    Listed keyDir files (fun fi => fc.lastMod < fi.modTime) p

end Scan

def RunPc.todo (r : RunPc) (p : Bytes) : List Instr :=
  match r with
  | .working prog => prog.filter fun i => decide (i.path = p)
  | _ => []

theorem todo_working (prog : List Instr) (p : Bytes) :
    (RunPc.working prog).todo p = prog.filter fun i => decide (i.path = p) := rfl

variable {i : Instr} {prog : List Instr} {p : Bytes}

theorem todo_cons_pos (h : i.path = p) :
    (RunPc.working (i :: prog)).todo p = i :: (RunPc.working prog).todo p := by
  rw [todo_working, todo_working, filter_cons_of_pos (by simpa using h)]

theorem todo_cons_neg (h : i.path ≠ p) :
    (RunPc.working (i :: prog)).todo p = (RunPc.working prog).todo p := by
  rw [todo_working, todo_working, filter_cons_of_neg (by simpa using h)]

theorem filter_flatMap_path {l : List Bytes} (hl : l.Nodup) {block : Bytes → List Instr}
    (hblock : ∀ q, ∀ i ∈ block q, i.path = q) (p : Bytes) :
    (l.flatMap block).filter (fun i => decide (i.path = p)) = if p ∈ l then block p else [] := by
  induction l with
  | nil => rfl
  | cons q l ih =>
    obtain ⟨hq, hl⟩ := nodup_cons.mp hl
    rw [flatMap_cons, filter_append, ih hl]
    by_cases hqp : q = p
    · subst hqp
      have hkeep : (block q).filter (fun i => decide (i.path = q)) = block q := by
        rw [filter_eq_self]
        intro i hi
        simpa using hblock q i hi
      simp [hkeep, hq]
    · have hdrop : (block q).filter (fun i => decide (i.path = p)) = [] := by
        rw [filter_eq_nil_iff]
        intro i hi
        rw [hblock q i hi]
        simpa using hqp
      simp [hdrop, Ne.symm hqp]

theorem todo_program {cs ds us : List Bytes} (hc : cs.Nodup) (hd : ds.Nodup) (hu : us.Nodup)
    (p : Bytes) :
    (RunPc.working (program cs ds us)).todo p =
      (if p ∈ cs then [.read p] else []) ++ (if p ∈ ds then [.remove p] else []) ++
        if p ∈ us then [.remove p, .read p] else [] := by
  rw [todo_working, program, filter_append, filter_append, filter_flatMap_path hc (by simp [Instr.path]),
    filter_flatMap_path hd (by simp [Instr.path]), filter_flatMap_path hu (by simp [Instr.path])]

inductive Agrees (known : Prop) (seen : Option Account) (cached : List Account) : List Instr → Prop
  | done (hin : known → cached = seen.toList) (hout : ¬ known → cached = []) :
    Agrees known seen cached []
  | read {p : Bytes} (hk : known) (hc : cached = []) : Agrees known seen cached [.read p]
  | add {a : Account} (hk : known) (hc : cached = []) (hs : seen = some a) :
    Agrees known seen cached [.add a]
  | remove {p : Bytes} (hk : ¬ known) (hc : cached.length ≤ 1) :
    Agrees known seen cached [.remove p]
  | refresh {p : Bytes} (hk : known) (hc : cached.length ≤ 1) :
    Agrees known seen cached [.remove p, .read p]

def PathInv (s : Store) (p : Bytes) : Prop :=
  ∃ t, (∀ u, u ≠ t → (s.run u).todo p = []) ∧
    Agrees (p ∈ s.fileC.all) (s.seen p) (s.cache.cached p) ((s.run t).todo p)

structure StoreInv (s : Store) : Prop where
  valid : s.cache.Valid
  seen : ∀ p a, s.seen p = some a → a.url = ⟨keyStoreScheme, p⟩
  paths : ∀ p, PathInv s p

variable {a : Account}

theorem accountOf_url {path : Bytes} {content : Option Value}
    (h : accountOf path content = some a) : a.url = ⟨keyStoreScheme, path⟩ := by
  simp only [accountOf, bind_eq_bind, bind_eq_some_iff] at h
  obtain ⟨v, -, address, -, h⟩ := h
  split_ifs at h
  cases h
  rfl

theorem readAccount_url {keyDir : Bytes} {d : Dir}
    (h : readAccount keyDir d p = some a) : a.url = ⟨keyStoreScheme, p⟩ := by
  obtain ⟨f, -, hf⟩ := bind_eq_some_iff.mp h
  exact accountOf_url hf

section Steps
variable {keyDir : Bytes} {s s' : Store} {t : ℕ} {p : Bytes}

theorem StoreInv.init (d : Dir) : StoreInv (Store.init d) where
  valid := .empty
  seen p a h := by simp [Store.init] at h
  paths p := ⟨0, fun _ _ => rfl, .done (fun h => by simp [Store.init, FileCache.empty] at h)
    fun _ => rfl⟩

theorem PathInv.keep (h : PathInv s p) (htodo : ∀ u, (s'.run u).todo p = (s.run u).todo p)
    (hknown : p ∈ s'.fileC.all ↔ p ∈ s.fileC.all) (hseen : s'.seen p = s.seen p)
    (hcached : s'.cache.cached p = s.cache.cached p) : PathInv s' p := by
  obtain ⟨u, hothers, hagrees⟩ := h
  refine ⟨u, fun v hv => ?_, ?_⟩
  · rw [htodo]
    exact hothers v hv
  · rw [htodo, hseen, hcached, propext hknown]
    exact hagrees

theorem PathInv.agrees (h : PathInv s p) (ht : (s.run t).todo p ≠ []) :
    (∀ u, u ≠ t → (s.run u).todo p = []) ∧
      Agrees (p ∈ s.fileC.all) (s.seen p) (s.cache.cached p) ((s.run t).todo p) := by
  obtain ⟨u, hothers, hagrees⟩ := h
  have hut : u = t := by
    by_contra hne
    exact ht (hothers t (Ne.symm hne))
  subst hut
  exact ⟨hothers, hagrees⟩

theorem PathInv.done (h : PathInv s p) (ht : ∀ u, (s.run u).todo p = []) :
    Agrees (p ∈ s.fileC.all) (s.seen p) (s.cache.cached p) [] := by
  obtain ⟨u, -, hagrees⟩ := h
  rwa [ht] at hagrees

theorem todo_update_ne {run : ℕ → RunPc} {r : RunPc} {u : ℕ} (h : u ≠ t) (p : Bytes) :
    (update run t r u).todo p = (run u).todo p := by
  rw [update_of_ne h]

theorem todo_update_same {run : ℕ → RunPc} {r : RunPc} (h : r.todo p = (run t).todo p) (u : ℕ) :
    (update run t r u).todo p = (run u).todo p := by
  rw [update_apply]
  split_ifs with hu
  · rw [hu, h]
  · rfl

theorem PathInv.exec {prog' : List Instr} {s' : Store}
    (h : ∀ p, PathInv s p) (ht : s.run t = .working (i :: prog))
    (hrun : s'.run = update s.run t (.working prog')) (hfile : s'.fileC = s.fileC)
    (hprog : ∀ p, p ≠ i.path → (RunPc.working prog').todo p = (RunPc.working prog).todo p)
    (hseen : ∀ p, p ≠ i.path → s'.seen p = s.seen p)
    (hcached : ∀ p, p ≠ i.path → s'.cache.cached p = s.cache.cached p)
    (hagrees : Agrees (i.path ∈ s.fileC.all) (s.seen i.path) (s.cache.cached i.path)
        (i :: (RunPc.working prog).todo i.path) →
      Agrees (i.path ∈ s.fileC.all) (s'.seen i.path) (s'.cache.cached i.path)
        ((RunPc.working prog').todo i.path)) (p : Bytes) : PathInv s' p := by
  by_cases hp : p = i.path
  · subst hp
    have htodo : (s.run t).todo i.path = i :: (RunPc.working prog).todo i.path := by
      rw [ht, todo_cons_pos rfl]
    obtain ⟨hothers, hag⟩ := (h i.path).agrees (t := t) (by simp [htodo])
    rw [htodo] at hag
    refine ⟨t, fun u hu => ?_, ?_⟩
    · rw [hrun, todo_update_ne hu]
      exact hothers u hu
    · rw [hrun, update_self, hfile]
      exact hagrees hag
  · refine (h p).keep (fun u => ?_) (by rw [hfile]) (hseen p hp) (hcached p hp)
    rw [hrun]
    refine todo_update_same ?_ u
    rw [ht, todo_cons_neg (Ne.symm hp)]
    exact hprog p hp

theorem StoreInv.read (h : StoreInv s)
    (ht : s.run t = .working (.read p :: prog)) :
    StoreInv { s with
      seen := update s.seen p (readAccount keyDir s.dir p)
      run := update s.run t
        (.working ((readAccount keyDir s.dir p).toList.map .add ++ prog)) } where
  valid := h.valid
  seen q a hq := by
    dsimp only at hq
    rw [update_apply] at hq
    split_ifs at hq with hqp
    · rw [hqp]
      exact readAccount_url hq
    · exact h.seen q a hq
  paths := by
    refine PathInv.exec h.paths ht rfl rfl (fun q hq => ?_) (fun q hq => ?_) (fun _ _ => rfl) ?_
    · cases hread : readAccount keyDir s.dir p with
      | none => rfl
      | some a =>
        have hpath : a.url.path ≠ q := by
          rw [readAccount_url hread]
          exact Ne.symm hq
        rw [toList_some, map_singleton, singleton_append]
        exact todo_cons_neg hpath
    · exact update_of_ne hq _ _
    · intro hagrees
      dsimp only [Instr.path] at hagrees ⊢
      rw [update_self]
      generalize htodo : (RunPc.working prog).todo p = rest at hagrees
      cases hagrees with
      | read hk hc =>
        cases hread : readAccount keyDir s.dir p with
        | none =>
          rw [toList_none, map_nil, nil_append, htodo]
          exact .done (fun _ => hc) fun hno => absurd hk hno
        | some a =>
          have hpath : a.url.path = p := by rw [readAccount_url hread]
          have hadd : (RunPc.working (.add a :: prog)).todo p = [.add a] := by
            rw [todo_cons_pos (i := .add a) hpath, htodo]
          rw [toList_some, map_singleton, singleton_append, hadd]
          exact .add hk hc rfl

theorem StoreInv.add (h : StoreInv s) (ht : s.run t = .working (.add a :: prog)) :
    StoreInv { s with cache := s.cache.add a, run := update s.run t (.working prog) } := by
  have htodo : (s.run t).todo a.url.path = .add a :: (RunPc.working prog).todo a.url.path := by
    rw [ht]
    exact todo_cons_pos rfl
  have hag := ((h.paths a.url.path).agrees (t := t) (by simp [htodo])).2
  rw [htodo] at hag
  have hseen : s.seen a.url.path = some a := by
    generalize (RunPc.working prog).todo a.url.path = rest at hag
    cases hag with
    | add _ _ hs => exact hs
  have hscheme : a.url.scheme = keyStoreScheme := by rw [h.seen _ _ hseen]
  refine ⟨h.valid.add hscheme, h.seen, ?_⟩
  refine PathInv.exec h.paths ht rfl rfl (fun _ _ => rfl) (fun _ _ => rfl) (fun q hq => ?_) ?_
  · exact h.valid.add_cached_ne hscheme (Ne.symm hq)
  · intro hagrees
    dsimp only [Instr.path] at hagrees ⊢
    generalize (RunPc.working prog).todo a.url.path = rest at hagrees ⊢
    cases hagrees with
    | add hk hc hs =>
      rw [h.valid.add_cached hscheme hc, hs]
      exact .done (fun _ => rfl) fun hno => absurd hk hno

theorem StoreInv.remove (h : StoreInv s)
    (ht : s.run t = .working (.remove p :: prog)) :
    StoreInv { s with
      cache := s.cache.deleteByFile p, run := update s.run t (.working prog) } := by
  refine ⟨h.valid.delete p, h.seen, ?_⟩
  refine PathInv.exec h.paths ht rfl rfl (fun _ _ => rfl) (fun _ _ => rfl) (fun q hq => ?_) ?_
  · exact h.valid.delete_cached_ne (Ne.symm hq)
  · intro hagrees
    have htail : (s.cache.cached p).length ≤ 1 → (s.cache.cached p).tail = [] := by
      intro hlen
      rw [← length_eq_zero_iff, length_tail]
      omega
    dsimp only [Instr.path] at hagrees ⊢
    rw [h.valid.delete_cached p]
    generalize (RunPc.working prog).todo p = rest at hagrees ⊢
    cases hagrees with
    | remove hk hc => exact .done (fun hyes => absurd hyes hk) fun _ => htail hc
    | refresh hk hc => exact .read hk (htail hc)

def Apart (keyDir : Bytes) (s : Store) (t : ℕ) : Prop :=
  ∀ files, s.run t = .listed files → ∀ u, u ≠ t → ∀ p, Touched keyDir s.fileC files p →
    (s.run u).todo p = []

theorem StoreInv.diff {files : List FileInfo} {cs ds us : List Bytes} (h : StoreInv s)
    (ht : s.run t = .listed files) (hapart : Apart keyDir s t)
    (hc : Enumerates cs (s.fileC.scan keyDir files).1.creates)
    (hd : Enumerates ds (s.fileC.scan keyDir files).1.deletes)
    (hu : Enumerates us (s.fileC.scan keyDir files).1.updates) :
    StoreInv { s with
      fileC := (s.fileC.scan keyDir files).2
      run := update s.run t (.working (program cs ds us)) } := by
  refine ⟨h.valid, h.seen, fun p => ?_⟩
  have htodo := todo_program hc.nodup hd.nodup hu.nodup p
  have hcs := (hc.mem p).trans mem_creates
  have hds := (hd.mem p).trans mem_deletes
  have hus := (hu.mem p).trans mem_updates
  have hnone : (s.run t).todo p = [] := by
    rw [ht]
    rfl
  by_cases htouch : Touched keyDir s.fileC files p
  · have hothers : ∀ u, u ≠ t → (s.run u).todo p = [] := fun u hut =>
      hapart files ht u hut p htouch
    have hall : ∀ u, (s.run u).todo p = [] := by
      intro u
      by_cases hut : u = t
      · rw [hut, hnone]
      · exact hothers u hut
    have hagrees := (h.paths p).done hall
    refine ⟨t, fun u hut => ?_, ?_⟩
    · dsimp only
      rw [todo_update_ne hut]
      exact hothers u hut
    · dsimp only
      rw [update_self, htodo, propext scan_all]
      cases hagrees with
      | done hin hout =>
        by_cases hold : p ∈ s.fileC.all
        · have hlen : (s.cache.cached p).length ≤ 1 := by
            rw [hin hold]
            cases s.seen p <;> simp
          by_cases hnew : Listed keyDir files (fun _ => True) p
          · have hmod : p ∈ us := by
              refine hus.mpr ⟨?_, hold⟩
              rcases htouch with hdiff | hmod
              · exact absurd (iff_of_true hold hnew) hdiff
              · exact hmod
            rw [if_neg (fun hp => (hcs.mp hp).2 hold), if_neg (fun hp => (hds.mp hp).2 hnew),
              if_pos hmod]
            exact .refresh hnew hlen
          · rw [if_neg (fun hp => hnew (hcs.mp hp).1), if_pos (hds.mpr ⟨hold, hnew⟩),
              if_neg (fun hp => hnew (hus.mp hp).1.listed)]
            exact .remove hnew hlen
        · have hnew : Listed keyDir files (fun _ => True) p := by
            rcases htouch with hdiff | hmod
            · by_contra hnew
              exact hdiff (iff_of_false hold hnew)
            · exact hmod.listed
          rw [if_pos (hcs.mpr ⟨hnew, hold⟩), if_neg (fun hp => hold (hds.mp hp).1),
            if_neg (fun hp => hold (hus.mp hp).2)]
          exact .read hnew (hout hold)
  · obtain ⟨hsame, hmod⟩ := not_or.mp htouch
    rw [not_not] at hsame
    refine (h.paths p).keep (fun u => todo_update_same ?_ u) (scan_all.trans hsame.symm) rfl rfl
    rw [htodo, hnone, if_neg (fun hp => (hcs.mp hp).2 (hsame.mpr (hcs.mp hp).1)),
      if_neg (fun hp => (hds.mp hp).2 (hsame.mp (hds.mp hp).1)), if_neg (fun hp => hmod (hus.mp hp).1)]
    rfl

def Careful (keyDir : Bytes) (s : Store) : ScanAct → Prop
  | .diff t => Apart keyDir s t
  | _ => True

theorem StoreInv.step {a : ScanAct} (h : StoreInv s) (hok : Careful keyDir s a)
    (hs : ScanStep keyDir s a s') : StoreInv s' := by
  cases hs with
  | change d => exact ⟨h.valid, h.seen, h.paths⟩
  | list ht | finish ht =>
    refine ⟨h.valid, h.seen, fun p => (h.paths p).keep (fun u => ?_) .rfl rfl rfl⟩
    refine todo_update_same ?_ u
    rw [ht]
    rfl
  | diff ht hc hd hu => exact h.diff ht hok hc hd hu
  | read ht => exact h.read ht
  | add ht => exact h.add ht
  | remove ht => exact h.remove ht

end Steps

end Fiscobcos.Keystore
