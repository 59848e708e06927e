import Fiscobcos.Bloombits.Distributor
import Fiscobcos.Bloombits.Generator

/-! # Matchers (core/bloombits/matcher.go)

The rules of a matcher as bloom bits. A sub-matcher ANDs the vectors of a clause, ORs the clauses
and ANDs the vector so far; the last goroutine reads block numbers from a vector. -/

namespace Fiscobcos.Bloombits

open Numerals Bitset Fiscobcos.Types

def u64 (n : ℕ) : ℕ := n % 2 ^ 64

/-- The difference of two numbers below `2^64`. -/
def sub64 (a b : ℕ) : ℕ := if b ≤ a then a - b else 2 ^ 64 - (b - a)

variable {n : ℕ}

theorem u64_of_lt (h : n < 2 ^ 64) : u64 n = n := Nat.mod_eq_of_lt h

theorem sub64_of_le {a b : ℕ} (h : b ≤ a) : sub64 a b = a - b := if_pos h

abbrev BloomIndexes := Fin 3 → ℕ

section Hash
variable (hash : Bytes → Vector Byte 32)

omit hash in
theorem index_lt (i : Fin 3) : 2 * i.val < 32 := by omega

omit hash in
theorem index_succ_lt (i : Fin 3) : 2 * i.val + 1 < 32 := by omega

def calcBloomIndexes (b : Bytes) : BloomIndexes := fun i =>
  (((hash b).get ⟨2 * i.val, index_lt i⟩).val <<< 8 &&& 2047) +
    ((hash b).get ⟨2 * i.val + 1, index_succ_lt i⟩).val

def bloomBits : List (Option Bytes) → Option (List BloomIndexes)
  | [] => some []
  | none :: _ => none
  | some clause :: rest => (bloomBits rest).map (calcBloomIndexes hash clause :: ·)

def newFilters (filters : List (List (Option Bytes))) : List (List BloomIndexes) :=
  filters.filterMap fun filter => if filter.length = 0 then none else bloomBits hash filter

end Hash

def addScheduler (schedulers : ℕ → Option Scheduler) (idx : ℕ) : ℕ → Option Scheduler :=
  if (schedulers idx).isSome then schedulers
  else Function.update schedulers idx (some newScheduler)

structure Matcher where
  sectionSize : ℕ
  filters : List (List BloomIndexes)
  schedulers : ℕ → Option Scheduler

def allIndexes (filters : List (List BloomIndexes)) : List ℕ :=
  filters.flatMap fun bloomIndexLists => bloomIndexLists.flatMap fun bloomIndexList =>
    (List.finRange 3).map bloomIndexList

def newMatcher (hash : Bytes → Vector Byte 32) (sectionSize : ℕ)
    (filters : List (List (Option Bytes))) : Matcher :=
  ⟨sectionSize, newFilters hash filters,
    (allIndexes (newFilters hash filters)).foldl addScheduler fun _ => none⟩

theorem calcBloomIndexes_eq (hash : Bytes → Vector Byte 32) (b : Bytes) (i : Fin 3) :
    calcBloomIndexes hash b i = bloom9Bit hash b i := by
  have h2047 : 2047 = 2 ^ 11 - 1 := by norm_num
  have hlo := (hash b)[2 * i.val + 1].isLt
  have hindexes : calcBloomIndexes hash b i =
      ((hash b)[2 * i.val].val <<< 8 &&& 2047) + (hash b)[2 * i.val + 1].val := rfl
  rw [hindexes, bloom9Bit, h2047, Nat.and_two_pow_sub_one_eq_mod,
    Nat.and_two_pow_sub_one_eq_mod, Nat.shiftLeft_eq]
  omega

theorem bloomBits_eq_some {hash : Bytes → Vector Byte 32} {filter : List (Option Bytes)}
    {lists : List BloomIndexes} : bloomBits hash filter = some lists ↔
      ∃ clauses : List Bytes, filter = clauses.map some ∧
        lists = clauses.map (calcBloomIndexes hash) := by
  induction filter generalizing lists with
  | nil =>
    constructor
    · intro h
      cases h
      exact ⟨[], rfl, rfl⟩
    · intro h
      obtain ⟨clauses, hclauses, hlists⟩ := h
      have hnil : clauses = [] := List.map_eq_nil_iff.mp hclauses.symm
      rw [hlists, hnil]
      rfl
  | cons clause rest ih =>
    cases clause with
    | none =>
      constructor
      · intro h
        cases h
      · intro h
        obtain ⟨clauses, hclauses, _⟩ := h
        have hmem : none ∈ clauses.map some := hclauses ▸ List.mem_cons_self
        obtain ⟨c, _, hc⟩ := List.mem_map.mp hmem
        cases hc
    | some clause =>
      rw [bloomBits, Option.map_eq_some_iff]
      constructor
      · intro h
        obtain ⟨lists', hrest, hlists⟩ := h
        obtain ⟨clauses, hclauses, hmap⟩ := ih.mp hrest
        refine ⟨clause :: clauses, ?_, ?_⟩
        · rw [List.map_cons, hclauses]
        · rw [List.map_cons, ← hmap, hlists]
      · intro h
        obtain ⟨clauses, hclauses, hlists⟩ := h
        cases clauses with
        | nil => cases hclauses
        | cons c clauses =>
          rw [List.map_cons] at hclauses hlists
          obtain ⟨hc, hrest⟩ := List.cons.inj hclauses
          cases hc
          exact ⟨_, ih.mpr ⟨clauses, hrest, rfl⟩, hlists.symm⟩

theorem foldl_addScheduler_isSome (idxs : List ℕ) (schedulers : ℕ → Option Scheduler) (bit : ℕ) :
    (idxs.foldl addScheduler schedulers bit).isSome = true ↔
      (schedulers bit).isSome = true ∨ bit ∈ idxs := by
  induction idxs generalizing schedulers with
  | nil => simp
  | cons idx idxs ih =>
    have hone : (addScheduler schedulers idx bit).isSome = true ↔
        (schedulers bit).isSome = true ∨ bit = idx := by
      rw [addScheduler]
      by_cases hsome : (schedulers idx).isSome = true
      · rw [if_pos hsome]
        constructor
        · exact Or.inl
        · intro h
          rcases h with h | h
          · exact h
          · rw [h]
            exact hsome
      · rw [if_neg hsome, Function.update_apply]
        split_ifs with hbit
        · simp [hbit]
        · simp [hbit]
    rw [List.foldl_cons, ih, hone, List.mem_cons, or_assoc]

theorem foldl_addScheduler_new {idxs : List ℕ} {schedulers : ℕ → Option Scheduler}
    (h : ∀ bit sch, schedulers bit = some sch → sch = newScheduler) {bit : ℕ} {sch : Scheduler}
    (hsch : idxs.foldl addScheduler schedulers bit = some sch) : sch = newScheduler := by
  induction idxs generalizing schedulers with
  | nil => exact h bit sch hsch
  | cons idx idxs ih =>
    rw [List.foldl_cons] at hsch
    apply ih _ hsch
    intro b s hs
    rw [addScheduler] at hs
    split_ifs at hs with hsome
    · exact h b s hs
    · rw [Function.update_apply] at hs
      split_ifs at hs
      · exact (Option.some.inj hs).symm
      · exact h b s hs

/-- `bitset` is never nil. -/
structure PartialMatches where
  sec : ℕ
  bitset : Bytes

def copyVector (size : ℕ) (data : Bytes) : Bytes :=
  data.take (size / 8) ++ List.replicate (size / 8 - data.length) 0

def andVector (size : ℕ) (vector : Option Bytes) (data : Bytes) : Option Bytes :=
  match vector with
  | none => some (copyVector size data)
  | some v => some (zipBytes byteAnd v v data)

def orVector (vector : Option Bytes) (andVector : Option Bytes) : Option Bytes :=
  match vector with
  | none => andVector
  | some v => some (zipBytes byteOr v v (andVector.getD []))

def mergeVector (size : ℕ) (vector : Option Bytes) (subres : PartialMatches) : Bytes :=
  let orVector := vector.getD (List.replicate (size / 8) 0)
  zipBytes byteAnd orVector orVector subres.bitset

def testBytes (p : Bytes) : Bool := p.any fun b => decide (b ≠ 0)

def forward (size : ℕ) (vector : Option Bytes) (subres : PartialMatches) : Option PartialMatches :=
  if testBytes (mergeVector size vector subres) then
    some ⟨subres.sec, mergeVector size vector subres⟩
  else none

variable {vector : Option Bytes} {p : ℕ → Bool}

section Gather
variable {κ : Type} (size : ℕ) (ans : κ → Bytes)

def clauseVector (vector : Option Bytes) (bits : List κ) : Option Bytes :=
  bits.foldl (fun v k => andVector size v (ans k)) vector

def gather (vector clause : Option Bytes) : List (List κ) → Option Bytes
  | [] => vector
  | bits :: rest =>
    rest.foldl (fun v bits => orVector v (clauseVector size ans none bits))
      (orVector vector (clauseVector size ans clause bits))

def HasBits (vector : Option Bytes) (p : ℕ → Bool) : Prop :=
  ∃ v, vector = some v ∧ v.length = size / 8 ∧ ∀ i, bitAt v i = p i

variable {size ans}

theorem andVector_bits {data : Bytes} (h : HasBits size vector p) (hlen : data.length = size / 8) :
    HasBits size (andVector size vector data) fun i => p i && bitAt data i := by
  obtain ⟨v, hv, hsize, hbits⟩ := h
  refine ⟨zipBytes byteAnd v v data, by rw [hv]; rfl, ?_, fun i => ?_⟩
  · rw [zipBytes_length, hsize]
  · rw [bitAt_zipBytes (fun x y k hk => byteAnd_testBit hk) rfl (hsize.trans hlen.symm), hbits]

theorem andVector_none {data : Bytes} (hlen : data.length = size / 8) :
    HasBits size (andVector size none data) (bitAt data) := by
  refine ⟨data, ?_, hlen, fun i => rfl⟩
  rw [andVector, copyVector, ← hlen, List.take_length, Nat.sub_self]
  simp

theorem clauseVector_bits (hans : ∀ k, (ans k).length = size / 8) {bits : List κ} {k : κ} :
    HasBits size (clauseVector size ans none (k :: bits))
      fun i => (k :: bits).all fun k => bitAt (ans k) i := by
  have hrest : ∀ (bits : List κ) (vector : Option Bytes) (p : ℕ → Bool), HasBits size vector p →
      HasBits size (clauseVector size ans vector bits)
        fun i => p i && bits.all fun k => bitAt (ans k) i := by
    intro bits
    induction bits with
    | nil =>
      intro vector p h
      simpa [clauseVector] using h
    | cons k bits ih =>
      intro vector p h
      have hstep := ih _ _ (andVector_bits h (hans k))
      rw [clauseVector, List.foldl_cons, ← clauseVector]
      simpa [Bool.and_assoc] using hstep
  have hfirst := hrest bits _ _ (andVector_none (hans k))
  rw [clauseVector, List.foldl_cons, ← clauseVector]
  simpa using hfirst

theorem orVector_bits {clause : Option Bytes} {q : ℕ → Bool} (hv : HasBits size vector p)
    (hc : HasBits size clause q) : HasBits size (orVector vector clause) fun i => p i || q i := by
  obtain ⟨v, hv, hsize, hbits⟩ := hv
  obtain ⟨c, hc, hlen, hcbits⟩ := hc
  subst hv hc
  refine ⟨zipBytes byteOr v v c, rfl, ?_, fun i => ?_⟩
  · rw [zipBytes_length, hsize]
  · rw [bitAt_zipBytes (fun x y k hk => byteOr_testBit hk) rfl (hsize.trans hlen.symm), hbits,
      hcbits]

theorem gather_bits (hans : ∀ k, (ans k).length = size / 8) {clauses : List (List κ)}
    (hne : clauses ≠ []) (hbits : ∀ bits ∈ clauses, bits ≠ []) :
    HasBits size (gather size ans none none clauses)
      fun i => clauses.any fun bits => bits.all fun k => bitAt (ans k) i := by
  have hclause : ∀ bits : List κ, bits ≠ [] → HasBits size (clauseVector size ans none bits)
      fun i => bits.all fun k => bitAt (ans k) i := by
    intro bits hbits
    cases bits with
    | nil => exact absurd rfl hbits
    | cons k bits => exact clauseVector_bits hans
  have hrest : ∀ (rest : List (List κ)) (vector : Option Bytes) (p : ℕ → Bool),
      (∀ bits ∈ rest, bits ≠ []) → HasBits size vector p →
      HasBits size (rest.foldl (fun v bits => orVector v (clauseVector size ans none bits)) vector)
        fun i => p i || rest.any fun bits => bits.all fun k => bitAt (ans k) i := by
    intro rest
    induction rest with
    | nil =>
      intro vector p _ h
      simpa using h
    | cons bits rest ih =>
      intro vector p hall h
      have hone := orVector_bits h (hclause bits (hall bits List.mem_cons_self))
      have hstep := ih _ _ (fun b hb => hall b (List.mem_cons_of_mem _ hb)) hone
      rw [List.foldl_cons]
      simpa [Bool.or_assoc] using hstep
  cases clauses with
  | nil => exact absurd rfl hne
  | cons bits rest =>
    have hfirst := hclause bits (hbits bits List.mem_cons_self)
    have hall := hrest rest _ _ (fun b hb => hbits b (List.mem_cons_of_mem _ hb)) hfirst
    exact hall

end Gather

theorem testBytes_iff (p : Bytes) : testBytes p = true ↔ ∃ i, bitAt p i = true := any_ne_zero_iff

theorem forward_bits {size : ℕ} {subres : PartialMatches}
    (h : HasBits size vector p) (hlen : subres.bitset.length = size / 8) :
    (∃ res, forward size vector subres = some res ∧ res.sec = subres.sec ∧
      res.bitset.length = size / 8 ∧ ∀ i, bitAt res.bitset i = (p i && bitAt subres.bitset i)) ∨
    (forward size vector subres = none ∧ ∀ i, (p i && bitAt subres.bitset i) = false) := by
  obtain ⟨v, hv, hsize, hbits⟩ := h
  subst hv
  have hmerge : ∀ i, bitAt (mergeVector size (some v) subres) i =
      (p i && bitAt subres.bitset i) := by
    intro i
    rw [← hbits]
    exact bitAt_zipBytes (fun x y k hk => byteAnd_testBit hk) rfl (hsize.trans hlen.symm) i
  by_cases htest : testBytes (mergeVector size (some v) subres) = true
  · refine .inl ⟨_, if_pos htest, rfl, ?_, hmerge⟩
    show (zipBytes byteAnd v v subres.bitset).length = size / 8
    rw [zipBytes_length, hsize]
  · refine .inr ⟨if_neg htest, fun i => ?_⟩
    rw [← hmerge, ← Bool.not_eq_true]
    exact fun hbit => htest ((testBytes_iff _).mpr ⟨i, hbit⟩)

def sectionStart (size sec : ℕ) : ℕ := u64 (sec * size)

def firstBlock (size begin sec : ℕ) : ℕ :=
  if begin > sectionStart size sec then begin else sectionStart size sec

def lastBlock (size last sec : ℕ) : ℕ :=
  let lastOfSection := sub64 (u64 (sectionStart size sec + size)) 1
  if last < lastOfSection then last else lastOfSection

def scanBlock (size : ℕ) (res : PartialMatches) (i : ℕ) : Except Panic (Option ℕ × ℕ) :=
  match res.bitset[sub64 i (sectionStart size res.sec) / 8]? with
  | none => .error .indexOutOfRange
  | some next =>
    if next = 0 then .ok (none, u64 ((if i % 8 = 0 then u64 (i + 7) else i) + 1))
    else .ok (if next.val &&& 1 <<< (7 - i % 8) ≠ 0 then some i else none, u64 (i + 1))

def blocksFrom (size : ℕ) (res : PartialMatches) (i last : ℕ) : List ℕ :=
  (List.range' i (last + 1 - i)).filter fun n => bitAt res.bitset (n - sectionStart size res.sec)

section Scan
variable {size : ℕ} {res : PartialMatches} {i last : ℕ}

theorem blocksFrom_of_lt (h : last < i) : blocksFrom size res i last = [] := by
  have hzero : last + 1 - i = 0 := by omega
  rw [blocksFrom, hzero]
  rfl

theorem blocksFrom_of_le (h : i ≤ last) : blocksFrom size res i last =
    (if bitAt res.bitset (i - sectionStart size res.sec) then [i] else []) ++
      blocksFrom size res (i + 1) last := by
  have hsucc : last + 1 - i = last + 1 - (i + 1) + 1 := by omega
  rw [blocksFrom, hsucc, List.range'_succ, List.filter_cons, blocksFrom]
  split_ifs <;> rfl

theorem blocksFrom_skip
    (h : ∀ k < n, bitAt res.bitset (i + k - sectionStart size res.sec) = false) :
    blocksFrom size res i last = blocksFrom size res (i + n) last := by
  induction n with
  | zero => rfl
  | succ n ih =>
    rw [ih fun k hk => h k (by omega)]
    by_cases hle : i + n ≤ last
    · rw [blocksFrom_of_le hle, h n (by omega)]
      rfl
    · rw [blocksFrom_of_lt (by omega), blocksFrom_of_lt (by omega)]

theorem mem_blocksFrom : n ∈ blocksFrom size res i last ↔
    (i ≤ n ∧ n ≤ last) ∧ bitAt res.bitset (n - sectionStart size res.sec) = true := by
  rw [blocksFrom, List.mem_filter, List.mem_range'_1]
  apply and_congr_left
  intro _
  omega

theorem scanBlock_spec (hlen : res.bitset.length = size / 8) (hdvd : size % 8 = 0)
    (hstart : sectionStart size res.sec % 8 = 0) (hge : sectionStart size res.sec ≤ i)
    (hle : i ≤ last) (hlast : last < sectionStart size res.sec + size) (hbound : last < 2 ^ 63) :
    ∃ out i', scanBlock size res i = .ok (out, i') ∧ i < i' ∧
      blocksFrom size res i last = out.toList ++ blocksFrom size res i' last := by
  have hidx : (i - sectionStart size res.sec) / 8 < res.bitset.length := by
    rw [hlen]
    omega
  have hget : ∀ k, (k - sectionStart size res.sec) / 8 = (i - sectionStart size res.sec) / 8 →
      bitAt res.bitset (k - sectionStart size res.sec) =
        (res.bitset.get ⟨_, hidx⟩).val.testBit (7 - (k - sectionStart size res.sec) % 8) := by
    intro k hk
    rw [bitAt, List.getD_eq_getElem?_getD, hk, List.getElem?_eq_getElem hidx]
    rfl
  have hmod : (i - sectionStart size res.sec) % 8 = i % 8 := by omega
  simp only [scanBlock, sub64_of_le hge, List.getElem?_eq_getElem hidx]
  by_cases hzero : res.bitset[(i - sectionStart size res.sec) / 8] = 0
  · have hfalse : ∀ k, (k - sectionStart size res.sec) / 8 = (i - sectionStart size res.sec) / 8 →
        bitAt res.bitset (k - sectionStart size res.sec) = false := by
      intro k hk
      rw [hget k hk]
      show (res.bitset[(i - sectionStart size res.sec) / 8]).val.testBit _ = false
      rw [hzero]
      exact Nat.zero_testBit _
    rw [if_pos hzero]
    by_cases haligned : i % 8 = 0
    · -- the whole byte is skipped
      have hseven : u64 (i + 7) = i + 7 := u64_of_lt (by omega)
      have height : u64 (i + 7 + 1) = i + 8 := u64_of_lt (by omega)
      rw [if_pos haligned, hseven, height]
      refine ⟨_, _, rfl, by omega, ?_⟩
      show blocksFrom size res i last = blocksFrom size res (i + 8) last
      apply blocksFrom_skip
      intro k hk
      apply hfalse
      omega
    · rw [if_neg haligned, u64_of_lt (by omega)]
      refine ⟨_, _, rfl, by omega, ?_⟩
      rw [blocksFrom_of_le hle, hfalse i rfl]
      rfl
  · rw [if_neg hzero, u64_of_lt (by omega)]
    refine ⟨_, _, rfl, by omega, ?_⟩
    have hbit : (res.bitset[(i - sectionStart size res.sec) / 8]).val &&& 1 <<< (7 - i % 8) ≠ 0 ↔
        bitAt res.bitset (i - sectionStart size res.sec) = true := by
      rw [and_shiftLeft_ne_zero, hget i rfl, hmod]
      rfl
    rw [blocksFrom_of_le hle]
    congr 1
    by_cases hset : bitAt res.bitset (i - sectionStart size res.sec) = true
    · rw [if_pos hset, if_pos (hbit.mpr hset)]
      rfl
    · rw [if_neg hset, if_neg (fun hne => hset (hbit.mp hne))]
      rfl

end Scan

end Fiscobcos.Bloombits
