import Fiscobcos.Client.Types
import Fiscobcos.Common.HexJson
import Fiscobcos.Types.Transaction

/-! # Event filters (client/channel.go:487-516, interfaces.go:116-135)

A `RegisterEventLogRequest` keeps the start of the range and the addresses of a query; the end is
always "latest" and the topic positions are flattened. -/

namespace Fiscobcos.Client
open List

open Fiscobcos.Numerals Fiscobcos.Hexutil Fiscobcos.Types

structure FilterQuery where
  blockHash : Option Hash
  fromBlock : Option ℤ
  toBlock : Option ℤ
  addresses : List Address
  topics : List (List Hash)
deriving DecidableEq

structure RegisterEventLogRequest where
  fromBlock : Bytes
  toBlock : Bytes
  addresses : List Bytes
  topics : List Bytes
  groupID : Bytes
  filterID : Bytes
deriving DecidableEq

def latest : Bytes := [108, 97, 116, 101, 115, 116]

def bigText10 (z : ℤ) : Bytes := if z < 0 then 45 :: appendUint z.natAbs else appendUint z.natAbs

def hashNibble (hash : Hash) (i : ℕ) : ℕ :=
  let hashByte := (hash.val.getD (i / 2) 0).val
  if i % 2 = 0 then hashByte / 16 else hashByte % 16

def checksumChar (hash : Hash) (i : ℕ) (c : Byte) : Byte :=
  if 57 < c.val ∧ 7 < hashNibble hash i then lowByte (c.val - 32) else c

def addressHex (keccak256 : Bytes → Hash) (a : Address) : Bytes :=
  let unchecksummed := hexEncode a.val
  [48, 120] ++ unchecksummed.mapIdx (checksumChar (keccak256 unchecksummed))

def subscribeFilterLogs (keccak256 : Bytes → Hash) (groupID : UInt64) (filterID : Bytes)
    (query : FilterQuery) : RegisterEventLogRequest where
  fromBlock :=
    match query.fromBlock with
    | none => latest
    | some z => bigText10 z
  toBlock := latest
  addresses := query.addresses.map (addressHex keccak256)
  topics := query.topics.flatMap fun topicArray =>
    topicArray.map fun topic => Hexutil.encode topic.val
  groupID := appendUint groupID.toNat
  filterID := filterID

structure FilterLog where
  address : Address
  topics : List Hash
  blockNumber : UInt64
deriving DecidableEq

def acceptsTopic (alternatives : List Hash) (t : Hash) : Bool :=
  alternatives.isEmpty || alternatives.contains t

def acceptsTopics : List (List Hash) → List Hash → Bool
  | [], _ => true
  | _ :: _, [] => false
  | alternatives :: ps, t :: ts => acceptsTopic alternatives t && acceptsTopics ps ts

def acceptsAddress (addresses : List Address) (a : Address) : Bool :=
  addresses.isEmpty || addresses.contains a

def FilterQuery.inRange (q : FilterQuery) (n : UInt64) : Bool :=
  q.fromBlock.getD 0 ≤ n.toNat && q.toBlock.all fun z => (n.toNat : ℤ) ≤ z

def FilterQuery.selects (q : FilterQuery) (log : FilterLog) : Bool :=
  q.inRange log.blockNumber && (acceptsAddress q.addresses log.address &&
    acceptsTopics q.topics log.topics)

def FilterQuery.firstBlock (q : FilterQuery) : ℤ := max (q.fromBlock.getD 0) 0

def FilterQuery.lastBlock (q : FilterQuery) : ℤ := min (q.toBlock.getD (2 ^ 64 - 1)) (2 ^ 64 - 1)

def SamePosition (as bs : List Hash) : Prop := ∀ t, acceptsTopic as t = acceptsTopic bs t

theorem appendUint_digits {v : ℕ} {b : Byte} (h : b ∈ appendUint v) : 48 ≤ b.val ∧ b.val ≤ 57 := by
  unfold appendUint at h
  split_ifs at h with hv
  · simp only [mem_singleton] at h
    subst h
    decide
  · obtain ⟨d, hd, rfl⟩ := mem_map.mp h
    have hd10 := Nat.digits_lt_base (by norm_num : 1 < 10) (mem_reverse.mp hd)
    rw [lowByte_val]
    omega

theorem bigText10_inj {z w : ℤ} (h : bigText10 z = bigText10 w) : z = w := by
  have hsign : ∀ n m : ℕ, 45 :: appendUint n ≠ appendUint m := by
    intro n m heq
    have hminus : (45 : Byte) ∈ appendUint m := heq ▸ mem_cons_self
    exact absurd (appendUint_digits hminus).1 (by decide)
  unfold bigText10 at h
  split_ifs at h with hz hw hw
  · have := appendUint_inj (cons.inj h).2
    omega
  · exact absurd h (hsign _ _)
  · exact absurd h.symm (hsign _ _)
  · have := appendUint_inj h
    omega

theorem bigText10_ne_latest (z : ℤ) : bigText10 z ≠ latest := by
  intro h
  have hl : (108 : Byte) ∈ bigText10 z := by
    rw [h]
    decide
  unfold bigText10 at hl
  split_ifs at hl with hz
  · rcases mem_cons.mp hl with heq | hmem
    · exact absurd heq (by decide)
    · exact absurd (appendUint_digits hmem).2 (by decide)
  · exact absurd (appendUint_digits hl).2 (by decide)

def lowerHex (c : Byte) : Byte := if 64 < c.val ∧ c.val < 71 then lowByte (c.val + 32) else c

theorem lowerHex_checksumChar (hash : Hash) (i : ℕ) {d : ℕ} (hd : d < 16) :
    lowerHex (checksumChar hash i (hexChar d)) = hexChar d := by
  unfold checksumChar
  split_ifs with hcap
  · have hletter := hcap.1
    clear hcap
    interval_cases d <;> revert hletter <;> decide
  · interval_cases d <;> decide

theorem lowerHex_addressHex (keccak256 : Bytes → Hash) (a : Address) :
    (addressHex keccak256 a).map lowerHex = [48, 120] ++ hexEncode a.val := by
  have hchars : ∀ c ∈ hexEncode a.val, ∃ d, d < 16 ∧ c = hexChar d := by
    intro c hc
    obtain ⟨b, -, hb⟩ := mem_flatMap.mp hc
    have := b.isLt
    simp only [mem_cons, not_mem_nil, or_false] at hb
    rcases hb with rfl | rfl
    · exact ⟨_, by omega, rfl⟩
    · exact ⟨_, by omega, rfl⟩
  have hlower : ((hexEncode a.val).mapIdx (checksumChar (keccak256 (hexEncode a.val)))).map lowerHex =
      hexEncode a.val := by
    apply ext_getElem
    · simp
    · intro i h₁ h₂
      obtain ⟨d, hd, hc⟩ := hchars _ (getElem_mem h₂)
      rw [getElem_map, getElem_mapIdx, hc]
      exact lowerHex_checksumChar _ _ hd
  unfold addressHex
  rw [map_append, hlower]
  rfl

theorem addressHex_injective (keccak256 : Bytes → Hash) :
    Function.Injective (addressHex keccak256) := by
  intro a b h
  have hlower := congrArg (map lowerHex) h
  rw [lowerHex_addressHex, lowerHex_addressHex] at hlower
  exact Subtype.ext (hexEncode_injective (append_cancel_left hlower))

theorem hashHex_injective : Function.Injective fun topic : Hash => Hexutil.encode topic.val := by
  intro a b h
  exact Subtype.ext (hexEncode_injective (append_cancel_left h))

theorem subscribeFilterLogs_eq_iff (keccak256 : Bytes → Hash) (groupID : UInt64) (filterID : Bytes)
    (q q' : FilterQuery) : subscribeFilterLogs keccak256 groupID filterID q =
        subscribeFilterLogs keccak256 groupID filterID q' ↔
      q.fromBlock = q'.fromBlock ∧ q.addresses = q'.addresses ∧
        q.topics.flatten = q'.topics.flatten := by
  have htopics : ∀ ps : List (List Hash), (ps.flatMap fun topicArray =>
      topicArray.map fun topic => Hexutil.encode topic.val) =
        ps.flatten.map fun topic => Hexutil.encode topic.val := by
    intro ps
    rw [flatMap_def, map_flatten]
  constructor
  · intro h
    have hfrom := congrArg RegisterEventLogRequest.fromBlock h
    have haddr := congrArg RegisterEventLogRequest.addresses h
    have htop := congrArg RegisterEventLogRequest.topics h
    simp only [subscribeFilterLogs, htopics] at hfrom haddr htop
    refine ⟨?_, (addressHex_injective keccak256).list_map haddr, hashHex_injective.list_map htop⟩
    cases hq : q.fromBlock with
    | none =>
      cases hq' : q'.fromBlock with
      | none => rfl
      | some z =>
        rw [hq, hq'] at hfrom
        exact absurd hfrom.symm (bigText10_ne_latest z)
    | some z =>
      cases hq' : q'.fromBlock with
      | none =>
        rw [hq, hq'] at hfrom
        exact absurd hfrom (bigText10_ne_latest z)
      | some w =>
        rw [hq, hq'] at hfrom
        rw [bigText10_inj hfrom]
  · rintro ⟨hfrom, haddr, htop⟩
    simp only [subscribeFilterLogs, htopics, hfrom, haddr, htop]

theorem factors_eq {α β : Type*} {p p' : α → Bool} {r r' : β → Bool} (hp : ∃ a, p a = true)
    (hr : ∃ b, r b = true) (h : ∀ a b, (p a && r b) = (p' a && r' b)) :
    (∀ a, p a = p' a) ∧ ∀ b, r b = r' b := by
  obtain ⟨a₀, ha₀⟩ := hp
  obtain ⟨b₀, hb₀⟩ := hr
  have h₀ : p' a₀ = true ∧ r' b₀ = true := by
    have := h a₀ b₀
    rw [ha₀, hb₀] at this
    simpa using this.symm
  refine ⟨fun a => ?_, fun b => ?_⟩
  · have := h a b₀
    rwa [hb₀, h₀.2, Bool.and_true, Bool.and_true] at this
  · have := h a₀ b
    rwa [ha₀, h₀.1, Bool.true_and, Bool.true_and] at this

theorem exists_acceptsTopic (as : List Hash) : ∃ t, acceptsTopic as t = true := by
  cases as with
  | nil => exact ⟨⟨replicate 32 0, by simp⟩, rfl⟩
  | cons a as => exact ⟨a, by simp [acceptsTopic]⟩

theorem exists_acceptsTopics (ps : List (List Hash)) :
    ∃ ts, ts.length = ps.length ∧ acceptsTopics ps ts = true := by
  induction ps with
  | nil => exact ⟨[], rfl, rfl⟩
  | cons p ps ih =>
    obtain ⟨t, ht⟩ := exists_acceptsTopic p
    obtain ⟨ts, hlen, hts⟩ := ih
    exact ⟨t :: ts, by simp [hlen], by simp [acceptsTopics, ht, hts]⟩

theorem exists_acceptsAddress (as : List Address) : ∃ a, acceptsAddress as a = true := by
  cases as with
  | nil => exact ⟨⟨replicate 20 0, by simp⟩, rfl⟩
  | cons a as => exact ⟨a, by simp [acceptsAddress]⟩

theorem acceptsTopics_eq_iff (ps qs : List (List Hash)) :
    (∀ ts, acceptsTopics ps ts = acceptsTopics qs ts) ↔ Forall₂ SamePosition ps qs := by
  induction ps generalizing qs with
  | nil =>
    cases qs with
    | nil => simp
    | cons q qs =>
      refine iff_of_false (fun h => ?_) nofun
      exact absurd (h []) (by simp [acceptsTopics])
  | cons p ps ih =>
    cases qs with
    | nil =>
      refine iff_of_false (fun h => ?_) nofun
      exact absurd (h []) (by simp [acceptsTopics])
    | cons q qs =>
      rw [forall₂_cons, ← ih qs]
      constructor
      · intro h
        obtain ⟨ts, -, hts⟩ := exists_acceptsTopics ps
        exact factors_eq (exists_acceptsTopic p) ⟨ts, hts⟩ fun t ts => h (t :: ts)
      · rintro ⟨hhead, htail⟩ ts
        cases ts with
        | nil => rfl
        | cons t ts => simp only [acceptsTopics, hhead t, htail ts]

theorem FilterQuery.inRange_iff (q : FilterQuery) (n : UInt64) :
    q.inRange n = true ↔ q.firstBlock ≤ n.toNat ∧ (n.toNat : ℤ) ≤ q.lastBlock := by
  have hn : n.toNat < 2 ^ 64 := n.toNat_lt
  unfold FilterQuery.inRange FilterQuery.firstBlock FilterQuery.lastBlock
  cases q.toBlock with
  | none =>
    simp only [Option.all_none, Bool.and_true, decide_eq_true_eq, Option.getD_none]
    omega
  | some z =>
    simp only [Option.all_some, Bool.and_eq_true, decide_eq_true_eq, Option.getD_some]
    omega

variable {q : FilterQuery}

theorem FilterQuery.exists_inRange {z : ℤ} (hfirst : q.firstBlock ≤ z)
    (hlast : z ≤ q.lastBlock) : ∃ n : UInt64, (n.toNat : ℤ) = z ∧ q.inRange n = true := by
  have hpos : 0 ≤ q.firstBlock := le_max_right _ _
  have hlt : q.lastBlock ≤ 2 ^ 64 - 1 := min_le_right _ _
  have hn : ((UInt64.ofNat z.toNat).toNat : ℤ) = z := by
    rw [UInt64.toNat_ofNat_of_lt' (show z.toNat < 2 ^ 64 by omega)]
    omega
  exact ⟨_, hn, (q.inRange_iff _).mpr (by omega)⟩

variable {q' : FilterQuery}

theorem FilterQuery.lastBlock_le (hne : q.firstBlock ≤ q.lastBlock)
    (h : ∀ n, q.inRange n = q'.inRange n) : q.lastBlock ≤ q'.lastBlock := by
  obtain ⟨n, hn, hin⟩ := exists_inRange hne le_rfl
  rw [h n] at hin
  have := (q'.inRange_iff n).mp hin
  omega

theorem FilterQuery.factors (hne : q.firstBlock ≤ q.lastBlock)
    (h : ∀ log, q.selects log = q'.selects log) : (∀ n, q.inRange n = q'.inRange n) ∧
      ∀ ts, acceptsTopics q.topics ts = acceptsTopics q'.topics ts := by
  obtain ⟨n, -, hn⟩ := exists_inRange hne le_rfl
  obtain ⟨a, ha⟩ := exists_acceptsAddress q.addresses
  obtain ⟨ts, -, hts⟩ := exists_acceptsTopics q.topics
  have hrest : ∃ x : Address × List Hash,
      (acceptsAddress q.addresses x.1 && acceptsTopics q.topics x.2) = true :=
    ⟨(a, ts), by simp [ha, hts]⟩
  have hprod : ∀ n (x : Address × List Hash),
      (q.inRange n && (acceptsAddress q.addresses x.1 && acceptsTopics q.topics x.2)) =
        (q'.inRange n && (acceptsAddress q'.addresses x.1 && acceptsTopics q'.topics x.2)) :=
    fun n x => h ⟨x.1, x.2, n⟩
  have hrange := factors_eq ⟨n, hn⟩ hrest hprod
  have hlast := factors_eq ⟨a, ha⟩ ⟨ts, hts⟩ fun a ts => hrange.2 (a, ts)
  exact ⟨hrange.1, hlast.2⟩

theorem FilterQuery.selects_empty (h : q.lastBlock < q.firstBlock)
    (log : FilterLog) : q.selects log = false := by
  have hout : q.inRange log.blockNumber = false := by
    rw [← Bool.not_eq_true, q.inRange_iff]
    omega
  rw [FilterQuery.selects, hout, Bool.false_and]

theorem FilterQuery.exists_selects (hne : q.firstBlock ≤ q.lastBlock) :
    ∃ log, q.selects log = true := by
  obtain ⟨n, -, hn⟩ := exists_inRange hne le_rfl
  obtain ⟨a, ha⟩ := exists_acceptsAddress q.addresses
  obtain ⟨ts, -, hts⟩ := exists_acceptsTopics q.topics
  exact ⟨⟨a, ts, n⟩, by simp [FilterQuery.selects, hn, ha, hts]⟩

theorem FilterQuery.selects_eq_iff (hfrom : q.fromBlock = q'.fromBlock)
    (haddr : q.addresses = q'.addresses) : (∀ log, q.selects log = q'.selects log) ↔
      (q.lastBlock < q.firstBlock ∧ q'.lastBlock < q'.firstBlock) ∨
      (q.lastBlock = q'.lastBlock ∧ Forall₂ SamePosition q.topics q'.topics) := by
  have hfirst : q.firstBlock = q'.firstBlock := by
    unfold FilterQuery.firstBlock
    rw [hfrom]
  constructor
  · intro h
    by_cases hne : q.firstBlock ≤ q.lastBlock
    · obtain ⟨hrange, htopics⟩ := factors hne h
      have hle := lastBlock_le hne hrange
      have hge := lastBlock_le (hfirst ▸ hne.trans hle) fun n => (hrange n).symm
      exact .inr ⟨le_antisymm hle hge, (acceptsTopics_eq_iff _ _).mp htopics⟩
    · refine .inl ⟨not_le.mp hne, not_le.mp fun hne' => ?_⟩
      obtain ⟨log, hlog⟩ := exists_selects hne'
      rw [← h log, selects_empty (not_le.mp hne)] at hlog
      cases hlog
  · rintro (⟨hq, hq'⟩ | ⟨hlast, htopics⟩) log
    · rw [selects_empty hq, selects_empty hq']
    · have hrange : q.inRange log.blockNumber = q'.inRange log.blockNumber := by
        rw [Bool.eq_iff_iff, q.inRange_iff, q'.inRange_iff, hfirst, hlast]
      rw [FilterQuery.selects, FilterQuery.selects, hrange, haddr,
        (acceptsTopics_eq_iff _ _).mpr htopics]

/-- Two queries with the same request select the same logs iff the request keeps what they differ
in. -/
theorem filter_meaning_iff (keccak256 : Bytes → Hash) (groupID : UInt64) (filterID : Bytes)
    (q q' : FilterQuery) : (subscribeFilterLogs keccak256 groupID filterID q =
        subscribeFilterLogs keccak256 groupID filterID q' → ∀ log, q.selects log = q'.selects log) ↔
      q.fromBlock ≠ q'.fromBlock ∨ q.addresses ≠ q'.addresses ∨
      q.topics.flatten ≠ q'.topics.flatten ∨
      (q.lastBlock < q.firstBlock ∧ q'.lastBlock < q'.firstBlock) ∨
      (q.lastBlock = q'.lastBlock ∧ List.Forall₂ SamePosition q.topics q'.topics) := by
  rw [subscribeFilterLogs_eq_iff]
  by_cases hsame : q.fromBlock = q'.fromBlock ∧ q.addresses = q'.addresses ∧
      q.topics.flatten = q'.topics.flatten
  · obtain ⟨hfrom, haddr, htop⟩ := hsame
    simp only [hfrom, haddr, htop, true_and, forall_const, ne_eq, not_true_eq_false, false_or,
      FilterQuery.selects_eq_iff hfrom haddr]
  · refine iff_of_true (fun h => absurd h hsame) ?_
    by_cases hfrom : q.fromBlock = q'.fromBlock
    · by_cases haddr : q.addresses = q'.addresses
      · exact .inr (.inr (.inl fun htop => hsame ⟨hfrom, haddr, htop⟩))
      · exact .inr (.inl haddr)
    · exact .inl hfrom

/-- One topic at the first and one at the second position, or either at the first. -/
theorem filter_positions_lost :
    let a : Hash := ⟨replicate 32 1, by simp⟩
    let b : Hash := ⟨replicate 32 2, by simp⟩
    let both : FilterQuery := ⟨none, none, none, [], [[a], [b]]⟩
    let either : FilterQuery := ⟨none, none, none, [], [[a, b]]⟩
    (∀ keccak256 groupID filterID, subscribeFilterLogs keccak256 groupID filterID both =
      subscribeFilterLogs keccak256 groupID filterID either) ∧
    both.selects ⟨⟨replicate 20 0, by simp⟩, [b], 1⟩ = false ∧
    either.selects ⟨⟨replicate 20 0, by simp⟩, [b], 1⟩ = true :=
  ⟨fun _ _ _ => rfl, rfl, rfl⟩

end Fiscobcos.Client
