import Fiscobcos.Client.Answers
import Fiscobcos.Client.Filters

/-! # One-off log queries (client/rpcclient.go:533-552, interfaces.go:116-135)

Without an end of the range the logs of the first transaction with logs in the latest block are
returned, of whatever contract. Failed requests give nil pointers that are dereferenced. -/

namespace Fiscobcos.Client.FilterLogs
open Numerals Fiscobcos.Types

structure TxLog where
  address : Address
  topics : List Hash
  data : Bytes
  blockNumber : ℕ
  txIndex : ℕ
  index : ℕ
  deriving DecidableEq

structure Tx where
  hash : Hash
  logs : List TxLog

structure Block where
  hash : Hash
  txs : List Tx

/-- The blocks by number, with their receipts; there is a genesis block. -/
structure Chain where
  blocks : List Block
  genesis : blocks ≠ []

/-- Block `n` is in the range: no start is the genesis block, no end the latest block, and a block
hash stands for its block. -/
def covers (q : FilterQuery) (n : ℕ) (block : Block) : Prop :=
  match q.blockHash with
  | some h => block.hash = h
  | none => q.fromBlock.getD 0 ≤ n ∧ ∀ z, q.toBlock = some z → (n : ℤ) ≤ z

def Chain.Asked (c : Chain) (q : FilterQuery) (l : TxLog) : Prop :=
  ∃ n block, c.blocks[n]? = some block ∧ covers q n block ∧ (∃ tx ∈ block.txs, l ∈ tx.logs) ∧
    acceptsAddress q.addresses l.address ∧ acceptsTopics q.topics l.topics

/-- What `BlockNumber` returns: the height, or next to an error nil, or the value of
`DecodeUint64` next to its error. -/
inductive NumberReply where
  | height
  | failed
  | malformed
  | outOfRange

def Chain.blockNumber (c : Chain) : NumberReply → Option ℤ
  | .height => some (Answers.bigHeight (c.blocks.length - 1))
  | .failed => none
  | .malformed => some 0
  | .outOfRange => some (-1)

structure Outcomes where
  blockNumber : NumberReply
  blockByNumber : Bool
  transactionReceipt : ℕ → Bool
  blockNumber' : NumberReply
  blockByNumber' : Bool

def Chain.blockAt (c : Chain) : Option ℤ → Option Block
  | none => c.blocks.getLast?
  | some n => if 0 ≤ n then c.blocks[n.toNat]? else none

def Chain.blockByNumber (c : Chain) (answered : Bool) (number : Option ℤ) : Option Block :=
  if answered then c.blockAt number else none

inductive Outcome where
  | panic
  | error
  | ok (logs : List TxLog)
  deriving DecidableEq

/-- The loop over the transactions of the block from position `i` on; `none` is its normal end. -/
def receiptLoop (answered : ℕ → Bool) : ℕ → List Tx → Option Outcome
  | _, [] => none
  | i, tx :: txs =>
    -- a nil receipt is dereferenced for its logs
    if answered i then
      if tx.logs = [] then receiptLoop answered (i + 1) txs else some (.ok tx.logs)
    else some .panic

/-- `FilterLogs` (`client/rpcclient.go:533-552`). The two requests after the loop are made and
their results not used. -/
def filterLogs (c : Chain) (o : Outcomes) (q : FilterQuery) : Outcome :=
  match q.toBlock with
  | some _ => .error
  | none =>
    match c.blockByNumber o.blockByNumber (c.blockNumber o.blockNumber) with
    | none => .panic
    | some block =>
      match receiptLoop o.transactionReceipt 0 block.txs with
      | some outcome => outcome
      | none =>
        let _block := c.blockByNumber o.blockByNumber' (c.blockNumber o.blockNumber')
        .error

def Answered (c : Chain) (q : FilterQuery) : Outcome → Prop
  | .panic => False
  | .error => True
  | .ok logs => ∀ l, l ∈ logs ↔ c.Asked q l

structure FirstLogs (answered : ℕ → Bool) (txs : List Tx) (i : ℕ) (tx : Tx) : Prop where
  get : txs[i]? = some tx
  logs : tx.logs ≠ []
  before : ∀ j tx', j < i → txs[j]? = some tx' → tx'.logs = []
  answered : ∀ j, j ≤ i → answered j = true

def NoLogs (answered : ℕ → Bool) (txs : List Tx) : Prop :=
  ∀ i tx, txs[i]? = some tx → answered i = true ∧ tx.logs = []

theorem noLogs_cons_iff (answered : ℕ → Bool) (tx : Tx) (txs : List Tx) :
    NoLogs answered (tx :: txs) ↔
      (answered 0 = true ∧ tx.logs = []) ∧ NoLogs (fun i => answered (i + 1)) txs := by
  constructor
  · intro h
    exact ⟨h 0 tx rfl, fun i tx' hi => h (i + 1) tx' hi⟩
  · intro h i tx' hi
    cases i with
    | zero =>
      cases hi
      exact h.1
    | succ i => exact h.2 i tx' hi

theorem firstLogs_cons_iff (answered : ℕ → Bool) (tx : Tx) (txs : List Tx) (tx' : Tx) :
    (∃ i, FirstLogs answered (tx :: txs) i tx') ↔ answered 0 = true ∧ (tx.logs ≠ [] ∧ tx' = tx ∨
        tx.logs = [] ∧ ∃ i, FirstLogs (fun i => answered (i + 1)) txs i tx') := by
  constructor
  · intro ⟨i, h⟩
    refine ⟨h.answered 0 (Nat.zero_le i), ?_⟩
    cases i with
    | zero =>
      have hget := h.get
      cases hget
      exact .inl ⟨h.logs, rfl⟩
    | succ i =>
      refine .inr ⟨h.before 0 tx (Nat.succ_pos i) rfl, i, h.get, h.logs, ?_, ?_⟩
      · intro j t hj ht
        exact h.before (j + 1) t (by omega) ht
      · intro j hj
        exact h.answered (j + 1) (by omega)
  · intro ⟨h0, h⟩
    rcases h with ⟨hne, rfl⟩ | ⟨hnil, i, h⟩
    · refine ⟨0, rfl, hne, fun j t hj => absurd hj (Nat.not_lt_zero j), ?_⟩
      intro j hj
      rw [Nat.le_zero.mp hj]
      exact h0
    · refine ⟨i + 1, h.get, h.logs, ?_, ?_⟩
      · intro j t hj ht
        cases j with
        | zero =>
          cases ht
          exact hnil
        | succ j => exact h.before j t (by omega) ht
      · intro j hj
        cases j with
        | zero => exact h0
        | succ j => exact h.answered j (by omega)

theorem receiptLoop_shift (answered : ℕ → Bool) (i : ℕ) (txs : List Tx) :
    receiptLoop answered (i + 1) txs = receiptLoop (fun j => answered (j + 1)) i txs := by
  induction txs generalizing i with
  | nil => rfl
  | cons tx txs ih => rw [receiptLoop, receiptLoop, ih]

theorem receiptLoop_none_iff (answered : ℕ → Bool) (txs : List Tx) :
    receiptLoop answered 0 txs = none ↔ NoLogs answered txs := by
  induction txs generalizing answered with
  | nil => simp [receiptLoop, NoLogs]
  | cons tx txs ih =>
    rw [receiptLoop, receiptLoop_shift, noLogs_cons_iff, ← ih]
    split_ifs with h0 hnil
    · simp only [h0, hnil, and_self, true_and]
    · simp [hnil]
    · simp [h0]

theorem receiptLoop_ok_iff (answered : ℕ → Bool) (txs : List Tx) (logs : List TxLog) :
    receiptLoop answered 0 txs = some (.ok logs) ↔
      ∃ i tx, FirstLogs answered txs i tx ∧ tx.logs = logs := by
  have hswap : ∀ answered txs, (∃ i tx, FirstLogs answered txs i tx ∧ tx.logs = logs) ↔
      ∃ tx, (∃ i, FirstLogs answered txs i tx) ∧ tx.logs = logs := by
    intro answered txs
    constructor
    · intro ⟨i, tx, h, hl⟩
      exact ⟨tx, ⟨i, h⟩, hl⟩
    · intro ⟨tx, ⟨i, h⟩, hl⟩
      exact ⟨i, tx, h, hl⟩
  rw [hswap]
  induction txs generalizing answered with
  | nil =>
    refine iff_of_false (by simp [receiptLoop]) ?_
    intro ⟨tx, ⟨i, h⟩, _⟩
    have hget := h.get
    simp at hget
  | cons tx txs ih =>
    rw [receiptLoop, receiptLoop_shift]
    simp only [firstLogs_cons_iff]
    split_ifs with h0 hnil
    · refine (ih fun j => answered (j + 1)).trans ?_
      constructor
      · intro ⟨tx', h, hl⟩
        exact ⟨tx', ⟨h0, .inr ⟨hnil, h⟩⟩, hl⟩
      · intro ⟨tx', ⟨_, h⟩, hl⟩
        rcases h with h | h
        · exact absurd hnil h.1
        · exact ⟨tx', h.2, hl⟩
    · rw [Option.some.injEq, Outcome.ok.injEq]
      constructor
      · intro hl
        exact ⟨tx, ⟨h0, .inl ⟨hnil, rfl⟩⟩, hl⟩
      · intro ⟨tx', ⟨_, h⟩, hl⟩
        rcases h with h | h
        · rw [← h.2]
          exact hl
        · exact absurd h.1 hnil
    · refine iff_of_false (by simp) ?_
      intro ⟨_, ⟨h, _⟩, _⟩
      exact h0 h

theorem receiptLoop_ne_error (answered : ℕ → Bool) (i : ℕ) (txs : List Tx) :
    receiptLoop answered i txs ≠ some .error := by
  induction txs generalizing i with
  | nil => simp [receiptLoop]
  | cons tx txs ih =>
    rw [receiptLoop]
    split_ifs
    · exact ih (i + 1)
    · simp
    · simp

/-- `FilterLogs` answers a query in these cases only: the end of the range is given, which is
refused; no transaction of the block looked at has logs, which is refused too; or the logs of the
first transaction with logs happen to be those asked for. No request up to there may fail. -/
theorem filter_logs_answered_iff (c : Chain) (o : Outcomes) (q : FilterQuery) :
    Answered c q (filterLogs c o q) ↔ q.toBlock ≠ none ∨
      ∃ block, c.blockByNumber o.blockByNumber (c.blockNumber o.blockNumber) = some block ∧
        (NoLogs o.transactionReceipt block.txs ∨
          ∃ i tx, FirstLogs o.transactionReceipt block.txs i tx ∧
            ∀ l, l ∈ tx.logs ↔ c.Asked q l) := by
  rw [filterLogs]
  cases hto : q.toBlock with
  | some z => exact iff_of_true trivial (.inl (by simp))
  | none =>
    simp only [ne_eq, not_true_eq_false, false_or]
    cases hblock : c.blockByNumber o.blockByNumber (c.blockNumber o.blockNumber) with
    | none =>
      refine iff_of_false not_false ?_
      intro ⟨block, h, _⟩
      cases h
    | some block =>
      simp only [Option.some.injEq, exists_eq_left']
      have hnone := receiptLoop_none_iff o.transactionReceipt block.txs
      have hok := receiptLoop_ok_iff o.transactionReceipt block.txs
      cases hloop : receiptLoop o.transactionReceipt 0 block.txs with
      | none => exact iff_of_true trivial (.inl (hnone.mp hloop))
      | some outcome =>
        rw [hloop] at hnone hok
        have hlogs : ¬ NoLogs o.transactionReceipt block.txs := by
          intro h
          exact absurd (hnone.mpr h) (by simp)
        simp only [hlogs, false_or]
        cases outcome with
        | panic =>
          refine iff_of_false not_false ?_
          intro ⟨i, tx, h, _⟩
          exact absurd ((hok tx.logs).mpr ⟨i, tx, h, rfl⟩) (by simp)
        | error => exact absurd hloop (receiptLoop_ne_error _ _ _)
        | ok logs =>
          constructor
          · intro h
            obtain ⟨i, tx, hfirst, rfl⟩ := (hok logs).mp rfl
            exact ⟨i, tx, hfirst, h⟩
          · intro ⟨i, tx, hfirst, h⟩
            have hsame := (hok tx.logs).mpr ⟨i, tx, hfirst, rfl⟩
            cases hsame
            exact h

def addressOf (b : Byte) : Address := ⟨List.replicate 20 b, rfl⟩

def hashOf (b : Byte) : Hash := ⟨List.replicate 32 b, rfl⟩

def oneLog : TxLog := ⟨addressOf 1, [], [], 0, 0, 0⟩

def oneLogChain : Chain := ⟨[⟨hashOf 0, [⟨hashOf 1, [oneLog]⟩]⟩], by simp⟩

def otherContract : FilterQuery := ⟨none, none, none, [addressOf 2], []⟩

def allAnswered : Outcomes := ⟨.height, true, fun _ => true, .height, true⟩

/-- The log of contract 1 is returned for contract 2, and a failed request for the block
panics. -/
theorem other_contract_log_returned :
    filterLogs oneLogChain allAnswered otherContract = .ok [oneLog] ∧
    ¬ oneLogChain.Asked otherContract oneLog ∧
    filterLogs oneLogChain { allAnswered with blockByNumber := false } otherContract = .panic := by
  refine ⟨by decide, ?_, by decide⟩
  intro ⟨_, _, _, _, _, haddress, _⟩
  exact absurd haddress (by decide)

end Fiscobcos.Client.FilterLogs
