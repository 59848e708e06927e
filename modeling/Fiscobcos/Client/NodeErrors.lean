import Fiscobcos.Client.FilterLogs
import Fiscobcos.Client.ReceiptOutput

/-! # The errors of the node (client/channel.go:299-323, client/rpcclient.go:65-91, 533-552)

Methods that return the outcome of one request report an error response, but for `call`.
`CheckReceipt` and `CheckTx` end with the error of the context; `FilterLogs` drops errors. -/

namespace Fiscobcos.Client
open Numerals JsonTree FilterLogs

namespace Receipts
variable {ρ : Type}

/-- The loop of `CheckReceipt`: the answers of `TransactionReceipt`, round by round
until the context is done. -/
def awaitReceipt : Except CallError (Option ρ) → List (Except CallError (Option ρ)) →
    Except CallError ρ
  | .ok (some receipt), _ => .ok receipt
  | _, [] => .error .context
  | _, next :: rounds => awaitReceipt next rounds

structure ReceiptFields (ρ : Type) where
  status : ρ → Bytes
  txHash : ρ → Bytes
  output : ρ → Bytes

variable (R : ReceiptFields ρ)

def statusOf (receipt : ρ) : Except CallError ρ :=
  match receiptError (R.status receipt) (R.txHash receipt) (R.output receipt) with
  | some text => .error (.receipt text)
  | none => .ok receipt

/-- `CheckReceipt` of a transaction that is there. -/
def rpcClient.checkReceipt (first : Except CallError (Option ρ))
    (rounds : List (Except CallError (Option ρ))) : Except CallError ρ :=
  (awaitReceipt first rounds).bind (statusOf R)

def channelClient.checkReceipt {τ : Type} (tx : Option τ) (first : Except CallError (Option ρ))
    (rounds : List (Except CallError (Option ρ))) : Except CallError ρ :=
  match tx with
  | none => .error .nilTx
  | some _ => rpcClient.checkReceipt R first rounds

def checkTx (x : Except CallError ρ) : Except CallError Unit := x.map fun _ => ()

theorem awaitReceipt_cases (first : Except CallError (Option ρ))
    (rounds : List (Except CallError (Option ρ))) : awaitReceipt first rounds = .error .context ∨
      ∃ receipt, awaitReceipt first rounds = .ok receipt ∧ .ok (some receipt) ∈ first :: rounds := by
  induction rounds generalizing first with
  | nil =>
    match first with
    | .ok (some receipt) => exact .inr ⟨receipt, rfl, List.mem_singleton_self _⟩
    | .ok none | .error _ => exact .inl rfl
  | cons next rounds ih =>
    match first with
    | .ok (some receipt) => exact .inr ⟨receipt, rfl, List.mem_cons_self ..⟩
    | .ok none | .error _ =>
      rcases ih next with h | ⟨receipt, h, hmem⟩
      · exact .inl h
      · exact .inr ⟨receipt, h, List.mem_cons_of_mem _ hmem⟩

variable {R} {r : ErrorResponse} {body : Bytes}

theorem reported_map {β : Type} {f : ρ → β} {x : Except CallError ρ} :
    Reported r body (x.map f) ↔ Reported r body x := by
  cases x with
  | error e => exact reported_error.trans reported_error.symm
  | ok a => exact iff_of_false not_reported_ok not_reported_ok

theorem not_reported_checkReceipt (first : Except CallError (Option ρ))
    (rounds : List (Except CallError (Option ρ))) :
    ¬ Reported r body (rpcClient.checkReceipt R first rounds) := by
  rw [rpcClient.checkReceipt]
  rcases awaitReceipt_cases first rounds with h | ⟨receipt, h, -⟩ <;> rw [h]
  · exact fun h => reported_error.mp h
  · show ¬ Reported r body (statusOf R receipt)
    rw [statusOf]
    cases receiptError (R.status receipt) (R.txHash receipt) (R.output receipt) with
    | some text => exact fun h => reported_error.mp h
    | none => exact not_reported_ok

/-- Error responses in every round end in the error of the context. -/
theorem checkReceipt_refused {first : Except CallError (Option ρ)}
    {rounds : List (Except CallError (Option ρ))}
    (hall : ∀ x ∈ first :: rounds, Reported r body x) :
    rpcClient.checkReceipt R first rounds = .error .context := by
  rw [rpcClient.checkReceipt]
  rcases awaitReceipt_cases first rounds with h | ⟨receipt, -, hmem⟩
  · rw [h]
    rfl
  · exact absurd (hall _ hmem) not_reported_ok

end Receipts

open Receipts

/-- The requests of `FilterLogs`, whose errors are dropped. -/
structure LogRequests where
  blockNumber : Except CallError NumberReply
  blockByNumber : Except CallError Unit
  transactionReceipt : ℕ → Except CallError Unit
  blockNumber' : Except CallError NumberReply
  blockByNumber' : Except CallError Unit

def numberOf (x : Except CallError NumberReply) : NumberReply := x.toOption.getD .failed

def LogRequests.outcomes (a : LogRequests) : Outcomes where
  blockNumber := numberOf a.blockNumber
  blockByNumber := a.blockByNumber.isOk
  transactionReceipt i := (a.transactionReceipt i).isOk
  blockNumber' := numberOf a.blockNumber'
  blockByNumber' := a.blockByNumber'.isOk

theorem Reported.isOk {ρ : Type} {r : ErrorResponse} {body : Bytes} {x : Except CallError ρ}
    (h : Reported r body x) : x.isOk = false := by
  obtain ⟨err, rfl, -⟩ := h
  rfl

/-- The block is refused, or the receipt of its first transaction. -/
theorem filterLogs_refused {r : ErrorResponse} {body : Bytes} (c : Chain) {a : LogRequests}
    {q : FilterQuery} (hto : q.toBlock = none)
    (h : Reported r body a.blockByNumber ∨ Reported r body (a.transactionReceipt 0) ∧
      ∀ block ∈ c.blocks, block.txs ≠ []) : filterLogs c a.outcomes q = .panic := by
  simp only [filterLogs, hto]
  cases hblock : c.blockByNumber a.outcomes.blockByNumber
      (c.blockNumber a.outcomes.blockNumber) with
  | none => rfl
  | some block =>
    rw [Chain.blockByNumber] at hblock
    split_ifs at hblock with hanswered
    rcases h with h | ⟨h, hne⟩
    · exact absurd hanswered (by rw [LogRequests.outcomes, h.isOk]; exact Bool.false_ne_true)
    · have hmem : block ∈ c.blocks := by
        unfold Chain.blockAt at hblock
        split at hblock
        · exact List.mem_of_getLast? hblock
        · split_ifs at hblock
          exact List.mem_of_getElem? hblock
      obtain ⟨tx, txs, htxs⟩ := List.exists_cons_of_ne_nil (hne block hmem)
      have hfirst : a.outcomes.transactionReceipt 0 = false := h.isOk
      simp only [htxs, receiptLoop, hfirst, Bool.false_eq_true, if_false]

/-- An error response reaches the caller of a method that returns the outcome of
one request unless the method is `call` or a part of the response has the wrong
type; the same holds over HTTP, where an error status reports the body.
`CheckReceipt` and `CheckTx` never report one, and `FilterLogs` runs into a nil
pointer. -/
theorem node_error_reaches_caller {ρ β τ : Type} (T : JsonText) (J : Json) (method data : Bytes)
    (r : ErrorResponse) (hparse : T.parse data = some (.obj r.members))
    (unmarshal : Bytes → Option ρ) (isEmpty : ρ → Bool) (post : ρ → Option β) (status : ℕ) :
    (Reported r data (convert post (channelClient.answered unmarshal (T.json J) method data)) ↔
      method ≠ callMethod ∧ r.Readable) ∧ (Reported r data (convert post (rpcClient.get isEmpty
        (rpcClient.callContext unmarshal T method status data))) ↔
      (status < 200 ∨ 300 ≤ status) ∨ method ≠ callMethod ∧ r.Readable) ∧
    (∀ (R : ReceiptFields ρ) (tx : τ) first rounds,
      ¬ Reported r data (Receipts.channelClient.checkReceipt R (some tx) first rounds) ∧
      ¬ Reported r data (Receipts.rpcClient.checkReceipt R first rounds) ∧
      ¬ Reported r data (checkTx (Receipts.channelClient.checkReceipt R (some tx) first rounds)) ∧
      ¬ Reported r data (checkTx (Receipts.rpcClient.checkReceipt R first rounds)) ∧
      ((∀ x ∈ first :: rounds, Reported r data x) →
        Receipts.rpcClient.checkReceipt R first rounds = .error .context)) ∧
    ∀ c a q, q.toBlock = none → (Reported r data a.blockByNumber ∨
      Reported r data (a.transactionReceipt 0) ∧ ∀ block ∈ c.blocks, block.txs ≠ []) →
      filterLogs c (LogRequests.outcomes a) q = .panic := by
  rw [reported_convert, reported_convert, reported_get]
  refine ⟨reported_channel T J method unmarshal hparse,
    reported_http T method status unmarshal hparse, fun R tx first rounds => ?_,
    fun c a q hto h => filterLogs_refused c hto h⟩
  have hnot : ¬ Reported r data (Receipts.rpcClient.checkReceipt R first rounds) :=
    not_reported_checkReceipt first rounds
  exact ⟨hnot, hnot, fun h => hnot (reported_map.mp h), fun h => hnot (reported_map.mp h),
    checkReceipt_refused⟩

/-- The refusal of a `call` comes back as a missing result on both transports. -/
theorem refused_call_not_reported :
    channelClient.answered some (refusalText.json sampleJson) callMethod refusalBody =
      .error .notFound ∧
    rpcClient.callContext some refusalText callMethod 200 refusalBody = .error .noResult := by
  constructor
  · rw [channelClient.answered, Json.parseReply, if_pos rfl, JsonText.json_fiscoMsg,
      refusalText_parse]
    rfl
  · rw [rpcClient.callContext, rpcClient.sendHTTP, if_neg (by norm_num), if_pos rfl,
      refusalText_parse]
    rfl

theorem node_error_reaches_caller_refusal :
    Reported refusal refusalBody (convert some (channelClient.answered some
      (refusalText.json sampleJson) (ascii "getBlockNumber") refusalBody)) ∧
    Reported refusal refusalBody (convert some (rpcClient.get List.isEmpty
      (rpcClient.callContext some refusalText (ascii "getBlockNumber") 200 refusalBody))) := by
  have hplain : ascii "getBlockNumber" ≠ callMethod := by decide
  obtain ⟨hchannel, hhttp, -⟩ := node_error_reaches_caller (τ := Unit) refusalText sampleJson
    (ascii "getBlockNumber") refusalBody refusal refusalText_parse some List.isEmpty some 200
  exact ⟨hchannel.mpr ⟨hplain, refusal_readable⟩, hhttp.mpr (.inr ⟨hplain, refusal_readable⟩)⟩

end Fiscobcos.Client
