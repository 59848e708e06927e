import Fiscobcos.Client.Responses
import Fiscobcos.Common.HexJson
import Fiscobcos.Lib.FlatJson

/-! # The answers of the two back-ends (client/channel.go:330-481, client/rpcclient.go:180-503)

The channel client unmarshals the result into the returned variable. The HTTP client goes through
`CallContext` and a `getX` function, which reports an empty result as `NotFound`. -/

namespace Fiscobcos.Client.Answers
open Numerals JsonTree FlatJson Hexutil Client List Option

/-- The record types the operations return, with their `UnmarshalJSON` on a text that is not
`null`. Both clients use the same ones. -/
structure Records where
  ClientVersion : Type
  SyncStatus : Type
  PeerStatus : Type
  Block : Type
  TransactionByHash : Type
  PendingTx : Type
  TotalTransactionCount : Type
  Receipt : Type
  clientVersion : Bytes → Option ClientVersion
  syncStatus : Bytes → Option SyncStatus
  peers : Bytes → Option (List PeerStatus)
  block : Bytes → Option Block
  transaction : Bytes → Option TransactionByHash
  pendingTxs : Bytes → Option (List PendingTx)
  transactionCount : Bytes → Option TotalTransactionCount
  receipt : Bytes → Option Receipt

section Targets
variable (T : JsonText) {α : Type}

/-- `json.Unmarshal` into a variable: `null` leaves it at its zero value, which for a pointer
is nil. -/
def unmarshal (zero : α) (read : Bytes → Value → Option α) (text : Bytes) : Option α :=
  match T.parse text with
  | none => none
  | some .null => some zero
  | some v => read text v

def toRaw : Bytes → Option Bytes := unmarshal T [] fun text _ => some text

def toText : Bytes → Option Bytes := unmarshal T [] fun _ v => decodeString v []

def toList (elem : Value → Option α) : Bytes → Option (List α) :=
  unmarshal T [] fun _ v => decodeSlice elem v

def toRecord (read : Bytes → Option α) : Bytes → Option (Option α) :=
  unmarshal T none fun text _ => (read text).map some

def toRecords (read : Bytes → Option (List α)) : Bytes → Option (List α) :=
  unmarshal T [] fun text _ => read text

def toHexBytes : Bytes → Option Bytes :=
  unmarshal T [] fun text _ => (unmarshalJSON bytesText text).toOption

def toHash : Bytes → Option (Option Bytes) :=
  toRecord T fun text => (unmarshalJSON (fixedText 32) text).toOption

end Targets

def bigHeight (height : ℕ) : ℤ := if height < 2 ^ 63 then height else height - 2 ^ 64

def blockHeight (result : Bytes) : Option ℤ :=
  match decodeUint64 result with
  | (height, none) => some (bigHeight height)
  | (_, some _) => none

namespace channelClient
variable (R : Records) (T : JsonText) (J : Json) (data : Bytes)

def call {α : Type} (target : Bytes → Option α) (method : String) : Except CallError α :=
  channelClient.answered target (T.json J) (ascii method) data

def clientVersion := call T J data (toRecord T R.clientVersion) "getClientVersion"
def blockNumber := convert blockHeight (call T J data (toText T) "getBlockNumber")
def pbftView := call T J data (toText T) "getPbftView"
def sealerList := call T J data (toList T (decodeString · [])) "getSealerList"
def observerList := call T J data (toList T (decodeString · [])) "getObserverList"
def consensusStatus := call T J data (toList T decodeAny) "getConsensusStatus"
def syncStatus := call T J data (toRecord T R.syncStatus) "getSyncStatus"
def peers := call T J data (toRecords T R.peers) "getPeers"
def groupPeers := call T J data (toList T (decodeString · [])) "getGroupPeers"
def nodeIDList := call T J data (toList T (decodeString · [])) "getNodeIDList"
def groupList := call T J data (toList T (decodeInt64 · 0)) "getGroupList"
def blockByHash := call T J data (toRecord T R.block) "getBlockByHash"
def blockByNumber := call T J data (toRecord T R.block) "getBlockByNumber"
def blockHashByNumber := call T J data (toHash T) "getBlockHashByNumber"
def transactionByHash := call T J data (toRecord T R.transaction) "getTransactionByHash"
def transactionByBlockHashAndIndex :=
  call T J data (toRecord T R.transaction) "getTransactionByBlockHashAndIndex"
def transactionByBlockNumberAndIndex :=
  call T J data (toRecord T R.transaction) "getTransactionByBlockNumberAndIndex"
def pendingTransactions := call T J data (toRecords T R.pendingTxs) "getPendingTransactions"
def pendingTxSize := call T J data (toText T) "getPendingTxSize"
def code := call T J data (toText T) "getCode"
def totalTransactionCount :=
  call T J data (toRecord T R.transactionCount) "getTotalTransactionCount"
def systemConfigByKey := call T J data (toText T) "getSystemConfigByKey"
def transactionReceipt := call T J data (toRecord T R.receipt) "getTransactionReceipt"
def codeAt := call T J data (toHexBytes T) "getCode"
def callContract := call T J data (toHexBytes T) "call"

end channelClient

namespace rpcClient
variable (R : Records) (T : JsonText) (status : ℕ) (body : Bytes)

def callContext {α : Type} (target : Bytes → Option α) (method : String) : Except CallError α :=
  Client.rpcClient.callContext target T (ascii method) status body

def getRaw {α : Type} (target : Bytes → Option α) (method : String) : Except CallError α :=
  convert target (Client.rpcClient.get List.isEmpty (callContext T status body (toRaw T) method))

def getFilled {α : Type} (target : Bytes → Option (List α)) (method : String) :
    Except CallError (List α) :=
  Client.rpcClient.get List.isEmpty (callContext T status body target method)

def clientVersion := getRaw T status body (toRecord T R.clientVersion) "getClientVersion"
def blockNumber := convert blockHeight (getFilled T status body (toText T) "getBlockNumber")
def pbftView := getFilled T status body (toText T) "getPbftView"
def sealerList := getFilled T status body (toList T (decodeString · [])) "getSealerList"
def observerList := getFilled T status body (toList T (decodeString · [])) "getObserverList"
def consensusStatus := getFilled T status body (toList T decodeAny) "getConsensusStatus"
def syncStatus := getRaw T status body (toRecord T R.syncStatus) "getSyncStatus"
def peers := getRaw T status body (toRecords T R.peers) "getPeers"
def groupPeers := getFilled T status body (toList T (decodeString · [])) "getGroupPeers"
def nodeIDList := getFilled T status body (toList T (decodeString · [])) "getNodeIDList"
def groupList := getFilled T status body (toList T (decodeInt64 · 0)) "getGroupList"
def blockByHash := getRaw T status body (toRecord T R.block) "getBlockByHash"
def blockByNumber := getRaw T status body (toRecord T R.block) "getBlockByNumber"

/-- The string is converted by the lenient `HexToHash`. -/
def blockHashByNumber :=
  convert (fun s => some (some (hexToHash s)))
    (getFilled T status body (toText T) "getBlockHashByNumber")

-- the method name is that of the next operation
def transactionByHash :=
  getRaw T status body (toRecord T R.transaction) "getTransactionByBlockHashAndIndex"
def transactionByBlockHashAndIndex :=
  getRaw T status body (toRecord T R.transaction) "getTransactionByBlockHashAndIndex"
def transactionByBlockNumberAndIndex :=
  getRaw T status body (toRecord T R.transaction) "getTransactionByBlockNumberAndIndex"
def pendingTransactions := getRaw T status body (toRecords T R.pendingTxs) "getPendingTransactions"
def pendingTxSize := getFilled T status body (toText T) "getPendingTxSize"
def code := getFilled T status body (toText T) "getCode"
def totalTransactionCount :=
  getRaw T status body (toRecord T R.transactionCount) "getTotalTransactionCount"
def systemConfigByKey := getFilled T status body (toText T) "getSystemConfigByKey"
def transactionReceipt := getRaw T status body (toRecord T R.receipt) "getTransactionReceipt"
def codeAt := callContext T status body (toHexBytes T) "getCode"
def callContract := callContext T status body (toHexBytes T) "call"

end rpcClient

def ErrorReadable (v : Value) : Prop := (jsonErrorLayout.decodePtr ⟨0, []⟩ v none).isSome

structure Carries (members : List (Bytes × Value)) (v : Value) : Prop where
  version : ∀ m ∈ membersFor messageNames (ascii "jsonrpc") members, Value.TextOrNull m.2
  method : ∀ m ∈ membersFor messageNames (ascii "method") members, Value.TextOrNull m.2
  error : ∀ m ∈ membersFor messageNames (ascii "error") members, ErrorReadable m.2
  noError : ∀ m, (membersFor messageNames (ascii "error") members).getLast? = some m → m.2 = .null
  result : ((membersFor messageNames (ascii "result") members).getLast?).map Prod.snd = some v

def callNames : List Bytes := [ascii "id", ascii "jsonrpc", ascii "error", ascii "result"]

def outputsOf : Value → List Value
  | .obj ms => (membersFor (fiscoResultLayout fun _ => []).names (ascii "output") ms).map Prod.snd
  | _ => []

def ResultReadable (v : Value) : Prop :=
  ((fiscoResultLayout fun _ => []).decodeValue v []).isSome

structure CallCarries (members : List (Bytes × Value)) (v : Value) : Prop where
  version : ∀ m ∈ membersFor callNames (ascii "jsonrpc") members, Value.TextOrNull m.2
  result : ∀ m ∈ membersFor callNames (ascii "result") members, ResultReadable m.2
  output : ((membersFor callNames (ascii "result") members).flatMap
    fun m => outputsOf m.2).getLast? = some v

/-- A response delivered to both clients, in an HTTP response with a good status for the one
and in a frame with the id of the request for the other. The text of the result is read as the
result, and a string without escapes as itself. -/
structure Response (T : JsonText) where
  status : ℕ
  body : Bytes
  members : List (Bytes × Value)
  status_ok : 200 ≤ status ∧ status < 300
  parse_body : T.parse body = some (.obj members)
  text_ne : ∀ v, Carries members v ∨ CallCarries members v → T.text v ≠ []
  parse_text : ∀ v, Carries members v ∨ CallCarries members v → T.parse (T.text v) = some v
  parse_quoted : ∀ s, Plain s → T.parse (quoted s) = some (.str s)

def SameAnswer {α : Type} (x y : Except CallError α) : Prop :=
  (∃ e, x = .error e) ∧ (∃ e, y = .error e) ∨ ∃ a, x = .ok a ∧ y = .ok a

section Same
variable {α β : Type}

theorem sameAnswer_error (e e' : CallError) :
    SameAnswer (.error e : Except CallError α) (.error e') :=
  .inl ⟨⟨e, rfl⟩, e', rfl⟩

theorem SameAnswer.refl (x : Except CallError α) : SameAnswer x x := by
  cases x with
  | error e => exact sameAnswer_error e e
  | ok a => exact .inr ⟨a, rfl, rfl⟩

theorem sameAnswer_ok_error (a : α) (e : CallError) : ¬ SameAnswer (.ok a) (.error e) := by
  intro h
  rcases h with ⟨⟨_, h⟩, _⟩ | ⟨_, _, h⟩
  · cases h
  · cases h

theorem sameAnswer_error_ok (a : α) (e : CallError) : ¬ SameAnswer (.error e) (.ok a) := by
  intro h
  rcases h with ⟨_, _, h⟩ | ⟨_, h, _⟩
  · cases h
  · cases h

def unmarshalled (x : Option α) : Except CallError α := x.elim (.error .unmarshal) .ok

theorem sameAnswer_get (x : Except CallError (List α)) :
    SameAnswer x (rpcClient.get isEmpty x) ↔ x ≠ .ok [] := by
  cases x with
  | error e => exact iff_of_true (sameAnswer_error e e) (by simp)
  | ok l =>
    cases l with
    | nil => exact iff_of_false (sameAnswer_ok_error _ _) (by simp)
    | cons a l => exact iff_of_true (.refl _) (by simp)

theorem unmarshalled_eq_ok {x : Option α} {a : α} : unmarshalled x = .ok a ↔ x = some a := by
  cases x <;> simp [unmarshalled]

end Same

section Plain
variable {T : JsonText}

variable {text : Value → Bytes} {members : List (Bytes × Value)} {m : JsonrpcMessage}

theorem messageLayout_result {name : Bytes} {v : Value}
    {m m' : JsonrpcMessage} (hne : name ≠ ascii "result")
    (h : (messageLayout text).store name v m = some m') : m'.result = m.result := by
  simp only [messageLayout, if_neg hne] at h
  split_ifs at h
  · obtain ⟨_, _, rfl⟩ := map_eq_some_iff.mp h
    rfl
  · cases h
    rfl
  · obtain ⟨_, _, rfl⟩ := map_eq_some_iff.mp h
    rfl
  · cases h
    rfl
  · obtain ⟨_, _, rfl⟩ := map_eq_some_iff.mp h
    rfl
  · cases h
    rfl

theorem decoded_result (h : decodeRpcMessage text (.obj members) = some m) :
    m.result = (((membersFor messageNames (ascii "result") members).getLast?).map
      fun x => text x.2).getD [] :=
  (messageLayout text).decode_last JsonrpcMessage.result (ascii "result")
    (fun _ _ _ _ => messageLayout_result)
    (by
      intro v s s' hs
      cases hs
      rfl) h

def isNull : Value → Bool
  | .null => true
  | _ => false

theorem isNull_iff (v : Value) : isNull v = true ↔ v = .null := by
  cases v <;> simp [isNull]

theorem decoded_error (h : decodeRpcMessage text (.obj members) = some m) :
    m.error = none ↔ ∀ x, (membersFor messageNames (ascii "error") members).getLast? = some x →
      x.2 = .null := by
  have hlast : m.error.isNone = (((membersFor messageNames (ascii "error") members).getLast?).map
      fun x => isNull x.2).getD true := by
    apply (messageLayout text).decode_last (fun m => m.error.isNone) (ascii "error") _ _ h
    · intro name v s s' hne hs
      rw [messageLayout_error hne hs]
    · intro v s s' hs
      obtain ⟨e, he, rfl⟩ := map_eq_some_iff.mp hs
      cases v with
      | null =>
        cases he
        rfl
      | obj ms =>
        obtain ⟨_, _, rfl⟩ := map_eq_some_iff.mp he
        rfl
      | _ => cases he
  rw [← isNone_iff_eq_none, hlast]
  cases (membersFor messageNames (ascii "error") members).getLast? with
  | none => simp
  | some x => simp [isNull_iff]

theorem decode_isSome_iff (text : Value → Bytes) (members : List (Bytes × Value)) :
    (decodeRpcMessage text (.obj members)).isSome ↔
      (∀ m ∈ membersFor messageNames (ascii "jsonrpc") members, Value.TextOrNull m.2) ∧
      (∀ m ∈ membersFor messageNames (ascii "method") members, Value.TextOrNull m.2) ∧
      ∀ m ∈ membersFor messageNames (ascii "error") members, ErrorReadable m.2 := by
  show ((messageLayout text).decode members _).isSome ↔ _
  rw [(messageLayout text).decode_isSome MessageAccepts (messageLayout_accepts text)]
  constructor
  · intro h
    exact ⟨fun m hm => (h _ m hm).version rfl, fun m hm => (h _ m hm).method rfl,
      fun m hm => (h _ m hm).error rfl⟩
  · intro h name m hm
    exact ⟨fun hn => h.1 m (hn ▸ hm), fun hn => h.2.1 m (hn ▸ hm), fun hn => h.2.2 m (hn ▸ hm)⟩

theorem Carries.unique {v w : Value} (hv : Carries members v) (hw : Carries members w) : v = w :=
  some.inj (hv.result.symm.trans hw.result)

theorem Carries.decode {v : Value} (hv : Carries members v) (text : Value → Bytes) :
    ∃ m, decodeRpcMessage text (.obj members) = some m ∧ m.error = none ∧ m.result = text v := by
  obtain ⟨m, hm⟩ := isSome_iff_exists.mp
    ((decode_isSome_iff text members).mpr ⟨hv.version, hv.method, hv.error⟩)
  obtain ⟨x, hx, rfl⟩ := map_eq_some_iff.mp hv.result
  have hresult := decoded_result hm
  rw [hx] at hresult
  exact ⟨m, hm, (decoded_error hm).mpr hv.noError, hresult⟩

theorem carries_of_decode (hm : decodeRpcMessage text (.obj members) = some m)
    (herror : m.error = none) (hresult : m.result ≠ []) : ∃ v, Carries members v := by
  obtain ⟨hversion, hmethod, herr⟩ :=
    (decode_isSome_iff text members).mp (isSome_iff_exists.mpr ⟨m, hm⟩)
  rw [decoded_result hm] at hresult
  cases hlast : (membersFor messageNames (ascii "result") members).getLast? with
  | none =>
    rw [hlast] at hresult
    exact absurd rfl hresult
  | some x => exact ⟨x.2, hversion, hmethod, herr, (decoded_error hm).mp herror, by rw [hlast]; rfl⟩

variable (J : Json) (r : Response T) {method : Bytes} (hmethod : method ≠ callMethod) {α β γ : Type}
include hmethod

theorem answered_plain (target : Bytes → Option α) :
    channelClient.answered target (T.json J) method r.body =
      (decodeRpcMessage T.text (.obj r.members)).elim (.error .timeout)
        (finishCall target .notFound) := by
  have hparse : (T.json J).parseReply method r.body =
      decodeRpcMessage T.text (.obj r.members) := by
    rw [Json.parseReply, if_neg hmethod]
    show (T.parse r.body).bind _ = _
    rw [r.parse_body]
    rfl
  rw [channelClient.answered, hparse]
  cases decodeRpcMessage T.text (.obj r.members) <;> rfl

theorem callContext_plain (target : Bytes → Option α) :
    Client.rpcClient.callContext target T method r.status r.body =
      (decodeRpcMessage T.text (.obj r.members)).elim (.error .unmarshal)
        (finishCall target .noResult) := by
  have hstatus : ¬ (r.status < 200 ∨ 300 ≤ r.status) := by
    have h := r.status_ok
    omega
  rw [Client.rpcClient.callContext, Client.rpcClient.sendHTTP, if_neg hstatus, if_neg hmethod,
    r.parse_body, Option.bind_some]
  cases decodeRpcMessage T.text (.obj r.members) <;> rfl

theorem sameAnswer_plain (target : Bytes → Option α) (target' : Bytes → Option β)
    (f : Except CallError α → Except CallError γ) (g : Except CallError β → Except CallError γ)
    (hf : ∀ e, ∃ e', f (.error e) = .error e') (hg : ∀ e, ∃ e', g (.error e) = .error e') :
    SameAnswer (f (channelClient.answered target (T.json J) method r.body))
        (g (Client.rpcClient.callContext target' T method r.status r.body)) ↔
      ∀ v, Carries r.members v → SameAnswer (f (unmarshalled (target (T.text v))))
        (g (unmarshalled (target' (T.text v)))) := by
  rw [answered_plain J r hmethod, callContext_plain r hmethod]
  by_cases hv : ∃ v, Carries r.members v
  · obtain ⟨v, hv⟩ := hv
    obtain ⟨m, hm, herror, hresult⟩ := hv.decode T.text
    have hfinish : ∀ (δ : Type) (t : Bytes → Option δ) (missing : CallError),
        finishCall t missing m = unmarshalled (t (T.text v)) := by
      intro δ t missing
      rw [finishCall, herror]
      simp only
      rw [hresult, if_neg (r.text_ne v (.inl hv))]
      rfl
    rw [hm]
    simp only [Option.elim, hfinish]
    constructor
    · intro h w hw
      rw [hw.unique hv]
      exact h
    · intro h
      exact h v hv
  · -- without a result both return some error
    have hfail : ∀ (δ : Type) (t : Bytes → Option δ) (unread missing : CallError),
        ∃ e, (decodeRpcMessage T.text (.obj r.members)).elim (.error unread)
          (finishCall t missing) = .error e := by
      intro δ t unread missing
      cases hm : decodeRpcMessage T.text (.obj r.members) with
      | none => exact ⟨unread, rfl⟩
      | some m =>
        rw [Option.elim, finishCall]
        cases herror : m.error with
        | some e => exact ⟨.node e, rfl⟩
        | none =>
          by_cases hresult : m.result = []
          · exact ⟨missing, by simp only [if_pos hresult]⟩
          · exact absurd (carries_of_decode hm herror hresult) hv
    obtain ⟨e, he⟩ := hfail α target .timeout .notFound
    obtain ⟨e', he'⟩ := hfail β target' .unmarshal .noResult
    obtain ⟨e₁, h₁⟩ := hf e
    obtain ⟨e₂, h₂⟩ := hg e'
    rw [he, he', h₁, h₂]
    exact iff_of_true (sameAnswer_error e₁ e₂) fun v h => absurd ⟨v, h⟩ hv

end Plain

section Call

theorem fiscoResultLayout_accepts (text : Value → Bytes) (name : Bytes) (v : Value)
    (output : Bytes) : ((fiscoResultLayout text).store name v output).isSome ↔
      ((fiscoResultLayout fun _ => []).store name v []).isSome := by
  simp only [fiscoResultLayout]
  split_ifs
  · simp
  · simp only [isSome_map]
  · simp only [isSome_map]
  · simp only [isSome_map]
  · simp only [isSome_map]

theorem resultReadable_iff (text : Value → Bytes) (v : Value) (output : Bytes) :
    ((fiscoResultLayout text).decodeValue v output).isSome ↔ ResultReadable v := by
  cases v with
  | obj ms =>
    show ((fiscoResultLayout text).decode ms output).isSome ↔
      ((fiscoResultLayout fun _ => []).decode ms []).isSome
    rw [Layout.decode_isSome _ _ (fiscoResultLayout_accepts text),
      Layout.decode_isSome _ _ (fiscoResultLayout_accepts fun _ => [])]
    rfl
  | null => exact iff_of_true rfl rfl
  | _ => exact iff_of_false Bool.false_ne_true Bool.false_ne_true

theorem fiscoResult_output {text : Value → Bytes} {v : Value} {output output' : Bytes}
    (h : (fiscoResultLayout text).decodeValue v output = some output') :
    output' = ((outputsOf v).map text).getLast?.getD output := by
  cases v with
  | null =>
    cases h
    rfl
  | obj ms =>
    have hlast := (fiscoResultLayout text).decode_last id (ascii "output") (g := text) (by
      intro name w s s' hne hs
      simp only [fiscoResultLayout, if_neg hne] at hs
      split_ifs at hs
      · obtain ⟨_, _, rfl⟩ := map_eq_some_iff.mp hs
        rfl
      · obtain ⟨_, _, rfl⟩ := map_eq_some_iff.mp hs
        rfl
      · obtain ⟨_, _, rfl⟩ := map_eq_some_iff.mp hs
        rfl
      · obtain ⟨_, _, rfl⟩ := map_eq_some_iff.mp hs
        rfl) (by
      intro w s s' hs
      cases hs
      rfl) h
    rw [outputsOf, List.map_map, getLast?_map]
    exact hlast
  | _ => cases h

structure CallAccepts (name : Bytes) (v : Value) : Prop where
  version : name = ascii "jsonrpc" → Value.TextOrNull v
  error : name = ascii "error" → ErrorReadable v
  result : name = ascii "result" → ResultReadable v

theorem fiscoMsgLayout_accepts (names : List Bytes) (text : Value → Bytes) (name : Bytes)
    (v : Value) (m : JsonrpcFiscoMsg) :
    ((fiscoMsgLayout names text).store name v m).isSome ↔ CallAccepts name v := by
  have hnames : ascii "jsonrpc" ≠ ascii "error" ∧ ascii "jsonrpc" ≠ ascii "result" ∧
      ascii "error" ≠ ascii "result" ∧ ascii "id" ≠ ascii "jsonrpc" ∧ ascii "id" ≠ ascii "error" ∧
      ascii "id" ≠ ascii "result" := by decide
  obtain ⟨hje, hjr, her, hij, hie, hir⟩ := hnames
  simp only [fiscoMsgLayout]
  split_ifs with hid hversion herror hresult
  · subst hid
    exact iff_of_true rfl ⟨fun h => absurd h hij, fun h => absurd h hie, fun h => absurd h hir⟩
  · subst hversion
    rw [isSome_map, decodeString_isSome]
    exact ⟨fun h => ⟨fun _ => h, fun hn => absurd hn hje, fun hn => absurd hn hjr⟩,
      fun h => h.version rfl⟩
  · subst herror
    rw [isSome_map, decodePtr_isSome]
    exact ⟨fun h => ⟨fun hn => absurd hn hversion, fun _ => h, fun hn => absurd hn her⟩,
      fun h => h.error rfl⟩
  · subst hresult
    rw [isSome_map, resultReadable_iff]
    exact ⟨fun h => ⟨fun hn => absurd hn hversion, fun hn => absurd hn herror, fun _ => h⟩,
      fun h => h.result rfl⟩
  · exact iff_of_true rfl ⟨fun hn => absurd hn hversion, fun hn => absurd hn herror,
      fun hn => absurd hn hresult⟩

theorem fiscoMsg_output {names : List Bytes} {text : Value → Bytes}
    {members : List (Bytes × Value)} {f : JsonrpcFiscoMsg}
    (h : (fiscoMsgLayout names text).decodeValue (.obj members) ⟨[], [], none, []⟩ = some f) :
    f.output = ((((membersFor names (ascii "result") members).flatMap
      fun m => outputsOf m.2).getLast?).map text).getD [] := by
  have hlast := (fiscoMsgLayout names text).decode_lastOf JsonrpcFiscoMsg.output (ascii "result")
    (c := fun v => (outputsOf v).map text) (by
      intro name v s s' hne hs
      simp only [fiscoMsgLayout, if_neg hne] at hs
      split_ifs at hs
      · cases hs
        rfl
      · obtain ⟨_, _, rfl⟩ := map_eq_some_iff.mp hs
        rfl
      · obtain ⟨_, _, rfl⟩ := map_eq_some_iff.mp hs
        rfl
      · cases hs
        rfl) (by
      intro v s s' hs
      obtain ⟨output, houtput, rfl⟩ := map_eq_some_iff.mp hs
      exact fiscoResult_output houtput) h
  rw [← getLast?_map, map_flatMap]
  exact hlast

theorem membersFor_call {name : Bytes}
    (hname : name ∈ [ascii "id", ascii "jsonrpc", ascii "result"]) (members : List (Bytes × Value)) :
    membersFor [ascii "id", ascii "jsonrpc", ascii "result"] name members =
      membersFor callNames name members := by
  have hsmall : ∀ n ∈ [ascii "id", ascii "jsonrpc", ascii "result"], foldBytes n = n := by decide
  have hcall : ∀ n ∈ callNames, foldBytes n = n := by decide
  have hmem : name ∈ callNames := by
    simp only [callNames, mem_cons, not_mem_nil, or_false] at hname ⊢
    tauto
  apply filter_congr
  intro m _
  rw [decide_eq_decide, fieldFor_eq_some_iff hsmall, fieldFor_eq_some_iff hcall]
  simp only [hname, hmem, true_and]

theorem decodeFiscoMsg_channel (text : Value → Bytes) (members : List (Bytes × Value)) :
    (channelClient.decodeFiscoMsg text (.obj members)).isSome ↔
      (∀ m ∈ membersFor callNames (ascii "jsonrpc") members, Value.TextOrNull m.2) ∧
      (∀ m ∈ membersFor callNames (ascii "error") members, ErrorReadable m.2) ∧
      ∀ m ∈ membersFor callNames (ascii "result") members, ResultReadable m.2 := by
  show ((fiscoMsgLayout _ text).decode members _).isSome ↔ _
  rw [Layout.decode_isSome _ CallAccepts (fiscoMsgLayout_accepts _ text)]
  constructor
  · intro h
    exact ⟨fun m hm => (h _ m hm).version rfl, fun m hm => (h _ m hm).error rfl,
      fun m hm => (h _ m hm).result rfl⟩
  · intro h name m hm
    exact ⟨fun hn => h.1 m (hn ▸ hm), fun hn => h.2.1 m (hn ▸ hm), fun hn => h.2.2 m (hn ▸ hm)⟩

theorem decodeFiscoMsg_http (text : Value → Bytes) (members : List (Bytes × Value)) :
    (rpcClient.decodeFiscoMsg text (.obj members)).isSome ↔
      (∀ m ∈ membersFor callNames (ascii "jsonrpc") members, Value.TextOrNull m.2) ∧
      ∀ m ∈ membersFor callNames (ascii "result") members, ResultReadable m.2 := by
  show ((fiscoMsgLayout _ text).decode members _).isSome ↔ _
  rw [Layout.decode_isSome _ CallAccepts (fiscoMsgLayout_accepts _ text),
    ← membersFor_call (by simp), ← membersFor_call (by simp)]
  constructor
  · intro h
    exact ⟨fun m hm => (h _ m hm).version rfl, fun m hm => (h _ m hm).result rfl⟩
  · intro h name m hm
    refine ⟨fun hn => h.1 m (hn ▸ hm), fun hn => ?_, fun hn => h.2 m (hn ▸ hm)⟩
    -- the layout has no field for an error
    have hm : m ∈ membersFor [ascii "id", ascii "jsonrpc", ascii "result"] name members := hm
    have hfield := of_decide_eq_true (mem_filter.mp hm).2
    rw [fieldFor_eq_some_iff (by decide), hn] at hfield
    exact absurd hfield.1 (by decide)

variable {T : JsonText} (J : Json) (r : Response T) {α : Type} (target : Bytes → Option α)

def finishOutput (missing : CallError) (output : Bytes) : Except CallError α :=
  if output = [] then .error missing else unmarshalled (target output)

theorem answered_call : channelClient.answered target (T.json J) callMethod r.body =
      (channelClient.decodeFiscoMsg T.text (.obj r.members)).elim (.error .timeout)
        fun f => finishOutput target .notFound f.output := by
  have hparse : (T.json J).fiscoMsg r.body =
      channelClient.decodeFiscoMsg T.text (.obj r.members) := by
    show (T.parse r.body).bind _ = _
    rw [r.parse_body]
    rfl
  rw [channelClient.answered, Json.parseReply, if_pos rfl, hparse]
  cases channelClient.decodeFiscoMsg T.text (.obj r.members) <;> rfl

theorem callContext_call : Client.rpcClient.callContext target T callMethod r.status r.body =
      (Client.rpcClient.decodeFiscoMsg T.text (.obj r.members)).elim (.error .unmarshal)
        fun f => finishOutput target .noResult f.output := by
  have hstatus : ¬ (r.status < 200 ∨ 300 ≤ r.status) := by
    have h := r.status_ok
    omega
  rw [Client.rpcClient.callContext, Client.rpcClient.sendHTTP, if_neg hstatus, if_pos rfl,
    r.parse_body, Option.bind_some]
  cases Client.rpcClient.decodeFiscoMsg T.text (.obj r.members) <;> rfl

theorem callContext_call_ok (a : α) :
    Client.rpcClient.callContext target T callMethod r.status r.body = .ok a ↔
      ∃ v, CallCarries r.members v ∧ target (T.text v) = some a := by
  rw [callContext_call]
  have hsome := decodeFiscoMsg_http T.text r.members
  cases hf : rpcClient.decodeFiscoMsg T.text (.obj r.members) with
  | none =>
    refine iff_of_false (by simp) ?_
    intro ⟨v, hv, _⟩
    have h := hsome.mpr ⟨hv.version, hv.result⟩
    rw [hf] at h
    cases h
  | some f =>
    obtain ⟨hversion, hresult⟩ := hsome.mp (by rw [hf]; rfl)
    have houtput := fiscoMsg_output hf
    rw [membersFor_call (by simp)] at houtput
    rw [Option.elim, finishOutput, houtput]
    cases hlast : ((membersFor callNames (ascii "result") r.members).flatMap
        fun m => outputsOf m.2).getLast? with
    | none =>
      refine iff_of_false (by simp) ?_
      intro ⟨v, hv, _⟩
      rw [hv.output] at hlast
      cases hlast
    | some w =>
      have hw : CallCarries r.members w := ⟨hversion, hresult, hlast⟩
      rw [map_some, getD_some, if_neg (r.text_ne w (.inr hw)), unmarshalled_eq_ok]
      constructor
      · intro h
        exact ⟨w, hw, h⟩
      · intro ⟨v, hv, h⟩
        rw [hv.output] at hlast
        cases hlast
        exact h

theorem sameAnswer_call_of_readable
    (herror : ∀ m ∈ membersFor callNames (ascii "error") r.members, ErrorReadable m.2) :
    SameAnswer (Client.channelClient.answered target (T.json J) callMethod r.body)
      (Client.rpcClient.callContext target T callMethod r.status r.body) := by
  rw [answered_call, callContext_call]
  have hsome : (Client.channelClient.decodeFiscoMsg T.text (.obj r.members)).isSome ↔
      (Client.rpcClient.decodeFiscoMsg T.text (.obj r.members)).isSome := by
    rw [decodeFiscoMsg_channel, decodeFiscoMsg_http]
    exact ⟨fun h => ⟨h.1, h.2.2⟩, fun h => ⟨h.1, herror, h.2⟩⟩
  cases hf : Client.channelClient.decodeFiscoMsg T.text (.obj r.members) with
  | none =>
    cases hg : Client.rpcClient.decodeFiscoMsg T.text (.obj r.members) with
    | none => exact sameAnswer_error _ _
    | some g =>
      rw [hf, hg] at hsome
      exact absurd (hsome.mpr rfl) Bool.false_ne_true
  | some f =>
    cases hg : Client.rpcClient.decodeFiscoMsg T.text (.obj r.members) with
    | none =>
      rw [hf, hg] at hsome
      exact absurd (hsome.mp rfl) Bool.false_ne_true
    | some g =>
      have hout := fiscoMsg_output hg
      rw [membersFor_call (by simp)] at hout
      have hsame : f.output = g.output := (fiscoMsg_output hf).trans hout.symm
      simp only [Option.elim, finishOutput, hsame]
      split_ifs
      · exact sameAnswer_error _ _
      · exact .refl _

end Call

section Families
variable {T : JsonText} {α : Type} {v : Value} {t : Bytes} (hparse : T.parse t = some v)
include hparse

theorem unmarshal_of_ne (zero : α) (read : Bytes → Value → Option α) (hv : v ≠ .null) :
    unmarshal T zero read t = read t v := by
  rw [unmarshal, hparse]
  cases v with
  | null => exact absurd rfl hv
  | _ => rfl

theorem sameAnswer_raw (ht : t ≠ []) (zero : α) (read : Bytes → Value → Option α) :
    SameAnswer (unmarshalled (unmarshal T zero read t)) (convert (unmarshal T zero read)
        (rpcClient.get isEmpty (unmarshalled (toRaw T t)))) ↔ ¬ v = .null := by
  by_cases hv : v = .null
  · subst hv
    refine iff_of_false ?_ (fun h => h rfl)
    rw [toRaw, unmarshal, unmarshal, hparse]
    exact sameAnswer_ok_error _ _
  · refine iff_of_true ?_ hv
    have hempty : t.isEmpty = false := by simpa using ht
    have hget : rpcClient.get isEmpty (.ok t) = .ok t := by
      rw [rpcClient.get, hempty]
      rfl
    rw [toRaw, unmarshal_of_ne hparse [] _ hv]
    show SameAnswer _ (convert _ (rpcClient.get isEmpty (.ok t)))
    rw [hget]
    show SameAnswer _ ((unmarshal T zero read t).elim (.error .convert) .ok)
    cases unmarshal T zero read t with
    | none => exact sameAnswer_error _ _
    | some a => exact .refl _

theorem sameAnswer_text : SameAnswer (unmarshalled (toText T t))
      (rpcClient.get isEmpty (unmarshalled (toText T t))) ↔ ¬ (v = .null ∨ v = .str []) := by
  rw [sameAnswer_get, ne_eq, unmarshalled_eq_ok, toText, unmarshal, hparse]
  cases v <;> simp [decodeString]

theorem sameAnswer_list (elem : Value → Option α) : SameAnswer (unmarshalled (toList T elem t))
      (rpcClient.get isEmpty (unmarshalled (toList T elem t))) ↔ ¬ (v = .null ∨ v = .arr []) := by
  rw [sameAnswer_get, ne_eq, unmarshalled_eq_ok, toList, unmarshal, hparse]
  cases v with
  | arr vs =>
    simp only [decodeSlice, mapM_eq_some_iff, forall₂_nil_right_iff, reduceCtorEq,
      Value.arr.injEq, false_or]
  | _ => simp [decodeSlice]

end Families

theorem sameAnswer_height (x : Except CallError Bytes) : SameAnswer (convert blockHeight x)
      (convert blockHeight (rpcClient.get isEmpty x)) := by
  cases x with
  | error e => exact sameAnswer_error _ _
  | ok s =>
    cases s with
    | nil => exact sameAnswer_error _ _
    | cons c s => exact .refl _

def HashText (text : Bytes) : Prop :=
  ∃ s raw, text = quoted s ∧ Prefixed s raw ∧ raw.length = 64 ∧ HexDigits raw

def HexText (text : Bytes) : Prop :=
  ∃ s raw, text = quoted s ∧ (s = [] ∧ raw = [] ∨ Prefixed s raw ∧ raw.length % 2 = 0) ∧
    HexDigits raw

theorem unmarshalJSON_ok_iff {α : Type} (text : Bytes → Except TextError α) (input : Bytes) (a : α) :
    unmarshalJSON text input = .ok a ↔ ∃ s, input = quoted s ∧ text s = .ok a := by
  constructor
  · intro h
    rw [unmarshalJSON] at h
    split_ifs at h with hstr
    simp only [isString, Bool.and_eq_true, decide_eq_true_eq] at hstr
    obtain ⟨⟨hlen, hhead⟩, hlast⟩ := hstr
    cases input with
    | nil => cases hhead
    | cons c rest =>
      cases hhead
      have hne : rest ≠ [] := by
        intro h0
        rw [h0] at hlen
        simp at hlen
      rw [getLast?_cons_of_ne_nil hne] at hlast
      refine ⟨rest.dropLast, ?_, h⟩
      have hsplit := dropLast_append_getLast? 34 hlast
      rw [quoted, singleton_append, cons_append, hsplit]
  · intro h
    obtain ⟨s, hs, htext⟩ := h
    rw [hs, quoted, unmarshalJSON_quoted, htext]

theorem toOption_isSome_iff {ε α : Type} (x : Except ε α) : x.toOption.isSome ↔ ∃ a, x = .ok a := by
  cases x <;> simp [Except.toOption]

theorem hexDigit_plain {c : Byte} (h : (fromHexChar c).isSome) : letterOrDigit c = true := by
  rw [fromHexChar] at h
  simp only [letterOrDigit, Bool.or_eq_true, Bool.and_eq_true, decide_eq_true_eq]
  split_ifs at h
  · omega
  · omega
  · omega
  · cases h

theorem prefixed_plain {s raw : Bytes} (hp : Prefixed s raw) (h : HexDigits raw) : Plain s := by
  obtain ⟨x, hx, rfl⟩ := hp
  intro b hb
  rcases mem_cons.mp hb with rfl | hb
  · rfl
  · rcases mem_cons.mp hb with rfl | hb
    · rcases hx with rfl | rfl <;> rfl
    · exact hexDigit_plain (h b hb)

section Hash
variable {T : JsonText} {v : Value} {t : Bytes} (hparse : T.parse t = some v)
  (hquoted : ∀ s, Plain s → T.parse (quoted s) = some (.str s))
include hparse

theorem toHexBytes_isSome : (toHexBytes T t).isSome ↔ v = .null ∨ HexText t := by
  by_cases hv : v = .null
  · subst hv
    rw [toHexBytes, unmarshal, hparse]
    exact iff_of_true rfl (.inl rfl)
  · rw [toHexBytes, unmarshal_of_ne hparse [] _ hv, toOption_isSome_iff]
    simp only [hv, false_or, unmarshalJSON_ok_iff, bytesText_ok_iff, HexText]
    constructor
    · intro ⟨b, s, hs, raw, h, hdigits, _⟩
      exact ⟨s, raw, hs, h, hdigits⟩
    · intro ⟨s, raw, hs, h, hdigits⟩
      exact ⟨_, s, hs, raw, h, hdigits, rfl⟩

include hquoted

theorem sameAnswer_hash :
    SameAnswer (unmarshalled (toHash T t)) (convert (fun s => some (some (hexToHash s)))
        (rpcClient.get isEmpty (unmarshalled (toText T t)))) ↔
      ¬ (v = .null ∨ ∃ s, v = .str s ∧ s ≠ [] ∧ ¬ HashText t) := by
  by_cases hv : v = .null
  · subst hv
    refine iff_of_false ?_ (fun h => h (.inl rfl))
    rw [toHash, toRecord, toText, unmarshal, unmarshal, hparse]
    exact sameAnswer_ok_error _ _
  rw [toHash, toRecord, unmarshal_of_ne hparse none _ hv, toText, unmarshal_of_ne hparse [] _ hv]
  cases hstrict : unmarshalJSON (fixedText 32) t with
  | ok h =>
    obtain ⟨s, hs, hfix⟩ := (unmarshalJSON_ok_iff _ t h).mp hstrict
    obtain ⟨raw, hp, hlen, hdigits, -⟩ := (fixedText_ok_iff (by norm_num) s h).mp hfix
    have hstr : v = .str s := by
      have hread := hquoted s (prefixed_plain hp hdigits)
      rw [← hs, hparse] at hread
      exact some.inj hread
    have hempty : s.isEmpty = false := by simpa using hp.ne_nil
    have hnone : ¬ ∃ s, v = .str s ∧ s ≠ [] ∧ ¬ HashText t := by
      intro hno
      obtain ⟨_, _, _, hnot⟩ := hno
      exact hnot ⟨s, raw, hs, hp, hlen, hdigits⟩
    refine iff_of_true ?_ (not_or.mpr ⟨hv, hnone⟩)
    have hget : rpcClient.get isEmpty (.ok s) = .ok s := by
      rw [rpcClient.get, hempty]
      rfl
    rw [hstr]
    show SameAnswer (.ok (some h)) (convert _ (rpcClient.get isEmpty (.ok s)))
    rw [hget, ← hexToHash_eq hfix]
    exact .refl _
  | error e =>
    have hnot : ¬ HashText t := by
      intro htext
      obtain ⟨s, raw, hs, hp, hlen, hdigits⟩ := htext
      have hok := (unmarshalJSON_ok_iff (fixedText 32) t _).mpr
        ⟨s, hs, (fixedText_ok_iff (by norm_num) s _).mpr ⟨raw, hp, hlen, hdigits, rfl⟩⟩
      rw [hstrict] at hok
      cases hok
    cases v with
    | null => exact absurd rfl hv
    | str s =>
      cases s with
      | nil =>
        refine iff_of_true (sameAnswer_error _ _) (not_or.mpr ⟨hv, fun hno => ?_⟩)
        obtain ⟨s, hs, hne, _⟩ := hno
        cases hs
        exact hne rfl
      | cons c s =>
        refine iff_of_false (sameAnswer_error_ok _ _) fun h => ?_
        exact h (.inr ⟨c :: s, rfl, by simp, hnot⟩)
    | _ =>
      refine iff_of_true (sameAnswer_error _ _) (not_or.mpr ⟨hv, fun hno => ?_⟩)
      obtain ⟨s, hs, _⟩ := hno
      cases hs

end Hash

inductive Query where
  | clientVersion | blockNumber | pbftView | sealerList | observerList | consensusStatus
  | syncStatus | peers | groupPeers | nodeIDList | groupList | blockByHash | blockByNumber
  | blockHashByNumber | transactionByHash | transactionByBlockHashAndIndex
  | transactionByBlockNumberAndIndex | pendingTransactions | pendingTxSize | code
  | totalTransactionCount | systemConfigByKey | transactionReceipt | codeAt | callContract

def Records.Answer (R : Records) : Query → Type
  | .clientVersion => Option R.ClientVersion
  | .blockNumber => ℤ
  | .pbftView | .pendingTxSize | .code | .systemConfigByKey | .codeAt | .callContract => Bytes
  | .sealerList | .observerList | .groupPeers | .nodeIDList => List Bytes
  | .consensusStatus => List Value
  | .syncStatus => Option R.SyncStatus
  | .peers => List R.PeerStatus
  | .groupList => List ℤ
  | .blockByHash | .blockByNumber => Option R.Block
  | .blockHashByNumber => Option Bytes
  | .transactionByHash | .transactionByBlockHashAndIndex | .transactionByBlockNumberAndIndex =>
    Option R.TransactionByHash
  | .pendingTransactions => List R.PendingTx
  | .totalTransactionCount => Option R.TotalTransactionCount
  | .transactionReceipt => Option R.Receipt

def channelClient.answer (R : Records) (T : JsonText) (J : Json) (data : Bytes) :
    (q : Query) → Except CallError (R.Answer q)
  | .clientVersion => clientVersion R T J data
  | .blockNumber => blockNumber T J data
  | .pbftView => pbftView T J data
  | .sealerList => sealerList T J data
  | .observerList => observerList T J data
  | .consensusStatus => consensusStatus T J data
  | .syncStatus => syncStatus R T J data
  | .peers => peers R T J data
  | .groupPeers => groupPeers T J data
  | .nodeIDList => nodeIDList T J data
  | .groupList => groupList T J data
  | .blockByHash => blockByHash R T J data
  | .blockByNumber => blockByNumber R T J data
  | .blockHashByNumber => blockHashByNumber T J data
  | .transactionByHash => transactionByHash R T J data
  | .transactionByBlockHashAndIndex => transactionByBlockHashAndIndex R T J data
  | .transactionByBlockNumberAndIndex => transactionByBlockNumberAndIndex R T J data
  | .pendingTransactions => pendingTransactions R T J data
  | .pendingTxSize => pendingTxSize T J data
  | .code => code T J data
  | .totalTransactionCount => totalTransactionCount R T J data
  | .systemConfigByKey => systemConfigByKey T J data
  | .transactionReceipt => transactionReceipt R T J data
  | .codeAt => codeAt T J data
  | .callContract => callContract T J data

def rpcClient.answer (R : Records) (T : JsonText) (status : ℕ) (body : Bytes) :
    (q : Query) → Except CallError (R.Answer q)
  | .clientVersion => clientVersion R T status body
  | .blockNumber => blockNumber T status body
  | .pbftView => pbftView T status body
  | .sealerList => sealerList T status body
  | .observerList => observerList T status body
  | .consensusStatus => consensusStatus T status body
  | .syncStatus => syncStatus R T status body
  | .peers => peers R T status body
  | .groupPeers => groupPeers T status body
  | .nodeIDList => nodeIDList T status body
  | .groupList => groupList T status body
  | .blockByHash => blockByHash R T status body
  | .blockByNumber => blockByNumber R T status body
  | .blockHashByNumber => blockHashByNumber T status body
  | .transactionByHash => transactionByHash R T status body
  | .transactionByBlockHashAndIndex => transactionByBlockHashAndIndex R T status body
  | .transactionByBlockNumberAndIndex => transactionByBlockNumberAndIndex R T status body
  | .pendingTransactions => pendingTransactions R T status body
  | .pendingTxSize => pendingTxSize T status body
  | .code => code T status body
  | .totalTransactionCount => totalTransactionCount R T status body
  | .systemConfigByKey => systemConfigByKey T status body
  | .transactionReceipt => transactionReceipt R T status body
  | .codeAt => codeAt T status body
  | .callContract => callContract T status body

def CallDiffers {T : JsonText} (r : Response T) : Prop :=
  (∃ m ∈ membersFor callNames (ascii "error") r.members, ¬ ErrorReadable m.2) ∧
    ∃ v, CallCarries r.members v ∧ (v = .null ∨ HexText (T.text v))

def Query.Splits (T : JsonText) : Query → Value → Prop
  | .blockNumber, _ | .codeAt, _ | .callContract, _ => False
  | .pbftView, v | .pendingTxSize, v | .code, v | .systemConfigByKey, v => v = .null ∨ v = .str []
  | .sealerList, v | .observerList, v | .consensusStatus, v | .groupPeers, v | .nodeIDList, v
  | .groupList, v => v = .null ∨ v = .arr []
  | .blockHashByNumber, v => v = .null ∨ ∃ s, v = .str s ∧ s ≠ [] ∧ ¬ HashText (T.text v)
  | _, v => v = .null

def Query.Differs {T : JsonText} (r : Response T) : Query → Prop
  | .callContract => CallDiffers r
  | q => ∃ v, Carries r.members v ∧ q.Splits T v

section Operations
variable {T : JsonText} (J : Json) (r : Response T) {α β γ : Type}

theorem sameAnswer_unless {method : Bytes} (hmethod : method ≠ callMethod)
    (target : Bytes → Option α) (target' : Bytes → Option β)
    (f : Except CallError α → Except CallError γ) (g : Except CallError β → Except CallError γ)
    (hf : ∀ e, ∃ e', f (.error e) = .error e') (hg : ∀ e, ∃ e', g (.error e) = .error e')
    (Bad : Value → Prop) (hbad : ∀ v, T.parse (T.text v) = some v → T.text v ≠ [] →
      (SameAnswer (f (unmarshalled (target (T.text v)))) (g (unmarshalled (target' (T.text v)))) ↔
        ¬ Bad v)) : SameAnswer (f (Client.channelClient.answered target (T.json J) method r.body))
        (g (Client.rpcClient.callContext target' T method r.status r.body)) ↔
      ¬ ∃ v, Carries r.members v ∧ Bad v := by
  rw [sameAnswer_plain J r hmethod target target' f g hf hg]
  have hiff := fun v hv => hbad v (r.parse_text v (.inl hv)) (r.text_ne v (.inl hv))
  constructor
  · intro h ⟨v, hv, hb⟩
    exact (hiff v hv).mp (h v hv) hb
  · intro h v hv
    exact (hiff v hv).mpr fun hb => h ⟨v, hv, hb⟩

theorem sameAnswer_getRaw (zero : α) (read : Bytes → Value → Option α) {cm hm : String}
    (hcm : ascii cm ≠ callMethod) (hhm : ascii hm ≠ callMethod) :
    SameAnswer (channelClient.call T J r.body (unmarshal T zero read) cm)
      (rpcClient.getRaw T r.status r.body (unmarshal T zero read) hm) ↔
        ¬ ∃ v, Carries r.members v ∧ v = .null := by
  -- the method matters only in so far as it is not `call`
  have hmethod : channelClient.call T J r.body (unmarshal T zero read) cm =
      channelClient.answered (unmarshal T zero read) (T.json J) (ascii hm) r.body := by
    rw [channelClient.call, answered_plain J r hcm, answered_plain J r hhm]
  rw [hmethod]
  apply sameAnswer_unless J r hhm _ _ id
    (fun x => convert (unmarshal T zero read) (rpcClient.get isEmpty x))
    (fun e => ⟨e, rfl⟩) (fun e => ⟨e, rfl⟩)
  intro v hparse hne
  exact sameAnswer_raw hparse hne zero read

theorem sameAnswer_getText {method : String} (hm : ascii method ≠ callMethod) :
    SameAnswer (channelClient.call T J r.body (toText T) method)
      (rpcClient.getFilled T r.status r.body (toText T) method) ↔
        ¬ ∃ v, Carries r.members v ∧ (v = .null ∨ v = .str []) := by
  apply sameAnswer_unless J r hm _ _ id (rpcClient.get isEmpty)
    (fun e => ⟨e, rfl⟩) (fun e => ⟨e, rfl⟩)
  intro v hparse _
  exact sameAnswer_text hparse

theorem sameAnswer_getList (elem : Value → Option α) {method : String}
    (hm : ascii method ≠ callMethod) :
    SameAnswer (channelClient.call T J r.body (toList T elem) method)
      (rpcClient.getFilled T r.status r.body (toList T elem) method) ↔
        ¬ ∃ v, Carries r.members v ∧ (v = .null ∨ v = .arr []) := by
  apply sameAnswer_unless J r hm _ _ id (rpcClient.get isEmpty)
    (fun e => ⟨e, rfl⟩) (fun e => ⟨e, rfl⟩)
  intro v hparse _
  exact sameAnswer_list hparse elem

theorem sameAnswer_blockNumber : SameAnswer (channelClient.blockNumber T J r.body)
      (rpcClient.blockNumber T r.status r.body) ↔ ¬ ∃ v, Carries r.members v ∧ False := by
  apply sameAnswer_unless J r (by decide) _ _ (convert blockHeight)
    (fun x => convert blockHeight (rpcClient.get isEmpty x))
    (fun e => ⟨e, rfl⟩) (fun e => ⟨e, rfl⟩)
  intro v _ _
  exact iff_of_true (sameAnswer_height _) not_false

theorem sameAnswer_blockHashByNumber : SameAnswer (channelClient.blockHashByNumber T J r.body)
      (rpcClient.blockHashByNumber T r.status r.body) ↔ ¬ ∃ v, Carries r.members v ∧
          (v = .null ∨ ∃ s, v = .str s ∧ s ≠ [] ∧ ¬ HashText (T.text v)) := by
  apply sameAnswer_unless J r (by decide) _ _ id
    (fun x => convert (fun s => some (some (hexToHash s))) (rpcClient.get isEmpty x))
    (fun e => ⟨e, rfl⟩) (fun e => ⟨e, rfl⟩)
  intro v hparse _
  exact sameAnswer_hash hparse r.parse_quoted

theorem sameAnswer_codeAt :
    SameAnswer (channelClient.codeAt T J r.body) (rpcClient.codeAt T r.status r.body) ↔
      ¬ ∃ v, Carries r.members v ∧ False := by
  apply sameAnswer_unless J r (by decide) _ _ id id (fun e => ⟨e, rfl⟩) (fun e => ⟨e, rfl⟩)
  intro v _ _
  exact iff_of_true (.refl _) not_false

theorem sameAnswer_callContract :
    SameAnswer (channelClient.callContract T J r.body) (rpcClient.callContract T r.status r.body) ↔
      ¬ CallDiffers r := by
  by_cases herror : ∀ m ∈ membersFor callNames (ascii "error") r.members, ErrorReadable m.2
  · apply iff_of_true (sameAnswer_call_of_readable J r (toHexBytes T) herror)
    intro ⟨⟨m, hm, hnot⟩, _⟩
    exact hnot (herror m hm)
  · -- the channel client drops the reply and times out
    have hnone : Client.channelClient.decodeFiscoMsg T.text (.obj r.members) = none := by
      rw [← Option.not_isSome_iff_eq_none, decodeFiscoMsg_channel]
      exact fun h => herror h.2.1
    have hchannel : channelClient.callContract T J r.body = .error .timeout := by
      show Client.channelClient.answered _ _ callMethod _ = _
      rw [answered_call, hnone]
      rfl
    have hok := callContext_call_ok r (toHexBytes T)
    have hhttp : rpcClient.callContract T r.status r.body =
      Client.rpcClient.callContext (toHexBytes T) T callMethod r.status r.body := rfl
    rw [hchannel, hhttp]
    simp only [not_forall] at herror
    obtain ⟨m, hm, hnot⟩ := herror
    cases hc : Client.rpcClient.callContext (toHexBytes T) T callMethod r.status r.body with
    | ok b =>
      obtain ⟨v, hv, hb⟩ := (hok b).mp hc
      apply iff_of_false (sameAnswer_error_ok _ _)
      rw [not_not]
      have hhex := (toHexBytes_isSome (r.parse_text v (.inr hv))).mp (by rw [hb]; rfl)
      exact ⟨⟨m, hm, hnot⟩, v, hv, hhex⟩
    | error e =>
      apply iff_of_true (sameAnswer_error _ _)
      intro ⟨_, v, hv, hhex⟩
      obtain ⟨b, hb⟩ := Option.isSome_iff_exists.mp
        ((toHexBytes_isSome (r.parse_text v (.inr hv))).mpr hhex)
      rw [(hok b).mpr ⟨v, hv, hb⟩] at hc
      cases hc

end Operations

/-- Both clients give the same answer to every response but those of `Differs`: an empty list
or string or `null` is a result for the one and `NotFound` for the other, a block hash is read
strictly or leniently, and the reply to a `call` with an odd error member is dropped by one. -/
theorem same_answer_iff (R : Records) (T : JsonText) (J : Json) (r : Response T) (q : Query) :
    SameAnswer (channelClient.answer R T J r.body q) (rpcClient.answer R T r.status r.body q) ↔
      ¬ q.Differs r := by
  cases q with
  | blockNumber => exact sameAnswer_blockNumber J r
  | codeAt => exact sameAnswer_codeAt J r
  | blockHashByNumber => exact sameAnswer_blockHashByNumber J r
  | callContract => exact sameAnswer_callContract J r
  | pbftView | pendingTxSize | code | systemConfigByKey =>
    exact sameAnswer_getText J r (by decide)
  | sealerList | observerList | consensusStatus | groupPeers | nodeIDList | groupList =>
    exact sameAnswer_getList J r _ (by decide)
  | _ => exact sameAnswer_getRaw J r _ _ (by decide) (by decide)

def flatLeaf (t : Bytes) : Value := if t = nullText then .null else .str t.tail.dropLast

/-- Reads the objects of `flatReader`, and strings of letters and digits. -/
def flatText : JsonText where
  parse b :=
    match flatReader.members b with
    | some ms => some (.obj (ms.map fun m => (m.1, flatLeaf m.2)))
    | none =>
      match flatValue b with
      | some (t, []) => some (flatLeaf t)
      | _ => none
  text v :=
    match v with
    | .str s => quoted s
    | _ => nullText

theorem flatLeaf_quoted (s : Bytes) : flatLeaf (quoted s) = .str s := by
  have hne : quoted s ≠ nullText := by
    intro h
    cases congrArg List.head? h
  rw [flatLeaf, if_neg hne]
  show Value.str (s ++ [34]).dropLast = .str s
  rw [List.dropLast_concat]

theorem flatText_quoted {s : Bytes} (hs : Plain s) : flatText.parse (quoted s) = some (.str s) := by
  have hvalue := flatValue_quoted hs []
  rw [List.append_nil] at hvalue
  have hmembers : flatReader.members (quoted s) = none := rfl
  simp only [flatText, hmembers, hvalue, flatLeaf_quoted]

def resultText (s : Bytes) : Bytes := objectText [(ascii "result", quoted s)]

theorem flatText_result {s : Bytes} (hs : Plain s) :
    flatText.parse (resultText s) = some (.obj [(ascii "result", .str s)]) := by
  have hmembers := flatReader.members_text [(ascii "result", quoted s)] (by
    intro m hm
    rw [List.mem_singleton.mp hm]
    exact ⟨show Plain (ascii "result") by decide, .inr ⟨s, hs, rfl⟩⟩)
  simp only [flatText, resultText, hmembers, List.map_cons, List.map_nil, flatLeaf_quoted]

def stringResponse (s : Bytes) (hs : Plain s) : Response flatText where
  status := 200
  body := resultText s
  members := [(ascii "result", .str s)]
  status_ok := by decide
  parse_body := flatText_result hs
  text_ne := by
    intro v hv
    cases v <;> simp [flatText, quoted, nullText]
  parse_text := by
    intro v hv
    have hstr : v = .str s := by
      rcases hv with hv | hv
      · exact (Option.some.inj hv.result).symm
      · have hnone : (none : Option Value) = some v := hv.output
        cases hnone
    rw [hstr]
    exact flatText_quoted hs
  parse_quoted := fun _ => flatText_quoted

def emptyView : Response flatText := stringResponse [] (by decide)

def shortHash : Response flatText := stringResponse (ascii "12") (by decide)

/-- An empty view is a view for the channel client and nothing for the HTTP client; the block hash
`12` is an error for the one and a hash with 31 leading zeros for the other. -/
theorem empty_and_short_results_differ :
    channelClient.pbftView flatText sampleJson emptyView.body = .ok [] ∧
    rpcClient.pbftView flatText emptyView.status emptyView.body = .error .notFound ∧
    channelClient.blockHashByNumber flatText sampleJson shortHash.body = .error .unmarshal ∧
    rpcClient.blockHashByNumber flatText shortHash.status shortHash.body =
      .ok (some (List.replicate 31 0 ++ [18])) :=
  ⟨rfl, rfl, rfl, rfl⟩

end Fiscobcos.Client.Answers
