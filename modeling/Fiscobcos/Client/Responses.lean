import Fiscobcos.Client.Rpc
import Fiscobcos.Lib.JsonTree

/-! # Error responses (client/channel.go:122-141, 202-231, rpc/http.go:123-157, rpc/client.go:274-305)

A plain reply is read into `jsonrpcMessage`, whose error is returned. The reply to a `call` goes
through `jsonrpcFiscoMsg`, whose error is not copied. -/

namespace Fiscobcos.Client
open Numerals JsonTree Option

structure JsonText where
  parse : Bytes → Option Value
  text : Value → Bytes

def jsonErrorNames : List Bytes := [ascii "code", ascii "message", ascii "data"]

def messageNames : List Bytes :=
  [ascii "jsonrpc", ascii "id", ascii "method", ascii "params", ascii "error", ascii "result"]

def jsonErrorLayout : Layout JsonError where
  names := jsonErrorNames
  store name v e :=
    if name = ascii "code" then (decodeInt64 v e.code).map fun code => { e with code }
    else if name = ascii "message" then (decodeString v e.message).map fun message => { e with message }
    else if name = ascii "data" then (decodeAny v).map fun _ => e
    else some e

def messageLayout (text : Value → Bytes) : Layout JsonrpcMessage where
  names := messageNames
  store name v m :=
    if name = ascii "jsonrpc" then (decodeString v m.version).map fun version => { m with version }
    else if name = ascii "id" then some { m with id := text v }
    else if name = ascii "method" then (decodeString v m.method).map fun method => { m with method }
    else if name = ascii "params" then some { m with params := text v }
    else if name = ascii "error" then
      (jsonErrorLayout.decodePtr ⟨0, []⟩ v m.error).map fun error => { m with error }
    else if name = ascii "result" then some { m with result := text v }
    else some m

/-- The elements of `Transactions` (`client/types.go:121-133`): strings, but for `to`. -/
def fiscoTransactionLayout : Layout Unit where
  names := [ascii "blockHash", ascii "blockNumber", ascii "from", ascii "gas", ascii "gasPrice",
    ascii "hash", ascii "input", ascii "nonce", ascii "to", ascii "transactionIndex", ascii "value"]
  store name v _ :=
    if name = ascii "to" then (decodeAny v).map fun _ => () else (decodeString v []).map fun _ => ()

/-- The result of a `call` (`client/types.go:106-135`, `rpc/json.go:332-361`); the
output is all that is used of it. -/
def fiscoResultLayout (text : Value → Bytes) : Layout Bytes where
  names := [ascii "currentBlockNumber", ascii "output", ascii "status", ascii "extraData",
    ascii "gasLimit", ascii "gasUsed", ascii "hash", ascii "logsBloom", ascii "number",
    ascii "parentHash", ascii "sealer", ascii "sealerList", ascii "stateRoot", ascii "timestamp",
    ascii "transactions", ascii "transactionsRoot"]
  store name v output :=
    if name = ascii "output" then some (text v)
    else if name = ascii "extraData" then (decodeSlice decodeAny v).map fun _ => output
    else if name = ascii "sealerList" then (decodeSlice (decodeString · []) v).map fun _ => output
    else if name = ascii "transactions" then
      (decodeSlice (fiscoTransactionLayout.decodeValue · ()) v).map fun _ => output
    else (decodeString v []).map fun _ => output

def fiscoMsgLayout (names : List Bytes) (text : Value → Bytes) : Layout JsonrpcFiscoMsg where
  names := names
  store name v m :=
    if name = ascii "id" then some { m with id := text v }
    else if name = ascii "jsonrpc" then (decodeString v m.jsonrpc).map fun jsonrpc => { m with jsonrpc }
    else if name = ascii "error" then
      (jsonErrorLayout.decodePtr ⟨0, []⟩ v m.error).map fun error => { m with error }
    else if name = ascii "result" then
      ((fiscoResultLayout text).decodeValue v m.output).map fun output => { m with output }
    else some m

def decodeRpcMessage (text : Value → Bytes) (v : Value) : Option JsonrpcMessage :=
  (messageLayout text).decodeValue v ⟨[], [], [], [], none, []⟩

namespace channelClient

/-- `client/types.go:102-136`: with an error member, which nobody reads. -/
def decodeFiscoMsg (text : Value → Bytes) (v : Value) : Option JsonrpcFiscoMsg :=
  (fiscoMsgLayout [ascii "id", ascii "jsonrpc", ascii "error", ascii "result"] text).decodeValue v
    ⟨[], [], none, []⟩

end channelClient

namespace rpcClient

/-- `rpc/json.go:329-362`: without an error member. -/
def decodeFiscoMsg (text : Value → Bytes) (v : Value) : Option JsonrpcFiscoMsg :=
  (fiscoMsgLayout [ascii "id", ascii "jsonrpc", ascii "result"] text).decodeValue v
    ⟨[], [], none, []⟩

end rpcClient

/-- The readers of the channel client on top of `encoding/json`. -/
def JsonText.json (T : JsonText) (J : Json) : Json :=
  { J with
    message := fun data => (T.parse data).bind (decodeRpcMessage T.text)
    fiscoMsg := fun data => (T.parse data).bind (channelClient.decodeFiscoMsg T.text) }

theorem JsonText.json_fiscoMsg (T : JsonText) (J : Json) (data : Bytes) :
    (T.json J).fiscoMsg data = (T.parse data).bind (channelClient.decodeFiscoMsg T.text) :=
  rfl

inductive CallError where
  | node (e : JsonError)
  | notFound
  | noResult
  | timeout
  | send
  | unmarshal
  | convert
  | status (code : ℕ) (body : Bytes)
  | nilTx
  | context
  | receipt (text : Bytes)

section Calls
variable {ρ : Type} (unmarshal : Bytes → Option ρ)

/-- The end of `rpcCall` (`client/channel.go:134-140`) and of `CallContext`
(`rpc/client.go:293-304`), which differ in the error for a missing result. -/
def finishCall (missing : CallError) (resp : JsonrpcMessage) : Except CallError ρ :=
  match resp.error with
  | some e => .error (.node e)
  | none =>
    if resp.result = [] then .error missing
    else (unmarshal resp.result).elim (.error .unmarshal) .ok

namespace channelClient

/-- `rpcCall` (`client/channel.go:130-140`) after what `sendRPC` returned. -/
def rpcCall : RpcResult → Except CallError ρ
  | .reply _ resp => finishCall unmarshal .notFound resp
  | .timeout => .error .timeout
  | .sendError => .error .send

/-- `rpcCall` when the one reply has payload `data`: a reply that cannot be read is
dropped, and the call waits for its time-out. -/
def answered (J : Json) (method data : Bytes) : Except CallError ρ :=
  match J.parseReply method data with
  | none => .error .timeout
  | some resp => finishCall unmarshal .notFound resp

end channelClient

namespace rpcClient

def sendHTTP (T : JsonText) (method : Bytes) (status : ℕ) (body : Bytes) :
    Except CallError JsonrpcMessage :=
  if status < 200 ∨ 300 ≤ status then .error (.status status body)
  else if method = callMethod then
    match (T.parse body).bind (decodeFiscoMsg T.text) with
    | none => .error .unmarshal
    | some fmsg =>
      .ok { version := fmsg.jsonrpc, id := fmsg.id, method := [], params := [], error := none,
            result := fmsg.output }
  else
    match (T.parse body).bind (decodeRpcMessage T.text) with
    | none => .error .unmarshal
    | some respmsg => .ok respmsg

def callContext (T : JsonText) (method : Bytes) (status : ℕ) (body : Bytes) : Except CallError ρ :=
  match sendHTTP T method status body with
  | .error e => .error e
  | .ok resp => finishCall unmarshal .noResult resp

/-- The `getX` functions (`client/rpcclient.go:180-466`) report an empty result. -/
def get (isEmpty : ρ → Bool) : Except CallError ρ → Except CallError ρ
  | .error e => .error e
  | .ok raw => if isEmpty raw then .error .notFound else .ok raw

end rpcClient

def convert {β : Type} (post : ρ → Option β) : Except CallError ρ → Except CallError β
  | .error e => .error e
  | .ok r => (post r).elim (.error .convert) .ok

end Calls

structure ErrorResponse where
  members : List (Bytes × Value)
  error : List (Bytes × Value)
  code : Number
  message : Bytes
  has_error : ∃ key, membersFor messageNames (ascii "error") members =
    [(key, .obj error)]
  has_code : ∃ key, membersFor jsonErrorNames (ascii "code") error = [(key, .num code)]
  has_message : ∃ key, membersFor jsonErrorNames (ascii "message") error = [(key, .str message)]

def Value.TextOrNull (v : Value) : Prop := (decodeString v []).isSome

structure ErrorResponse.Readable (r : ErrorResponse) : Prop where
  version : ∀ m ∈ membersFor messageNames (ascii "jsonrpc") r.members,
    Value.TextOrNull m.2
  method : ∀ m ∈ membersFor messageNames (ascii "method") r.members,
    Value.TextOrNull m.2
  code : ∃ z, r.code = .integer z ∧ -2 ^ 63 ≤ z ∧ z < 2 ^ 63
  data : ∀ m ∈ membersFor jsonErrorNames (ascii "data") r.error, m.2.inFloatRange

/-- The error tells the caller code and message; an HTTP error status comes with
the whole body. -/
def CallError.Carries (r : ErrorResponse) (body : Bytes) : CallError → Prop
  | .node e => (e.code : ℚ) = r.code.value ∧ e.message = r.message
  | .status _ text => text = body
  | _ => False

variable {name : Bytes} {v : Value} {e : JsonError} {m : JsonrpcMessage}

section Errors

theorem decodeString_isSome (v : Value) (old : Bytes) :
    (decodeString v old).isSome ↔ Value.TextOrNull v := by
  cases v <;> rfl

theorem decodeInt64_isSome (v : Value) (old : ℤ) :
    (decodeInt64 v old).isSome ↔ (decodeInt64 v 0).isSome := by
  unfold decodeInt64
  split
  · rfl
  · split_ifs <;> rfl
  · rfl

theorem decodeInt64_num {n : Number} {old code : ℤ} (h : decodeInt64 (.num n) old = some code) :
    n = .integer code ∧ -2 ^ 63 ≤ code ∧ code < 2 ^ 63 := by
  cases n with
  | decimal m e => cases h
  | integer z =>
    simp only [decodeInt64] at h
    split_ifs at h with hz
    cases h
    exact ⟨rfl, hz⟩

structure ErrorAccepts (name : Bytes) (v : Value) : Prop where
  code : name = ascii "code" → (decodeInt64 v 0).isSome
  message : name = ascii "message" → Value.TextOrNull v
  data : name = ascii "data" → v.inFloatRange

theorem jsonErrorLayout_accepts (name : Bytes) (v : Value) (e : JsonError) :
    (jsonErrorLayout.store name v e).isSome ↔ ErrorAccepts name v := by
  have hnames : ascii "code" ≠ ascii "message" ∧ ascii "code" ≠ ascii "data" ∧
      ascii "message" ≠ ascii "data" := by decide
  simp only [jsonErrorLayout]
  split_ifs with hcode hmessage hdata
  · subst hcode
    rw [isSome_map, decodeInt64_isSome]
    exact ⟨fun h => ⟨fun _ => h, fun hn => absurd hn hnames.1, fun hn => absurd hn hnames.2.1⟩,
      fun h => h.code rfl⟩
  · subst hmessage
    rw [isSome_map, decodeString_isSome]
    exact ⟨fun h => ⟨fun hn => absurd hn hcode, fun _ => h, fun hn => absurd hn hnames.2.2⟩,
      fun h => h.message rfl⟩
  · subst hdata
    rw [isSome_map, decodeAny]
    refine ⟨fun h => ⟨fun hn => absurd hn hcode, fun hn => absurd hn hmessage, fun _ => ?_⟩,
      fun h => ?_⟩
    · by_contra hrange
      rw [if_neg hrange] at h
      cases h
    · rw [if_pos (h.data rfl)]
      rfl
  · exact iff_of_true rfl ⟨fun hn => absurd hn hcode, fun hn => absurd hn hmessage,
      fun hn => absurd hn hdata⟩

theorem jsonErrorLayout_code {e' : JsonError}
    (hne : name ≠ ascii "code") (h : jsonErrorLayout.store name v e = some e') :
    e'.code = e.code := by
  simp only [jsonErrorLayout, if_neg hne] at h
  split_ifs at h with hmessage hdata
  · obtain ⟨message, _, rfl⟩ := map_eq_some_iff.mp h
    rfl
  · obtain ⟨_, _, rfl⟩ := map_eq_some_iff.mp h
    rfl
  · cases h
    rfl

theorem jsonErrorLayout_message {e' : JsonError}
    (hne : name ≠ ascii "message") (h : jsonErrorLayout.store name v e = some e') :
    e'.message = e.message := by
  simp only [jsonErrorLayout, if_neg hne] at h
  split_ifs at h with hcode hdata
  · obtain ⟨code, _, rfl⟩ := map_eq_some_iff.mp h
    rfl
  · obtain ⟨_, _, rfl⟩ := map_eq_some_iff.mp h
    rfl
  · cases h
    rfl

variable (r : ErrorResponse)

theorem ErrorResponse.error_isSome : (jsonErrorLayout.decode r.error ⟨0, []⟩).isSome ↔
      (∃ z, r.code = .integer z ∧ -2 ^ 63 ≤ z ∧ z < 2 ^ 63) ∧
      ∀ m ∈ membersFor jsonErrorNames (ascii "data") r.error, m.2.inFloatRange := by
  obtain ⟨ckey, hcode⟩ := r.has_code
  obtain ⟨mkey, hmessage⟩ := r.has_message
  rw [jsonErrorLayout.decode_isSome ErrorAccepts jsonErrorLayout_accepts]
  constructor
  · intro h
    refine ⟨?_, fun m hm => (h (ascii "data") m hm).data rfl⟩
    have hsome := (h (ascii "code") (ckey, .num r.code) (by
      show _ ∈ membersFor jsonErrorNames _ _
      rw [hcode]
      exact List.mem_singleton_self _)).code rfl
    obtain ⟨z, hz⟩ := isSome_iff_exists.mp hsome
    exact ⟨z, decodeInt64_num hz⟩
  · rintro ⟨⟨z, hz, hrange⟩, hdata⟩ name m hm
    refine ⟨?_, ?_, ?_⟩
    · rintro rfl
      have hm : m ∈ membersFor jsonErrorNames _ _ := hm
      rw [hcode, List.mem_singleton] at hm
      rw [hm, hz]
      simp only [decodeInt64, if_pos hrange, isSome_some]
    · rintro rfl
      have hm : m ∈ membersFor jsonErrorNames _ _ := hm
      rw [hmessage, List.mem_singleton] at hm
      rw [hm]
      rfl
    · rintro rfl
      exact hdata m hm

theorem ErrorResponse.error_eq (h : jsonErrorLayout.decode r.error ⟨0, []⟩ = some e) :
    (e.code : ℚ) = r.code.value ∧ e.message = r.message := by
  obtain ⟨ckey, hcode⟩ := r.has_code
  obtain ⟨mkey, hmessage⟩ := r.has_message
  obtain ⟨t, t', -, hst, he⟩ := jsonErrorLayout.decode_single JsonError.code (ascii "code")
    (fun _ _ _ _ => jsonErrorLayout_code) hcode h
  obtain ⟨u, u', -, hsu, hm⟩ := jsonErrorLayout.decode_single JsonError.message (ascii "message")
    (fun _ _ _ _ => jsonErrorLayout_message) hmessage h
  constructor
  · obtain ⟨z, hz, rfl⟩ := map_eq_some_iff.mp hst
    rw [he, (decodeInt64_num hz).1]
    rfl
  · have hsu : (decodeString (.str r.message) u.message).map (fun message => { u with message }) =
        some u' := hsu
    obtain ⟨s, hs, rfl⟩ := map_eq_some_iff.mp hsu
    cases hs
    exact hm

structure MessageAccepts (name : Bytes) (v : Value) : Prop where
  version : name = ascii "jsonrpc" → Value.TextOrNull v
  method : name = ascii "method" → Value.TextOrNull v
  error : name = ascii "error" → (jsonErrorLayout.decodePtr ⟨0, []⟩ v none).isSome

theorem decodePtr_isSome (v : Value) (e : Option JsonError) :
    (jsonErrorLayout.decodePtr ⟨0, []⟩ v e).isSome ↔
      (jsonErrorLayout.decodePtr ⟨0, []⟩ v none).isSome := by
  cases v with
  | obj ms =>
    simp only [Layout.decodePtr, isSome_map]
    rw [jsonErrorLayout.decode_isSome ErrorAccepts jsonErrorLayout_accepts,
      jsonErrorLayout.decode_isSome ErrorAccepts jsonErrorLayout_accepts]
  | _ => rfl

theorem messageLayout_accepts (text : Value → Bytes) (name : Bytes) (v : Value)
    (m : JsonrpcMessage) : ((messageLayout text).store name v m).isSome ↔ MessageAccepts name v := by
  have hnames : ascii "jsonrpc" ≠ ascii "method" ∧ ascii "jsonrpc" ≠ ascii "error" ∧
      ascii "method" ≠ ascii "error" := by decide
  simp only [messageLayout]
  by_cases hversion : name = ascii "jsonrpc"
  · subst hversion
    rw [if_pos rfl, isSome_map, decodeString_isSome]
    exact ⟨fun h => ⟨fun _ => h, fun hn => absurd hn hnames.1, fun hn => absurd hn hnames.2.1⟩,
      fun h => h.version rfl⟩
  · by_cases hmethod : name = ascii "method"
    · subst hmethod
      rw [if_neg hversion, if_neg (by decide), if_pos rfl, isSome_map, decodeString_isSome]
      exact ⟨fun h => ⟨fun hn => absurd hn hversion, fun _ => h, fun hn => absurd hn hnames.2.2⟩,
        fun h => h.method rfl⟩
    · by_cases herror : name = ascii "error"
      · subst herror
        rw [if_neg hversion, if_neg (by decide), if_neg hmethod, if_neg (by decide), if_pos rfl,
          isSome_map, decodePtr_isSome]
        exact ⟨fun h => ⟨fun hn => absurd hn hversion, fun hn => absurd hn hmethod, fun _ => h⟩,
          fun h => h.error rfl⟩
      · rw [if_neg hversion, if_neg hmethod, if_neg herror]
        refine iff_of_true ?_ ⟨fun hn => absurd hn hversion, fun hn => absurd hn hmethod,
          fun hn => absurd hn herror⟩
        split_ifs <;> rfl

theorem messageLayout_error {text : Value → Bytes}
    {m' : JsonrpcMessage} (hne : name ≠ ascii "error")
    (h : (messageLayout text).store name v m = some m') : m'.error = m.error := by
  simp only [messageLayout, if_neg hne] at h
  split_ifs at h
  · obtain ⟨_, _, rfl⟩ := map_eq_some_iff.mp h
    rfl
  · cases h
    rfl
  · obtain ⟨_, _, rfl⟩ := map_eq_some_iff.mp h
    rfl
  · cases h
    rfl
  · cases h
    rfl
  · cases h
    rfl

theorem ErrorResponse.decode_isSome (text : Value → Bytes) :
    (decodeRpcMessage text (.obj r.members)).isSome ↔ r.Readable := by
  obtain ⟨key, herror⟩ := r.has_error
  have hptr : (jsonErrorLayout.decodePtr ⟨0, []⟩ (.obj r.error) none).isSome ↔
      (jsonErrorLayout.decode r.error ⟨0, []⟩).isSome := by
    rw [Layout.decodePtr, isSome_map]
    rfl
  show ((messageLayout text).decode r.members _).isSome ↔ _
  rw [(messageLayout text).decode_isSome MessageAccepts (messageLayout_accepts text)]
  constructor
  · intro h
    have hsome := (h (ascii "error") (key, .obj r.error) (by
      show _ ∈ membersFor messageNames _ _
      rw [herror]
      exact List.mem_singleton_self _)).error rfl
    rw [hptr, r.error_isSome] at hsome
    exact ⟨fun m hm => (h _ m hm).version rfl, fun m hm => (h _ m hm).method rfl, hsome.1, hsome.2⟩
  · intro hr name m hm
    refine ⟨?_, ?_, ?_⟩
    · rintro rfl
      exact hr.version m hm
    · rintro rfl
      exact hr.method m hm
    · rintro rfl
      have hm : m ∈ membersFor messageNames _ _ := hm
      rw [herror, List.mem_singleton] at hm
      rw [hm, hptr, r.error_isSome]
      exact ⟨hr.code, hr.data⟩

theorem ErrorResponse.decode_error {text : Value → Bytes}
    (h : decodeRpcMessage text (.obj r.members) = some m) :
    ∃ e, m.error = some e ∧ (e.code : ℚ) = r.code.value ∧ e.message = r.message := by
  obtain ⟨key, herror⟩ := r.has_error
  obtain ⟨t, t', ht, hst, hm⟩ := (messageLayout text).decode_single JsonrpcMessage.error
    (ascii "error") (fun _ _ _ _ => messageLayout_error) herror h
  obtain ⟨e', he', rfl⟩ := map_eq_some_iff.mp hst
  rw [ht] at he'
  obtain ⟨e, he, rfl⟩ := map_eq_some_iff.mp he'
  exact ⟨e, hm, r.error_eq he⟩

end Errors

section Methods
variable {ρ β : Type} {r : ErrorResponse} {body : Bytes}

theorem Matches.rpcCall_eq {J : Json} {s : ChannelClient} {k n : ℕ}
    (h : Matches J s k n m) (unmarshal : Bytes → Option ρ) :
    ∃ f msg, s.net.past[k]? = some f ∧ decodeMessage f = .ok msg ∧
      J.rawID msg.data = (s.rpc.call n).id ∧ channelClient.rpcCall unmarshal (.reply k m) =
        channelClient.answered unmarshal J (s.rpc.call n).method msg.data := by
  obtain ⟨-, f, msg, hf, hd, -, hid, hparse⟩ := h
  refine ⟨f, msg, hf, hd, hid, ?_⟩
  rw [channelClient.answered, hparse]
  rfl

def Reported (r : ErrorResponse) (body : Bytes) (x : Except CallError ρ) : Prop :=
  ∃ err, x = .error err ∧ err.Carries r body

theorem reported_error {err : CallError} :
    Reported r body (.error err : Except CallError ρ) ↔ err.Carries r body := by
  constructor
  · rintro ⟨err', h, hc⟩
    cases h
    exact hc
  · exact fun h => ⟨err, rfl, h⟩

theorem not_reported_ok {x : ρ} : ¬ Reported r body (.ok x : Except CallError ρ) :=
  fun ⟨_, h, _⟩ => nomatch h

theorem reported_get {isEmpty : ρ → Bool} {x : Except CallError ρ} :
    Reported r body (rpcClient.get isEmpty x) ↔ Reported r body x := by
  cases x with
  | error e => rfl
  | ok raw =>
    refine iff_of_false ?_ not_reported_ok
    rw [rpcClient.get]
    split_ifs
    · exact fun h => reported_error.mp h
    · exact not_reported_ok

theorem reported_convert {post : ρ → Option β} {x : Except CallError ρ} :
    Reported r body (convert post x) ↔ Reported r body x := by
  cases x with
  | error e => rw [convert, reported_error, reported_error]
  | ok raw =>
    refine iff_of_false ?_ not_reported_ok
    rw [convert]
    cases post raw with
    | none => exact fun h => reported_error.mp h
    | some b => exact not_reported_ok

theorem reported_finishCall (unmarshal : Bytes → Option ρ) (missing : CallError)
    (hmissing : ¬ missing.Carries r body) (resp : JsonrpcMessage) :
    Reported r body (finishCall unmarshal missing resp) ↔
      ∃ e, resp.error = some e ∧ (CallError.node e).Carries r body := by
  rw [finishCall]
  cases he : resp.error with
  | some e =>
    simp only [reported_error, some.injEq, exists_eq_left']
  | none =>
    refine iff_of_false ?_ (fun ⟨_, h, _⟩ => nomatch h)
    simp only
    split_ifs
    · exact fun h => hmissing (reported_error.mp h)
    · cases unmarshal resp.result with
      | none => exact fun h => reported_error.mp h
      | some x => exact not_reported_ok

theorem reported_message (T : JsonText) (unmarshal : Bytes → Option ρ) (missing unread : CallError)
    (hmissing : ¬ missing.Carries r body) (hunread : ¬ unread.Carries r body)
    (hparse : T.parse body = some (.obj r.members)) :
    Reported r body (((T.parse body).bind (decodeRpcMessage T.text)).elim (.error unread)
      (finishCall unmarshal missing)) ↔ r.Readable := by
  rw [hparse, bind_some, ← r.decode_isSome T.text]
  cases hd : decodeRpcMessage T.text (.obj r.members) with
  | none => exact iff_of_false (fun h => hunread (reported_error.mp h)) Bool.false_ne_true
  | some m =>
    obtain ⟨e, he, hcarries⟩ := r.decode_error hd
    exact iff_of_true ((reported_finishCall unmarshal missing hmissing m).mpr ⟨e, he, hcarries⟩) rfl

theorem reported_channel (T : JsonText) (J : Json) (method : Bytes) (unmarshal : Bytes → Option ρ)
    (hparse : T.parse body = some (.obj r.members)) :
    Reported r body (channelClient.answered unmarshal (T.json J) method body) ↔
      method ≠ callMethod ∧ r.Readable := by
  rw [channelClient.answered, Json.parseReply]
  by_cases hcall : method = callMethod
  · -- the error member of the reply to a call is not copied
    refine iff_of_false ?_ (fun h => h.1 hcall)
    rw [if_pos hcall]
    cases (T.json J).fiscoMsg body with
    | none => exact fun h => reported_error.mp h
    | some f =>
      intro h
      obtain ⟨e, he, -⟩ := (reported_finishCall unmarshal .notFound not_false _).mp h
      cases he
  · have hplain := reported_message T unmarshal .notFound .timeout not_false not_false hparse
    rw [if_neg hcall, ← hplain]
    simp only [hcall, ne_eq, not_false_eq_true, true_and]
    show Reported r body (match (T.parse body).bind (decodeRpcMessage T.text) with
      | none => .error .timeout
      | some resp => finishCall unmarshal .notFound resp) ↔ _
    cases (T.parse body).bind (decodeRpcMessage T.text) <;> rfl

theorem reported_http (T : JsonText) (method : Bytes) (status : ℕ) (unmarshal : Bytes → Option ρ)
    (hparse : T.parse body = some (.obj r.members)) :
    Reported r body (rpcClient.callContext unmarshal T method status body) ↔
      (status < 200 ∨ 300 ≤ status) ∨ method ≠ callMethod ∧ r.Readable := by
  rw [rpcClient.callContext, rpcClient.sendHTTP]
  by_cases hstatus : status < 200 ∨ 300 ≤ status
  · rw [if_pos hstatus]
    exact iff_of_true (reported_error.mpr rfl) (.inl hstatus)
  · rw [if_neg hstatus, or_iff_right hstatus]
    by_cases hcall : method = callMethod
    · refine iff_of_false ?_ (fun h => h.1 hcall)
      rw [if_pos hcall]
      cases (T.parse body).bind (rpcClient.decodeFiscoMsg T.text) with
      | none => exact fun h => reported_error.mp h
      | some f =>
        intro h
        obtain ⟨e, he, -⟩ := (reported_finishCall unmarshal .noResult not_false _).mp h
        cases he
    · have hplain := reported_message T unmarshal .noResult .unmarshal not_false not_false hparse
      rw [if_neg hcall, ← hplain]
      simp only [hcall, ne_eq, not_false_eq_true, true_and]
      cases (T.parse body).bind (decodeRpcMessage T.text) <;> rfl

/-- A call that has returned a reply has it from a taken frame, which in a run that
keeps the frames is one of the node, and reports the error in it unless it is a
`call` or the response unreadable. -/
theorem channel_run_reports (T : JsonText) (J : Json) (cap : ℕ → ℕ) (s : ChannelClient)
    (hs : Later (T.json J) (ChannelClient.init cap) s) (unmarshal : Bytes → Option ρ) {n k : ℕ}
    (hpc : (s.rpc.call n).pc = .returned (.reply k m)) :
    ∃ f msg, s.net.past[k]? = some f ∧ decodeMessage f = .ok msg ∧
      (Steps.Reach (Step (T.json J)) FramesKept (ChannelClient.init cap) s →
        s.net.written[k]? = some f) ∧
      ∀ r : ErrorResponse, T.parse msg.data = some (.obj r.members) →
        (Reported r msg.data (channelClient.rpcCall unmarshal (.reply k m)) ↔
          (s.rpc.call n).method ≠ callMethod ∧ r.Readable) := by
  have hi : RpcInv (T.json J) s :=
    (hs.invariant (.init _ cap) trivial fun _ _ _ _ _ _ => trivial).1
  obtain ⟨f, msg, hf, hd, -, heq⟩ :=
    (hi.held k n m (.inr (.inr (by rw [hpc]; rfl)))).rpcCall_eq unmarshal
  refine ⟨f, msg, hf, hd, fun hkept => ?_, fun r hparse => ?_⟩
  · rw [framesKept cap hkept]
    exact List.getElem?_append_left (List.getElem?_eq_some_iff.mp hf).1 ▸ hf
  · rw [heq]
    exact reported_channel T J _ unmarshal hparse

end Methods

def refusal : ErrorResponse where
  members := [(ascii "jsonrpc", .str (ascii "2.0")), (ascii "id", .num (.integer 1)),
    (ascii "error", .obj [(ascii "code", .num (.integer (-32000))),
      (ascii "message", .str (ascii "no"))])]
  error := [(ascii "code", .num (.integer (-32000))), (ascii "message", .str (ascii "no"))]
  code := .integer (-32000)
  message := ascii "no"
  has_error := ⟨_, rfl⟩
  has_code := ⟨_, rfl⟩
  has_message := ⟨_, rfl⟩

/-- The parser on the text of the refusal; the raw member in it is the id. -/
def leafText : Value → Bytes
  | .num (.integer z) => appendUint z.toNat
  | _ => ascii "null"

def refusalText : JsonText :=
  ⟨fun b => if b = refusalBody then some (.obj refusal.members) else none, leafText⟩

theorem refusalText_parse : refusalText.parse refusalBody = some (.obj refusal.members) := by
  simp only [refusalText, if_true]

theorem refusal_readable : refusal.Readable := by
  refine ⟨fun m hm => ?_, nofun, ⟨-32000, rfl, by norm_num, by norm_num⟩, nofun⟩
  rw [List.mem_singleton.mp hm]
  rfl

theorem refusalFrame_whole : WholeFrame (replyFrame refusalBody) (replyMessage refusalBody) :=
  ⟨by unfold IsFrame; decide +kernel, by decide +kernel, by decide +kernel⟩

theorem channel_run_reports_refusal : ∃ (s : ChannelClient) (m : _) (f : Bytes) (msg : Message),
      (s.rpc.call 0).pc = .returned (.reply 0 m) ∧ s.net.past[0]? = some f ∧
      decodeMessage f = .ok msg ∧ s.net.written[0]? = some f ∧
      (Reported refusal msg.data (channelClient.rpcCall some (.reply 0 m)) ↔
        (s.rpc.call 0).method ≠ callMethod ∧ refusal.Readable) := by
  have h0 : Steps.Reach (Step (refusalText.json sampleJson)) FramesKept
    (ChannelClient.init fun _ => 0) (ChannelClient.init fun _ => 0) := .refl _
  have h1 := h0.tail (.rpc (.new [])) trivial
  have h2 := h1.tail (.rpc (.store 0 rfl)) trivial
  have h3 := h2.tail (.rpc (.check 0 rfl rfl)) trivial
  have h4 := h3.tail (.rpc (.write 0 rfl rfl)) trivial
  have h5 := h4.tail (.reader (.node (replyFrame refusalBody))) refusalFrame_whole.frame
  have h6 := h5.tail (refusalFrame_whole.read [] rfl (List.append_nil _).symm)
    (refusalFrame_whole.kept rfl rfl)
  have h7 := h6.tail (.reader (.dispatch 0 (replyMessage refusalBody)
    (refusalFrame_whole.readFrame 0))) trivial
  have h8 := h7.tail (.reader (.rpcSend 0 0 _ rfl)) trivial
  have h9 := h8.tail (.rpc (.receive 0 0 _ rfl rfl)) trivial
  have h10 := h9.tail (.rpc (.delete 0 _ rfl)) trivial
  obtain ⟨f, msg, hf, hmsg, hwritten, hrep⟩ := channel_run_reports refusalText sampleJson _ _
    ⟨h10.mono fun _ _ _ => trivial, by decide⟩ some (n := 0) rfl
  have hdata : refusalText.parse msg.data = some (.obj refusal.members) := by
    cases hf
    rw [refusalFrame_whole.decodes] at hmsg
    cases hmsg
    exact refusalText_parse
  exact ⟨_, _, f, msg, rfl, hf, hmsg, hwritten h10, hrep refusal hdata⟩

end Fiscobcos.Client
