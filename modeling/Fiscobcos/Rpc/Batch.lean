import Fiscobcos.Client.Responses

/-! # Batch calls over HTTP (rpc/client.go:329-379, rpc/http.go:159-174)

`sendBatchHTTP` puts every message of the reply into a channel with room for the elements, before
anybody receives. `BatchCallContext` writes each message into the first element with its id, if
there is one. -/

namespace Fiscobcos.Rpc
open Numerals JsonTree Client

structure BatchElem where
  method : Bytes
  args : Option Bytes

/-- What `BatchCallContext` writes into an element: the error of the response,
`ErrNoResult`, or the outcome of unmarshalling a result. -/
inductive Written where
  | error (e : JsonError)
  | noResult
  | result (raw : Bytes)
deriving DecidableEq

inductive BatchError where
  | marshal
  | status (code : ℕ)
  | decode
deriving DecidableEq

/-- How a batch call ends: it returns with what has been written into the
elements, waits for ever, or dereferences a nil element. -/
inductive BatchEnd where
  | returned (err : Option BatchError) (elems : List (Option Written))
  | blocked
  | crashed
deriving DecidableEq

def idText (id : UInt32) : Bytes := appendUint id.toNat

def written (resp : JsonrpcMessage) : Written :=
  match resp.error with
  | some e => .error e
  | none => if resp.result = [] then .noResult else .result resp.result

def sendAll (capacity : ℕ) : List JsonrpcMessage → List JsonrpcMessage → Option (List JsonrpcMessage)
  | queue, [] => some queue
  | queue, m :: ms => if queue.length < capacity then sendAll capacity (queue ++ [m]) ms else none

def receive (ids : List Bytes) : ℕ → List JsonrpcMessage → List (Option Written) → BatchEnd
  | 0, _, elems => .returned none elems
  | _ + 1, [], _ => .blocked
  | n + 1, resp :: queue, elems =>
    if resp.id ∈ ids then receive ids n queue (elems.set (ids.idxOf resp.id) (some (written resp)))
    else .crashed

/-- `BatchCallContext` over HTTP with the ids drawn for its elements, when the
server answers with the given status and body. -/
def batchCallContext (T : JsonText) (b : List BatchElem) (ids : List UInt32) (status : ℕ)
    (body : Bytes) : BatchEnd :=
  let elems := b.map fun _ => none
  if b.any fun elem => elem.args.isNone then .returned (some .marshal) elems
  else if status < 200 ∨ 300 ≤ status then .returned (some (.status status)) elems
  else
    match (T.parse body).bind (decodeSlice (decodeRpcMessage T.text)) with
    | none => .returned (some .decode) elems
    | some respmsgs =>
      match sendAll b.length [] respmsgs with
      | none => .blocked
      | some queue => receive (ids.map idText) b.length queue elems

def entryId (text : Value → Bytes) : Value → Option Bytes
  | .obj ms => (membersFor messageNames (ascii "id") ms).getLast?.map fun m => text m.2
  | _ => none

/-- The call returns; an element whose id is in the reply has what an entry with
that id says, and any other element is reported as failed. -/
def Robust (text : Value → Bytes) (vs : List Value) (ids : List UInt32) (e : BatchEnd) : Prop :=
  ∃ err elems, e = .returned err elems ∧ ∀ (i : ℕ) id, ids[i]? = some id →
    ((∃ v ∈ vs, entryId text v = some (idText id)) →
      ∃ v ∈ vs, ∃ m, entryId text v = some (idText id) ∧ decodeRpcMessage text v = some m ∧
        elems[i]? = some (some (written m))) ∧
    ((¬ ∃ v ∈ vs, entryId text v = some (idText id)) →
      err ≠ none ∨ ∃ w, elems[i]? = some (some w) ∧ ∀ raw, w ≠ Written.result raw)

theorem idText_injective : Function.Injective idText := by
  intro a b h
  exact UInt32.toNat_inj.mp (appendUint_inj h)

theorem idText_ne_nil (id : UInt32) : idText id ≠ [] := by
  unfold idText appendUint
  split_ifs with hz
  · simp
  · simpa [Nat.digits_eq_nil_iff_eq_zero] using hz

variable {text : Value → Bytes} {v : Value} {m : JsonrpcMessage}

theorem messageLayout_id {name : Bytes} {m' : JsonrpcMessage}
    (hne : name ≠ ascii "id") (h : (messageLayout text).store name v m = some m') : m'.id = m.id := by
  simp only [messageLayout, if_neg hne] at h
  split_ifs at h
  all_goals first
    | cases h; rfl
    | obtain ⟨_, _, rfl⟩ := Option.map_eq_some_iff.mp h; rfl

theorem decodeRpcMessage_id
    (h : decodeRpcMessage text v = some m) : m.id = (entryId text v).getD [] := by
  cases v with
  | null =>
    cases h
    rfl
  | obj ms =>
    have hstore : ∀ v s s', (messageLayout text).store (ascii "id") v s = some s' → s'.id = text v := by
      intro v s s' hs
      have hid : (messageLayout text).store (ascii "id") v s = some { s with id := text v } := rfl
      rw [hid] at hs
      cases hs
      rfl
    exact (messageLayout text).decode_last JsonrpcMessage.id (ascii "id")
      (fun _ _ _ _ hne => messageLayout_id hne) hstore h
  | _ => cases h

theorem entryId_iff (id : UInt32)
    (h : decodeRpcMessage text v = some m) : entryId text v = some (idText id) ↔ m.id = idText id := by
  rw [decodeRpcMessage_id h]
  cases entryId text v with
  | none => exact iff_of_false (by simp) (idText_ne_nil id).symm
  | some t => simp

theorem sendAll_eq (capacity : ℕ) (queue ms : List JsonrpcMessage) (hq : queue.length ≤ capacity) :
    sendAll capacity queue ms =
      if queue.length + ms.length ≤ capacity then some (queue ++ ms) else none := by
  induction ms generalizing queue with
  | nil => simp [sendAll, hq]
  | cons m ms ih =>
    rw [sendAll]
    split_ifs with hroom hall hall
    · rw [ih _ (by simp; omega)]
      simp only [List.length_append, List.length_cons, List.length_nil] at hall ⊢
      rw [if_pos (by omega), List.append_assoc]
      rfl
    · rw [ih _ (by simp; omega)]
      simp only [List.length_append, List.length_cons, List.length_nil] at hall ⊢
      rw [if_neg (by omega)]
    · simp only [List.length_cons] at hall
      omega
    · rfl

def writeAll (ids : List Bytes) (ms : List JsonrpcMessage) (elems : List (Option Written)) :
    List (Option Written) :=
  ms.foldl (fun elems m => elems.set (ids.idxOf m.id) (some (written m))) elems

theorem receive_returned_iff (ids : List Bytes) (n : ℕ) (ms : List JsonrpcMessage)
    (elems elems' : List (Option Written)) (err : Option BatchError) :
    receive ids n ms elems = .returned err elems' ↔
      n ≤ ms.length ∧ (∀ m ∈ ms.take n, m.id ∈ ids) ∧ err = none ∧
        elems' = writeAll ids (ms.take n) elems := by
  induction n generalizing ms elems with
  | zero =>
    simp only [receive, List.take_zero, BatchEnd.returned.injEq, zero_le, List.not_mem_nil,
      false_implies, implies_true, true_and, writeAll, List.foldl_nil]
    exact and_congr eq_comm eq_comm
  | succ n ih =>
    cases ms with
    | nil => simp [receive]
    | cons m ms =>
      rw [receive, List.take_succ_cons, List.forall_mem_cons]
      split_ifs with hid
      · rw [ih]
        simp only [List.length_cons, Nat.add_le_add_iff_right, hid, true_and, writeAll,
          List.foldl_cons]
      · simp [hid]

variable {i : ℕ}

theorem writeAll_untouched {ids : List Bytes} {ms : List JsonrpcMessage}
    (elems : List (Option Written)) (h : ∀ m ∈ ms, ids.idxOf m.id ≠ i) :
    (writeAll ids ms elems)[i]? = elems[i]? := by
  induction ms generalizing elems with
  | nil => rfl
  | cons m ms ih =>
    have hm := h m List.mem_cons_self
    have hrest := ih (elems.set (ids.idxOf m.id) (some (written m)))
      fun m' hm' => h m' (List.mem_cons_of_mem m hm')
    rw [List.getElem?_set_ne hm] at hrest
    exact hrest

theorem writeAll_written {ids : List Bytes} {ms : List JsonrpcMessage}
    {elems : List (Option Written)} (hi : i < elems.length) (h : ∃ m ∈ ms, ids.idxOf m.id = i) :
    ∃ m ∈ ms, ids.idxOf m.id = i ∧ (writeAll ids ms elems)[i]? = some (some (written m)) := by
  induction ms generalizing elems with
  | nil => simp at h
  | cons m ms ih =>
    by_cases hlater : ∃ m ∈ ms, ids.idxOf m.id = i
    · have hlen : i < (elems.set (ids.idxOf m.id) (some (written m))).length := by
        rwa [List.length_set]
      obtain ⟨m', hm', hidx, hw⟩ := ih hlen hlater
      exact ⟨m', List.mem_cons_of_mem m hm', hidx, hw⟩
    · obtain ⟨m', hm', hidx⟩ := h
      rcases List.mem_cons.mp hm' with rfl | hm'
      · refine ⟨m', List.mem_cons_self, hidx, ?_⟩
        have hrest := writeAll_untouched (elems.set (ids.idxOf m'.id) (some (written m')))
          fun m'' hm'' heq => hlater ⟨m'', hm'', heq⟩
        rw [hidx, List.getElem?_set_self hi] at hrest
        rw [writeAll, List.foldl_cons, hidx]
        exact hrest
      · exact absurd ⟨m', hm', hidx⟩ hlater

variable {b : List BatchElem}

theorem batchCallContext_eq (T : JsonText) (ids : List UInt32)
    (hargs : ∀ elem ∈ b, elem.args.isSome) {status : ℕ} (hstatus : 200 ≤ status ∧ status < 300)
    {body : Bytes} {vs : List Value} (hbody : T.parse body = some (.arr vs)) :
    batchCallContext T b ids status body =
      match vs.mapM (decodeRpcMessage T.text) with
      | none => .returned (some .decode) (b.map fun _ => none)
      | some ms =>
        if ms.length ≤ b.length then receive (ids.map idText) b.length ms (b.map fun _ => none)
        else .blocked := by
  have hany : b.any (fun elem => elem.args.isNone) = false := by
    rw [List.any_eq_false]
    intro elem helem
    simpa [Option.isNone_iff_eq_none, Option.isSome_iff_ne_none] using hargs elem helem
  unfold batchCallContext
  simp only [hany, Bool.false_eq_true, if_false, hbody, Option.bind_some, decodeSlice]
  rw [if_neg (by omega)]
  cases vs.mapM (decodeRpcMessage T.text) with
  | none => rfl
  | some ms =>
    simp only [sendAll_eq b.length [] ms (Nat.zero_le _), List.length_nil, zero_add, List.nil_append]
    split_ifs <;> rfl

/-- Every entry can be read, and their ids are those of the batch in some order; or
some entry cannot be read and no id of the batch is in the reply. -/
def Answers (text : Value → Bytes) (vs : List Value) (ids : List UInt32) : Prop :=
  ((∀ v ∈ vs, (decodeRpcMessage text v).isSome) ∧ ids.Nodup ∧
    (vs.map (entryId text)).Perm (ids.map fun id => some (idText id))) ∨
  ((∃ v ∈ vs, decodeRpcMessage text v = none) ∧
    ∀ id ∈ ids, ∀ v ∈ vs, entryId text v ≠ some (idText id))

section

variable {text : Value → Bytes} {vs : List Value} {ms : List JsonrpcMessage} {ids : List UInt32}

theorem exists_entry (hms : List.Forall₂ (fun v m => decodeRpcMessage text v = some m) vs ms)
    (hm : m ∈ ms) : ∃ v ∈ vs, decodeRpcMessage text v = some m := by
  induction hms with
  | nil => simp at hm
  | cons hhead _ ih =>
    rcases List.mem_cons.mp hm with rfl | hm
    · exact ⟨_, List.mem_cons_self, hhead⟩
    · obtain ⟨v, hv, hdec⟩ := ih hm
      exact ⟨v, List.mem_cons_of_mem _ hv, hdec⟩

theorem exists_message (hms : List.Forall₂ (fun v m => decodeRpcMessage text v = some m) vs ms)
    (hv : v ∈ vs) : ∃ m ∈ ms, decodeRpcMessage text v = some m := by
  induction hms with
  | nil => simp at hv
  | cons hhead _ ih =>
    rcases List.mem_cons.mp hv with rfl | hv
    · exact ⟨_, List.mem_cons_self, hhead⟩
    · obtain ⟨m, hm, hdec⟩ := ih hv
      exact ⟨m, List.mem_cons_of_mem _ hm, hdec⟩

theorem message_ids (hms : List.Forall₂ (fun v m => decodeRpcMessage text v = some m) vs ms) :
    ms.map (·.id) = vs.map fun v => (entryId text v).getD [] := by
  induction hms with
  | nil => rfl
  | cons hhead _ ih => rw [List.map_cons, List.map_cons, ih, decodeRpcMessage_id hhead]

theorem perm_ids_iff (hms : List.Forall₂ (fun v m => decodeRpcMessage text v = some m) vs ms) :
    (vs.map (entryId text)).Perm (ids.map fun id => some (idText id)) ↔
      (ms.map (·.id)).Perm (ids.map idText) := by
  constructor
  · intro h
    have hget := h.map fun o => o.getD []
    rw [List.map_map, List.map_map] at hget
    rw [message_ids hms]
    exact hget
  · intro h
    -- an id of the batch is not empty, so every entry has one
    have hsome : ∀ v ∈ vs, entryId text v = some ((entryId text v).getD []) := by
      intro v hv
      obtain ⟨m, hm, hdec⟩ := exists_message hms hv
      obtain ⟨id, -, hid⟩ := List.mem_map.mp (h.mem_iff.mp (List.mem_map_of_mem hm))
      rw [decodeRpcMessage_id hdec] at hid
      cases he : entryId text v with
      | none =>
        rw [he] at hid
        exact absurd hid (idText_ne_nil id)
      | some t => rfl
    have hmap := h.map some
    rw [message_ids hms, List.map_map, List.map_map] at hmap
    rw [List.map_congr_left hsome]
    exact hmap

theorem robust_unreadable (hnone : ∃ v ∈ vs, decodeRpcMessage text v = none) (b : List BatchElem) :
    Robust text vs ids (.returned (some .decode) (b.map fun _ => none)) ↔ Answers text vs ids := by
  have hdec : ¬ ∀ v ∈ vs, (decodeRpcMessage text v).isSome := by
    intro hall
    obtain ⟨v, hv, hv'⟩ := hnone
    simpa [hv'] using hall v hv
  constructor
  · rintro ⟨err, elems, heq, h⟩
    cases heq
    refine .inr ⟨hnone, fun id hid v hv hv' => ?_⟩
    obtain ⟨i, hi⟩ := List.mem_iff_getElem?.mp hid
    obtain ⟨v', -, m, -, -, hw⟩ := (h i id hi).1 ⟨v, hv, hv'⟩
    rw [List.getElem?_map] at hw
    cases b[i]? <;> simp at hw
  · rintro (⟨hall, -⟩ | ⟨-, hfree⟩)
    · exact absurd hall hdec
    · refine ⟨_, _, rfl, fun i id hi => ⟨?_, fun _ => .inl (by simp)⟩⟩
      rintro ⟨v, hv, hv'⟩
      exact absurd hv' (hfree id (List.mem_of_getElem? hi) v hv)

theorem eq_idText_of_idxOf {id : UInt32} (hi : ids[i]? = some id) {t : Bytes}
    (ht : t ∈ ids.map idText) (hidx : (ids.map idText).idxOf t = i) : t = idText id := by
  have hget := List.getElem?_idxOf ht
  rw [hidx, List.getElem?_map, hi] at hget
  exact (Option.some.inj hget).symm

theorem robust_of_perm (hms : List.Forall₂ (fun v m => decodeRpcMessage text v = some m) vs ms)
    (hlen : ids.length = b.length) (hnodup : ids.Nodup)
    (hperm : (ms.map (·.id)).Perm (ids.map idText)) :
    Robust text vs ids (receive (ids.map idText) b.length ms (b.map fun _ => none)) := by
  have hmlen : ms.length = b.length := by
    have := hperm.length_eq
    simp only [List.length_map] at this
    omega
  have hin : ∀ m ∈ ms, m.id ∈ ids.map idText := fun m hm =>
    hperm.mem_iff.mp (List.mem_map_of_mem hm)
  have htake : ms.take b.length = ms := List.take_of_length_le hmlen.le
  have hret := (receive_returned_iff (ids.map idText) b.length ms (b.map fun _ => none) _ none).mpr
    ⟨hmlen.ge, by rwa [htake], rfl, by rw [htake]⟩
  refine ⟨_, _, hret, fun i id hi => ?_⟩
  have hib : i < b.length := hlen ▸ (List.getElem?_eq_some_iff.mp hi).1
  have hidx : (ids.map idText).idxOf (idText id) = i := by
    obtain ⟨hil, rfl⟩ := List.getElem?_eq_some_iff.mp hi
    have := (hnodup.map idText_injective).idxOf_getElem i (by simpa using hil)
    rwa [List.getElem_map] at this
  obtain ⟨m, hm, hmid⟩ := List.mem_map.mp
    (hperm.mem_iff.mpr (List.mem_map_of_mem (List.mem_of_getElem? hi)))
  have hie : i < (b.map fun _ => (none : Option Written)).length := by rwa [List.length_map]
  obtain ⟨m', hm', hidx', hw⟩ := writeAll_written hie ⟨m, hm, by rw [hmid, hidx]⟩
  have hid' := eq_idText_of_idxOf hi (hin m' hm') hidx'
  obtain ⟨v, hv, hdec⟩ := exists_entry hms hm'
  have hentry := (entryId_iff id hdec).mpr hid'
  exact ⟨fun _ => ⟨v, hv, m', hentry, hdec, hw⟩, fun hno => absurd ⟨v, hv, hentry⟩ hno⟩

theorem perm_of_robust (hlen : ids.length = b.length) (hle : ms.length ≤ b.length)
    (h : Robust text vs ids (receive (ids.map idText) b.length ms (b.map fun _ => none))) :
    ids.Nodup ∧ (ms.map (·.id)).Perm (ids.map idText) := by
  obtain ⟨err, elems, hrec, h⟩ := h
  obtain ⟨hge, hin, rfl, rfl⟩ := (receive_returned_iff _ _ _ _ _ _).mp hrec
  rw [List.take_of_length_le hle] at hin h
  -- every element is written, so it has a response of its own
  have hfound : ∀ (i : ℕ) id, ids[i]? = some id →
      ∃ m ∈ ms, m.id = idText id ∧ (ids.map idText).idxOf (idText id) = i := by
    intro i id hi
    have hib : i < b.length := hlen ▸ (List.getElem?_eq_some_iff.mp hi).1
    by_cases hwritten : ∃ m ∈ ms, (ids.map idText).idxOf m.id = i
    · obtain ⟨m, hm, hidx⟩ := hwritten
      have hid := eq_idText_of_idxOf hi (hin m hm) hidx
      exact ⟨m, hm, hid, hid ▸ hidx⟩
    · have hnone : (writeAll (ids.map idText) ms (b.map fun _ => none))[i]? = some none := by
        rw [writeAll_untouched _ fun m hm hidx => hwritten ⟨m, hm, hidx⟩]
        simp [hib]
      have hi' := h i id hi
      rw [hnone] at hi'
      by_cases hoccurs : ∃ v ∈ vs, entryId text v = some (idText id)
      · obtain ⟨_, _, _, _, _, hw⟩ := hi'.1 hoccurs
        simp at hw
      · rcases hi'.2 hoccurs with herr | ⟨w, hw, -⟩
        · exact absurd rfl herr
        · simp at hw
  have hnodup : ids.Nodup := by
    rw [List.nodup_iff_getElem?_ne_getElem?]
    intro i j hij hj heq
    obtain ⟨id, hid⟩ : ∃ id, ids[j]? = some id := ⟨_, List.getElem?_eq_getElem hj⟩
    obtain ⟨-, -, -, hidx⟩ := hfound i id (heq.trans hid)
    obtain ⟨-, -, -, hidx'⟩ := hfound j id hid
    omega
  have hsub : ids.map idText ⊆ ms.map (·.id) := by
    intro t ht
    obtain ⟨id, hid, rfl⟩ := List.mem_map.mp ht
    obtain ⟨i, hi⟩ := List.mem_iff_getElem?.mp hid
    obtain ⟨m, hm, hmid, -⟩ := hfound i id hi
    exact List.mem_map.mpr ⟨m, hm, hmid⟩
  have hperm := ((hnodup.map idText_injective).subperm hsub).perm_of_length_le (by simp; omega)
  exact ⟨hnodup, hperm.symm⟩

end

/-- A batch call is robust against a reply iff the reply answers the batch. -/
theorem batch_robust_iff (T : JsonText) (b : List BatchElem) (ids : List UInt32)
    (hlen : ids.length = b.length) (hargs : ∀ elem ∈ b, elem.args.isSome) (status : ℕ)
    (hstatus : 200 ≤ status ∧ status < 300) (body : Bytes) (vs : List Value)
    (hbody : T.parse body = some (.arr vs)) :
    Robust T.text vs ids (batchCallContext T b ids status body) ↔ Answers T.text vs ids := by
  rw [batchCallContext_eq T ids hargs hstatus hbody]
  cases hdec : vs.mapM (decodeRpcMessage T.text) with
  | none => exact robust_unreadable (mapM_eq_none_iff.mp hdec) b
  | some ms =>
    have hms := mapM_eq_some_iff.mp hdec
    have hall : ∀ v ∈ vs, (decodeRpcMessage T.text v).isSome := by
      intro v hv
      obtain ⟨m, -, hm⟩ := exists_message hms hv
      rw [hm]
      rfl
    have hperm : Answers T.text vs ids ↔
        ids.Nodup ∧ (ms.map (·.id)).Perm (ids.map idText) := by
      rw [← perm_ids_iff hms]
      constructor
      · rintro (h | ⟨⟨v, hv, hnone⟩, -⟩)
        · exact h.2
        · simpa [hnone] using hall v hv
      · exact fun h => .inl ⟨hall, h⟩
    rw [hperm]
    dsimp only
    split_ifs with hle
    · exact ⟨perm_of_robust hlen hle, fun h => robust_of_perm hms hlen h.1 h.2⟩
    · refine iff_of_false ?_ ?_
      · rintro ⟨err, elems, heq, -⟩
        cases heq
      · rintro ⟨-, h⟩
        have := h.length_eq
        simp only [List.length_map] at this
        omega

def oneEntry : Value := .obj [(ascii "id", .num (.integer 1)), (ascii "result", .num (.integer 1))]

def oneBody : Bytes := ascii "[\x7b\"id\":1,\"result\":1\x7d]"

def twoBody : Bytes := ascii "[\x7b\"id\":1,\"result\":1\x7d,\x7b\"id\":1,\"result\":1\x7d]"

def batchText : JsonText where
  parse body := ([(ascii "[]", []), (ascii "[null]", [.null]), (oneBody, [oneEntry]),
    (twoBody, [oneEntry, oneEntry])].lookup body).map .arr
  text := leafText

/-- One element: an empty reply and one with two entries block the call, an entry
without id crashes it. -/
theorem batch_not_robust :
    batchCallContext batchText [⟨[], some []⟩] [1] 200 (ascii "[]") = .blocked ∧
    batchCallContext batchText [⟨[], some []⟩] [1] 200 twoBody = .blocked ∧
    batchCallContext batchText [⟨[], some []⟩] [1] 200 (ascii "[null]") = .crashed ∧
    ¬ Robust batchText.text [] [1]
      (batchCallContext batchText [⟨[], some []⟩] [1] 200 (ascii "[]")) := by
  refine ⟨rfl, rfl, rfl, ?_⟩
  rintro ⟨err, elems, heq, -⟩
  cases heq

theorem batch_robust_one : Robust batchText.text [oneEntry] [1]
      (batchCallContext batchText [⟨[], some []⟩] [1] 200 oneBody) := by
  have hids : ([oneEntry].map (entryId batchText.text)).Perm
      ([(1 : UInt32)].map fun id => some (idText id)) := .of_eq rfl
  refine (batch_robust_iff batchText [⟨[], some []⟩] [1] rfl ?_ 200 (by decide) oneBody
    [oneEntry] rfl).mpr (.inl ⟨?_, by simp, hids⟩)
  · simp
  · intro v hv
    cases List.mem_singleton.mp hv
    rfl

end Fiscobcos.Rpc
