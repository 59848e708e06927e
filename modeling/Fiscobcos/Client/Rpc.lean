import Fiscobcos.Client.Reads

/-! # Matching replies to requests (client/channel.go:98-157, 202-231)

`rpcResponse` holds the calls between their `Store` and their deferred `Delete`, under ids that no
two share. So a call returns a reply with its own id, and a frame goes to one call at most. -/

namespace Fiscobcos.Client
open Numerals RpcSide
open ChannelClient

def RpcPc.Registered : RpcPc → Prop
  | .registered | .checked | .waiting | .leaving _ => True
  | _ => False

def RpcPc.Awaiting : RpcPc → Prop
  | .registered | .checked | .waiting => True
  | _ => False

def RpcPc.result : RpcPc → Option RpcResult
  | .leaving r | .returned r => some r
  | _ => none

theorem RpcPc.Awaiting.registered {pc : RpcPc} (h : pc.Awaiting) : pc.Registered := by
  cases pc <;> simp_all [RpcPc.Awaiting, RpcPc.Registered]

theorem RpcPc.Awaiting.result_none {pc : RpcPc} (h : pc.Awaiting) : pc.result = none := by
  cases pc <;> simp_all [RpcPc.Awaiting, RpcPc.result]

variable {n : ℕ}

section Table

structure RpcTable (r : RpcSide) : Prop where
  counter : r.idCounter = UInt64.ofNat r.count
  ids : ∀ n < r.count, (r.call n).id = appendUint (n + 1)
  unborn : ∀ n, r.count ≤ n → (r.call n).pc = .idle
  entry : ∀ id n method, r.rpcResponse id = some (n, method) ↔
    (r.call n).pc.Registered ∧ (r.call n).id = id ∧ (r.call n).method = method

variable {r : RpcSide}

theorem RpcTable.born (ht : RpcTable r) (h : (r.call n).pc ≠ .idle) : n < r.count := by
  by_contra hn
  exact h (ht.unborn n (by omega))

theorem RpcTable.id_inj (ht : RpcTable r) {n' : ℕ} (hn : n < r.count) (hn' : n' < r.count)
    (h : (r.call n).id = (r.call n').id) : n = n' := by
  rw [ht.ids n hn, ht.ids n' hn'] at h
  have := appendUint_inj h
  omega

theorem RpcSide.setCall_call (r : RpcSide) (n : ℕ) (c : RpcCall) (n' : ℕ) :
    (r.setCall n c).call n' = if n' = n then c else r.call n' := by
  simp [setCall, Function.update_apply]

section Calls
variable (s : ChannelClient) (n n' : ℕ)

theorem ChannelClient.rpcNew_call (method : Bytes) :
    (s.rpcNew method).rpc.call n' = if n' = s.rpc.count then
      ⟨appendUint (s.rpc.idCounter + 1).toNat, method, none, .created⟩ else s.rpc.call n' :=
  setCall_call ..

theorem ChannelClient.rpcStore_call :
    (s.rpcStore n).rpc.call n' =
      if n' = n then { s.rpc.call n with pc := .registered } else s.rpc.call n' :=
  setCall_call ..

theorem ChannelClient.rpcMove_call (pc : RpcPc) :
    (s.rpcMove n pc).rpc.call n' =
      if n' = n then { s.rpc.call n with pc := pc } else s.rpc.call n' :=
  setCall_call ..

theorem ChannelClient.rpcWrite_call :
    (s.rpcWrite n).rpc.call n' =
      if n' = n then { s.rpc.call n with pc := .waiting } else s.rpc.call n' :=
  setCall_call ..

theorem ChannelClient.rpcReceive_call (k : ℕ) (m : JsonrpcMessage) :
    (s.rpcReceive n k m).rpc.call n' =
      if n' = n then { s.rpc.call n with buf := none, pc := .leaving (.reply k m) }
      else s.rpc.call n' :=
  setCall_call ..

theorem ChannelClient.rpcDelete_call (r : RpcResult) :
    (s.rpcDelete n r).rpc.call n' =
      if n' = n then { s.rpc.call n with pc := .returned r } else s.rpc.call n' :=
  setCall_call ..

end Calls

theorem RpcTable.setEntry (ht : RpcTable r) {c : RpcCall} {v : Option (ℕ × Bytes)}
    (hid : c.id = (r.call n).id) (hmethod : c.method = (r.call n).method)
    (hborn : (r.call n).pc ≠ .idle)
    (hv : ∀ n' m, v = some (n', m) ↔ n' = n ∧ c.pc.Registered ∧ (r.call n).method = m) :
    RpcTable { r.setCall n c with
      rpcResponse := Function.update r.rpcResponse (r.call n).id v } := by
  have hlt := ht.born hborn
  refine ⟨ht.counter, fun n' hn' => ?_, fun n' hn' => ?_, fun id n' method => ?_⟩
  · show ((r.setCall n c).call n').id = _
    rw [setCall_call]
    split_ifs with h
    · subst h
      rw [hid]
      exact ht.ids n' hlt
    · exact ht.ids n' hn'
  · show ((r.setCall n c).call n').pc = _
    rw [setCall_call, if_neg]
    · exact ht.unborn n' hn'
    · intro h
      subst h
      exact absurd hlt (not_lt.mpr hn')
  · show Function.update r.rpcResponse (r.call n).id v id = _ ↔
      ((r.setCall n c).call n').pc.Registered ∧ ((r.setCall n c).call n').id = id ∧
        ((r.setCall n c).call n').method = method
    rw [setCall_call, Function.update_apply]
    by_cases hn : n' = n
    · subst hn
      rw [if_pos rfl, hid, hmethod]
      split_ifs with h
      · subst h
        simp [hv]
      · rw [ht.entry]
        exact ⟨fun he => absurd he.2.1.symm h, fun he => absurd he.2.1.symm h⟩
    · rw [if_neg hn]
      split_ifs with h
      · subst h
        constructor
        · intro he
          exact absurd ((hv n' method).mp he).1 hn
        · rintro ⟨hreg, hsame, -⟩
          -- two calls under one id
          have hborn' : (r.call n').pc ≠ .idle := fun he => by rw [he] at hreg; exact hreg
          exact absurd (ht.id_inj (ht.born hborn') hlt hsame) hn
      · exact ht.entry id n' method

theorem RpcTable.setCall (ht : RpcTable r) {c : RpcCall} (hid : c.id = (r.call n).id)
    (hmethod : c.method = (r.call n).method) (hborn : (r.call n).pc ≠ .idle)
    (hreg : c.pc.Registered ↔ (r.call n).pc.Registered) : RpcTable (r.setCall n c) := by
  have h := ht.setEntry (v := r.rpcResponse (r.call n).id) hid hmethod hborn ?_
  · rw [Function.update_eq_self] at h
    exact h
  · intro n' m
    rw [ht.entry, hreg]
    constructor
    · rintro ⟨hr, hsame, hm⟩
      have hborn' : (r.call n').pc ≠ .idle := fun he => by rw [he] at hr; exact hr
      have hn := ht.id_inj (ht.born hborn') (ht.born hborn) hsame
      subst hn
      exact ⟨rfl, hr, hm⟩
    · rintro ⟨rfl, hr, hm⟩
      exact ⟨hr, rfl, hm⟩

theorem RpcTable.new (ht : RpcTable r) (hids : r.count + 1 < 2 ^ 64) (method : Bytes) :
    RpcTable { r.setCall r.count ⟨appendUint (r.idCounter + 1).toNat, method, none, .created⟩ with
      idCounter := r.idCounter + 1, count := r.count + 1 } := by
  have hnext : (r.idCounter + 1).toNat = r.count + 1 := by
    rw [ht.counter, UInt64.toNat_add]
    simp only [UInt64.toNat_ofNat', UInt64.toNat_one]
    omega
  refine ⟨?_, fun n hn => ?_, fun n hn => ?_, fun id n m => ?_⟩
  · apply UInt64.toNat_inj.mp
    rw [hnext]
    simp only [UInt64.toNat_ofNat']
    omega
  · show ((r.setCall _ _).call n).id = _
    rw [setCall_call]
    split_ifs with h
    · rw [hnext, h]
    · exact ht.ids n (by have : n < r.count + 1 := hn; omega)
  · show ((r.setCall _ _).call n).pc = _
    have hn : r.count + 1 ≤ n := hn
    rw [setCall_call, if_neg (by omega)]
    exact ht.unborn n (by omega)
  · show r.rpcResponse id = _ ↔ _
    rw [ht.entry id n m]
    show _ ↔ ((r.setCall _ _).call n).pc.Registered ∧ _
    rw [setCall_call]
    split_ifs with h
    · have hidle := ht.unborn n (by omega)
      simp [hidle, RpcPc.Registered]
    · rfl

theorem RpcSide.offer_call (r : RpcSide) (n k : ℕ) (m : JsonrpcMessage) (n' : ℕ) :
    (r.offer n k m).call n' =
      if n' = n ∧ (r.call n).buf = none then { r.call n with buf := some (k, m) }
      else r.call n' := by
  unfold offer
  cases hbuf : (r.call n).buf with
  | none => simp [setCall_call]
  | some v => simp

theorem RpcSide.offer_fields (r : RpcSide) (n k : ℕ) (m : JsonrpcMessage) (n' : ℕ) :
    ((r.offer n k m).call n').id = (r.call n').id ∧
      ((r.offer n k m).call n').method = (r.call n').method ∧
      ((r.offer n k m).call n').pc = (r.call n').pc := by
  rw [offer_call]
  split_ifs with h
  · rw [h.1]
    exact ⟨rfl, rfl, rfl⟩
  · exact ⟨rfl, rfl, rfl⟩

theorem RpcSide.offer_table (r : RpcSide) (n k : ℕ) (m : JsonrpcMessage) :
    (r.offer n k m).idCounter = r.idCounter ∧ (r.offer n k m).count = r.count ∧
      (r.offer n k m).rpcResponse = r.rpcResponse := by
  unfold offer
  split <;> exact ⟨rfl, rfl, rfl⟩

theorem RpcTable.offer (ht : RpcTable r) (n k : ℕ) (m : JsonrpcMessage) :
    RpcTable (r.offer n k m) := by
  obtain ⟨hcounter, hcount, htable⟩ := r.offer_table n k m
  have hfields := r.offer_fields n k m
  refine ⟨by rw [hcounter, hcount]; exact ht.counter, fun n' hn' => ?_, fun n' hn' => ?_,
    fun id n' method => ?_⟩
  · rw [(hfields n').1]
    exact ht.ids n' (hcount ▸ hn')
  · rw [(hfields n').2.2]
    exact ht.unborn n' (hcount ▸ hn')
  · rw [htable, (hfields n').1, (hfields n').2.1, (hfields n').2.2]
    exact ht.entry id n' method

theorem Step.rpc_cases {J : Json} {s s' : ChannelClient} {a : Action} (h : Step J s a s') :
    s'.rpc = s.rpc ∨ RpcStep s a s' ∨
    ∃ k n reply, s.reader = .rpcHandOver k n reply ∧ s'.reader = .loop ∧
      s'.rpc = s.rpc.offer n k reply := by
  cases h with
  | rpc h => exact .inr (.inl h)
  | sub h | notify h | close h => exact .inl h.rpc_eq
  | reader h =>
    cases h with
    | rpcSend k n reply hpc => exact .inr (.inr ⟨k, n, reply, hpc, rfl, rfl⟩)
    | read | readMore => exact .inl (by rw [receive_eq])
    | _ => exact .inl rfl

theorem RpcTable.step {J : Json} {s s' : ChannelClient} {a : Action} (ht : RpcTable s.rpc)
    (h : Step J s a s') (hids : s'.rpc.count < 2 ^ 64) : RpcTable s'.rpc := by
  rcases h.rpc_cases with he | h | ⟨k, n, reply, _, _, he⟩
  · rw [he]
    exact ht
  · cases h with
    | new method => exact ht.new hids method
    | store n hpc => exact ht.setEntry rfl rfl (by rw [hpc]; nofun) (by simp [RpcPc.Registered, eq_comm])
    | check n hpc => exact ht.setCall rfl rfl (by rw [hpc]; nofun) (by rw [hpc]; rfl)
    | write n hpc => exact ht.setCall rfl rfl (by rw [hpc]; nofun) (by rw [hpc]; rfl)
    | fail n hpc =>
      rcases hpc with hpc | hpc <;>
        exact ht.setCall rfl rfl (by rw [hpc]; nofun) (by rw [hpc]; rfl)
    | receive n k m hpc => exact ht.setCall rfl rfl (by rw [hpc]; nofun) (by rw [hpc]; rfl)
    | timeout n hpc => exact ht.setCall rfl rfl (by rw [hpc]; nofun) (by rw [hpc]; rfl)
    | delete n r hpc => exact ht.setEntry rfl rfl (by rw [hpc]; nofun) (by simp [RpcPc.Registered])
  · rw [he]
    exact ht.offer n k reply

end Table

variable {k : ℕ}

section Replies
variable {J : Json} {s s' : ChannelClient} {a : Action}

def Holds (s : ChannelClient) (k n : ℕ) (m : JsonrpcMessage) : Prop :=
  s.reader = .rpcHandOver k n m ∨ (s.rpc.call n).buf = some (k, m) ∨
    (s.rpc.call n).pc.result = some (.reply k m)

/-- Taken frame `k` is an RPC reply with the raw id of call `n`, and `m` is what
it parses to. -/
structure Matches (J : Json) (s : ChannelClient) (k n : ℕ) (m : JsonrpcMessage) : Prop where
  born : n < s.rpc.count
  frame : ∃ f msg, s.net.past[k]? = some f ∧ decodeMessage f = .ok msg ∧
    msg.type = TypeRPCRequest ∧ J.rawID msg.data = (s.rpc.call n).id ∧
    J.parseReply (s.rpc.call n).method msg.data = some m

theorem RpcStep.call_fields (h : RpcStep s a s') (hn : n < s.rpc.count) :
    n < s'.rpc.count ∧ (s'.rpc.call n).id = (s.rpc.call n).id ∧
      (s'.rpc.call n).method = (s.rpc.call n).method := by
  cases h with
  | new method =>
    refine ⟨Nat.lt_succ_of_lt hn, ?_, ?_⟩ <;>
      simp only [rpcNew_call, if_neg hn.ne]
  | store | check | write | fail | receive | timeout | delete =>
    refine ⟨hn, ?_, ?_⟩ <;>
      simp only [rpcStore_call, rpcMove_call,
        rpcWrite_call, rpcReceive_call,
        rpcDelete_call] <;> split_ifs with h <;> simp [h]

theorem Step.call_fields (h : Step J s a s') (hn : n < s.rpc.count) :
    n < s'.rpc.count ∧ (s'.rpc.call n).id = (s.rpc.call n).id ∧
      (s'.rpc.call n).method = (s.rpc.call n).method := by
  rcases h.rpc_cases with he | h | ⟨k, n', reply, _, _, he⟩
  · rw [he]
    exact ⟨hn, rfl, rfl⟩
  · exact h.call_fields hn
  · have hfields := s.rpc.offer_fields n' k reply n
    rw [he, (s.rpc.offer_table n' k reply).2.1]
    exact ⟨hn, hfields.1, hfields.2.1⟩

variable {m reply : JsonrpcMessage}

theorem Matches.step (hm : Matches J s k n m) (h : Step J s a s') : Matches J s' k n m := by
  obtain ⟨hn, f, msg, hf, hd, htype, hid, hparse⟩ := hm
  obtain ⟨hn', hid', hmethod'⟩ := h.call_fields hn
  exact ⟨hn', f, msg, h.past_get hf, hd, htype, hid.trans hid'.symm, by rw [hmethod', hparse]⟩

theorem RpcStep.reply_origin (h : RpcStep s a s')
    (hm : (s'.rpc.call n).buf = some (k, m) ∨ (s'.rpc.call n).pc.result = some (.reply k m)) :
    (s.rpc.call n).buf = some (k, m) ∨ (s.rpc.call n).pc.result = some (.reply k m) := by
  cases h with
  | receive n' k' m' hpc hbuf =>
    rw [rpcReceive_call] at hm
    split_ifs at hm with hn
    · subst hn
      simp only [RpcPc.result, Option.some.injEq, RpcResult.reply.injEq] at hm
      rcases hm with hm | ⟨rfl, rfl⟩
      · cases hm
      · exact .inl hbuf
    · exact hm
  | delete n' r hpc =>
    rw [rpcDelete_call] at hm
    split_ifs at hm with hn
    · subst hn
      rw [hpc]
      exact hm
    · exact hm
  | new | store | check | write | fail | timeout =>
    simp only [rpcNew_call, rpcStore_call, rpcMove_call,
      rpcWrite_call] at hm
    split_ifs at hm with hn
    · subst hn
      simp only [RpcPc.result] at hm
      rcases hm with hm | hm
      · first
        | exact .inl hm
        | cases hm
      · cases hm
    · exact hm

theorem Step.handOver_origin (h : Step J s a s') (hr' : s'.reader = .rpcHandOver k n m) :
    s.reader = .rpcHandOver k n m ∨
      ∃ msg, s.reader = .dispatch k msg ∧ s.dispatchTo J k msg = .rpcHandOver k n m := by
  cases h.frameOrigin (k := k) (by rw [hr']; rfl) with
  | stay hr => exact .inl (hr ▸ hr')
  | take _ _ he | sent _ _ _ _ _ he =>
    rw [he] at hr'
    cases hr'
  | switch msg hr _ hs =>
    subst hs
    exact .inr ⟨msg, hr, hr'⟩

theorem Holds.origin (hm : Holds s' k n m) (h : Step J s a s') : Holds s k n m ∨
      ∃ msg, s.reader = .dispatch k msg ∧ s.dispatchTo J k msg = .rpcHandOver k n m := by
  rcases hm with hr' | hm
  · rcases h.handOver_origin hr' with hr | hswitch
    · exact .inl (.inl hr)
    · exact .inr hswitch
  · left
    rcases h.rpc_cases with he | h | ⟨k', n', reply, hr, _, he⟩
    · rw [he] at hm
      exact .inr hm
    · exact .inr (h.reply_origin hm)
    · rw [he, offer_call] at hm
      split_ifs at hm with hn
      · obtain ⟨rfl, hbuf⟩ := hn
        rcases hm with hm | hm
        · simp only [Option.some.injEq, Prod.mk.injEq] at hm
          obtain ⟨rfl, rfl⟩ := hm
          exact .inl hr
        · exact .inr (.inr hm)
      · exact .inr hm

structure RpcInv (J : Json) (s : ChannelClient) : Prop where
  reader : ReaderInv s
  table : RpcTable s.rpc
  held : ∀ k n m, Holds s k n m → Matches J s k n m

theorem RpcInv.init (J : Json) (cap : ℕ → ℕ) : RpcInv J (ChannelClient.init cap) := by
  refine ⟨.init cap, ⟨rfl, nofun, fun _ _ => rfl, fun id n method => ?_⟩, fun k n m h => ?_⟩
  · simp [ChannelClient.init, RpcPc.Registered]
  · simp [Holds, ChannelClient.init, RpcPc.result] at h

theorem RpcInv.step (hi : RpcInv J s) (h : Step J s a s') (hids : s'.rpc.count < 2 ^ 64) :
    RpcInv J s' := by
  refine ⟨hi.reader.step h, hi.table.step h hids, fun k n m hm => ?_⟩
  rcases hm.origin h with hm | ⟨msg, hr, hto⟩
  · exact (hi.held k n m hm).step h
  · apply Matches.step _ h
    obtain ⟨f, hf, hd⟩ := hi.reader.decoded k msg hr
    rcases s.dispatchTo_cases J k msg with he | ⟨n', method, reply, htype, hload, hparse, he⟩ |
      ⟨_, _, _, _, he⟩ | ⟨_, _, _, _, _, _, he⟩ <;> rw [hto] at he <;> cases he
    obtain ⟨hreg, hid, hmethod⟩ := (hi.table.entry _ _ _).mp hload
    refine ⟨hi.table.born ?_, f, msg, hf, hd, htype, hid.symm, by rw [hmethod, hparse]⟩
    intro hidle
    rw [hidle] at hreg
    exact hreg

theorem Step.count_le (h : Step J s a s') : s.rpc.count ≤ s'.rpc.count := by
  by_contra hlt
  have := (h.call_fields (n := s'.rpc.count) (by omega)).1
  omega

def Later (J : Json) (s s' : ChannelClient) : Prop :=
  Steps.Reach (Step J) (fun _ _ => True) s s' ∧ s'.rpc.count < 2 ^ 64

theorem Later.invariant {P : ChannelClient → Prop} (hs : Later J s s') (hi : RpcInv J s)
    (hP : P s) (hstep : ∀ t a t', RpcInv J t → P t → Step J t a t' → P t') :
    RpcInv J s' ∧ P s' := by
  obtain ⟨hs, hids⟩ := hs
  have hall : s'.rpc.count < 2 ^ 64 → RpcInv J s' ∧ P s' := by
    apply hs.invariant fun _ => ⟨hi, hP⟩
    intro t a t' hinv _ ht hlt
    obtain ⟨hi, hP⟩ := hinv (lt_of_le_of_lt ht.count_le hlt)
    exact ⟨hi.step ht hlt, hstep t a t' hi hP ht⟩
  exact hall hids

structure IsReply (J : Json) (s : ChannelClient) (n : ℕ) (msg : Message)
    (reply : JsonrpcMessage) : Prop where
  type : msg.type = TypeRPCRequest
  id : J.rawID msg.data = (s.rpc.call n).id
  parse : J.parseReply (s.rpc.call n).method msg.data = some reply

def Carried (J : Json) (s : ChannelClient) (k n : ℕ) (reply : JsonrpcMessage) : Prop :=
  (∃ msg, s.reader = .dispatch k msg ∧ IsReply J s n msg reply) ∨ s.reader = .rpcHandOver k n reply

def Fate (J : Json) (s : ChannelClient) (k n : ℕ) (reply : JsonrpcMessage) : Prop :=
  (s.rpc.call n).pc.Awaiting ∧
      ((s.rpc.call n).buf = none ∧ Carried J s k n reply ∨
        (s.rpc.call n).buf = some (k, reply)) ∨
    (s.rpc.call n).pc.result = some (.reply k reply) ∨
    (s.rpc.call n).pc.result = some .timeout ∨ (s.rpc.call n).pc.result = some .sendError

inductive CallMove (c c' : RpcCall) : Prop
  | same (h : c' = c)
  | advance (h : c.pc.Awaiting) (hne : c.pc ≠ .waiting) (h' : c'.pc.Awaiting)
      (hbuf : c'.buf = c.buf)
  | timeout (h : c.pc.Awaiting) (h' : c'.pc.result = some .timeout)
  | sendError (h : c.pc.Awaiting) (hne : c.pc ≠ .waiting) (h' : c'.pc.result = some .sendError)
  | receive (h : c.pc.Awaiting) (k : ℕ) (m : JsonrpcMessage) (hbuf : c.buf = some (k, m))
      (h' : c'.pc.result = some (.reply k m))
  | leave (r : RpcResult) (h : c.pc.result = some r) (h' : c'.pc.result = some r)

theorem RpcStep.call_move (ht : RpcTable s.rpc) (h : RpcStep s a s')
    (hn : (s.rpc.call n).pc.Awaiting ∨ (s.rpc.call n).pc.result ≠ none) :
    CallMove (s.rpc.call n) (s'.rpc.call n) := by
  cases h with
  | new method =>
    rw [rpcNew_call, if_neg]
    · exact .same rfl
    rintro rfl
    rw [ht.unborn _ le_rfl] at hn
    simp [RpcPc.Awaiting, RpcPc.result] at hn
  | store n' hpc =>
    rw [rpcStore_call, if_neg]
    · exact .same rfl
    rintro rfl
    rw [hpc] at hn
    simp [RpcPc.Awaiting, RpcPc.result] at hn
  | check n' hpc | write n' hpc =>
    simp only [rpcMove_call, rpcWrite_call]
    split_ifs with h
    · subst h
      exact .advance (by rw [hpc]; trivial) (by rw [hpc]; nofun) trivial rfl
    · exact .same rfl
  | fail n' hpc =>
    rw [rpcMove_call]
    split_ifs with h
    · subst h
      rcases hpc with hpc | hpc
      · exact .sendError (by rw [hpc]; trivial) (by rw [hpc]; nofun) rfl
      · exact .sendError (by rw [hpc]; trivial) (by rw [hpc]; nofun) rfl
    · exact .same rfl
  | receive n' k m hpc hbuf =>
    rw [rpcReceive_call]
    split_ifs with h
    · subst h
      exact .receive (by rw [hpc]; trivial) k m hbuf rfl
    · exact .same rfl
  | timeout n' hpc =>
    rw [rpcMove_call]
    split_ifs with h
    · subst h
      exact .timeout (by rw [hpc]; trivial) rfl
    · exact .same rfl
  | delete n' r hpc =>
    rw [rpcDelete_call]
    split_ifs with h
    · subst h
      exact .leave r (by rw [hpc]; rfl) rfl
    · exact .same rfl

theorem Carried.step_rpc (ht : RpcTable s.rpc)
    (hc : Carried J s k n reply) (hn : (s.rpc.call n).pc.Awaiting) (h : RpcStep s a s') :
    Carried J s' k n reply := by
  have hborn : n < s.rpc.count := by
    apply ht.born
    intro hidle
    rw [hidle] at hn
    exact hn
  obtain ⟨_, hid, hmethod⟩ := h.call_fields hborn
  rcases hc with ⟨msg, hr, htype, hmsg, hparse⟩ | hr
  · exact .inl ⟨msg, by rw [h.reader_eq, hr], htype, by rw [hid, hmsg], by rw [hmethod, hparse]⟩
  · exact .inr (by rw [h.reader_eq, hr])

theorem Fate.step_rpc (ht : RpcTable s.rpc)
    (hf : Fate J s k n reply) (h : RpcStep s a s') : Fate J s' k n reply := by
  have hcarried : (s.rpc.call n).pc.Awaiting → Carried J s k n reply → Carried J s' k n reply :=
    fun hn hc => hc.step_rpc ht hn h
  rcases hf with ⟨hawait, hslot⟩ | hresult
  · cases h.call_move ht (.inl hawait) with
    | same hsame =>
      rw [Fate, hsame]
      rcases hslot with ⟨hbuf, hc⟩ | hbuf
      · exact .inl ⟨hawait, .inl ⟨hbuf, hcarried hawait hc⟩⟩
      · exact .inl ⟨hawait, .inr hbuf⟩
    | advance _ _ hawait' hbuf' =>
      rw [Fate, hbuf']
      rcases hslot with ⟨hbuf, hc⟩ | hbuf
      · exact .inl ⟨hawait', .inl ⟨hbuf, hcarried hawait hc⟩⟩
      · exact .inl ⟨hawait', .inr hbuf⟩
    | timeout _ h' => exact .inr (.inr (.inl h'))
    | sendError _ _ h' => exact .inr (.inr (.inr h'))
    | receive _ k' m hbuf' h' =>
      -- only frame `k` can be in the slot
      rcases hslot with ⟨hbuf, _⟩ | hbuf
      · rw [hbuf] at hbuf'
        cases hbuf'
      · rw [hbuf] at hbuf'
        cases hbuf'
        exact .inr (.inl h')
    | leave r hr _ =>
      rw [hawait.result_none] at hr
      cases hr
  · have hsome : (s.rpc.call n).pc.result ≠ none := by
      rcases hresult with h | h | h <;> rw [h] <;> nofun
    right
    cases h.call_move ht (.inr hsome) with
    | same hsame => rw [hsame]; exact hresult
    | leave r hr hr' => rw [hr', ← hr]; exact hresult
    | advance hawait | timeout hawait | sendError hawait | receive hawait =>
      exact absurd hawait.result_none hsome

theorem Carried.move (hc : Carried J s k n reply) (hmove : Move J s a s') : s'.reader = s.reader ∨
    (∃ msg, IsReply J s n msg reply ∧ s' = s.dispatch J k msg) ∨
    s'.rpc = s.rpc.offer n k reply := by
  have hheld : s.reader.frame = some k := by
    rcases hc with ⟨msg, hr, _⟩ | hr <;> rw [hr] <;> rfl
  cases hmove with
  | stay hr => exact .inl hr
  | free hr | take _ hr =>
    rw [hheld] at hr
    cases hr
  | switch k' msg hr _ hs =>
    rcases hc with ⟨msg', hr', hreply⟩ | hr' <;> rw [hr] at hr' <;> cases hr'
    exact .inr (.inl ⟨msg, hreply, hs⟩)
  | replied k' n' reply' hr _ hrpc =>
    rcases hc with ⟨msg', hr', _⟩ | hr' <;> rw [hr] at hr' <;> cases hr'
    exact .inr (.inr hrpc)
  | answered _ _ _ hr | sent _ _ _ _ _ hr =>
    rcases hc with ⟨msg', hr', _⟩ | hr' <;> rw [hr] at hr' <;> cases hr'

theorem IsReply.dispatchTo (ht : RpcTable s.rpc) {msg : Message}
    (h : IsReply J s n msg reply) (hn : (s.rpc.call n).pc.Awaiting) (k : ℕ) :
    s.dispatchTo J k msg = .rpcHandOver k n reply := by
  have hload := (ht.entry (J.rawID msg.data) n (s.rpc.call n).method).mpr
    ⟨hn.registered, h.id.symm, rfl⟩
  rw [ChannelClient.dispatchTo, if_pos h.type, ChannelClient.rpcCase, hload]
  simp only [h.parse]

theorem Fate.step_carried (ht : RpcTable s.rpc)
    (hawait : (s.rpc.call n).pc.Awaiting) (hbuf : (s.rpc.call n).buf = none)
    (hc : Carried J s k n reply) (h : Step J s a s') : Fate J s' k n reply := by
  rcases hc.move h.move with hr | ⟨msg, hreply, hs⟩ | hoffer
  · rcases h.rpc_cases with hrpc | h | ⟨k', n', reply', hr', hloop, _⟩
    · refine .inl ⟨by rw [hrpc]; exact hawait, .inl ⟨by rw [hrpc]; exact hbuf, ?_⟩⟩
      rcases hc with ⟨msg, hmsg, htype, hid, hparse⟩ | hmsg
      · exact .inl ⟨msg, hr.trans hmsg, htype, by rw [hrpc, hid], by rw [hrpc, hparse]⟩
      · exact .inr (hr.trans hmsg)
    · exact Fate.step_rpc ht (.inl ⟨hawait, .inl ⟨hbuf, hc⟩⟩) h
    · rw [hr', hloop] at hr
      cases hr
  · subst hs
    exact .inl ⟨hawait, .inl ⟨hbuf, .inr (hreply.dispatchTo ht hawait k)⟩⟩
  · left
    rw [hoffer, offer_call, if_pos ⟨rfl, hbuf⟩]
    exact ⟨hawait, .inr rfl⟩

theorem Fate.step (ht : RpcTable s.rpc)
    (hf : Fate J s k n reply) (h : Step J s a s') : Fate J s' k n reply := by
  rcases h.rpc_cases with hrpc | hrpc | ⟨k', n', reply', hr, _, hrpc⟩
  · rcases hf with ⟨hawait, ⟨hbuf, hc⟩ | hbuf⟩ | hresult
    · exact Fate.step_carried ht hawait hbuf hc h
    · exact .inl ⟨by rw [hrpc]; exact hawait, .inr (by rw [hrpc]; exact hbuf)⟩
    · exact .inr (by rw [hrpc]; exact hresult)
  · exact hf.step_rpc ht hrpc
  · have hpc : (s'.rpc.call n).pc = (s.rpc.call n).pc := by
      rw [hrpc]
      exact (s.rpc.offer_fields n' k' reply' n).2.2
    rcases hf with ⟨hawait, ⟨hbuf, hc⟩ | hbuf⟩ | hresult
    · exact Fate.step_carried ht hawait hbuf hc h
    · -- a second reply finds the slot taken
      refine .inl ⟨by rw [hpc]; exact hawait, .inr ?_⟩
      rw [hrpc, offer_call, if_neg, hbuf]
      rintro ⟨rfl, hnone⟩
      rw [hnone] at hbuf
      cases hbuf
    · exact .inr (by rw [hpc]; exact hresult)

def PastSend (c : RpcCall) : Prop :=
  c.pc = .waiting ∨ ∃ r, c.pc.result = some r ∧ r ≠ .sendError

theorem PastSend.step (hp : PastSend (s.rpc.call n)) (ht : RpcTable s.rpc)
    (h : Step J s a s') : PastSend (s'.rpc.call n) := by
  rcases h.rpc_cases with hrpc | hrpc | ⟨k', n', reply', _, _, hrpc⟩
  · rw [hrpc]
    exact hp
  · rcases hp with hpc | ⟨r, hr, hne⟩
    · cases hrpc.call_move ht (n := n) (.inl (by rw [hpc]; trivial)) with
      | same hsame => exact .inl (by rw [hsame, hpc])
      | timeout _ h' | receive _ k m _ h' => exact .inr ⟨_, h', nofun⟩
      | advance _ hne | sendError _ hne => exact absurd hpc hne
      | leave r hr =>
        rw [hpc] at hr
        cases hr
    · have hsome : (s.rpc.call n).pc.result ≠ none := by rw [hr]; nofun
      cases hrpc.call_move ht (.inr hsome) with
      | same hsame => exact .inr ⟨r, by rw [hsame, hr], hne⟩
      | leave r' hr' hr'' => exact .inr ⟨r', hr'', by rw [hr, Option.some.injEq] at hr'; exact hr' ▸ hne⟩
      | advance hawait | timeout hawait | sendError hawait | receive hawait =>
        exact absurd hawait.result_none hsome
  · rw [PastSend, hrpc, (s.rpc.offer_fields n' k' reply' n).2.2]
    exact hp

end Replies

structure Arrives (J : Json) (s : ChannelClient) (k n : ℕ) (msg : Message) : Prop where
  reader : s.reader = .dispatch k msg
  type : msg.type = TypeRPCRequest
  id : J.rawID msg.data = (s.rpc.call n).id
  awaiting : (s.rpc.call n).pc.Awaiting
  empty : (s.rpc.call n).buf = none

theorem rpc_matching (J : Json) (cap : ℕ → ℕ) (s s' : ChannelClient)
    (hs : Later J (ChannelClient.init cap) s) (hs' : Later J s s') :
    (∀ n k m, (s.rpc.call n).pc = .returned (.reply k m) → Matches J s k n m) ∧
    (∀ k n n' m m', Holds s k n m → Holds s' k n' m' → n = n') ∧
    (∀ k n msg reply, Arrives J s k n msg →
      J.parseReply (s.rpc.call n).method msg.data = some reply → Fate J s' k n reply ∧
      ∀ r, (s'.rpc.call n).pc = .returned r → r = .reply k reply ∨ r = .timeout ∨
        r = .sendError ∧ (s.rpc.call n).pc ≠ .waiting) ∧
    (∀ k n m, s.reader = .rpcHandOver k n m → ∃ t, Step J s .rpcSend t ∧ t.reader = .loop) := by
  have hi : RpcInv J s := (hs.invariant (.init J cap) trivial fun _ _ _ _ _ _ => trivial).1
  refine ⟨fun n k m hpc => ?_, fun k n n' m m' hm hm' => ?_, fun k n msg reply ha hparse => ?_,
    fun k n m hr => ?_⟩
  · exact hi.held k n m (.inr (.inr (by rw [hpc]; rfl)))
  · obtain ⟨hi', hmatch⟩ := hs'.invariant (P := fun t => Matches J t k n m) hi
      (hi.held k n m hm) fun _ _ _ _ hm h => hm.step h
    obtain ⟨hn, f, msg, hf, hd, _, hid, _⟩ := hmatch
    obtain ⟨hn', f', msg', hf', hd', _, hid', _⟩ := hi'.held k n' m' hm'
    rw [hf] at hf'
    cases hf'
    rw [hd] at hd'
    cases hd'
    exact hi'.table.id_inj hn hn' (hid.symm.trans hid')
  · have hfate : Fate J s k n reply :=
      .inl ⟨ha.awaiting, .inl ⟨ha.empty, .inl ⟨msg, ha.reader, ha.type, ha.id, hparse⟩⟩⟩
    have hfate' : Fate J s' k n reply :=
      (hs'.invariant (P := fun t => Fate J t k n reply) hi hfate
        fun _ _ _ hi hf h => hf.step hi.table h).2
    refine ⟨hfate', fun r hr => ?_⟩
    rw [Fate, hr] at hfate'
    simp only [RpcPc.Awaiting, RpcPc.result, false_and, false_or, Option.some.injEq] at hfate'
    rcases hfate' with h | h | h
    · exact .inl h
    · exact .inr (.inl h)
    · refine .inr (.inr ⟨h, fun hwaiting => ?_⟩)
      have hpast : PastSend (s'.rpc.call n) :=
        (hs'.invariant (P := fun t => PastSend (t.rpc.call n)) hi (.inl hwaiting)
          fun _ _ _ hi hp h => hp.step hi.table h).2
      rw [PastSend, hr, h] at hpast
      simp [RpcPc.result] at hpast
  · exact ⟨_, .reader (.rpcSend k n m hr), rfl⟩

def replyMessage (data : Bytes) : Message := nodeMessage TypeRPCRequest data

def replyFrame (data : Bytes) : Bytes := nodeFrame TypeRPCRequest data

theorem numberFrame_whole : WholeFrame (replyFrame numberText) (replyMessage numberText) :=
  ⟨by unfold IsFrame; decide, by decide, by decide⟩

theorem oddFrame_whole : WholeFrame (replyFrame oddText) (replyMessage oddText) :=
  ⟨by unfold IsFrame; decide, by decide, by decide⟩

def oneCallWaiting (data : Bytes) : ChannelClient :=
  (((((ChannelClient.init fun _ => 0).rpcNew []).rpcStore 0).rpcMove 0 .checked).rpcWrite
    0).nodeWrites (replyFrame data) |>.take (.data (replyFrame data)) (replyFrame data) []

theorem oneCallWaiting_later {data : Bytes} (hw : WholeFrame (replyFrame data) (replyMessage data)) :
    Later sampleJson (init fun _ => 0) (oneCallWaiting data) := by
  refine ⟨?_, show 1 < 2 ^ 64 by norm_num⟩
  have h0 : Reachable sampleJson (fun _ => 0) (init fun _ => 0) := .refl _
  have h1 := h0.tail (.rpc (.new [])) trivial
  have h2 := h1.tail (.rpc (.store 0 rfl)) trivial
  have h3 := h2.tail (.rpc (.check 0 rfl rfl)) trivial
  have h4 := h3.tail (.rpc (.write 0 rfl rfl)) trivial
  have h5 := h4.tail (.reader (.node (replyFrame data))) trivial
  exact h5.tail (hw.read [] rfl (List.append_nil _).symm) trivial

/-- A reply with the id of the waiting call does not unmarshal; the call then
returns the reply after it. -/
theorem unreadable_reply_overtaken :
    ∃ s', Later sampleJson (ChannelClient.init fun _ => 0) (oneCallWaiting oddText) ∧
      Arrives sampleJson (oneCallWaiting oddText) 0 0 (replyMessage oddText) ∧
      ((oneCallWaiting oddText).rpc.call 0).pc = .waiting ∧
      Later sampleJson (oneCallWaiting oddText) s' ∧
      (s'.rpc.call 0).pc = .returned (.reply 1 numberReply) := by
  have h0 : Steps.Reach (Step sampleJson) (fun _ _ => True) (oneCallWaiting oddText)
    (oneCallWaiting oddText) := .refl _
  have hodd := oddFrame_whole.readFrame 0
  have h1 := h0.tail (.reader (.dispatch 0 (replyMessage oddText) hodd)) trivial
  have h2 := h1.tail (.reader (.node (replyFrame numberText))) trivial
  have h3 := h2.tail (numberFrame_whole.read [] rfl (List.append_nil _).symm) trivial
  have h4 := h3.tail (.reader (.dispatch 1 (replyMessage numberText)
    (numberFrame_whole.readFrame 1))) trivial
  have h5 := h4.tail (.reader (.rpcSend 1 0 numberReply rfl)) trivial
  have h6 := h5.tail (.rpc (.receive 0 1 numberReply rfl rfl)) trivial
  have h7 := h6.tail (.rpc (.delete 0 (.reply 1 numberReply) rfl)) trivial
  exact ⟨_, oneCallWaiting_later oddFrame_whole, ⟨hodd, rfl, by decide, trivial, rfl⟩, rfl,
    ⟨h7, by decide⟩, rfl⟩

theorem rpc_matching_one_reply : ∃ s', Later sampleJson (oneCallWaiting numberText) s' ∧
      (s'.rpc.call 0).pc = .returned (.reply 0 numberReply) ∧
      Arrives sampleJson (oneCallWaiting numberText) 0 0 (replyMessage numberText) ∧
      Fate sampleJson s' 0 0 numberReply := by
  have h0 : Steps.Reach (Step sampleJson) (fun _ _ => True) (oneCallWaiting numberText)
    (oneCallWaiting numberText) := .refl _
  have hread := numberFrame_whole.readFrame 0
  have h1 := h0.tail (.reader (.dispatch 0 (replyMessage numberText) hread)) trivial
  have h2 := h1.tail (.reader (.rpcSend 0 0 numberReply rfl)) trivial
  have h3 := h2.tail (.rpc (.receive 0 0 numberReply rfl rfl)) trivial
  have h4 := h3.tail (.rpc (.delete 0 (.reply 0 numberReply) rfl)) trivial
  have ha : Arrives sampleJson (oneCallWaiting numberText) 0 0 (replyMessage numberText) :=
    ⟨hread, rfl, by decide, trivial, rfl⟩
  have hmatch := rpc_matching sampleJson (fun _ => 0) (oneCallWaiting numberText) _
    (oneCallWaiting_later numberFrame_whole) ⟨h4, by decide⟩
  exact ⟨_, ⟨h4, by decide⟩, rfl, ha,
    (hmatch.2.2.1 0 0 (replyMessage numberText) numberReply ha rfl).1⟩

end Fiscobcos.Client
