import Fiscobcos.Client.EventLogs
import Fiscobcos.Common.HexJson

/-! # The fields of delivered logs (client/channel.go:242-267, client/types.go:31-62)

The reader converts four hex strings of each log and drops the errors, so a malformed string becomes
whatever the converter returned next to its error. -/

namespace Fiscobcos.Client
open Numerals Hexutil List Reader

structure LogEntry.Faithful (e : LogEntry) (l : Log) : Prop where
  address : l.address = e.address
  topics : l.topics = e.topics
  data : ∃ raw, Prefixed e.data raw ∧ HexPairs raw l.data
  blockNumber : HexQuantity e.blockNumber l.blockNumber ∧ l.blockNumber < 2 ^ 64
  txHash : l.txHash = e.txHash
  txIndex : HexQuantity e.txIndex l.txIndex ∧ l.txIndex < 2 ^ 64
  blockHash : l.blockHash = e.blockHash
  index : HexQuantity e.index l.index ∧ l.index < 2 ^ 64
  removed : l.removed = e.removed

def Uint64Text (s : Bytes) : Prop := ∃ n, HexQuantity s n ∧ n < 2 ^ 64

structure LogEntry.HexOk (e : LogEntry) : Prop where
  data : ∃ raw b, Prefixed e.data raw ∧ HexPairs raw b
  blockNumber : Uint64Text e.blockNumber
  txIndex : Uint64Text e.txIndex
  index : Uint64Text e.index

theorem decodeUint64_of_text {s : Bytes} (h : Uint64Text s) :
    HexQuantity s (decodeUint64 s).1 ∧ (decodeUint64 s).1 < 2 ^ 64 := by
  obtain ⟨n, hn⟩ := h
  rw [(decodeUint64_ok_iff s n).mpr hn]
  exact hn

theorem LogEntry.faithful_toLog_iff (e : LogEntry) : e.Faithful e.toLog ↔ e.HexOk := by
  constructor
  · intro h
    obtain ⟨raw, hp, hpairs⟩ := h.data
    exact ⟨⟨raw, _, hp, hpairs⟩, ⟨_, h.blockNumber⟩, ⟨_, h.txIndex⟩, ⟨_, h.index⟩⟩
  · intro h
    have hdata : ∃ raw, Prefixed e.data raw ∧ HexPairs raw (decode e.data).1 := by
      obtain ⟨raw, b, hp, hpairs⟩ := h.data
      rw [(decode_ok_iff e.data b).mpr ⟨raw, hp, hpairs⟩]
      exact ⟨raw, hp, hpairs⟩
    exact ⟨rfl, rfl, hdata, decodeUint64_of_text h.blockNumber, rfl,
      decodeUint64_of_text h.txIndex, rfl, decodeUint64_of_text h.index, rfl⟩

theorem faithful_map_iff (es : List LogEntry) :
    List.Forall₂ LogEntry.Faithful es (es.map LogEntry.toLog) ↔ ∀ e ∈ es, e.HexOk := by
  rw [forall₂_map_right_iff, forall₂_same]
  simp only [LogEntry.faithful_toLog_iff]

def sentFrom (k : ℕ) (ds : List Delivery) : List Delivery := ds.filter fun d => d.frame = k

def Reader.toSend (k : ℕ) : Reader → List Log
  | .sendLogs k' _ _ ls => if k' = k then ls else []
  | _ => []

theorem Reader.toSend_of_frame {r : Reader} {k : ℕ} (h : r.frame ≠ some k) : r.toSend k = [] := by
  cases r with
  | sendLogs k' f ch ls =>
    rw [toSend, if_neg]
    intro hk
    exact h (congrArg some hk)
  | _ => rfl

theorem Reader.toSend_logLoop (k k' : ℕ) (filterID : Bytes) (ch : ℕ) (ls : List Log) :
    (Reader.logLoop k' filterID ch ls).toSend k = if k' = k then ls else [] := by
  rcases logLoop_cases k' filterID ch ls with ⟨hnil, he⟩ | ⟨_, he⟩
  · rw [he, hnil]
    simp [toSend]
  · rw [he]
    rfl

theorem sentFrom_append (k : ℕ) (ds : List Delivery) (d : Delivery) :
    sentFrom k (ds ++ [d]) = sentFrom k ds ++ if d.frame = k then [d] else [] := by
  rw [sentFrom, sentFrom, filter_append]
  split_ifs with h <;> simp [h]

section Frames
variable {J : Json} {s s' : ChannelClient} {a : Action}

structure FreshInv (s : ChannelClient) : Prop where
  reader : ReaderInv s
  fresh : ∀ k m, s.reader = .dispatch k m → ∀ d ∈ s.chans.delivered, d.frame < k

theorem FreshInv.init (cap : ℕ → ℕ) : FreshInv (ChannelClient.init cap) :=
  ⟨.init cap, fun k m hr => by cases hr⟩

theorem FreshInv.step (hi : FreshInv s) (h : Step J s a s') : FreshInv s' := by
  refine ⟨hi.reader.step h, ?_⟩
  intro k m hr'
  cases h.frameOrigin (k := k) (by rw [hr']; rfl) with
  | stay hr hidle =>
    rw [hidle.delivered]
    exact hi.fresh k m (hr ▸ hr')
  | take _ hk _ hdelivered =>
    rw [hdelivered, hk]
    exact hi.reader.taken
  | switch m' _ _ hs =>
    subst hs
    have hto : s.dispatchTo J k m' = .dispatch k m := hr'
    rcases s.dispatchTo_cases J k m' with he | ⟨_, _, _, _, _, _, he⟩ | ⟨_, _, _, _, he⟩ |
      ⟨_, _, _, _, _, _, he⟩ <;> rw [hto] at he <;> cases he
  | sent _ _ _ _ _ hnext =>
    rw [hnext] at hr'
    cases hr'

structure FrameSent (k : ℕ) (filterID : Bytes) (ch : ℕ) (logs : List Log) (s : ChannelClient) :
    Prop where
  taken : k < s.net.past.length
  sent : (sentFrom k s.chans.delivered).map Delivery.log ++ s.reader.toSend k = logs
  channel : ∀ d ∈ sentFrom k s.chans.delivered, d.filterID = filterID ∧ d.ch = ch
  held : s.reader.frame = some k → ∃ ls, s.reader = .sendLogs k filterID ch ls

variable {k : ℕ} {filterID : Bytes} {ch : ℕ} {logs : List Log}

theorem FrameSent.elsewhere (hi : FrameSent k filterID ch logs s) (hr : s.reader.frame ≠ some k)
    (hr' : s'.reader.frame ≠ some k) (hpast : s.net.past.length ≤ s'.net.past.length)
    (hsent : sentFrom k s'.chans.delivered = sentFrom k s.chans.delivered) :
    FrameSent k filterID ch logs s' := by
  refine ⟨hi.taken.trans_le hpast, ?_, ?_, fun h => absurd h hr'⟩
  · rw [hsent, toSend_of_frame hr', ← toSend_of_frame hr]
    exact hi.sent
  · rw [hsent]
    exact hi.channel

theorem FrameSent.step (hi : FrameSent k filterID ch logs s) (h : Step J s a s') :
    FrameSent k filterID ch logs s' := by
  have hpast : s.net.past.length ≤ s'.net.past.length := by
    by_contra hlt
    have hget := h.past_get (List.getElem?_eq_getElem (not_le.mp hlt))
    exact absurd (List.getElem?_eq_some_iff.mp hget).1 (lt_irrefl _)
  by_cases hk : s.reader.frame = some k
  · obtain ⟨rest, hrest⟩ := hi.held hk
    have hsent := hi.sent
    cases h.move with
    | stay hr hidle =>
      refine ⟨hi.taken.trans_le hpast, ?_, ?_, ?_⟩
      · rw [hidle.delivered, hr]
        exact hsent
      · rw [hidle.delivered]
        exact hi.channel
      · rw [hr]
        exact hi.held
    | free hr | take _ hr =>
      rw [hr] at hk
      cases hk
    | switch _ _ hr | replied _ _ _ hr | answered _ _ _ hr =>
      rw [hrest] at hr
      cases hr
    | sent k' filterID' ch' l ls hr hr' _ hdelivered =>
      rw [hrest] at hr
      cases hr
      rw [hrest, Reader.toSend, if_pos rfl] at hsent
      refine ⟨hi.taken.trans_le hpast, ?_, ?_, ?_⟩
      · rw [hdelivered, sentFrom_append, if_pos rfl, hr', Reader.toSend_logLoop, if_pos rfl,
          List.map_append, List.append_assoc]
        exact hsent
      · intro d hd
        rw [hdelivered, sentFrom_append, if_pos rfl, List.mem_append, List.mem_singleton] at hd
        rcases hd with hd | rfl
        · exact hi.channel d hd
        · exact ⟨rfl, rfl⟩
      · intro hf
        rw [hr'] at hf ⊢
        rcases Reader.logLoop_cases k filterID ch ls with ⟨_, he⟩ | ⟨_, he⟩
        · rw [he] at hf
          cases hf
        · exact ⟨ls, he⟩
  · -- the frame is not in hand, and is not taken a second time
    refine hi.elsewhere hk (fun hf => ?_) hpast ?_
    · cases h.frameOrigin hf with
      | stay hr => exact hk (hr ▸ hf)
      | take _ hpast => exact hi.taken.ne hpast
      | switch _ hr | sent _ _ _ _ hr => exact hk (by rw [hr]; rfl)
    · rcases h.delivered_cases with he | ⟨k', filterID', ch', l, ls, hr, he⟩
      · rw [he]
      · rw [he, sentFrom_append, if_neg, List.append_nil]
        rintro rfl
        exact hk (by rw [hr]; rfl)

theorem FreshInv.dispatch (hi : FreshInv s) {m : Message} {e : EventLogResponse}
    (hr : s.reader = .dispatch k m) (htype : m.type = TypeEventLog)
    (he : J.eventLog m.data = some e) (hw : s.sub.watcher e.filterID = some ch) :
    FrameSent k e.filterID ch (e.logs.map LogEntry.toLog) (s.dispatch J k m) := by
  have hnone : sentFrom k s.chans.delivered = [] := by
    rw [sentFrom, filter_eq_nil_iff]
    intro d hd
    have hlt := hi.fresh k m hr d hd
    simp only [decide_eq_true_eq]
    omega
  have hto : s.dispatchTo J k m = .logLoop k e.filterID ch (e.logs.map LogEntry.toLog) := by
    rw [ChannelClient.dispatchTo, if_neg (by rw [htype]; decide), if_neg (by rw [htype]; decide),
      if_pos htype, ChannelClient.eventCase, he]
    simp only
    rw [hw]
  have hlast := hi.reader.last k (by rw [hr]; rfl)
  refine ⟨?_, ?_, ?_, ?_⟩
  · show k < s.net.past.length
    omega
  · show (sentFrom k s.chans.delivered).map Delivery.log ++ (s.dispatchTo J k m).toSend k = _
    rw [hnone, hto, toSend_logLoop, if_pos rfl]
    rfl
  · intro d hd
    have hd : d ∈ sentFrom k s.chans.delivered := hd
    rw [hnone] at hd
    cases hd
  · show (s.dispatchTo J k m).frame = some k → ∃ ls, s.dispatchTo J k m = _
    rw [hto]
    intro hf
    rcases logLoop_cases k e.filterID ch (e.logs.map LogEntry.toLog) with ⟨_, hl⟩ | ⟨_, hl⟩
    · rw [hl] at hf
      cases hf
    · exact ⟨_, hl⟩

end Frames

/-- From the moment a frame for a registered filter is looked at, its logs are sent to the channel
of that filter in the order of the entries. Those sent so far are faithful exactly when the hex
strings of their entries are well formed and in range. -/
theorem event_logs_faithful_iff (J : Json) (cap : ℕ → ℕ) (s : ChannelClient)
    (hs : Reachable J cap s) (k : ℕ) (m : Message) (e : EventLogResponse) (ch : ℕ)
    (hr : s.reader = .dispatch k m) (htype : m.type = TypeEventLog)
    (he : J.eventLog m.data = some e) (hw : s.sub.watcher e.filterID = some ch)
    (s' : ChannelClient) (hs' : Steps.Reach (Step J) (fun _ _ => True) (s.dispatch J k m) s') :
    (∀ d ∈ sentFrom k s'.chans.delivered, d.filterID = e.filterID ∧ d.ch = ch) ∧
    (s'.reader.frame ≠ some k → (sentFrom k s'.chans.delivered).length = e.logs.length) ∧
    (List.Forall₂ LogEntry.Faithful (e.logs.take (sentFrom k s'.chans.delivered).length)
        ((sentFrom k s'.chans.delivered).map Delivery.log) ↔
      ∀ entry ∈ e.logs.take (sentFrom k s'.chans.delivered).length, entry.HexOk) := by
  have hfresh : FreshInv s := hs.invariant (.init cap) fun _ _ _ hi _ h => hi.step h
  have hsent : FrameSent k e.filterID ch (e.logs.map LogEntry.toLog) s' :=
    hs'.invariant (hfresh.dispatch hr htype he hw) fun _ _ _ hi _ h => hi.step h
  have hpart : (sentFrom k s'.chans.delivered).map Delivery.log =
      (e.logs.take (sentFrom k s'.chans.delivered).length).map LogEntry.toLog := by
    have htake := congrArg (take (sentFrom k s'.chans.delivered).length) hsent.sent
    rw [take_left' (by rw [length_map]), ← map_take] at htake
    exact htake
  refine ⟨hsent.channel, ?_, ?_⟩
  · intro hf
    have hlen := congrArg length hsent.sent
    rw [toSend_of_frame hf, append_nil, length_map, length_map] at hlen
    exact hlen
  · rw [hpart]
    exact faithful_map_iff _

def eventTaken (data : Bytes) : ChannelClient :=
  (((oneCallReceived fun _ => 1).subPending 0 (.deleted 0 none) someSeq none).subWatch 0
    (some 0)).nodeWrites (nodeFrame TypeEventLog data) |>.take
    (.data (nodeFrame TypeEventLog data)) (nodeFrame TypeEventLog data) []

theorem eventTaken_watcher (data : Bytes) :
    (eventTaken data).sub.watcher someFilterID = some 0 := by
  show Function.update (fun _ => none) someFilterID (some 0) someFilterID = some 0
  rw [Function.update_self]

theorem eventTaken_reach {data : Bytes}
    (hw : WholeFrame (nodeFrame TypeEventLog data) (nodeMessage TypeEventLog data)) :
    Reachable sampleJson (fun _ => 1) (eventTaken data) := by
  have h0 : Reachable sampleJson (fun _ => 1) (oneCallReceived fun _ => 1) :=
    (oneCallReceived_reach _).mono fun _ _ _ => trivial
  have h1 := h0.tail (.sub (.delete 0 0 none someSeq rfl rfl)) trivial
  have h2 := h1.tail (.sub (.watch 0 0 rfl)) trivial
  have h3 := h2.tail (.reader (.node (nodeFrame TypeEventLog data))) trivial
  exact h3.tail (hw.read [] rfl (append_nil _).symm) trivial

theorem eventTaken_reader {data : Bytes}
    (hw : WholeFrame (nodeFrame TypeEventLog data) (nodeMessage TypeEventLog data)) :
    (eventTaken data).reader = .dispatch 1 (nodeMessage TypeEventLog data) :=
  hw.readFrame 1

theorem one_log_sent {data : Bytes} {entry : LogEntry}
    (he : sampleJson.eventLog data = some ⟨someFilterID, [entry]⟩) :
    ∃ s', Steps.Reach (Step sampleJson) (fun _ _ => True)
        ((eventTaken data).dispatch sampleJson 1 (nodeMessage TypeEventLog data)) s' ∧
      s'.chans.delivered = [⟨1, someFilterID, 0, entry.toLog⟩] := by
  have h0 : Steps.Reach (Step sampleJson) (fun _ _ => True)
      ((eventTaken data).dispatch sampleJson 1 (nodeMessage TypeEventLog data))
      ((eventTaken data).dispatch sampleJson 1 (nodeMessage TypeEventLog data)) := .refl _
  have hto : (eventTaken data).dispatchTo sampleJson 1 (nodeMessage TypeEventLog data) =
      .sendLogs 1 someFilterID 0 [entry.toLog] :=
    ChannelClient.dispatchTo_event (e := ⟨someFilterID, [entry]⟩) rfl he
      (eventTaken_watcher data) nofun
  have hroom : (0 : ℕ) < 1 := by norm_num
  exact ⟨_, h0.tail (.reader (.sendLog 1 someFilterID 0 entry.toLog [] hto hroom)) trivial, rfl⟩

/-- A log of block 0 is made out of an entry without a block number. -/
theorem empty_fields_delivered : ∃ s, Reachable sampleJson (fun _ => 1) s ∧
      s.chans.delivered = [⟨1, someFilterID, 0, emptyEntry.toLog⟩] ∧
      emptyEntry.toLog.blockNumber = 0 ∧ ¬ emptyEntry.Faithful emptyEntry.toLog := by
  have he : sampleJson.eventLog eventText = some ⟨someFilterID, [emptyEntry]⟩ := by decide
  obtain ⟨s', hs', hdelivered⟩ := one_log_sent he
  have hstart := (eventTaken_reach eventFrame_whole).tail
    (.reader (.dispatch 1 someEvent (eventTaken_reader eventFrame_whole))) trivial
  refine ⟨s', hstart.trans hs', hdelivered, rfl, ?_⟩
  intro h
  obtain ⟨⟨_, _, ⟨_, _, hp⟩, _⟩, _⟩ := h.blockNumber
  cases hp

theorem plainFrame_whole :
    WholeFrame (nodeFrame TypeEventLog plainText) (nodeMessage TypeEventLog plainText) :=
  ⟨by unfold IsFrame; decide +kernel, by decide +kernel, by decide +kernel⟩

theorem event_logs_faithful_iff_plain :
    ∃ s' : ChannelClient, s'.chans.delivered = [⟨1, someFilterID, 0, plainEntry.toLog⟩] ∧
      (List.Forall₂ LogEntry.Faithful ([plainEntry].take (sentFrom 1 s'.chans.delivered).length)
          ((sentFrom 1 s'.chans.delivered).map Delivery.log) ↔
        ∀ entry ∈ [plainEntry].take (sentFrom 1 s'.chans.delivered).length, entry.HexOk) ∧
      plainEntry.HexOk := by
  have he : sampleJson.eventLog plainText = some ⟨someFilterID, [plainEntry]⟩ := by decide +kernel
  obtain ⟨s', hs', hdelivered⟩ := one_log_sent he
  have hiff := (event_logs_faithful_iff sampleJson (fun _ => 1) _
    (eventTaken_reach plainFrame_whole) 1 (nodeMessage TypeEventLog plainText)
    ⟨someFilterID, [plainEntry]⟩ 0 (eventTaken_reader plainFrame_whole) rfl he
    (eventTaken_watcher plainText) s' hs').2.2
  refine ⟨s', hdelivered, hiff, ⟨⟨[], [], ⟨120, .inl rfl, rfl⟩, .nil⟩, ?_, ?_, ?_⟩⟩
  · exact ⟨1, (decodeUint64_ok_iff _ 1).mp (by decide)⟩
  · exact ⟨0, (decodeUint64_ok_iff _ 0).mp (by decide)⟩
  · exact ⟨2, (decodeUint64_ok_iff _ 2).mp (by decide)⟩

end Fiscobcos.Client
