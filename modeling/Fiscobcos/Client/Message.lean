import Fiscobcos.Lib.Numerals

/-! # Channel messages (client/message.go, client/types.go, client/utils.go)

A message has a 4-byte length, a 2-byte type, a 32-byte sequence string, a 4-byte result and the
payload. `encode` writes the result big-endian and puts a topic section in front of the payload of
a registration; `decodeMessage` reads it little-endian and has no topic section. -/

namespace Fiscobcos.Client
open Numerals List

def TypeRPCRequest : UInt16 := 0x12
def TypeHeartBeat : UInt16 := 0x13
def TypeRegisterEventLog : UInt16 := 0x15
def TypeBlockNotify : UInt16 := 0x1001
def TypeEventLog : UInt16 := 0x1002

/-- `Message` (`client/message.go:10-18`); Go strings are byte strings. -/
structure Message where
  length : UInt32
  type : UInt16
  seq : Bytes
  result : Int32
  topicLength : Byte
  topic : Bytes
  data : Bytes
  deriving DecidableEq

/-- The section between the header and the payload, written for registrations
only (`client/message.go:82-85`). -/
def Message.topicSection (msg : Message) : Bytes :=
  if msg.type = TypeRegisterEventLog then msg.topicLength :: msg.topic else []

/-- `Message.Encode` (`client/message.go:76-88`). -/
def Message.encode (msg : Message) : Bytes :=
  beBytes 4 msg.length.toNat ++ beBytes 2 msg.type.toNat ++ msg.seq ++
    beBytes 4 msg.result.toUInt32.toNat ++ msg.topicSection ++ msg.data

/-- `NewMessage` (`client/message.go:20-38`) after its JSON marshalling: `d` is
the marshalled payload and `seq` the value drawn by `newSeq`. -/
def newMessage (typ : UInt16) (topic d seq : Bytes) : Message where
  length :=
    if typ = TypeRegisterEventLog then UInt32.ofNat (42 + d.length) + UInt32.ofNat (1 + topic.length)
    else UInt32.ofNat (42 + d.length)
  type := typ
  seq := seq
  result := 0
  topicLength := lowByte (topic.length + 1)
  topic := topic
  data := d

/-- Errors of `DecodeMessage`: the two of `io.ReadFull` and its own. -/
inductive DecodeError where
  | eof
  | unexpectedEOF
  | incompleteMessage
  deriving DecidableEq

def binaryRead (n : ℕ) (buf : Bytes) : Except DecodeError (Bytes × Bytes) :=
  if n ≤ buf.length then .ok (buf.take n, buf.drop n)
  else if buf = [] then .error .eof
  else .error .unexpectedEOF

/-- `DecodeMessage` (`client/message.go:40-74`). The partially filled message
that goes with an error is dropped, as its caller drops it. -/
def decodeMessage (data : Bytes) : Except DecodeError Message := do
  let (l, buf) ← binaryRead 4 data
  let length := UInt32.ofNat (beVal l)
  if UInt32.ofNat data.length < length then throw .incompleteMessage
  let (t, buf) ← binaryRead 2 buf
  let (seq, buf) ← binaryRead 32 buf
  let (r, buf) ← binaryRead 4 buf
  return {
    length := length
    type := UInt16.ofNat (beVal t)
    seq := seq
    result := ⟨UInt32.ofNat (beVal r.reverse)⟩
    topicLength := 0
    topic := []
    data := buf }

def getMessageLength (data : Bytes) : ℕ :=
  if data.length < 4 then 0 else beVal (data.take 4)

def fieldsOf (data : Bytes) : Message where
  length := UInt32.ofNat (beVal (data.take 4))
  type := UInt16.ofNat (beVal ((data.drop 4).take 2))
  seq := (data.drop 6).take 32
  result := ⟨UInt32.ofNat (beVal ((data.drop 38).take 4).reverse)⟩
  topicLength := 0
  topic := []
  data := data.drop 42

theorem binaryRead_ok (n : ℕ) (buf : Bytes) (h : n ≤ buf.length) :
    binaryRead n buf = .ok (buf.take n, buf.drop n) := by
  simp [binaryRead, h]

theorem binaryRead_short (n : ℕ) (buf : Bytes) (h : buf.length < n) :
    ∃ e, binaryRead n buf = .error e := by
  have hn : ¬ n ≤ buf.length := by omega
  by_cases hb : buf = []
  · exact ⟨.eof, by simp only [binaryRead, if_neg hn, if_pos hb]⟩
  · exact ⟨.unexpectedEOF, by simp only [binaryRead, if_neg hn, if_neg hb]⟩

theorem decodeMessage_of_length (data : Bytes) (h : 42 ≤ data.length) :
    decodeMessage data =
      if UInt32.ofNat data.length < (fieldsOf data).length then .error .incompleteMessage
      else .ok (fieldsOf data) := by
  have h4 := binaryRead_ok 4 data (by omega)
  have h2 := binaryRead_ok 2 (data.drop 4) (by simp only [length_drop]; omega)
  have h32 := binaryRead_ok 32 (data.drop 6) (by simp only [length_drop]; omega)
  have hr := binaryRead_ok 4 (data.drop 38) (by simp only [length_drop]; omega)
  simp only [drop_drop] at h2 h32 hr
  by_cases hc : UInt32.ofNat data.length < (fieldsOf data).length
  · have hc' : UInt32.ofNat data.length < UInt32.ofNat (beVal (data.take 4)) := hc
    rw [if_pos hc]
    simp only [decodeMessage, h4, bind, Except.bind, if_pos hc']
    rfl
  · have hc' : ¬ UInt32.ofNat data.length < UInt32.ofNat (beVal (data.take 4)) := hc
    rw [if_neg hc]
    simp only [decodeMessage, h4, bind, Except.bind, if_neg hc', h2, h32, hr, pure, Except.pure]
    rfl

theorem decodeMessage_short (data : Bytes) (h : data.length < 42) :
    ∃ e, decodeMessage data = .error e := by
  by_cases h4 : data.length < 4
  · obtain ⟨e, he⟩ := binaryRead_short 4 data h4
    exact ⟨e, by simp only [decodeMessage, he, bind, Except.bind]⟩
  have e4 := binaryRead_ok 4 data (by omega)
  simp only [decodeMessage, e4, bind, Except.bind]
  split_ifs with hc
  · exact ⟨.incompleteMessage, rfl⟩
  by_cases h6 : data.length < 6
  · obtain ⟨e, he⟩ := binaryRead_short 2 (data.drop 4) (by simp only [length_drop]; omega)
    exact ⟨e, by simp only [he]⟩
  have e2 := binaryRead_ok 2 (data.drop 4) (by simp only [length_drop]; omega)
  by_cases h38 : data.length < 38
  · obtain ⟨e, he⟩ := binaryRead_short 32 (data.drop 6) (by simp only [length_drop]; omega)
    exact ⟨e, by simp only [e2, drop_drop, he]⟩
  have e32 := binaryRead_ok 32 (data.drop 6) (by simp only [length_drop]; omega)
  obtain ⟨e, he⟩ := binaryRead_short 4 (data.drop 38) (by simp only [length_drop]; omega)
  exact ⟨e, by simp only [e2, e32, drop_drop, he]⟩

theorem decodeMessage_eq_ok (data : Bytes) (m : Message) : decodeMessage data = .ok m ↔
      42 ≤ data.length ∧ ¬ UInt32.ofNat data.length < (fieldsOf data).length ∧ m = fieldsOf data := by
  by_cases h : 42 ≤ data.length
  · rw [decodeMessage_of_length data h]
    split_ifs with hc
    · simp [hc]
    · simp only [Except.ok.injEq, h, hc, not_false_eq_true, true_and]
      exact eq_comm
  · obtain ⟨e, he⟩ := decodeMessage_short data (by omega)
    simp [he, h]

theorem u32_ofNat_inj {a b : ℕ} (ha : a < 2 ^ 32) (hb : b < 2 ^ 32)
    (h : UInt32.ofNat a = UInt32.ofNat b) : a = b := by
  have hn := congrArg UInt32.toNat h
  simp only [UInt32.toNat_ofNat'] at hn
  omega

theorem u16_ofNat_inj {a b : ℕ} (ha : a < 2 ^ 16) (hb : b < 2 ^ 16)
    (h : UInt16.ofNat a = UInt16.ofNat b) : a = b := by
  have hn := congrArg UInt16.toNat h
  simp only [UInt16.toNat_ofNat'] at hn
  omega

theorem beVal_take4_lt (bs : Bytes) : beVal (bs.take 4) < 2 ^ 32 := by
  have h := beVal_lt (bs.take 4)
  have hl : (256 : ℕ) ^ (bs.take 4).length ≤ 256 ^ 4 :=
    Nat.pow_le_pow_right (by norm_num) (by simp only [length_take]; omega)
  omega

theorem beVal_take2_lt (bs : Bytes) : beVal (bs.take 2) < 2 ^ 16 := by
  have h := beVal_lt (bs.take 2)
  have hl : (256 : ℕ) ^ (bs.take 2).length ≤ 256 ^ 2 :=
    Nat.pow_le_pow_right (by norm_num) (by simp only [length_take]; omega)
  omega

theorem beVal_reverse_take4_lt (bs : Bytes) : beVal (bs.take 4).reverse < 2 ^ 32 := by
  have h := beVal_lt (bs.take 4).reverse
  have hl : (256 : ℕ) ^ (bs.take 4).reverse.length ≤ 256 ^ 4 :=
    Nat.pow_le_pow_right (by norm_num) (by simp only [length_reverse, length_take]; omega)
  omega

theorem fieldsOf_inj (a b : Bytes) (ha : 42 ≤ a.length) (hb : 42 ≤ b.length)
    (h : fieldsOf a = fieldsOf b) : a = b := by
  simp only [fieldsOf, Message.mk.injEq, Int32.ofUInt32.injEq, true_and] at h
  obtain ⟨hlen, htyp, hseq, hres, hdata⟩ := h
  have h4 : a.take 4 = b.take 4 := by
    apply beVal_inj
    · simp only [length_take]; omega
    · exact u32_ofNat_inj (beVal_take4_lt _) (beVal_take4_lt _) hlen
  have h2 : (a.drop 4).take 2 = (b.drop 4).take 2 := by
    apply beVal_inj
    · simp only [length_take, length_drop]; omega
    · exact u16_ofNat_inj (beVal_take2_lt _) (beVal_take2_lt _) htyp
  have hr : (a.drop 38).take 4 = (b.drop 38).take 4 := by
    apply reverse_injective
    apply beVal_inj
    · simp only [length_reverse, length_take, length_drop]; omega
    · exact u32_ofNat_inj (beVal_reverse_take4_lt _) (beVal_reverse_take4_lt _) hres
  have split : ∀ c : Bytes, c = c.take 4 ++ ((c.drop 4).take 2 ++ ((c.drop 6).take 32 ++
      ((c.drop 38).take 4 ++ c.drop 42))) := by
    intro c
    have e1 := take_append_drop 4 (c.drop 38)
    have e2 := take_append_drop 32 (c.drop 6)
    have e3 := take_append_drop 2 (c.drop 4)
    simp only [drop_drop] at e1 e2 e3
    rw [e1, e2, e3, take_append_drop]
  rw [split a, split b, h4, h2, hseq, hr, hdata]

theorem decodeMessage_inj (a b : Bytes) (m : Message) (ha : decodeMessage a = .ok m)
    (hb : decodeMessage b = .ok m) : a = b := by
  obtain ⟨hla, _, hma⟩ := (decodeMessage_eq_ok a m).mp ha
  obtain ⟨hlb, _, hmb⟩ := (decodeMessage_eq_ok b m).mp hb
  exact fieldsOf_inj a b hla hlb (hma.symm.trans hmb)

/-- The messages a client may encode: a 32-byte sequence string, the length of
the encoding, and a topic only where the layout has a topic section. -/
structure Message.Valid (m : Message) : Prop where
  seq_length : m.seq.length = 32
  length_eq : m.length.toNat = m.encode.length
  topic_register : m.type = TypeRegisterEventLog → m.topicLength.val = m.topic.length + 1
  topic_other : m.type ≠ TypeRegisterEventLog → m.topic = []

/-- `DecodeMessage(m.Encode())` succeeds with the fields of `m`. -/
def RoundTrips (m : Message) : Prop :=
  ∃ m', decodeMessage m.encode = .ok m' ∧ m'.length = m.length ∧ m'.type = m.type ∧
    m'.seq = m.seq ∧ m'.result = m.result ∧ m'.topic = m.topic ∧ m'.data = m.data

def PalindromicResult (r : Int32) : Prop :=
  r.toUInt32.toNat / 2 ^ 24 = r.toUInt32.toNat % 2 ^ 8 ∧
    r.toUInt32.toNat / 2 ^ 16 % 2 ^ 8 = r.toUInt32.toNat / 2 ^ 8 % 2 ^ 8

theorem encode_length (m : Message) (hs : m.seq.length = 32) :
    m.encode.length = 42 + m.topicSection.length + m.data.length := by
  simp only [Message.encode, length_append, beBytes_length, hs]

theorem fieldsOf_encode (m : Message) (hs : m.seq.length = 32) :
    fieldsOf m.encode =
      { length := m.length, type := m.type, seq := m.seq,
        result := ⟨UInt32.ofNat (beVal (beBytes 4 m.result.toUInt32.toNat).reverse)⟩,
        topicLength := 0, topic := [], data := m.topicSection ++ m.data } := by
  have hl : (beBytes 4 m.length.toNat).length = 4 := beBytes_length _ _
  have ht : (beBytes 2 m.type.toNat).length = 2 := beBytes_length _ _
  have hr : (beBytes 4 m.result.toUInt32.toNat).length = 4 := beBytes_length _ _
  have vl : beVal (beBytes 4 m.length.toNat) = m.length.toNat :=
    beVal_beBytes_of_lt _ _ (by have := m.length.toNat_lt; omega)
  have vt : beVal (beBytes 2 m.type.toNat) = m.type.toNat :=
    beVal_beBytes_of_lt _ _ (by have := m.type.toNat_lt; omega)
  have e0 : m.encode.take 4 = beBytes 4 m.length.toNat := by
    simp only [Message.encode, append_assoc, take_left' hl]
  have e4 : m.encode.drop 4 = beBytes 2 m.type.toNat ++ (m.seq ++
      (beBytes 4 m.result.toUInt32.toNat ++ (m.topicSection ++ m.data))) := by
    simp only [Message.encode, append_assoc, drop_left' hl]
  have e6 : m.encode.drop 6 =
      m.seq ++ (beBytes 4 m.result.toUInt32.toNat ++ (m.topicSection ++ m.data)) := by
    rw [show (6 : ℕ) = 4 + 2 from rfl, ← drop_drop, e4, drop_left' ht]
  have e38 : m.encode.drop 38 =
      beBytes 4 m.result.toUInt32.toNat ++ (m.topicSection ++ m.data) := by
    rw [show (38 : ℕ) = 6 + 32 from rfl, ← drop_drop, e6, drop_left' hs]
  have e42 : m.encode.drop 42 = m.topicSection ++ m.data := by
    rw [show (42 : ℕ) = 38 + 4 from rfl, ← drop_drop, e38, drop_left' hr]
  simp only [fieldsOf, e0, e4, e6, e38, e42, take_left' ht, take_left' hs,
    take_left' hr, vl, vt, UInt32.ofNat_toNat, UInt16.ofNat_toNat]

theorem decodeMessage_encode (m : Message) (hv : m.Valid) :
    decodeMessage m.encode = .ok (fieldsOf m.encode) := by
  have hlen := encode_length m hv.seq_length
  rw [decodeMessage_eq_ok]
  refine ⟨by omega, ?_, rfl⟩
  rw [fieldsOf_encode m hv.seq_length, ← hv.length_eq, UInt32.ofNat_toNat]
  exact UInt32.lt_irrefl _

theorem reverse_bytes4 (v : ℕ) (h : v < 2 ^ 32) : beVal (beBytes 4 v).reverse = v ↔
      v / 2 ^ 24 = v % 2 ^ 8 ∧ v / 2 ^ 16 % 2 ^ 8 = v / 2 ^ 8 % 2 ^ 8 := by
  have hbytes : beBytes 4 v =
      [lowByte (v / 2 ^ 24), lowByte (v / 2 ^ 16), lowByte (v / 2 ^ 8), lowByte v] := by
    simp [beBytes, Nat.div_div_eq_div_mul]
  have hself : beVal (beBytes 4 v) = v := beVal_beBytes_of_lt 4 v h
  have htop : v / 2 ^ 24 % 256 = v / 2 ^ 24 := Nat.mod_eq_of_lt (Nat.div_lt_of_lt_mul h)
  -- numerals of one length are equal when their bytes are
  have hrev : beVal (beBytes 4 v).reverse = v ↔ (beBytes 4 v).reverse = beBytes 4 v := by
    constructor
    · intro he
      exact beVal_inj _ _ (length_reverse ..) (he.trans hself.symm)
    · intro he
      rw [he, hself]
  rw [hrev, hbytes]
  simp only [reverse_cons, reverse_nil, nil_append, cons_append,
    cons.injEq, Fin.ext_iff, lowByte_val, htop, and_true]
  constructor
  · rintro ⟨hout, hin, -, -⟩
    exact ⟨hout.symm, hin.symm⟩
  · rintro ⟨hout, hin⟩
    exact ⟨hout.symm, hin.symm, hin, hout⟩

theorem swapped_result (r : Int32) :
    (⟨UInt32.ofNat (beVal (beBytes 4 r.toUInt32.toNat).reverse)⟩ : Int32) = r ↔
      PalindromicResult r := by
  have hiff : (⟨UInt32.ofNat (beVal (beBytes 4 r.toUInt32.toNat).reverse)⟩ : Int32) = r ↔
      beVal (beBytes 4 r.toUInt32.toNat).reverse = r.toUInt32.toNat := by
    have hlt := beVal_lt (beBytes 4 r.toUInt32.toNat).reverse
    rw [length_reverse, beBytes_length] at hlt
    cases r with
    | ofUInt32 u =>
      rw [Int32.ofUInt32.injEq, ← UInt32.toNat_inj, UInt32.toNat_ofNat', Nat.mod_eq_of_lt (by omega)]
  rw [hiff]
  unfold PalindromicResult
  exact reverse_bytes4 _ r.toUInt32.toNat_lt

/-- The codec gives a message back exactly when it is not a registration and
its result is the same number in both byte orders. -/
theorem roundTrips_iff (m : Message) (hv : m.Valid) :
    RoundTrips m ↔ m.type ≠ TypeRegisterEventLog ∧ PalindromicResult m.result := by
  have hdec := decodeMessage_encode m hv
  rw [fieldsOf_encode m hv.seq_length] at hdec
  constructor
  · rintro ⟨m', hm', _, _, _, hres, _, hdata⟩
    rw [hdec, Except.ok.injEq] at hm'
    subst hm'
    refine ⟨?_, (swapped_result m.result).mp hres⟩
    intro htype
    -- the topic section is never empty, so it cannot vanish from the payload
    have hlen := congrArg length hdata
    simp only [Message.topicSection, if_pos htype, length_append, length_cons] at hlen
    omega
  · rintro ⟨htype, hpal⟩
    have hsec : m.topicSection = [] := by simp only [Message.topicSection, if_neg htype]
    refine ⟨_, hdec, rfl, rfl, rfl, (swapped_result m.result).mpr hpal, ?_, ?_⟩
    · exact (hv.topic_other htype).symm
    · simp only [hsec, nil_append]

def resultOne : Message where
  length := 42
  type := TypeRPCRequest
  seq := List.replicate 32 97
  result := 1
  topicLength := 1
  topic := []
  data := []

theorem resultOne_valid : resultOne.Valid :=
  ⟨by decide, by decide, by decide, by decide⟩

/-- `resultOne` comes back with result `2 ^ 24`. -/
theorem resultOne_not_roundTrips : resultOne.Valid ∧ ¬ RoundTrips resultOne := by
  refine ⟨resultOne_valid, ?_⟩
  rintro ⟨m', hm', _, _, _, hres, _, _⟩
  have hdec : decodeMessage resultOne.encode =
      .ok { resultOne with result := 2 ^ 24, topicLength := 0 } := by decide
  rw [hdec, Except.ok.injEq] at hm'
  subst hm'
  exact absurd hres (by decide)

theorem roundTrips_heartbeat :
    let m : Message := newMessage TypeHeartBeat [] [123, 125] (replicate 32 97)
    m.Valid ∧ (RoundTrips m ↔ m.type ≠ TypeRegisterEventLog ∧ PalindromicResult m.result) := by
  refine ⟨⟨by decide, by decide, by decide, by decide⟩, ?_⟩
  exact roundTrips_iff _ ⟨by decide, by decide, by decide, by decide⟩

/-- A byte string is accepted if it holds the frame it announces with a whole header, and what is
read is in this frame. -/
structure FrameExact (data : Bytes) : Prop where
  accepted : (∃ m, decodeMessage data = .ok m) ↔
    42 ≤ data.length ∧ 42 ≤ getMessageLength data ∧ getMessageLength data ≤ data.length
  payload : ∀ m, decodeMessage data = .ok m → m.data = (data.take (getMessageLength data)).drop 42
  inFrame : ∀ m, decodeMessage data = .ok m ↔
    decodeMessage (data.take (getMessageLength data)) = .ok m

theorem getMessageLength_lt (data : Bytes) : getMessageLength data < 2 ^ 32 := by
  rw [getMessageLength]
  split_ifs
  · norm_num
  · exact beVal_take4_lt data

theorem decodeMessage_ok_iff (data : Bytes) (m : Message) : decodeMessage data = .ok m ↔
      42 ≤ data.length ∧ getMessageLength data ≤ data.length % 2 ^ 32 ∧ m = fieldsOf data := by
  rw [decodeMessage_eq_ok]
  apply and_congr_right
  intro hlen
  have hL : getMessageLength data = beVal (data.take 4) := by
    rw [getMessageLength, if_neg (by omega)]
  have hlt := getMessageLength_lt data
  have hcmp : UInt32.ofNat data.length < (fieldsOf data).length ↔
      data.length % 2 ^ 32 < getMessageLength data := by
    rw [UInt32.lt_iff_toNat_lt]
    show (UInt32.ofNat data.length).toNat < (UInt32.ofNat (beVal (data.take 4))).toNat ↔ _
    rw [UInt32.toNat_ofNat', UInt32.toNat_ofNat', ← hL, Nat.mod_eq_of_lt hlt]
  rw [hcmp, not_lt]

theorem fieldsOf_data_eq_iff {data : Bytes} (h : 42 ≤ data.length) {n : ℕ} (hn : 42 ≤ n) :
    (fieldsOf data).data = (data.take n).drop 42 ↔ data.length ≤ n := by
  constructor
  · intro heq
    have hlen := congrArg length heq
    simp only [fieldsOf, length_drop, length_take] at hlen
    omega
  · intro hle
    rw [take_of_length_le hle]
    rfl

/-- Frames with trailing bytes are accepted with the trailing bytes as data, and so are strings
that announce less than a header. -/
theorem frame_exact_iff (data : Bytes) :
    FrameExact data ↔ data.length < 42 ∨ data.length ≤ getMessageLength data ∨
      data.length % 2 ^ 32 < getMessageLength data ∧ getMessageLength data < 42 := by
  have hlt := getMessageLength_lt data
  constructor
  · intro h
    by_contra hnot
    have hlen : 42 ≤ data.length := by omega
    -- the string is accepted with too much data, or refused although its frame is whole
    by_cases hcmp : getMessageLength data ≤ data.length % 2 ^ 32
    · have hok := (decodeMessage_ok_iff data _).mpr ⟨hlen, hcmp, rfl⟩
      have hframe := (h.accepted.mp ⟨_, hok⟩).2.1
      have hdata := (fieldsOf_data_eq_iff hlen hframe).mp (h.payload _ hok)
      omega
    · obtain ⟨m, hm⟩ := h.accepted.mpr ⟨hlen, by omega, by omega⟩
      exact hcmp ((decodeMessage_ok_iff data m).mp hm).2.1
  · intro h
    by_cases hwhole : 42 ≤ data.length ∧ data.length ≤ getMessageLength data
    · have hmod : data.length % 2 ^ 32 = data.length := Nat.mod_eq_of_lt (by omega)
      have htake : data.take (getMessageLength data) = data := take_of_length_le hwhole.2
      refine ⟨?_, ?_, ?_⟩
      · constructor
        · intro ⟨m, hm⟩
          have hcmp := ((decodeMessage_ok_iff data m).mp hm).2.1
          omega
        · intro hb
          exact ⟨_, (decodeMessage_ok_iff data _).mpr ⟨hb.1, by omega, rfl⟩⟩
      · intro m hm
        rw [((decodeMessage_ok_iff data m).mp hm).2.2, fieldsOf_data_eq_iff hwhole.1 (by omega)]
        exact hwhole.2
      · intro m
        rw [htake]
    · -- nothing is accepted, neither the string nor its frame
      have hno : ∀ m, decodeMessage data ≠ .ok m := by
        intro m hm
        have hm := (decodeMessage_ok_iff data m).mp hm
        omega
      have hcut : ∀ m, decodeMessage (data.take (getMessageLength data)) ≠ .ok m := by
        intro m hm
        have hm := ((decodeMessage_ok_iff _ m).mp hm).1
        rw [length_take] at hm
        omega
      refine ⟨?_, ?_, ?_⟩
      · apply iff_of_false
        · intro ⟨m, hm⟩
          exact hno m hm
        · omega
      · intro m hm
        exact absurd hm (hno m)
      · intro m
        exact iff_of_false (hno m) (hcut m)

/-- Forty-two zero bytes announce an empty frame and are accepted. -/
theorem zero_frame_not_exact : getMessageLength (List.replicate 42 0) = 0 ∧
    (∃ m, decodeMessage (List.replicate 42 0) = .ok m) ∧ ¬ FrameExact (List.replicate 42 0) := by
  have hL : getMessageLength (replicate 42 0) = 0 := by decide
  have hok := (decodeMessage_ok_iff (replicate 42 0) _).mpr
    ⟨by decide, by rw [hL]; exact Nat.zero_le _, rfl⟩
  refine ⟨hL, ⟨_, hok⟩, ?_⟩
  intro h
  have hbad := (h.accepted.mp ⟨_, hok⟩).2.1
  rw [hL] at hbad
  exact absurd hbad (by norm_num)

end Fiscobcos.Client
