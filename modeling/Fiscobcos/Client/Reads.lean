import Fiscobcos.Client.Channel
import Fiscobcos.Lib.JsonTree

/-! # The frames behind the reads (client/channel.go:168-201)

The messages at the type switch are those that the loop of Framing makes out of the reads
(`followsReads`). They are the frames the node wrote if every read stays inside one frame, holds its
length field, and nothing is lost with a connection (`framesKept`). -/

namespace Fiscobcos.Client
open Numerals ChannelClient List

section Reads
variable {J : Json} {s s' : ChannelClient} {a : Action}

def Reader.assembly : Reader → Assembly
  | .assembling totalLen all => .assembling totalLen all
  | _ => .idle

theorem Reader.assembly_readFrame (k : ℕ) (f : Bytes) : (readFrame k f).assembly = .idle := by
  rcases readFrame_cases k f with ⟨_, _, h⟩ | h <;> rw [h] <;> rfl

theorem Reader.assembly_logLoop (k : ℕ) (filterID : Bytes) (ch : ℕ) (ls : List Log) :
    (Reader.logLoop k filterID ch ls).assembly = .idle := by
  rcases logLoop_cases k filterID ch ls with ⟨_, h⟩ | ⟨_, h⟩ <;> rw [h] <;> rfl

theorem ChannelClient.assembly_dispatchTo (J : Json) (s : ChannelClient) (k : ℕ) (m : Message) :
    (s.dispatchTo J k m).assembly = .idle := by
  rcases s.dispatchTo_cases J k m with h | ⟨_, _, _, _, _, _, h⟩ | ⟨_, _, _, _, h⟩ |
    ⟨_, _, _, _, _, _, h⟩ <;> rw [h] <;> rfl

structure SameStream (s s' : ChannelClient) : Prop where
  written : s'.net.written = s.net.written
  past : s'.net.past = s.net.past
  unread : s'.net.unread = s.net.unread
  reads : s'.net.reads = s.net.reads
  assembly : s'.reader.assembly = s.reader.assembly

def Action.Streams : Action → Prop
  | .node _ | .read _ | .readError | .readCut | .dial true => True
  | _ => False

theorem Step.stream_cases (h : Step J s a s') :
    SameStream s s' ∨ a.Streams ∧ ReaderStep J s a s' := by
  cases h with
  | rpc h | notify h => cases h <;> exact .inl ⟨rfl, rfl, rfl, rfl, rfl⟩
  | sub h =>
    left
    cases h with
    | receive i k err hpc hr => exact ⟨rfl, rfl, rfl, rfl, by rw [hr]; rfl⟩
    | consumeDirect k filterID ch l ls hbuf hr =>
      exact ⟨rfl, rfl, rfl, rfl, by rw [hr]; exact Reader.assembly_logLoop ..⟩
    | _ => exact ⟨rfl, rfl, rfl, rfl, rfl⟩
  | close h =>
    left
    cases h with
    | exit j hpc hr =>
      refine ⟨rfl, rfl, rfl, rfl, ?_⟩
      rcases hr with hr | hr <;> rw [hr] <;> rfl
    | _ => exact ⟨rfl, rfl, rfl, rfl, rfl⟩
  | reader hreader =>
    have h := hreader
    cases hreader with
    | dispatch k m hpc =>
      exact .inl ⟨rfl, rfl, rfl, rfl, by rw [hpc]; exact s.assembly_dispatchTo J k m⟩
    | sendLog k filterID ch l ls hpc =>
      exact .inl ⟨rfl, rfl, rfl, rfl, by rw [hpc]; exact Reader.assembly_logLoop ..⟩
    | rpcSend _ _ _ hpc | tick hpc | dialFail hpc =>
      exact .inl ⟨rfl, rfl, rfl, rfl, by rw [hpc]; rfl⟩
    | node | read | readMore | readError | readCut | dialOk => exact .inr ⟨trivial, h⟩

/-- The reader is the read loop of Framing, wherever the run is. -/
def FollowsReads (s : ChannelClient) : Prop := ∀ rs, readLoop .idle (s.net.reads ++ rs) =
  s.net.past.flatMap (fun f => dispatched (decodeMessage f)) ++ readLoop s.reader.assembly rs

theorem FollowsReads.take (hi : FollowsReads s) {r : ReadResult} {f : Bytes} (rest : Bytes)
    (h : readStep s.reader.assembly r = (.idle, dispatched (decodeMessage f))) :
    FollowsReads (s.take r f rest) := by
  intro rs
  have hrs := hi (r :: rs)
  rw [readLoop, h] at hrs
  show readLoop .idle (s.net.reads ++ [r] ++ rs) = (s.net.past ++ [f]).flatMap _ ++
    readLoop (readFrame s.net.past.length f).assembly rs
  rw [append_assoc, singleton_append, hrs, flatMap_append, flatMap_singleton,
    Reader.assembly_readFrame, append_assoc]

theorem FollowsReads.receive (hi : FollowsReads s) {totalLen : ℕ} {all c : Bytes} (rest : Bytes)
    (h : readStep s.reader.assembly (.data c) =
      if (all ++ c).length < totalLen then (.assembling totalLen (all ++ c), [])
      else (.idle, dispatched (decodeMessage (all ++ c)))) :
    FollowsReads (s.receive totalLen all c rest) := by
  rcases s.receive_cases totalLen all c rest with ⟨hlt, he⟩ | ⟨hle, he⟩ <;> rw [he]
  · intro rs
    have hrs := hi (.data c :: rs)
    rw [readLoop, h, if_pos hlt] at hrs
    show readLoop .idle (s.net.reads ++ [.data c] ++ rs) = _
    rw [append_assoc]
    exact hrs
  · exact hi.take rest (by rw [h, if_neg (by omega)])

theorem FollowsReads.step (hi : FollowsReads s) (h : Step J s a s') : FollowsReads s' := by
  rcases h.stream_cases with hsame | ⟨hstream, h⟩
  · intro rs
    rw [hsame.reads, hsame.past, hsame.assembly]
    exact hi rs
  · cases h with
    | node f => exact hi
    | read c rest hpc => exact hi.receive rest (by rw [hpc]; rfl)
    | readMore totalLen all c rest hpc => exact hi.receive rest (by rw [hpc]; rfl)
    | readCut totalLen all hpc => exact hi.take _ (by rw [hpc]; rfl)
    | readError hpc =>
      intro rs
      have hrs := hi (.err :: rs)
      rw [hpc] at hrs
      show readLoop .idle (s.net.reads ++ [.err] ++ rs) = _
      rw [append_assoc]
      exact hrs
    | dialOk hpc =>
      intro rs
      have hrs := hi rs
      rwa [hpc] at hrs
    | dispatch | rpcSend | sendLog | tick | dialFail => exact hstream.elim

/-- What has reached the type switch is what the read loop makes out of the reads. -/
theorem followsReads (cap : ℕ → ℕ) (hs : Reachable J cap s) :
    readLoop .idle s.net.reads = s.net.past.flatMap fun f => dispatched (decodeMessage f) := by
  have hi : FollowsReads s := hs.invariant (fun _ => rfl) fun _ _ _ hi _ h => hi.step h
  have hnow := hi []
  rwa [append_nil, readLoop, append_nil] at hnow

end Reads

section Frames
variable {J : Json} {s s' : ChannelClient} {a : Action}

def Net.ahead (t : Net) : List Bytes := t.written.drop t.past.length

def Assembly.all : Assembly → Bytes
  | .idle => []
  | .assembling _ all => all

/-- The node writes frames; no read goes beyond the frame it is in, and the first
one in a frame holds its length field; no connection is lost with bytes on it. -/
def FramesKept (s : ChannelClient) : Action → Prop
  | .node f => IsFrame f
  | .read n => ∃ f, s.net.ahead.head? = some f ∧ s.reader.assembly.all.length + n ≤ f.length ∧
    (s.reader.assembly = .idle → 4 ≤ n)
  | .readCut => False
  | .dial succeeds => succeeds = true → s.net.unread = []
  | _ => True

structure KeptInv (s : ChannelClient) : Prop where
  frames : ∀ f ∈ s.net.ahead, IsFrame f
  split : s.net.written = s.net.past ++ s.net.ahead
  bytes : s.reader.assembly.all ++ s.net.unread = s.net.ahead.flatten
  total : ∀ totalLen all, s.reader.assembly = .assembling totalLen all →
    ∃ f, s.net.ahead.head? = some f ∧ totalLen = f.length

/-- A read inside frame `f` either completes it or leaves the reader in it. -/
theorem KeptInv.receive (hi : KeptInv s) {totalLen : ℕ} {f c rest : Bytes}
    (hunread : s.net.unread = c ++ rest) (hf : s.net.ahead.head? = some f)
    (hlen : s.reader.assembly.all.length + c.length ≤ f.length) (htotal : totalLen = f.length) :
    KeptInv (s.receive totalLen s.reader.assembly.all c rest) := by
  obtain ⟨fs, hahead⟩ := head?_eq_some_iff.mp hf
  have hbytes := hi.bytes
  rw [hunread, ← append_assoc, hahead, flatten_cons] at hbytes
  rcases s.receive_cases totalLen s.reader.assembly.all c rest with ⟨hlt, he⟩ | ⟨hle, he⟩ <;>
    rw [he]
  · refine ⟨hi.frames, hi.split, ?_, ?_⟩
    · show s.reader.assembly.all ++ c ++ rest = s.net.ahead.flatten
      rw [hbytes, hahead, flatten_cons]
    · rintro t all ⟨⟩
      exact ⟨f, hf, htotal⟩
  · rw [htotal, length_append] at hle
    obtain ⟨hall, hrest⟩ := append_inj hbytes (by rw [length_append]; omega)
    have hnext : (s.take (.data c) (s.reader.assembly.all ++ c) rest).net.ahead = fs := by
      show s.net.written.drop (s.net.past ++ [s.reader.assembly.all ++ c]).length = fs
      rw [length_append, ← drop_drop]
      exact congrArg (drop 1) hahead
    have hidle : (s.take (.data c) (s.reader.assembly.all ++ c) rest).reader.assembly = .idle :=
      Reader.assembly_readFrame ..
    refine ⟨?_, ?_, ?_, ?_⟩
    · rw [hnext]
      intro g hg
      exact hi.frames g (by rw [hahead]; exact mem_cons_of_mem f hg)
    · rw [hnext]
      show s.net.written = s.net.past ++ [s.reader.assembly.all ++ c] ++ fs
      rw [hall, hi.split, hahead, append_assoc]
      rfl
    · rw [hnext, hidle]
      exact hrest
    · rw [hidle]
      nofun

theorem KeptInv.step (hi : KeptInv s) (hok : FramesKept s a) (h : Step J s a s') : KeptInv s' := by
  rcases h.stream_cases with hsame | ⟨hstream, h⟩
  · have hahead : s'.net.ahead = s.net.ahead := by
      rw [Net.ahead, hsame.written, hsame.past, Net.ahead]
    constructor
    · rw [hahead]
      exact hi.frames
    · rw [hsame.written, hsame.past, hahead]
      exact hi.split
    · rw [hsame.assembly, hsame.unread, hahead]
      exact hi.bytes
    · rw [hsame.assembly, hahead]
      exact hi.total
  · cases h with
    | node f =>
      have hahead : (s.nodeWrites f).net.ahead = s.net.ahead ++ [f] := by
        show (s.net.written ++ [f]).drop s.net.past.length = s.net.written.drop _ ++ [f]
        refine drop_append_of_le_length ?_
        rw [hi.split, length_append]
        omega
      constructor
      · rw [hahead]
        exact forall_mem_append.mpr ⟨hi.frames, forall_mem_singleton.mpr hok⟩
      · rw [hahead]
        show s.net.written ++ [f] = s.net.past ++ (s.net.ahead ++ [f])
        rw [← append_assoc, ← hi.split]
      · rw [hahead, flatten_append, ← hi.bytes, flatten_singleton, append_assoc]
        rfl
      · rw [hahead]
        intro t all hr
        obtain ⟨g, hg, ht⟩ := hi.total t all hr
        exact ⟨g, by rw [head?_append, hg]; rfl, ht⟩
    | read c rest hpc hc hunread =>
      obtain ⟨f, hf, hlen, hfour⟩ := hok
      have hidle : s.reader.assembly = .idle := by rw [hpc]; rfl
      have hprefix : c <+: f := by
        have hbytes := hi.bytes
        rw [hidle, hunread] at hbytes
        obtain ⟨fs, hahead⟩ := head?_eq_some_iff.mp hf
        rw [hahead, flatten_cons] at hbytes
        refine prefix_of_prefix_length_le ⟨rest, hbytes⟩ (prefix_append ..) ?_
        rw [hidle] at hlen
        simpa [Assembly.all] using hlen
      have hisFrame := hi.frames f (mem_of_head? hf)
      have htotal : getMessageLength c = f.length := by
        rw [getMessageLength_take f c (hfour hidle) hprefix, hisFrame.2]
      have hnext := hi.receive hunread hf hlen htotal
      rwa [hidle] at hnext
    | readMore totalLen all c rest hpc _ hc hunread =>
      obtain ⟨f, hf, hlen, -⟩ := hok
      have hall : s.reader.assembly = .assembling totalLen all := by rw [hpc]; rfl
      obtain ⟨g, hg, htotal⟩ := hi.total totalLen all hall
      rw [hf] at hg
      cases hg
      have hnext := hi.receive hunread hf hlen htotal
      rwa [hall] at hnext
    | readError hpc =>
      refine ⟨hi.frames, hi.split, ?_, nofun⟩
      have hbytes := hi.bytes
      rwa [hpc] at hbytes
    | readCut => exact hok.elim
    | dialOk hpc =>
      refine ⟨hi.frames, hi.split, ?_, nofun⟩
      have hbytes := hi.bytes
      rw [hpc, hok rfl] at hbytes
      exact hbytes
    | dispatch | rpcSend | sendLog | tick | dialFail => exact hstream.elim

theorem KeptInv.not_ahead (hi : KeptInv s) (hr : s.reader = .loop) (hunread : s.net.unread = []) :
    ∀ f, f ∉ s.net.ahead := by
  intro f hf
  have hbytes := hi.bytes
  rw [hr, hunread] at hbytes
  have hnil : f = [] := flatten_eq_nil_iff.mp hbytes.symm f hf
  have hlen := (hi.frames f hf).1
  rw [hnil] at hlen
  exact absurd hlen (by decide)

theorem KeptInv.init (cap : ℕ → ℕ) : KeptInv (ChannelClient.init cap) :=
  ⟨nofun, rfl, rfl, nofun⟩

/-- In such a run the frames taken are the first ones the node wrote. -/
theorem framesKept (cap : ℕ → ℕ) (hs : Steps.Reach (Step J) FramesKept (ChannelClient.init cap) s) :
    s.net.written = s.net.past ++ s.net.ahead :=
  (hs.invariant (.init cap) fun _ _ _ hi hok h => hi.step hok h : KeptInv s).split

/-- A frame that fits the buffer, and the message in it. -/
structure WholeFrame (f : Bytes) (m : Message) : Prop where
  frame : IsFrame f
  size : f.length ≤ 32 * 1024
  decodes : decodeMessage f = .ok m

theorem WholeFrame.readFrame {f : Bytes} {m : Message} (h : WholeFrame f m) (k : ℕ) :
    readFrame k f = .dispatch k m := by
  rw [Client.readFrame, h.decodes]

theorem WholeFrame.read {f : Bytes} {m : Message} (h : WholeFrame f m) (rest : Bytes)
    (hpc : s.reader = .loop) (hunread : s.net.unread = f ++ rest) :
    Step J s (.read f.length) (s.take (.data f) f rest) := by
  have hlen := h.frame.1
  have hread := ReaderStep.read (J := J) f rest hpc ⟨ne_nil_of_length_pos (by omega), h.size⟩ hunread
  have hannounced : getMessageLength f = f.length := by
    rw [getMessageLength, if_neg (by omega), h.frame.2]
  rcases s.receive_cases (getMessageLength f) [] f rest with ⟨hlt, -⟩ | ⟨-, he⟩
  · rw [nil_append, hannounced] at hlt
    exact absurd hlt (lt_irrefl _)
  · rw [he] at hread
    exact .reader hread

theorem WholeFrame.kept {f : Bytes} {m : Message} (h : WholeFrame f m) (hpc : s.reader = .loop)
    (hf : s.net.ahead.head? = some f) : FramesKept s (.read f.length) := by
  have hlen := h.frame.1
  refine ⟨f, hf, ?_, fun _ => by omega⟩
  rw [hpc]
  exact (Nat.zero_add _).le

end Frames

section Samples
open JsonTree

def someFilterID : Bytes := replicate 32 102

def someSeq : Bytes := replicate 32 97

/-- A message of the node; its frame has no topic section. -/
def nodeMessage (type : UInt16) (data : Bytes) : Message :=
  ⟨UInt32.ofNat (42 + data.length), type, someSeq, 0, 0, [], data⟩

def nodeFrame (type : UInt16) (data : Bytes) : Bytes :=
  beBytes 4 (42 + data.length) ++ beBytes 2 type.toNat ++ someSeq ++ [0, 0, 0, 0] ++ data

def acceptText : Bytes := ascii "\x7b\"result\":0\x7d"

def eventText : Bytes :=
  ascii "\x7b\"filterID\":\"" ++ someFilterID ++ ascii "\",\"logs\":[\x7b\x7d]\x7d"

def plainText : Bytes :=
  ascii "\x7b\"filterID\":\"" ++ someFilterID ++
    ascii "\",\"logs\":[\x7b\"data\":\"0x\",\"blockNumber\":\"0x1\"," ++
    ascii "\"transactionIndex\":\"0x0\",\"logIndex\":\"0x2\"\x7d]\x7d"

def blockText : Bytes := ascii "\x7b\"groupID\":\"1\",\"blockNumber\":\"9\"\x7d"

def numberText : Bytes := ascii "\x7b\"id\":1,\"result\":\"0x1\"\x7d"

/-- The method is not a string. -/
def oddText : Bytes := ascii "\x7b\"id\":1,\"method\":7\x7d"

def refusalBody : Bytes :=
  ascii "\x7b\"jsonrpc\":\"2.0\",\"id\":1,\"error\":\x7b\"code\":-32000," ++
    ascii "\"message\":\"no\"\x7d\x7d"

def emptyEntry : LogEntry :=
  ⟨replicate 20 0, [], [], [], replicate 32 0, [], replicate 32 0, [], false⟩

def plainEntry : LogEntry :=
  { emptyEntry with data := ascii "0x", blockNumber := ascii "0x1", txIndex := ascii "0x0",
                    index := ascii "0x2" }

def numberReply : JsonrpcMessage := ⟨[], [49], [], [], none, ascii "\"0x1\""⟩

/-- The readers, each on the payloads of its own frames. -/
def sampleJson : Json where
  rawID b := if b = numberText ∨ b = oddText ∨ b = refusalBody then [49] else []
  resultInt _ := 0
  message b := if b = numberText then some numberReply else none
  fiscoMsg _ := none
  eventLog b := if b = eventText then some ⟨someFilterID, [emptyEntry]⟩
    else if b = plainText then some ⟨someFilterID, [plainEntry]⟩ else none
  blockNotify b := if b = blockText then some ⟨[49], [57]⟩ else none

end Samples

end Fiscobcos.Client
