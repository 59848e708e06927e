import Fiscobcos.Client.Message

/-! # Framing of the read loop (client/channel.go:182-201)

`readResponse` takes one message out of every `conn.Read`, joined with further reads only while
fewer bytes than announced have arrived. It never looks for a second frame in what it has read, and
a first read of fewer than four bytes has no length. -/

namespace Fiscobcos.Client
open Numerals List

/-- Outcome of one `conn.Read` (`client/tls/connection.go:79-82`). -/
inductive ReadResult where
  | data (b : Bytes)
  | err
  deriving DecidableEq

/-- Where `readResponse` waits for the next read: at the head of its loop or in
the loop that completes a frame of `totalLen` bytes. -/
inductive Assembly where
  | idle
  | assembling (totalLen : ℕ) (all : Bytes)
  deriving DecidableEq

/-- A decoding error is printed and the loop continues
(`client/channel.go:198-201`). -/
def dispatched : Except DecodeError Message → List Message
  | .ok m => [m]
  | .error _ => []

/-- One read of `readResponse` (`client/channel.go:168-201`): the new waiting
point and what reaches the type switch. An error at the head of the loop leads
to the reconnect loop and back; one inside a frame decodes what is there. -/
def readStep : Assembly → ReadResult → Assembly × List Message
  | .idle, .data c =>
    if c.length < getMessageLength c then (.assembling (getMessageLength c) c, [])
    else (.idle, dispatched (decodeMessage c))
  | .idle, .err => (.idle, [])
  | .assembling totalLen all, .data c =>
    if (all ++ c).length < totalLen then (.assembling totalLen (all ++ c), [])
    else (.idle, dispatched (decodeMessage (all ++ c)))
  | .assembling _ all, .err => (.idle, dispatched (decodeMessage all))

def readLoop : Assembly → List ReadResult → List Message
  | _, [] => []
  | st, r :: rs => (readStep st r).2 ++ readLoop (readStep st r).1 rs

/-- What one `conn.Read` into the 32 KiB buffer can return without an error. -/
def IsChunk (c : Bytes) : Prop := c ≠ [] ∧ c.length ≤ 32 * 1024

/-- A frame: a whole header whose length field is the length of the frame. -/
def IsFrame (f : Bytes) : Prop := 42 ≤ f.length ∧ beVal (f.take 4) = f.length

def Delivers (fs chunks : List Bytes) : Prop :=
  (readLoop .idle (chunks.map .data)).map .ok = fs.map decodeMessage

/-- No read crosses a frame boundary, and the first read of every frame holds
its length field. -/
inductive FrameAligned : List Bytes → List Bytes → Prop
  | nil : FrameAligned [] []
  | cons (c : Bytes) (cs fs chunks : List Bytes) :
    4 ≤ c.length → FrameAligned fs chunks →
      FrameAligned ((c :: cs).flatten :: fs) (c :: cs ++ chunks)

theorem frame_decodes (f : Bytes) (hf : IsFrame f) : decodeMessage f = .ok (fieldsOf f) := by
  rw [decodeMessage_eq_ok]
  refine ⟨hf.1, ?_, rfl⟩
  simp only [fieldsOf, hf.2]
  exact UInt32.lt_irrefl _

theorem getMessageLength_take (f c : Bytes) (hc : 4 ≤ c.length) (h : c <+: f) :
    getMessageLength c = beVal (f.take 4) := by
  obtain ⟨t, rfl⟩ := h
  have hn : ¬ c.length < 4 := by omega
  rw [getMessageLength, if_neg hn, take_append_of_le_length hc]

theorem readLoop_assembling (totalLen : ℕ) (all : Bytes) (cs rest : List Bytes)
    (hne : ∀ c ∈ cs, c ≠ []) (hcs : cs ≠ []) (hlen : (all ++ cs.flatten).length = totalLen) :
    readLoop (.assembling totalLen all) ((cs ++ rest).map .data) =
      dispatched (decodeMessage (all ++ cs.flatten)) ++ readLoop .idle (rest.map .data) := by
  induction cs generalizing all with
  | nil => exact absurd rfl hcs
  | cons c cs ih =>
    have hjoin : all ++ c ++ cs.flatten = all ++ (c :: cs).flatten := by
      simp only [flatten_cons, append_assoc]
    by_cases htail : cs = []
    · subst htail
      have hdone : ¬ (all ++ c).length < totalLen := by
        simp only [flatten_cons, flatten_nil, append_nil] at hlen
        omega
      simp only [cons_append, nil_append, map_cons, readLoop, readStep, if_neg hdone,
        flatten_cons, flatten_nil, append_nil]
    · have hpos : 0 < cs.flatten.length := by
        obtain ⟨d, ds, rfl⟩ := exists_cons_of_ne_nil htail
        have hd := length_pos_iff.mpr (hne d (by simp))
        simp only [flatten_cons, length_append]
        omega
      have hmore : (all ++ c).length < totalLen := by
        rw [← hjoin] at hlen
        simp only [length_append] at hlen ⊢
        omega
      have hrec := ih (all ++ c) (fun d hd => hne d (mem_cons_of_mem _ hd)) htail
        (by rw [hjoin]; exact hlen)
      simp only [cons_append, map_cons, readLoop, readStep, if_pos hmore, nil_append]
      rw [hrec, hjoin]

theorem readLoop_frame (c : Bytes) (cs rest : List Bytes) (hc : 4 ≤ c.length)
    (hne : ∀ d ∈ cs, d ≠ []) (hf : IsFrame (c :: cs).flatten) :
    readLoop .idle ((c :: cs ++ rest).map .data) =
      fieldsOf (c :: cs).flatten :: readLoop .idle (rest.map .data) := by
  have hdec := frame_decodes _ hf
  have htotal : getMessageLength c = (c :: cs).flatten.length := by
    rw [getMessageLength_take (c :: cs).flatten c hc (by simp), hf.2]
  cases hcs : cs with
  | nil =>
    subst hcs
    simp only [flatten_cons, flatten_nil, append_nil] at htotal hdec ⊢
    have hdone : ¬ c.length < getMessageLength c := by omega
    simp [readLoop, readStep, if_neg hdone, hdec, dispatched]
  | cons d ds =>
    rw [← hcs]
    have hpos : 0 < cs.flatten.length := by
      have hd := length_pos_iff.mpr (hne d (by simp [hcs]))
      rw [hcs]
      simp only [flatten_cons, length_append]
      omega
    have hmore : c.length < getMessageLength c := by
      rw [htotal, flatten_cons, length_append]
      omega
    have hrest := readLoop_assembling (getMessageLength c) c cs rest hne (by simp [hcs]) (by
      rw [htotal, flatten_cons])
    simp only [cons_append, map_cons, readLoop, readStep, if_pos hmore, nil_append]
    rw [hrest]
    simp only [flatten_cons] at hdec ⊢
    rw [hdec]
    rfl

theorem delivers_of_frameAligned (fs chunks : List Bytes) (h : FrameAligned fs chunks)
    (hf : ∀ f ∈ fs, IsFrame f) (hne : ∀ c ∈ chunks, c ≠ []) : Delivers fs chunks := by
  induction h with
  | nil => rfl
  | cons c cs fs chunks hc _ ih =>
    have hframe := hf _ (mem_cons_self ..)
    have hrest : Delivers fs chunks := ih (fun f hm => hf f (mem_cons_of_mem _ hm))
      (fun d hd => hne d (mem_append_right _ hd))
    have hhead := readLoop_frame c cs chunks hc
      (fun d hd => hne d (mem_append_left _ (mem_cons_of_mem _ hd))) hframe
    unfold Delivers at hrest ⊢
    rw [hhead, map_cons, map_cons, hrest, frame_decodes _ hframe]

theorem readLoop_assembling_cases (totalLen : ℕ) (all : Bytes) (cs : List Bytes) :
    readLoop (.assembling totalLen all) (cs.map .data) = [] ∨ ∃ joined rest, cs = joined ++ rest ∧
        readLoop (.assembling totalLen all) (cs.map .data) =
          dispatched (decodeMessage (all ++ joined.flatten)) ++ readLoop .idle (rest.map .data) := by
  induction cs generalizing all with
  | nil => exact Or.inl rfl
  | cons c cs ih =>
    simp only [map_cons, readLoop, readStep]
    by_cases hmore : (all ++ c).length < totalLen
    · simp only [if_pos hmore, nil_append]
      rcases ih (all ++ c) with hnone | ⟨joined, rest, hsplit, hout⟩
      · exact Or.inl hnone
      · refine Or.inr ⟨c :: joined, rest, by rw [hsplit]; rfl, ?_⟩
        rw [hout, flatten_cons, append_assoc]
    · refine Or.inr ⟨[c], cs, rfl, ?_⟩
      simp only [if_neg hmore, flatten_cons, flatten_nil, append_nil]

theorem readLoop_idle_cases (c : Bytes) (cs : List Bytes) :
    readLoop .idle ((c :: cs).map .data) = [] ∨ ∃ joined rest, cs = joined ++ rest ∧
        readLoop .idle ((c :: cs).map .data) =
          dispatched (decodeMessage (c :: joined).flatten) ++ readLoop .idle (rest.map .data) ∧
        (joined = [] ∨ 4 ≤ c.length) := by
  simp only [map_cons, readLoop, readStep]
  by_cases hmore : c.length < getMessageLength c
  · have h4 : 4 ≤ c.length := by
      by_contra hshort
      have hz : getMessageLength c = 0 := by rw [getMessageLength, if_pos (by omega)]
      omega
    simp only [if_pos hmore, nil_append]
    rcases readLoop_assembling_cases (getMessageLength c) c cs with hnone | ⟨joined, rest, hs, ho⟩
    · exact Or.inl hnone
    · exact Or.inr ⟨joined, rest, hs, ho, Or.inr h4⟩
  · refine Or.inr ⟨[], cs, rfl, ?_, Or.inl rfl⟩
    simp only [if_neg hmore, flatten_cons, flatten_nil, append_nil]

theorem frameAligned_of_delivers (n : ℕ) (fs chunks : List Bytes) (hn : chunks.length ≤ n)
    (hne : ∀ c ∈ chunks, c ≠ []) (hd : Delivers fs chunks) :
    fs.flatten.length ≤ chunks.flatten.length ∧
      (fs.flatten.length = chunks.flatten.length → FrameAligned fs chunks) := by
  induction n generalizing fs chunks with
  | zero =>
    have hnil : chunks = [] := length_eq_zero_iff.mp (by omega)
    subst hnil
    have hfs : fs = [] := by simpa [Delivers, readLoop] using hd
    subst hfs
    exact ⟨le_rfl, fun _ => .nil⟩
  | succ n ih =>
    cases chunks with
    | nil =>
      have hfs : fs = [] := by simpa [Delivers, readLoop] using hd
      subst hfs
      exact ⟨le_rfl, fun _ => .nil⟩
    | cons c cs =>
      have hcpos := length_pos_iff.mpr (hne c (mem_cons_self ..))
      unfold Delivers at hd
      rcases readLoop_idle_cases c cs with hnone | ⟨joined, rest, hsplit, hout, hfirst⟩
      · rw [hnone] at hd
        have hfs : fs = [] := by simpa using hd.symm
        subst hfs
        simp only [flatten_nil, flatten_cons, length_append, length_nil]
        exact ⟨Nat.zero_le _, fun he => by omega⟩
      · subst hsplit
        have hrestlen : rest.length ≤ n := by
          simp only [length_cons, length_append] at hn
          omega
        have hrestne : ∀ d ∈ rest, d ≠ [] := fun d hm =>
          hne d (mem_cons_of_mem _ (mem_append_right _ hm))
        have hsum : (c :: (joined ++ rest)).flatten.length =
            (c :: joined).flatten.length + rest.flatten.length := by
          simp only [flatten_cons, flatten_append, length_append]
          omega
        rw [hout] at hd
        cases hdec : decodeMessage (c :: joined).flatten with
        | error e =>
          -- the bytes of a failed attempt reach no message
          rw [hdec] at hd
          have hlost := ih fs rest hrestlen hrestne hd
          rw [hsum, flatten_cons, length_append]
          exact ⟨by omega, fun he => by omega⟩
        | ok m =>
          rw [hdec] at hd
          cases fs with
          | nil => simp [dispatched] at hd
          | cons f fs =>
            simp only [dispatched, singleton_append, map_cons, cons.injEq] at hd
            have hf : f = (c :: joined).flatten :=
              decodeMessage_inj _ _ m hd.1.symm hdec
            have hrec := ih fs rest hrestlen hrestne hd.2
            have h4 : 4 ≤ c.length := by
              rcases hfirst with hj | h4
              · subst hj
                have h42 := ((decodeMessage_eq_ok _ m).mp hdec).1
                simp only [flatten_cons, flatten_nil, append_nil] at h42
                omega
              · exact h4
            rw [hsum, flatten_cons, length_append, hf]
            refine ⟨by omega, fun he => ?_⟩
            exact .cons c joined fs rest h4 (hrec.2 (by omega))

/-- For every stream of frames and every cut of it into reads, the type switch
sees exactly the frames precisely when the cut is aligned with them. -/
theorem delivers_iff_frameAligned (fs chunks : List Bytes) (hf : ∀ f ∈ fs, IsFrame f)
    (hc : ∀ c ∈ chunks, IsChunk c) (hcut : chunks.flatten = fs.flatten) :
    Delivers fs chunks ↔ FrameAligned fs chunks := by
  have hne : ∀ c ∈ chunks, c ≠ [] := fun c hm => (hc c hm).1
  constructor
  · intro hd
    exact (frameAligned_of_delivers chunks.length fs chunks le_rfl hne hd).2 (by rw [hcut])
  · intro ha
    exact delivers_of_frameAligned fs chunks ha hf hne

def emptyBeat : Bytes := (newMessage TypeHeartBeat [] [] (List.replicate 32 97)).encode

/-- Two frames that arrive in one read are merged into one message. -/
theorem coalesced_not_delivered :
    (∀ f ∈ [emptyBeat, emptyBeat], IsFrame f) ∧ (∀ c ∈ [emptyBeat ++ emptyBeat], IsChunk c) ∧
      [emptyBeat ++ emptyBeat].flatten = [emptyBeat, emptyBeat].flatten ∧
      ¬ Delivers [emptyBeat, emptyBeat] [emptyBeat ++ emptyBeat] := by
  refine ⟨?_, ?_, by simp, ?_⟩
  · have hbeat : IsFrame emptyBeat := by unfold IsFrame; decide
    simp [hbeat]
  · have hchunk : IsChunk (emptyBeat ++ emptyBeat) := by unfold IsChunk; decide
    simp [hchunk]
  · intro hd
    have hlen := congrArg length hd
    simp only [length_map] at hlen
    exact absurd hlen (by decide)

theorem delivers_split_beat :
    let fs := [emptyBeat, emptyBeat]
    let chunks := [emptyBeat.take 4, emptyBeat.drop 4, emptyBeat]
    (∀ f ∈ fs, IsFrame f) ∧ (∀ c ∈ chunks, IsChunk c) ∧ chunks.flatten = fs.flatten ∧
      (Delivers fs chunks ↔ FrameAligned fs chunks) := by
  have hf : ∀ f ∈ [emptyBeat, emptyBeat], IsFrame f := by unfold IsFrame; decide
  have hc : ∀ c ∈ [emptyBeat.take 4, emptyBeat.drop 4, emptyBeat], IsChunk c := by
    unfold IsChunk; decide
  have hcut : [emptyBeat.take 4, emptyBeat.drop 4, emptyBeat].flatten =
      [emptyBeat, emptyBeat].flatten := by decide
  exact ⟨hf, hc, hcut, delivers_iff_frameAligned _ _ hf hc hcut⟩

end Fiscobcos.Client
