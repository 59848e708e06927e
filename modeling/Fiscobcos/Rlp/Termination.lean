import Fiscobcos.Rlp.RoundTrip

/-! # Termination of decoding

Every decoder lowers `pending` when it succeeds, except that of `[1]byte` and of pointers to it,
which can leave a zero byte where it is; a slice of those never ends on it. -/

namespace Fiscobcos.Rlp
open List Option Rlp.Stream

open Fiscobcos.Numerals Fiscobcos.RlpFormat Fiscobcos.Runs

theorem uint_cached {s t : Stream} {r : Except StreamError ℕ} {n : ℕ}
    (hk : s.nextKind = ((.byte, n, none), s)) (h : s.uint 64 = (r, t)) : t.pending ≤ s.pending := by
  unfold uint at h
  simp only [hk] at h
  split_ifs at h
  · cases h
    exact le_rfl
  · cases h
    rw [pending_of_none rfl]
    exact Nat.le_add_right _ _

theorem decodeByteArray_pending {typ : String} {n : ℕ} {s t : Stream} {v : ByteArray n}
    (h : decodeByteArray typ n s = (.ok v, t)) :
    t.pending ≤ s.pending ∧ (n ≠ 1 → t.pending < s.pending) := by
  unfold decodeByteArray at h
  split at h
  · cases h
  · rename_i size u hu
    have hpeek := nextKind_nextKind s
    rw [hu] at hpeek
    have hle := nextKind_pending hu
    split_ifs at h with h0 h1
    · cases h
    · cases h
    · obtain rfl : n = 1 := by omega
      refine ⟨?_, fun hn => absurd rfl hn⟩
      -- the error of `Uint` is dropped, so both of its answers lead on
      split at h <;>
      · rename_i hw
        cases h
        exact (uint_cached hpeek hw).trans hle
  · rename_i size u hu
    split_ifs at h
    · cases h
    · cases h
    · have hf := readFull_took u n
      generalize u.readFull n = r at h hf
      cases hf with
      | error other => cases h
      | ok kind input =>
        dsimp only at h
        split_ifs at h
        · cases h
        · cases h
          have hlt := (Past.of_took hu kind input).lt
          exact ⟨hlt.le, fun _ => hlt⟩
  · cases h

def GoType.oneByte : GoType → Bool
  | .array n e => n = 1 ∧ e = .byte
  | .ptr e => e.oneByte
  | _ => false

namespace Reflect

variable {D : Decls} {typ : String} {s t : Stream} {α β : Type} {wrap : StreamError → DecodeError}
  {dec : Dec Val} {m i k n p : ℕ} {fs : List FieldInfo} {tags : FieldTags} {vs : List Val}
  {e : GoType} {w : Bytes}

/-- What a run of a decoder does: one that `ends` may report the end of its list, where it is; one
that is `strict` has moved past a value when it succeeds. -/
inductive Moves {α : Type} (ends strict : Prop) (s : Stream) : Except DecodeError α × Stream → Prop
  | ok {v : α} {t : Stream} (le : t.pending ≤ s.pending) (lt : strict → t.pending < s.pending) :
      Moves ends strict s (.ok v, t)
  | eol {t : Stream} (may : ends) (ahead : s.AtEol t) : Moves ends strict s (.error (.stream .eol), t)
  | error {e : DecodeError} {t : Stream} (other : e ≠ .stream .eol) : Moves ends strict s (.error e, t)

def Moving {α : Type} (ends strict : Prop) (r : Dec α) : Prop :=
  ∀ s x, r s = some x → Moves ends strict s x

section Moves

variable {ends strict strict' : Prop} {r : Dec α} {f : α → β}

theorem Moves.past {v : α} (h : s.Past t) : Moves ends strict s (.ok v, t) :=
  .ok h.lt.le fun _ => h.lt

theorem Moves.reported {e : DecodeError} (may : ends) (h : e = .stream .eol → s.AtEol t) :
    Moves (α := α) ends strict s (.error e, t) := by
  by_cases he : e = .stream .eol
  · exact he ▸ .eol may (h he)
  · exact .error he

theorem Moves.of_peek {k : Kind} {u : Stream} {x : Except DecodeError α × Stream}
    (hk : s.nextKind = ((k, n, none), u)) (h : Moves ends strict u x) : Moves ends strict s x := by
  have hle := nextKind_pending hk
  cases h with
  | ok le lt => exact .ok (le.trans hle) fun hs => lt_of_lt_of_le (lt hs) hle
  | eol may ahead => exact .eol may (.of_peek hk ahead)
  | error other => exact .error other

theorem Moving.mono (h : Moving ends strict r) (hs : strict' → strict) : Moving ends strict' r := by
  intro s x hx
  cases h s x hx with
  | ok le lt => exact .ok le fun h => lt (hs h)
  | eol may ahead => exact .eol may ahead
  | error other => exact .error other

theorem Moving.weaken (h : Moving False False r) (hs : ¬ strict) : Moving ends strict r := by
  intro s x hx
  cases h s x hx with
  | ok le _ => exact .ok le fun h => absurd h hs
  | eol may => exact may.elim
  | error other => exact .error other

theorem lift_moving {op : Decoder α} (h : ∀ s, Moves ends strict s (op s)) :
    Moving ends strict (.lift op) := by
  intro s x hx
  cases hx
  exact h s

theorem andThen_moving {k : α → Dec β} (hr : Moving ends strict r)
    (hk : ∀ a, Moving False False (k a)) : Moving ends strict (.andThen r k) := by
  intro s x hx
  rcases Run.handle_some.mp hx with ⟨e, t, hrs, rfl⟩ | ⟨a, t, hrs, hka⟩
  · cases hr s _ hrs with
    | eol may ahead => exact .eol may ahead
    | error other => exact .error other
  · cases hr s _ hrs with
    | ok le lt =>
      cases hk a t x hka with
      | ok le' _ => exact .ok (le'.trans le) fun hs => lt_of_le_of_lt le' (lt hs)
      | eol may => exact may.elim
      | error other => exact .error other

theorem map_moving (hr : Moving ends strict r) : Moving ends strict (.map f r) :=
  andThen_moving hr fun _ => lift_moving fun _ => .ok le_rfl False.elim

theorem elem_moving {k : α → Dec β} {eol : Except DecodeError β} {context : String}
    (hr : Moving ends strict r) (heol : eol ≠ .error (.stream .eol))
    (hk : ∀ a, Moving False False (k a)) :
    Moving False False (.handle r (elemError eol context) k) := by
  intro s x hx
  rcases Run.handle_some.mp hx with ⟨e, t, hrs, rfl⟩ | ⟨a, t, hrs, hka⟩
  · unfold elemError
    split_ifs with he
    · subst he
      cases hr s _ hrs with
      | eol may ahead =>
        cases eol with
        | ok v => exact .ok ahead.pending.le False.elim
        | error d => exact .error fun hd => heol (congrArg _ hd)
      | error other => exact absurd rfl other
    · exact .error fun hd => he (addErrorContext_eol hd)
  · cases hr s _ hrs with
    | ok le _ =>
      cases hk a t x hka with
      | ok le' _ => exact .ok (le'.trans le) False.elim
      | eol may => exact may.elim
      | error other => exact .error other

theorem wrapped_moving {op : Stream → Except StreamError α × Stream} {f : α → Except DecodeError β}
    (hop : ∀ s, Outcome s (op s)) (hf : ∀ a, f a ≠ .error (.stream .eol)) :
    Moving True strict (.lift (wrapped typ op f)) := by
  refine lift_moving fun s => ?_
  have h := hop s
  unfold wrapped
  generalize op s = x at h
  cases h with
  | @ok a t past =>
    show Moves True strict s (f a, t)
    cases hfa : f a with
    | ok b => exact .past past
    | error d => exact .error fun hd => hf a (hfa.trans (congrArg _ hd))
  | eol ahead => exact .eol trivial ahead
  | error other => exact .error fun hd => other (wrapStreamError_eol hd)

theorem closing_moving {v : α} (hwrap : ∀ e, wrap e = .stream .eol → e = .eol) :
    Moving False False (closing wrap v) := by
  rintro s ⟨_ | a, t⟩ hx
  · exact .error fun hd => closeList_ne_eol hwrap (hd ▸ some.inj hx)
  · exact .ok (listEnd_pending (closeList_ok.mp (some.inj hx)).2) False.elim

theorem inList_moving {body : ℕ → Dec α} (hbody : ∀ n, Moving False False (body n)) :
    Moving True strict (.andThen (.lift (openList typ)) body) :=
  andThen_moving (wrapped_moving list_outcome (by nofun)) hbody

theorem sliceElems_moving (h : Moving ends strict dec) :
    Moving False False (decodeSliceElems dec m i) := by
  induction m generalizing i with
  | zero =>
    intro s x hx
    cases hx
  | succ m ih => exact elem_moving h (by nofun) fun _ => map_moving ih

theorem listSlice_moving (h : Moving ends strict dec) :
    Moving True strict' (decodeListSlice typ dec m) := by
  refine inList_moving fun size => ?_
  split_ifs
  · exact closing_moving stream_eol
  · exact andThen_moving (sliceElems_moving h) fun _ => closing_moving stream_eol

theorem each_moving {few : String} {context : FieldInfo → String}
    {dec : GoType → FieldTags → Dec Val} {strict : GoType → FieldTags → Prop}
    (h : ∀ τ tags, Moving ends (strict τ tags) (dec τ tags)) :
    Moving False False (decodeEach few typ context dec fs) := by
  induction fs with
  | nil => exact lift_moving fun _ => .ok le_rfl False.elim
  | cons f fs ih => exact elem_moving (h f.typ f.tags) (by nofun) fun _ => map_moving ih

theorem fixed_moving {few : String} {context : FieldInfo → String}
    {dec : GoType → FieldTags → Dec Val} {strict : GoType → FieldTags → Prop}
    (h : ∀ τ tags, Moving ends (strict τ tags) (dec τ tags)) :
    Moving True strict' (decodeFixed few typ context dec fs) :=
  inList_moving fun _ => andThen_moving (each_moving h) fun _ =>
    closing_moving fun _ => wrapStreamError_eol

theorem nilPtr_moving {nilKind : Kind} (h : Moving True strict dec) :
    Moving True strict (makeNilPtrDecoder typ nilKind dec) := by
  intro s x hx
  rcases Run.handle_some.mp hx with ⟨e, t, he, rfl⟩ | ⟨empty, t, he, hrest⟩
  · exact .reported trivial fun hd => emptyAhead_eol.mp (hd ▸ some.inj he)
  · obtain ⟨k, n, u, hk, ⟨rfl, -, -, -, rfl⟩ | ⟨rfl, -, rfl⟩⟩ := emptyAhead_ok.mp (some.inj he)
    · cases hrest
      exact .past ⟨rfl, (nextKind_input hk).2⟩
    · exact .of_peek hk (map_moving h _ _ hrest)

theorem interface_moving (h : Moving ends strict dec) :
    Moving True strict' (decodeInterface dec m) := by
  intro s x hx
  rcases Run.handle_some.mp hx with ⟨e, t, he, rfl⟩ | ⟨kind, t, he, hrest⟩
  · refine .reported trivial fun hd => ?_
    have hk : kindAhead s = (.error e, t) := some.inj he
    unfold kindAhead at hk
    split at hk
    · rename_i hkind
      cases hk
      cases hd
      exact ⟨_, _, hkind⟩
    · cases hk
  · obtain ⟨n, hk⟩ := kindAhead_ok.mp (some.inj he)
    refine .of_peek hk ?_
    split_ifs at hrest
    · exact map_moving (listSlice_moving h) _ _ hrest
    · cases hrest
      have hb := bytes_outcome t
      dsimp only
      generalize t.bytes = y at hb
      cases hb with
      | ok past => exact .past past
      | eol ahead => exact .eol trivial ahead
      | error other => exact .error fun hd => other (stream_eol _ hd)

end Moves

theorem decode_moving (D : Decls) (n : ℕ) (typ : GoType) (tags : FieldTags) :
    Moving True (typ.oneByte = false ∧ tags.tail = false) (decode D n typ tags) := by
  have hbytes : ∀ {β : Type} {strict : Prop} {name : String} {f : Bytes → Except DecodeError β},
      (∀ b, f b ≠ .error (.stream .eol)) →
        Moving True strict (.lift (wrapped name (·.bytes) f)) := wrapped_moving bytes_outcome
  have hbig : ∀ {strict : Prop}, Moving True strict (.lift Rlp.decodeBigInt) :=
    hbytes fun b => by split_ifs <;> nofun
  induction n generalizing typ tags with
  | zero =>
    intro s x hx
    cases hx
  | succ n ih =>
    cases typ with
    | uint u => exact wrapped_moving (uint_outcome · _) (by simp)
    | bool => exact wrapped_moving bool_outcome (by simp)
    | bigInt => exact map_moving hbig
    | string => exact map_moving (hbytes (by nofun))
    | slice e =>
      by_cases he : e = .byte
      · subst he
        exact map_moving (hbytes (by nofun))
      · rw [decode_slice he]
        refine map_moving ?_
        split_ifs with ht
        · exact (sliceElems_moving (ih e noTags)).weaken fun hs => by simp [ht] at hs
        · exact listSlice_moving (ih e noTags)
    | array k e =>
      by_cases he : e = .byte
      · subst he
        refine map_moving (lift_moving fun s => ?_)
        rcases hd : Rlp.decodeByteArray (GoType.array k .byte).toString k s with ⟨d | v, t⟩
        · exact .reported trivial fun h => decodeByteArray_eol.mp (h ▸ hd)
        · obtain ⟨hle, hlt⟩ := decodeByteArray_pending hd
          exact .ok hle fun hone => hlt fun hk => by simp [GoType.oneByte, hk] at hone
      · rw [decode_array he]
        exact map_moving (fixed_moving ih)
    | ptr e =>
      by_cases he : e = .bigInt
      · subst he
        exact map_moving hbig
      · have hstrict : (GoType.ptr e).oneByte = false ∧ tags.tail = false →
            e.oneByte = false ∧ noTags.tail = false := fun hs => ⟨hs.1, rfl⟩
        rw [decode_ptr he, makePtrDecoder]
        split_ifs
        · exact (nilPtr_moving (ih e noTags)).mono hstrict
        · exact (map_moving (ih e noTags)).mono hstrict
    | struct name => exact map_moving (fixed_moving ih)
    | iface => exact interface_moving (ih .iface noTags)

theorem decode_eol_origin {typ : GoType}
    (h : decode D n typ tags s = some (.error (.stream .eol), t)) : s.AtEol t := by
  cases decode_moving D n typ tags s _ h with
  | eol may ahead => exact ahead
  | error other => exact absurd rfl other

theorem decode_pending {typ : GoType} {v : Val}
    (h : decode D n typ tags s = some (.ok v, t)) : t.pending ≤ s.pending ∧
      (typ.oneByte = false → tags.tail = false → t.pending < s.pending) := by
  cases decode_moving D n typ tags s _ h with
  | ok le lt => exact ⟨le, fun hone htail => lt ⟨hone, htail⟩⟩

inductive Risky (D : Decls) : GoType → Prop
  | slice {e : GoType} (one : e.oneByte = true) : Risky D (.slice e)
  | elem {e : GoType} (elem : Risky D e) : Risky D (.slice e)
  | array {n : ℕ} {e : GoType} (pos : n ≠ 0) (elem : Risky D e) : Risky D (.array n e)
  | ptr {e : GoType} (elem : Risky D e) : Risky D (.ptr e)
  | field {name : String} {f : FieldInfo} (mem : f ∈ D.fields name) (typ : Risky D f.typ) :
      Risky D (.struct name)

def Answers (D : Decls) (typ : GoType) (tags : FieldTags) (s : Stream) : Prop :=
  ∃ n, (decode D n typ tags s).isSome

theorem map_chain {α β : Type} {f : α → β} {r : ℕ → Dec α} (h : Chain r) :
    Chain fun n => Run.map f (r n) := fun n => Run.map_le (h n)

theorem sliceElems_chain (D : Decls) (e : GoType) (i : ℕ) :
    Chain fun n => decodeSliceElems (decode D n e noTags) n i :=
  fun n => decodeSliceElems_le (decode_chain D e noTags n) (Nat.le_succ n) i

theorem each_chain (D : Decls) (few typ : String) (context : FieldInfo → String)
    (fs : List FieldInfo) : Chain fun n => decodeEach few typ context (decode D n) fs :=
  fun n => decodeEach_le few typ context (fun τ tags => decode_chain D τ tags n) fs

theorem sliceElems_answers (hone : e.oneByte = false)
    (h : ∀ s : Stream, s.pending ≤ p → Answers D e noTags s) (s : Stream) (hp : s.pending ≤ p)
    (i : ℕ) : ∃ n, (decodeSliceElems (decode D n e noTags) n i s).isSome := by
  induction hq : s.pending using Nat.strong_induction_on generalizing s i with
  | _ q ih =>
    obtain ⟨n, hn⟩ : ∃ n, (decodeSliceElems (decode D n e noTags) (n + 1) i s).isSome := by
      refine (decode_chain D e noTags).handle_isSome
        (fun v => map_chain (sliceElems_chain D e (i + 1))) (h s hp) fun n v t hd => ?_
      -- the element has moved the stream on
      have hlt := (decode_pending hd).2 hone rfl
      obtain ⟨m, hm⟩ := ih t.pending (by omega) t (by omega) (i + 1) rfl
      exact ⟨m, by rw [Run.map_isSome]; exact hm⟩
    exact ⟨n + 1, (decodeSliceElems_le (decode_chain D e noTags n) le_rfl i).isSome hn⟩

theorem each_answers (few typ : String) (context : FieldInfo → String)
    (h : ∀ f ∈ fs, ∀ s : Stream, s.pending ≤ p → Answers D f.typ f.tags s) (s : Stream)
    (hp : s.pending ≤ p) : ∃ n, (decodeEach few typ context (decode D n) fs s).isSome := by
  induction fs generalizing s with
  | nil => exact ⟨0, rfl⟩
  | cons f fs ih =>
    refine (decode_chain D f.typ f.tags).handle_isSome
      (fun v => map_chain (each_chain D few typ context fs)) (h f (by simp) s hp) fun n v t hd => ?_
    obtain ⟨m, hm⟩ := ih (fun g hg => h g (by simp [hg])) t ((decode_pending hd).1.trans hp)
    exact ⟨m, by rw [Run.map_isSome]; exact hm⟩

theorem inList_answers {body : ℕ → ℕ → Dec α} (hbody : ∀ size, Chain fun n => body n size)
    (h : ∀ size t, t.pending < s.pending → ∃ n, (body n size t).isSome) :
    ∃ n, (Run.andThen (.lift (openList typ)) (body n) s).isSome := by
  refine Chain.handle_isSome (r := fun _ => .lift (openList typ)) (fun _ => .refl _) hbody ⟨0, rfl⟩
    fun _ size t hopen => h size t ?_
  obtain ⟨m, hlist, -⟩ := wrapped_ok (some.inj hopen)
  exact ((list_outcome s).past hlist).lt

theorem andThen_close_isSome {r : Dec α} (h : (r s).isSome) :
    (Run.andThen r (closing wrap) s).isSome := Run.handle_isSome h fun _ _ _ => rfl

theorem andThen_close_chain {r : ℕ → Dec α} (h : Chain r) :
    Chain fun n => Run.andThen (r n) (closing wrap) :=
  fun n => Run.handle_le (h n) fun _ => .refl _

theorem fixed_answers (few typ : String) (context : FieldInfo → String) (fs : List FieldInfo)
    (h : ∀ f ∈ fs, ∀ t : Stream, t.pending < s.pending → Answers D f.typ f.tags t) :
    ∃ n, (decodeFixed few typ context (decode D n) fs s).isSome := by
  refine inList_answers (fun _ => andThen_close_chain (each_chain D few typ context fs))
    fun _ t ht => ?_
  obtain ⟨n, hn⟩ := each_answers few typ context (p := t.pending)
    (fun f hf u hu => h f hf u (lt_of_le_of_lt hu ht)) t le_rfl
  exact ⟨n, andThen_close_isSome hn⟩

theorem listSlice_answers (typ : String) (hone : e.oneByte = false)
    (h : ∀ t : Stream, t.pending < s.pending → Answers D e noTags t) :
    ∃ n, (decodeListSlice typ (decode D n e noTags) n s).isSome := by
  refine inList_answers (fun size => ?_) fun size t ht => ?_
  · split_ifs
    · exact fun n => .refl _
    · exact andThen_close_chain (sliceElems_chain D e 0)
  · split_ifs
    · exact ⟨0, rfl⟩
    · obtain ⟨n, hn⟩ := sliceElems_answers hone (p := t.pending)
        (fun u hu => h u (lt_of_le_of_lt hu ht)) t le_rfl 0
      exact ⟨n, andThen_close_isSome hn⟩

theorem interface_answers (h : ∀ t : Stream, t.pending < s.pending → Answers D .iface noTags t) :
    Answers D .iface tags s := by
  obtain ⟨n, hn⟩ : ∃ n, (decodeInterface (decode D n .iface noTags) n s).isSome := by
    refine Chain.handle_isSome (r := fun _ => .lift kindAhead) (fun _ => .refl _) (fun kind => ?_)
      ⟨0, rfl⟩ fun _ kind t hk => ?_
    · intro n
      split_ifs
      · exact Run.map_le (decodeListSlice_le _ (decode_chain D .iface noTags n) (Nat.le_succ n))
      · exact .refl _
    · obtain ⟨m, hkind⟩ := kindAhead_ok.mp (some.inj hk)
      have hle := nextKind_pending hkind
      split_ifs
      · obtain ⟨n, hn⟩ := listSlice_answers (s := t) (GoType.slice .iface).toString rfl
          fun u hu => h u (by omega)
        exact ⟨n, Run.map_isSome.trans hn⟩
      · exact ⟨0, rfl⟩
  exact ⟨n + 1, hn⟩

theorem answers_of_not_risky {typ : GoType} (hsafe : ¬ Risky D typ) (tags : FieldTags)
    (s : Stream) (hp : s.pending ≤ p) : Answers D typ tags s := by
  induction p using Nat.strong_induction_on generalizing typ tags s with
  | _ p ihp =>
    have inside : ∀ {τ : GoType}, ¬ Risky D τ → ∀ tags (t : Stream), t.pending < p →
        Answers D τ tags t := fun hτ tags t ht => ihp t.pending ht hτ tags t le_rfl
    clear ihp
    induction typ generalizing tags s with
    | uint u => exact ⟨1, rfl⟩
    | bool => exact ⟨1, rfl⟩
    | bigInt => exact ⟨1, Run.map_isSome⟩
    | string => exact ⟨1, Run.map_isSome⟩
    | slice e ih =>
      have hone : e.oneByte = false := by
        by_contra h
        exact hsafe (.slice (by simpa using h))
      have he : ¬ Risky D e := fun h => hsafe (.elem h)
      by_cases hb : e = .byte
      · subst hb
        exact ⟨1, Run.map_isSome⟩
      · by_cases ht : tags.tail = true
        · obtain ⟨n, hn⟩ := sliceElems_answers hone (fun t htp => ih he noTags t htp) s hp 0
          refine ⟨n + 1, ?_⟩
          rw [decode_slice hb, if_pos ht, Run.map_isSome]
          exact hn
        · obtain ⟨n, hn⟩ := listSlice_answers (s := s) (GoType.slice e).toString hone fun t ht =>
            inside he noTags t (by omega)
          refine ⟨n + 1, ?_⟩
          rw [decode_slice hb, if_neg ht, Run.map_isSome]
          exact hn
    | array k e _ =>
      by_cases hb : e = .byte
      · subst hb
        exact ⟨1, Run.map_isSome⟩
      · obtain ⟨n, hn⟩ := fixed_answers (s := s) "input list has too few elements"
          (GoType.array k e).toString (·.name) (elements e k) fun f hf t ht => by
            have hk : k ≠ 0 := by
              rintro rfl
              cases hf
            rw [(elements_eq hf).1, (elements_eq hf).2]
            exact inside (fun h => hsafe (.array hk h)) noTags t (by omega)
        refine ⟨n + 1, ?_⟩
        rw [decode_array hb, Run.map_isSome]
        exact hn
    | ptr e ih =>
      by_cases hb : e = .bigInt
      · subst hb
        exact ⟨1, Run.map_isSome⟩
      · obtain ⟨n, hn⟩ := ih (fun h => hsafe (.ptr h)) noTags s hp
        refine ⟨n + 1, ?_⟩
        rw [decode_ptr hb, makePtrDecoder]
        split_ifs
        · refine Run.handle_isSome rfl fun empty t he => ?_
          split_ifs with hempty
          · rfl
          · obtain ⟨k, m, u, hk, ⟨rfl, -⟩ | ⟨-, -, rfl⟩⟩ := emptyAhead_ok.mp (some.inj he)
            · exact absurd rfl hempty
            · have hpeek := decode_peek D n e noTags s
              rw [hk] at hpeek
              rw [Run.map_isSome]
              exact hpeek.symm ▸ hn
        · rw [makeSimplePtrDecoder, Run.map_isSome]
          exact hn
    | struct name =>
      obtain ⟨n, hn⟩ := fixed_answers (s := s) "too few elements" (GoType.struct name).toString
        ("." ++ ·.name) (D.fields name) fun f hf t ht =>
          inside (fun h => hsafe (.field hf h)) f.tags t (by omega)
      exact ⟨n + 1, Run.map_isSome.trans hn⟩
    | iface =>
      exact interface_answers fun t ht => inside hsafe noTags t (by omega)

theorem ends_of_not_risky {typ : GoType} (h : ¬ Risky D typ) (b : Bytes) : Ends D typ b := by
  obtain ⟨n, hn⟩ := answers_of_not_risky h noTags (.reset b b.length) le_rfl
  exact ⟨n, by rw [decodeBytes, isSome_map]; exact hn⟩

structure AtZero (s : Stream) : Prop where
  kind : s.kind = some .byte
  kinderr : s.kinderr = none
  byteval : s.byteval = 0

theorem AtZero.nextKind (h : AtZero s) : s.nextKind = ((.byte, s.size, none), s) := by
  rw [nextKind_of_some h.kind, h.kinderr]

theorem oneByte_stays (hone : e.oneByte = true) (hz : AtZero s) (n : ℕ) :
    decode D n e noTags s = none ∨ ∃ v, decode D n e noTags s = some (.ok v, s) := by
  induction n generalizing e with
  | zero => exact .inl rfl
  | succ n ih =>
    cases e with
    | array k e =>
      obtain ⟨rfl, rfl⟩ : k = 1 ∧ e = .byte := by simpa [GoType.oneByte] using hone
      have huint : s.uint 64 = (.error .canonInt, s) := by
        simp only [uint, hz.nextKind, hz.byteval, if_true]
      have hd : Rlp.decodeByteArray (GoType.array 1 .byte).toString 1 s =
          (.ok (fillArray 1 [0]), s) := by
        simp only [Rlp.decodeByteArray, hz.nextKind, huint]
        rfl
      exact .inr ⟨_, Run.map_ok.mpr ⟨_, congrArg some hd, rfl⟩⟩
    | ptr e =>
      have hb : e ≠ .bigInt := by
        rintro rfl
        cases hone
      rw [decode_ptr hb]
      rcases ih (e := e) hone with hnone | ⟨v, hv⟩
      · exact .inl (Run.handle_none hnone)
      · exact .inr ⟨_, Run.map_ok.mpr ⟨v, hv, rfl⟩⟩
    | _ => cases hone

theorem sliceElems_spin (hone : e.oneByte = true) (hz : AtZero s)
    (n m i : ℕ) : decodeSliceElems (decode D n e noTags) m i s = none := by
  induction m generalizing i with
  | zero => rfl
  | succ m ih =>
    rcases oneByte_stays hone hz n with hnone | ⟨v, hv⟩
    · exact Run.handle_none hnone
    · exact (Run.handle_ok hv).trans (Run.handle_none (ih (i + 1)))

theorem sliceElems_spin_zero (hone : e.oneByte = true) (hs : s.Ready)
    (h : s.Has [0]) (n m i : ℕ) : decodeSliceElems (decode D n e noTags) m i s = none := by
  have hk : s.nextKind = ((.byte, 0, none), (s.advance 1).found .byte 0 0) :=
    nextKind_byte hs (by decide) h
  have hz : AtZero s.nextKind.2 := by
    rw [hk]
    exact ⟨rfl, rfl, rfl⟩
  cases m with
  | zero => rfl
  | succ m =>
    have hspin := sliceElems_spin (D := D) hone hz n (m + 1) i
    exact (Run.handle_congr (decode_peek D n e noTags s)).symm.trans hspin

/-- Inputs that a decoder of the type does not get to the end of: somewhere in them a list that is
decoded as a slice of `[1]byte` starts with a zero byte. -/
inductive Spins (D : Decls) : GoType → FieldTags → Bytes → Prop
  | slice {e : GoType} {tags : FieldTags} (one : e.oneByte = true) (list : tags.tail = false) :
      Spins D (.slice e) tags (listHeader 1 ++ [0])
  | tail {e : GoType} {tags : FieldTags} (one : e.oneByte = true) (tail : tags.tail = true) :
      Spins D (.slice e) tags [0]
  | elem {e : GoType} {tags : FieldTags} {w : Bytes} (list : tags.tail = false)
      (elem : Spins D e noTags w) : Spins D (.slice e) tags (listHeader w.length ++ w)
  | tailElem {e : GoType} {tags : FieldTags} {w : Bytes} (tail : tags.tail = true)
      (elem : Spins D e noTags w) : Spins D (.slice e) tags w
  | array {n : ℕ} {e : GoType} {tags : FieldTags} {w : Bytes} (pos : n ≠ 0)
      (elem : Spins D e noTags w) : Spins D (.array n e) tags (listHeader w.length ++ w)
  | ptr {e : GoType} {tags : FieldTags} {w : Bytes} (elem : Spins D e noTags w) :
      Spins D (.ptr e) tags w
  | field {name : String} {tags : FieldTags} {before after : List FieldInfo} {f : FieldInfo}
      {vs : List Val} {w : Bytes} (fields : D.fields name = before ++ f :: after)
      (vals : List.Forall₂ (fun g v => Storable D g.typ g.tags v ∧ ¬ ZeroByte g.typ v) before vs)
      (typ : Spins D f.typ f.tags w) :
      Spins D (.struct name) tags (listHeader (encodeAll (itemsFields D before vs) ++ w).length ++
        (encodeAll (itemsFields D before vs) ++ w))

theorem Spins.ne_nil {typ : GoType} (h : Spins D typ tags w) : w ≠ [] := by
  have hlist : ∀ body : Bytes, listHeader body.length ++ body ≠ [] := fun body hb => by
    have hh := append_eq_nil_iff.mp hb
    unfold listHeader header at hh
    split at hh <;> cases hh.1
  induction h with
  | slice _ _ => exact hlist [0]
  | tail _ _ => nofun
  | elem _ _ _ | array _ _ _ | field _ _ _ _ => exact hlist _
  | tailElem _ _ ih | ptr _ ih => exact ih

theorem Spins.list {typ : GoType} (h : Spins D typ tags w)
    (ht : tags.tail = false) : ∃ body : Bytes, body ≠ [] ∧ w = listHeader body.length ++ body := by
  induction h with
  | slice _ _ => exact ⟨[0], by nofun, rfl⟩
  | tail _ tail | tailElem tail _ _ => simp [tail] at ht
  | elem _ elem _ | array _ elem _ => exact ⟨_, elem.ne_nil, rfl⟩
  | ptr _ ih => exact ih rfl
  | field _ _ typ _ => exact ⟨_, fun h => typ.ne_nil (append_eq_nil_iff.mp h).2, rfl⟩

theorem inList_none {body : ℕ → Dec α} (hs : s.Ready)
    (hlen : w.length < 2 ^ 64) (h : s.Has (listHeader w.length ++ w))
    (hbody : ∀ t : Stream, t.Ready → t.Has w → body w.length t = none) :
    Run.andThen (.lift (openList typ)) body s = none := by
  obtain ⟨t, hopen, hready, hhas, -, -⟩ := openList_complete hs hlen h typ
  exact (Run.handle_ok (congrArg some hopen)).trans (hbody t hready hhas)

theorem each_spin (few typ : String) (context : FieldInfo → String) {before : List FieldInfo}
    (after : List FieldInfo) {f : FieldInfo}
    (h : Forall₂ (fun g v => Accepts D g.typ g.tags v ∧ ¬ ZeroByte g.typ v) before vs)
    (htail : ∀ g ∈ before, g.tags.tail = false)
    (hf : ∀ s : Stream, s.Ready → s.Has w → ∀ n, decode D n f.typ f.tags s = none) :
    ∃ N, ∀ n, N ≤ n → ∀ s : Stream, s.Ready → s.Has (encodeAll (itemsFields D before vs) ++ w) →
      decodeEach few typ context (decode D n) (before ++ f :: after) s = none := by
  induction h with
  | nil =>
    refine ⟨0, fun n _ s hs hhas => Run.handle_none (hf s hs ?_ n)⟩
    simpa [itemsFields, encodeAll] using hhas
  | @cons g v before vs hv _ ih =>
    obtain ⟨⟨N₁, h₁⟩, hz⟩ := hv
    obtain ⟨N₂, h₂⟩ := ih fun k hk => htail k (by simp [hk])
    refine ⟨max N₁ N₂, fun n hn s hs hhas => ?_⟩
    rw [itemsFields, encodeAll_append, append_assoc] at hhas
    have hnt := htail g (by simp)
    obtain ⟨t, hd, hr, hk⟩ := h₁ s hs ((Has.append_iff s _ _).mp hhas).1 fun ht => by
      simp [hnt] at ht
    rw [rearm_of_kind (hk hz)] at hr
    have hd' := decode_le D (show N₁ ≤ n by omega) g.typ g.tags s _ hd
    have hrest := h₂ n (by omega) t (hr.ready hs.bounded) (hr.has_rest hhas)
    exact (Run.handle_ok hd').trans (Run.handle_none hrest)

theorem oneByte_ne_byte (h : e.oneByte = true) : e ≠ .byte := by
  rintro rfl
  cases h

theorem Spins.ne_byte (h : Spins D e tags w) : e ≠ .byte := by
  rintro rfl
  cases h

theorem Spins.ne_bigInt (h : Spins D e tags w) : e ≠ .bigInt := by
  rintro rfl
  cases h

theorem spins_fields_accept {name : String} {before after : List FieldInfo} {f : FieldInfo}
    (fields : D.fields name = before ++ f :: after)
    (vals : Forall₂ (fun g v => Storable D g.typ g.tags v ∧ ¬ ZeroByte g.typ v) before vs)
    (hlen : (encodeAll (itemsFields D before vs)).length < 2 ^ 64) :
    Forall₂ (fun g v => Accepts D g.typ g.tags v ∧ ¬ ZeroByte g.typ v) before vs :=
  fields_forall vals hlen fun g hg v _ hv hl =>
    ⟨accepts_of_storable hv.1 (D.fields_fit (by rw [fields]; simp [hg])) hl, hv.2⟩

theorem spins_decode {typ : GoType} (h : Spins D typ tags w)
    (hlen : w.length < 2 ^ 64) (s : Stream) (hs : s.Ready) (hhas : s.Has w) (n : ℕ) :
    decode D n typ tags s = none := by
  induction h generalizing s n with
  | @slice e tags one list =>
    cases n with
    | zero => rfl
    | succ n =>
      rw [decode_slice (oneByte_ne_byte one), list]
      refine Run.handle_none (inList_none (w := [0]) hs (by norm_num) hhas fun t ht hz => ?_)
      exact Run.handle_none (sliceElems_spin_zero one ht hz n n 0)
  | @tail e tags one tail =>
    cases n with
    | zero => rfl
    | succ n =>
      rw [decode_slice (oneByte_ne_byte one), if_pos tail]
      exact Run.handle_none (sliceElems_spin_zero one hs hhas n n 0)
  | @elem e tags w list elem ih =>
    rw [length_append] at hlen
    cases n with
    | zero => rfl
    | succ n =>
      rw [decode_slice elem.ne_byte, list]
      refine Run.handle_none (inList_none hs (by omega) hhas fun t ht hw => ?_)
      rw [if_neg (by simpa using elem.ne_nil)]
      cases n with
      | zero => rfl
      | succ n => exact Run.handle_none (Run.handle_none (ih (by omega) t ht hw (n + 1)))
  | @tailElem e tags w tail elem ih =>
    cases n with
    | zero => rfl
    | succ n =>
      rw [decode_slice elem.ne_byte, if_pos tail]
      cases n with
      | zero => rfl
      | succ n => exact Run.handle_none (Run.handle_none (ih hlen s hs hhas (n + 1)))
  | @array k e tags w pos elem ih =>
    rw [length_append] at hlen
    cases n with
    | zero => rfl
    | succ n =>
      rw [decode_array elem.ne_byte]
      refine Run.handle_none (inList_none hs (by omega) hhas fun t ht hw => ?_)
      obtain ⟨k, rfl⟩ : ∃ j, k = j + 1 := ⟨k - 1, by omega⟩
      rw [elements, range_succ_eq_map]
      exact Run.handle_none (Run.handle_none (ih (by omega) t ht hw n))
  | @ptr e tags w elem ih =>
    cases n with
    | zero => rfl
    | succ n =>
      have hnone := ih hlen s hs hhas n
      rw [decode_ptr elem.ne_bigInt, makePtrDecoder]
      split_ifs
      · -- what lies ahead is a list with contents, so the element decoder runs
        obtain ⟨body, hne, rfl⟩ := elem.list rfl
        rw [length_append] at hlen
        have hk := nextKind_list hs (by omega) hhas
        have hpeek := decode_peek D n e noTags s
        rw [hk] at hpeek
        have he : emptyAhead (GoType.ptr e).toString tags.nilKind s = _ := emptyAhead_ok.mpr
          ⟨_, _, _, hk, .inr ⟨rfl, by simpa using hne, rfl⟩⟩
        refine (Run.handle_ok (congrArg some he)).trans ?_
        exact Run.handle_none (hpeek.trans hnone)
      · exact Run.handle_none hnone
  | @field name tags before after f vs w fields vals spin ih =>
    simp only [length_append] at hlen
    have htail : ∀ g ∈ before, g.tags.tail = false := fun g hg => by
      have hpw := D.fields_tail name
      rw [fields, pairwise_append] at hpw
      exact hpw.2.2 g hg f (by simp)
    obtain ⟨N, hN⟩ := each_spin "too few elements" (GoType.struct name).toString ("." ++ ·.name)
      after (spins_fields_accept fields vals (by omega)) htail (ih (by omega))
    refine (decode_chain D (.struct name) tags).none_of_large (N := N + 1) (fun n hn => ?_) n
    obtain ⟨n, rfl⟩ : ∃ j, n = j + 1 := ⟨n - 1, by omega⟩
    refine Run.handle_none (inList_none hs (by simp only [length_append]; omega) hhas
      fun t ht hw => Run.handle_none ?_)
    rw [fields]
    exact hN n (by omega) t ht hw

theorem spins_never_ends {typ : GoType} {b : Bytes} (h : Spins D typ noTags b)
    (hlen : b.length < 2 ^ 64) : ¬ Ends D typ b := by
  rintro ⟨n, hn⟩
  rw [decodeBytes, spins_decode h hlen _ (reset_ready _ _) (reset_has b) n] at hn
  cases hn

theorem risky_of_spins {typ : GoType} {b : Bytes} (h : Spins D typ tags b) : Risky D typ := by
  induction h with
  | slice one _ | tail one _ => exact .slice one
  | elem _ _ ih | tailElem _ _ ih => exact .elem ih
  | array pos _ ih => exact .array pos ih
  | ptr _ ih => exact .ptr ih
  | field fields _ _ ih => exact .field (by rw [fields]; simp) ih

def Filled (D : Decls) : Prop :=
  ∀ name, ∀ f ∈ D.fields name, ∃ v, Storable D f.typ f.tags v ∧ ¬ ZeroByte f.typ v

theorem spins_of_risky (hfill : Filled D) {typ : GoType} (h : Risky D typ) (tags : FieldTags) :
    ∃ b, Spins D typ tags b := by
  induction h generalizing tags with
  | slice one =>
    cases ht : tags.tail with
    | false => exact ⟨_, .slice one ht⟩
    | true => exact ⟨_, .tail one ht⟩
  | elem _ ih =>
    obtain ⟨w, hw⟩ := ih noTags
    cases ht : tags.tail with
    | false => exact ⟨_, .elem ht hw⟩
    | true => exact ⟨_, .tailElem ht hw⟩
  | array pos _ ih =>
    obtain ⟨w, hw⟩ := ih noTags
    exact ⟨_, .array pos hw⟩
  | ptr _ ih =>
    obtain ⟨w, hw⟩ := ih noTags
    exact ⟨_, .ptr hw⟩
  | @field name f mem _ ih =>
    obtain ⟨w, hw⟩ := ih f.tags
    obtain ⟨before, after, hfields⟩ := append_of_mem mem
    have hvals : ∀ fs : List FieldInfo, (∀ g ∈ fs, g ∈ D.fields name) → ∃ vs,
        Forall₂ (fun g v => Storable D g.typ g.tags v ∧ ¬ ZeroByte g.typ v) fs vs := by
      intro fs hfs
      induction fs with
      | nil => exact ⟨[], .nil⟩
      | cons g fs ihf =>
        obtain ⟨v, hv⟩ := hfill name g (hfs g (by simp))
        obtain ⟨vs, hvs⟩ := ihf fun k hk => hfs k (by simp [hk])
        exact ⟨v :: vs, .cons hv hvs⟩
    obtain ⟨vs, hvs⟩ := hvals before fun g hg => by rw [hfields]; simp [hg]
    exact ⟨_, .field hfields hvs hw⟩

theorem not_risky_of_oneByte (hone : e.oneByte = true) : ¬ Risky D e := by
  induction e with
  | array k e _ =>
    obtain ⟨rfl, rfl⟩ : k = 1 ∧ e = .byte := by simpa [GoType.oneByte] using hone
    intro h
    cases h with
    | array _ elem => cases elem
  | ptr e ih =>
    intro h
    cases h with
    | ptr elem => exact ih hone elem
  | _ => cases hone

theorem elem_moves_iff (e : GoType) : e.oneByte = false ↔ ∀ (n : ℕ) (s t : Stream) (v : Val),
    decode D n e noTags s = some (.ok v, t) → t.pending < s.pending := by
  constructor
  · intro hone n s t v h
    exact (decode_pending h).2 hone rfl
  · intro h
    by_contra hne
    have hone : e.oneByte = true := by simpa using hne
    have hz : AtZero { reset [] 0 with kind := some .byte } := ⟨rfl, rfl, rfl⟩
    obtain ⟨n, hn⟩ := answers_of_not_risky (D := D) (not_risky_of_oneByte hone) noTags _ le_rfl
    rcases oneByte_stays hone hz n with hnone | ⟨v, hv⟩
    · rw [hnone] at hn
      cases hn
    · exact lt_irrefl _ (h n _ _ v hv)

theorem decoding_ends_iff_no_oneByte_slice (D : Decls) (typ : GoType) :
    (¬ Risky D typ → ∀ b, Ends D typ b) ∧
    (∀ b, Spins D typ noTags b → b.length < 2 ^ 64 → ¬ Ends D typ b) ∧
    (Filled D → (Risky D typ ↔ ∃ b, Spins D typ noTags b)) ∧
    ∀ e : GoType, e.oneByte = false ↔ ∀ (n : ℕ) (s t : Stream) (v : Val),
      decode D n e noTags s = some (.ok v, t) → t.pending < s.pending := by
  refine ⟨ends_of_not_risky, fun b h hlen => spins_never_ends h hlen, fun hfill => ?_,
    elem_moves_iff⟩
  exact ⟨fun h => spins_of_risky hfill h noTags, fun ⟨b, h⟩ => risky_of_spins h⟩

theorem string_slice_ends : ¬ Risky noDecls (.slice .string) ∧
    Ends noDecls (.slice .string) [0xC1, 0x00] := by
  have hsafe : ¬ Risky noDecls (.slice .string) := by
    intro h
    cases h with
    | slice one => cases one
    | elem elem => cases elem
  exact ⟨hsafe, (decoding_ends_iff_no_oneByte_slice noDecls (.slice .string)).1 hsafe _⟩

theorem oneByte_slice_never_ends : ¬ Ends noDecls (.slice (.array 1 .byte)) [0xC1, 0x00] :=
  spins_never_ends (.slice rfl rfl) (by decide)

end Reflect

end Fiscobcos.Rlp
