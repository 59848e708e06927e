import Fiscobcos.Rlp.Termination

/-! # Decoding into an empty interface

The decoder accepts exactly what the encoder makes of the trees of byte strings and lists. -/

namespace Fiscobcos.Rlp.Reflect

open Fiscobcos.Numerals Fiscobcos.RlpFormat Fiscobcos.Runs

mutual

def treeVal : Item → Val
  | .str bs => .dyn (.slice .byte) (.bytes bs)
  | .list xs => .dyn (.slice .iface) (.seq (treeVals xs))

def treeVals : List Item → List Val
  | [] => []
  | x :: xs => treeVal x :: treeVals xs

end

variable {D : Decls}

mutual

theorem treeVal_inj : ∀ x y : Item, treeVal x = treeVal y → x = y
  | .str as, .str bs, h => by
    injection h with _ h
    injection h with h
    rw [h]
  | .str as, .list ys, h => by
    injection h with h _
    cases h
  | .list xs, .str bs, h => by
    injection h with h _
    cases h
  | .list xs, .list ys, h => by
    injection h with _ h
    injection h with h
    rw [treeVals_inj xs ys h]

theorem treeVals_inj : ∀ xs ys : List Item, treeVals xs = treeVals ys → xs = ys
  | [], [], _ => rfl
  | [], y :: ys, h => by cases h
  | x :: xs, [], h => by cases h
  | x :: xs, y :: ys, h => by
    injection h with h₁ h₂
    rw [treeVal_inj x y h₁, treeVals_inj xs ys h₂]

end

mutual

theorem items_treeVal : ∀ (tags : FieldTags) (x : Item), items D .iface tags (treeVal x) = [x]
  | _, .str bs => rfl
  | _, .list xs => by
    have h : items D .iface noTags (treeVal (.list xs)) =
        [.list (itemsAll D .iface (treeVals xs))] := rfl
    rw [treeVals_items xs] at h
    exact h

theorem treeVals_items : ∀ xs : List Item, itemsAll D .iface (treeVals xs) = xs
  | [] => rfl
  | x :: xs => by
    rw [treeVals, itemsAll, items_treeVal noTags x, treeVals_items xs]
    rfl

end

mutual

theorem treeVal_storable : ∀ (tags : FieldTags) (x : Item), Storable D .iface tags (treeVal x)
  | _, .str _ => .bytesIface
  | _, .list xs => .listIface (treeVals_storable xs)

theorem treeVals_storable : ∀ xs : List Item, ∀ v ∈ treeVals xs, Storable D .iface noTags v
  | [] => List.forall_mem_nil _
  | x :: xs => List.forall_mem_cons.mpr ⟨treeVal_storable noTags x, treeVals_storable xs⟩

end

theorem encoding_treeVal (x : Item) : encoding D .iface noTags (treeVal x) = x.encode := by
  rw [encoding, items_treeVal, encodeAll_singleton]

def ReadsTree (dec : Dec Val) : Prop := ∀ {s s' : Stream} {v : Val}, s.Ready →
  dec s = some (.ok v, s') → ∃ x : Item, v = treeVal x ∧ Stream.Reads s x.encode s'

theorem sliceElems_readTrees {dec : Dec Val} (hdec : ReadsTree dec)
    (heol : ∀ {s t : Stream}, dec s = some (.error (.stream .eol), t) → s.AtEol t) {m i : ℕ}
    {s s' : Stream} {vs : List Val} (hs : s.Ready)
    (h : decodeSliceElems dec m i s = some (.ok vs, s')) :
    ∃ xs : List Item, vs = treeVals xs ∧ Stream.Reads s (encodeAll xs) s' := by
  induction m generalizing i s vs with
  | zero => cases h
  | succ m ih =>
    rcases Run.handle_some.mp h with ⟨e, t, hd, he⟩ | ⟨v, t, hd, hv⟩
    · unfold elemError at he
      split_ifs at he with hend
      · cases he
        subst hend
        exact ⟨[], rfl, (heol hd).reads hs⟩
      · cases he
    · obtain ⟨ws, hws, rfl⟩ := Run.map_ok.mp hv
      obtain ⟨x, rfl, hr⟩ := hdec hs hd
      obtain ⟨xs, rfl, hrs⟩ := ih (hr.ready hs.bounded) hws
      exact ⟨x :: xs, rfl, hr.trans hrs⟩

theorem listSlice_readTrees {dec : Dec Val} (hdec : ReadsTree dec)
    (heol : ∀ {s t : Stream}, dec s = some (.error (.stream .eol), t) → s.AtEol t) {typ : String}
    {m : ℕ} {s s' : Stream} {vs : List Val} (hs : s.Ready)
    (h : decodeListSlice typ dec m s = some (.ok vs, s')) :
    ∃ xs : List Item, vs = treeVals xs ∧ Stream.Reads s (Item.list xs).encode s' := by
  obtain ⟨n, t, hlift, hn⟩ := Run.andThen_ok.mp h
  have hopen := Option.some.inj hlift
  have hready := openList_ready hs hopen
  split_ifs at hn with h0
  · have hnil : Stream.Reads t (encodeAll []) t := .nil t hready
    obtain ⟨rfl, -, hr⟩ := closeList_sound hs hopen hnil (Option.some.inj hn)
    exact ⟨[], rfl, hr⟩
  · obtain ⟨ws, u, hws, hclose⟩ := Run.andThen_ok.mp hn
    obtain ⟨xs, rfl, hbody⟩ := sliceElems_readTrees hdec heol hready hws
    obtain ⟨rfl, -, hr⟩ := closeList_sound hs hopen hbody (Option.some.inj hclose)
    exact ⟨xs, rfl, hr⟩

theorem iface_readsTree (n : ℕ) (tags : FieldTags) : ReadsTree (decode D n .iface tags) := by
  induction n generalizing tags with
  | zero =>
    intro s s' v _ h
    cases h
  | succ n ih =>
    intro s s' v hs h
    obtain ⟨kind, u, hlift, hrest⟩ := Run.andThen_ok.mp h
    obtain ⟨m, hk⟩ := kindAhead_ok.mp (Option.some.inj hlift)
    split_ifs at hrest with hkind
    · obtain ⟨vs, hvs, rfl⟩ := Run.map_ok.mp hrest
      have hpeek := lift_peek (openList_peek (GoType.slice .iface).toString) s
      rw [hk] at hpeek
      obtain ⟨xs, rfl, hr⟩ := listSlice_readTrees (ih noTags) decode_eol_origin hs
        ((Run.handle_congr hpeek).symm.trans hvs)
      exact ⟨.list xs, rfl, hr⟩
    · have hpeek := bytes_peek s
      rw [hk] at hpeek
      rw [Run.lift, hpeek] at hrest
      rcases hb : s.bytes with ⟨e | b, w⟩ <;> rw [hb] at hrest <;> cases hrest
      exact ⟨.str b, rfl, (Stream.bytes_sound hs hb).2⟩

theorem returns_tree {b : Bytes} {v : Val} (h : Returns D .iface b (.ok v)) :
    ∃ x : Item, v = treeVal x ∧ b = x.encode := by
  obtain ⟨n, hn⟩ := h
  obtain ⟨r, hr, hfin⟩ := Option.map_eq_some_iff.mp hn
  obtain ⟨s', rfl, hnil⟩ := decodeBytes_ok_inv hfin
  obtain ⟨x, rfl, hreads⟩ := iface_readsTree n noTags (reset_ready _ _) hr
  have hin : b = x.encode ++ s'.input := hreads.input
  rw [hnil, List.append_nil] at hin
  exact ⟨x, rfl, hin⟩

theorem iface_not_risky : ¬ Risky D .iface := by
  intro h
  cases h

theorem interface_decoding_inverts_encoding (D : Decls) :
    (∀ (b : Bytes) (x : Item), x.encode.length < 2 ^ 63 →
      (Returns D .iface b (.ok (treeVal x)) ↔ encodeToBytes D .iface (treeVal x) = .ok b)) ∧
    ∀ b : Bytes, b.length < 2 ^ 63 → (∃ x : Item, encodeToBytes D .iface (treeVal x) = .ok b ∧
        Returns D .iface b (.ok (treeVal x))) ∨
      ((∀ x : Item, x.encode.length < 2 ^ 63 → encodeToBytes D .iface (treeVal x) ≠ .ok b) ∧
        ∃ e, Returns D .iface b (.error e)) := by
  have hencode : ∀ x : Item, x.encode.length < 2 ^ 63 →
      encodeToBytes D .iface (treeVal x) = .ok x.encode := by
    intro x hx
    have henc := encodes_of_storable (D := D) (treeVal_storable noTags x)
      (by rw [encoding_treeVal]; omega)
    rwa [encoding_treeVal] at henc
  have hreturn : ∀ x : Item, x.encode.length < 2 ^ 63 →
      Returns D .iface x.encode (.ok (treeVal x)) := by
    intro x hx
    have hret := returns_of_storable (D := D) (treeVal_storable noTags x)
      (by rw [encoding_treeVal]; omega)
    rwa [encoding_treeVal] at hret
  refine ⟨fun b x hx => ⟨fun h => ?_, fun h => ?_⟩, fun b hb => ?_⟩
  · obtain ⟨y, hy, rfl⟩ := returns_tree h
    rw [treeVal_inj x y hy] at hx ⊢
    exact hencode y hx
  · rw [hencode x hx] at h
    cases h
    exact hreturn x hx
  · obtain ⟨n, hn⟩ := ends_of_not_risky (D := D) iface_not_risky b
    obtain ⟨r, hr⟩ := Option.isSome_iff_exists.mp hn
    cases r with
    | ok v =>
      obtain ⟨x, rfl, rfl⟩ := returns_tree ⟨n, hr⟩
      exact .inl ⟨x, hencode x hb, n, hr⟩
    | error e =>
      refine .inr ⟨fun x hx henc => ?_, e, n, hr⟩
      rw [hencode x hx] at henc
      cases henc
      have := (hreturn x hx).unique ⟨n, hr⟩
      cases this

end Fiscobcos.Rlp.Reflect
