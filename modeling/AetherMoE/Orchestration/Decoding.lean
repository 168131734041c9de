import AetherMoE.Orchestration.Serialization

/-!
# The messages that decode

Whatever counts a message claims, `decode_token_batch` and `decode_result_batch` accept it exactly
if it begins with the encoding of a batch.

* `word_run`, `recognizes_getU32`, `recognizes_getFloats`: the fields;
* `recognizes_getToken`, `recognizes_getResult`, `recognizes_batch`: records and batches of them;
* `refusal`, `refusal_of_cut`: what is thrown at a message that is not accepted;
* **`decoding_selfDelimiting`**: both decoders;
* `overlong`: a batch whose count does not fit in 32 bits has no encoding of its own.
-/

namespace AetherMoE

open ByteCodec

/-! ## Fields -/

/-- A word is read from the bytes there are, or the message is truncated. -/
theorem word_run (k : ℕ) {α : Type} (f : ℕ → α) (bs : Bytes) :
    (do need k; return f (ofLE (← takeBytes k)) : Reader Exn α).run bs =
      if k ≤ bs.length then .ok (f (ofLE (bs.take k)), bs.drop k) else .error .truncated := by
  split
  · next h =>
    rw [run_bind_ok (need_run k bs h), run_bind_ok (takeBytes_run k bs h)]
    rfl
  · next h =>
    rw [StateT.run_bind]
    simp only [need, StateT.run_bind, StateT.run_get, pure_bind, if_pos (Nat.not_le.1 h)]
    rfl

theorem raisesOnly_need (n : ℕ) : RaisesOnly (fun _ => Exn.truncated) (need n) := by
  intro bs e herr
  rcases Nat.lt_or_ge bs.length n with h | h
  · simp only [need, StateT.run_bind, StateT.run_get, pure_bind, if_pos h] at herr
    exact (Except.error.inj herr).symm
  · rw [need_run n bs h] at herr
    cases herr

theorem raisesOnly_word (k : ℕ) {α : Type} (f : ℕ → α) :
    RaisesOnly (fun _ => Exn.truncated)
      (do need k; return f (ofLE (← takeBytes k)) : Reader Exn α) := by
  intro bs e herr
  rw [word_run] at herr
  split at herr
  · cases herr
  · exact (Except.error.inj herr).symm

/-- What a word is read from. -/
theorem eq_append_of_word {k : ℕ} {α : Type} {f : ℕ → α} {bs rest : Bytes} {a : α}
    (h : (do need k; return f (ofLE (← takeBytes k)) : Reader Exn α).run bs = .ok (a, rest)) :
    ∃ n < 256 ^ k, a = f n ∧ bs = leBytes k n ++ rest := by
  rw [word_run] at h
  split at h
  · next hk =>
    obtain ⟨rfl, rfl⟩ := Prod.mk.inj (Except.ok.inj h)
    have hlen : (bs.take k).length = k := List.length_take_of_le hk
    refine ⟨ofLE (bs.take k), ?_, rfl, ?_⟩
    · have hlt := ofLE_lt (bs.take k)
      rwa [hlen] at hlt
    · have hword := leBytes_ofLE (bs.take k)
      rw [hlen] at hword
      rw [hword, List.take_append_drop]
  · cases h

theorem recognizes_getU32 :
    Recognizes (fun _ => .truncated) (fun v : UInt32 => leBytes 4 v.toNat) (fun _ => True) id
      getU32 where
  reads v _ := getU32_run v
  raises := raisesOnly_word 4 UInt32.ofNat
  only bs v rest h := by
    obtain ⟨n, hn, rfl, rfl⟩ := eq_append_of_word h
    have hn' : n < 2 ^ 32 := hn
    beta_reduce
    rw [UInt32.toNat_ofNat', Nat.mod_eq_of_lt hn']
    exact ⟨trivial, rfl⟩

theorem recognizes_getU64 :
    Recognizes (fun _ => .truncated) (fun v : UInt64 => leBytes 8 v.toNat) (fun _ => True) id
      getU64 where
  reads v _ := getU64_run v
  raises := raisesOnly_word 8 UInt64.ofNat
  only bs v rest h := by
    obtain ⟨n, hn, rfl, rfl⟩ := eq_append_of_word h
    have hn' : n < 2 ^ 64 := hn
    beta_reduce
    rw [UInt64.toNat_ofNat', Nat.mod_eq_of_lt hn']
    exact ⟨trivial, rfl⟩

/-- What a number is read from. -/
theorem eq_append_of_getU32 {bs rest : Bytes} {v : UInt32} (h : getU32.run bs = .ok (v, rest)) :
    bs = leBytes 4 v.toNat ++ rest :=
  (recognizes_getU32.only bs v rest h).2

theorem eq_append_of_getU64 {bs rest : Bytes} {v : UInt64} (h : getU64.run bs = .ok (v, rest)) :
    bs = leBytes 8 v.toNat ++ rest :=
  (recognizes_getU64.only bs v rest h).2

theorem putFloats_eq (v : List UInt32) : putFloats [] v =
    leBytes 4 (UInt32.ofNat v.length).toNat ++ v.flatMap fun x => leBytes 4 x.toNat := by
  rw [putFloats, foldl_put fun _ _ => rfl, putU32, List.nil_append]
  rfl

theorem recognizes_getFloats :
    Recognizes (fun _ => .truncated) (putFloats []) (fun v => v.length < 2 ^ 32) id getFloats where
  reads v h := getFloats_run v h
  raises := recognizes_getU32.raises.bind fun n =>
    (raisesOnly_need _).bind fun _ => recognizes_getU32.raises.readMany n.toNat
  only bs v rest h := by
    obtain ⟨n, mid, hn, hrun⟩ := run_bind_eq_ok.1 h
    obtain ⟨u, mid', hneed, hfloats⟩ := run_bind_eq_ok.1 hrun
    obtain rfl : mid' = mid := by
      rcases Nat.lt_or_ge mid.length (n.toNat * 4) with hlt | hge
      · simp only [need, StateT.run_bind, StateT.run_get, pure_bind, if_pos hlt] at hneed
        cases hneed
      · rw [need_run _ _ hge] at hneed
        exact (congrArg Prod.snd (Except.ok.inj hneed)).symm
    obtain ⟨⟨hlen, -⟩, hmany⟩ := recognizes_getU32.only.readMany n.toNat mid' v rest hfloats
    refine ⟨hlen.trans_lt n.toNat_lt, ?_⟩
    rw [eq_append_of_getU32 hn, hmany, putFloats_eq, hlen, UInt32.ofNat_toNat, List.append_assoc]

/-! ## Records -/

theorem recognizes_getToken :
    Recognizes (fun _ => .truncated) (putToken []) (fun t => t.payload.length < 2 ^ 32) id
      getToken where
  reads t h := getToken_run t h
  raises := recognizes_getU64.raises.bind fun _ => recognizes_getU32.raises.bind fun _ =>
    recognizes_getU32.raises.bind fun _ => recognizes_getU32.raises.bind fun _ =>
      recognizes_getFloats.raises.bind fun _ => raisesOnly_pure _ _
  only bs t rest h := by
    obtain ⟨tokenId, bs₁, hid, h⟩ := run_bind_eq_ok.1 h
    obtain ⟨batchPosition, bs₂, hpos, h⟩ := run_bind_eq_ok.1 h
    obtain ⟨primaryExpert, bs₃, hprimary, h⟩ := run_bind_eq_ok.1 h
    obtain ⟨secondaryExpert, bs₄, hsecondary, h⟩ := run_bind_eq_ok.1 h
    obtain ⟨payload, bs₅, hpayload, ⟨⟩⟩ := run_bind_eq_ok.1 h
    obtain ⟨hfits, hfloats⟩ := recognizes_getFloats.only _ _ _ hpayload
    refine ⟨hfits, ?_⟩
    rw [eq_append_of_getU64 hid, eq_append_of_getU32 hpos, eq_append_of_getU32 hprimary,
      eq_append_of_getU32 hsecondary, hfloats]
    simp only [putToken, putU64, putU32, List.nil_append]
    rw [putFloats_append (_ ++ _)]
    simp only [List.append_assoc]

theorem recognizes_getResult :
    Recognizes (fun _ => .truncated) (putResult []) (fun r => r.payload.length < 2 ^ 32)
      RoutedResult.onWire getResult where
  reads r h := getResult_run r h
  raises := recognizes_getU64.raises.bind fun _ => recognizes_getU32.raises.bind fun _ =>
    recognizes_getU32.raises.bind fun _ =>
      recognizes_getFloats.raises.bind fun _ => raisesOnly_pure _ _
  only bs r rest h := by
    obtain ⟨tokenId, bs₁, hid, h⟩ := run_bind_eq_ok.1 h
    obtain ⟨batchPosition, bs₂, hpos, h⟩ := run_bind_eq_ok.1 h
    obtain ⟨processedByShard, bs₃, hshard, h⟩ := run_bind_eq_ok.1 h
    obtain ⟨payload, bs₄, hpayload, ⟨⟩⟩ := run_bind_eq_ok.1 h
    obtain ⟨hfits, hfloats⟩ := recognizes_getFloats.only _ _ _ hpayload
    refine ⟨hfits, ?_⟩
    rw [eq_append_of_getU64 hid, eq_append_of_getU32 hpos, eq_append_of_getU32 hshard, hfloats]
    simp only [putResult, putU64, putU32, List.nil_append]
    rw [putFloats_append (_ ++ _)]
    simp only [List.append_assoc]

/-! ## Batches -/

/-- What is thrown at a message that is not accepted: `std::bad_alloc` if the count it begins with
is more than the host can reserve and the bytes after it can hold. -/
def refusal (reservable size : ℕ) (bs : Bytes) : Exn :=
  if 4 ≤ bs.length ∧ reservable < ofLE (bs.take 4) ∧ bs.length - 4 < ofLE (bs.take 4) * size then
    .badAlloc
  else .truncated

/-- A reservation is granted, or the host has not got the memory. -/
theorem run_reserve (reservable size : ℕ) (count : UInt32) (bs : Bytes) :
    (reserve reservable size count).run bs =
      if reservable < count.toNat ∧ bs.length < count.toNat * size then .error .badAlloc
      else .ok ((), bs) := by
  split
  · next h =>
    simp only [reserve, StateT.run_bind, StateT.run_get, pure_bind, if_pos h]
    rfl
  · next h => exact reserve_run (by omega)

theorem toNat_ofLE_take {bs : Bytes} (h : 4 ≤ bs.length) :
    (UInt32.ofNat (ofLE (bs.take 4))).toNat = ofLE (bs.take 4) := by
  have hlt : ofLE (bs.take 4) < 2 ^ 32 := by
    have hlt' := ofLE_lt (bs.take 4)
    rwa [List.length_take_of_le h] at hlt'
  rw [UInt32.toNat_ofNat', Nat.mod_eq_of_lt hlt]

/-- What a counted batch of records raises. -/
theorem raisesOnly_batch {α : Type} {get : Reader Exn α}
    (h : RaisesOnly (fun _ => Exn.truncated) get) (reservable size : ℕ) :
    RaisesOnly (refusal reservable size) (do
      let count ← getU32
      reserve reservable size count
      readMany get count.toNat) := by
  intro bs e herr
  rw [StateT.run_bind, getU32, word_run] at herr
  by_cases hlen : 4 ≤ bs.length
  · rw [if_pos hlen] at herr
    change (reserve _ _ _ >>= fun _ => readMany get _).run (bs.drop 4) = .error e at herr
    rw [StateT.run_bind, run_reserve, toNat_ofLE_take hlen, List.length_drop] at herr
    rw [refusal]
    by_cases hno : reservable < ofLE (bs.take 4) ∧ bs.length - 4 < ofLE (bs.take 4) * size
    · rw [if_pos hno] at herr
      rw [if_pos ⟨hlen, hno⟩]
      exact (Except.error.inj herr).symm
    · rw [if_neg hno] at herr
      rw [if_neg fun hc => hno hc.2]
      exact h.readMany _ _ e herr
  · rw [if_neg hlen] at herr
    rw [refusal, if_neg fun hc => hlen hc.1]
    exact (Except.error.inj herr).symm

/-- **A counted batch of records.** -/
theorem recognizes_batch {α : Type} {put : Bytes → α → Bytes} {fits : α → Prop} {wire : α → α}
    {get : Reader Exn α} (hput : ∀ buf a, put buf a = buf ++ put [] a) {size : ℕ}
    (hsize : ∀ a, size ≤ (put [] a).length)
    (h : Recognizes (fun _ => .truncated) (put []) fits wire get) (reservable : ℕ) :
    Recognizes (refusal reservable size)
      (fun as => as.foldl put (putU32 [] (UInt32.ofNat as.length)))
      (fun as => as.length < 2 ^ 32 ∧ ∀ a ∈ as, fits a) (List.map wire)
      (do
        let count ← getU32
        reserve reservable size count
        readMany get count.toNat) where
  reads as hfits :=
    readBatch_run hput hsize reservable as hfits.1 fun a ha => h.reads a (hfits.2 a ha)
  raises := raisesOnly_batch h.raises reservable size
  only bs as rest hrun := by
    obtain ⟨count, mid, hcount, hrun⟩ := run_bind_eq_ok.1 hrun
    obtain ⟨_, mid', hreserve, hrecords⟩ := run_bind_eq_ok.1 hrun
    obtain rfl : mid' = mid := by
      rw [run_reserve] at hreserve
      split at hreserve
      · cases hreserve
      · exact (congrArg Prod.snd (Except.ok.inj hreserve)).symm
    obtain ⟨⟨hlen, hall⟩, hmany⟩ := h.only.readMany count.toNat mid' as rest hrecords
    refine ⟨⟨hlen.trans_lt count.toNat_lt, hall⟩, ?_⟩
    beta_reduce at hmany ⊢
    rw [eq_append_of_getU32 hcount, hmany, foldl_put hput, putU32, List.nil_append, hlen,
      UInt32.ofNat_toNat, List.append_assoc]

theorem selfDelimiting_tokenBatch (reservable : ℕ) :
    SelfDelimiting (refusal reservable tokenBytes) encodeTokenBatch
      (fun ts => ts.length < 2 ^ 32 ∧ ∀ t ∈ ts, t.payload.length < 2 ^ 32) id
      (decodeTokenBatch reservable) := by
  have h :=
    (recognizes_batch putToken_append tokenBytes_le recognizes_getToken reservable).selfDelimiting
  rw [List.map_id_fun] at h
  exact h

theorem selfDelimiting_resultBatch (reservable : ℕ) :
    SelfDelimiting (refusal reservable resultBytes) encodeResultBatch
      (fun rs => rs.length < 2 ^ 32 ∧ ∀ r ∈ rs, r.payload.length < 2 ^ 32)
      (List.map RoutedResult.onWire) (decodeResultBatch reservable) :=
  (recognizes_batch putResult_append resultBytes_le recognizes_getResult reservable).selfDelimiting

/-- **Cut anywhere, an encoding of no more records than the host can reserve** is refused as
truncated. -/
theorem refusal_of_cut {α : Type} {put : Bytes → α → Bytes}
    (hput : ∀ buf a, put buf a = buf ++ put [] a) {reservable : ℕ} (size : ℕ) {as : List α}
    (hn : as.length < 2 ^ 32) (hle : as.length ≤ reservable) {pre : Bytes}
    (hpre : pre <+: as.foldl put (putU32 [] (UInt32.ofNat as.length))) :
    refusal reservable size pre = .truncated := by
  refine if_neg fun hc => ?_
  obtain ⟨rest, hrest⟩ := hpre
  have htake : pre.take 4 = leBytes 4 as.length := by
    have htake' := congrArg (List.take 4) hrest
    rwa [List.take_append_of_le_length hc.1, foldl_put hput, putU32, List.nil_append,
      toNat_ofNat_length as hn, List.take_left' (length_leBytes 4 _)] at htake'
  have hcount := hc.2.1
  rw [htake, ofLE_leBytes (k := 4) hn] at hcount
  omega

/-- **Both decoders are sound and self-delimiting**, for batches and payloads whose counts fit in 32
bits. A cut encoding of no more records than the host can reserve is refused as truncated; with
more records, the reservation may fail instead. -/
theorem decoding_selfDelimiting (reservable : ℕ) :
    SelfDelimiting (refusal reservable tokenBytes) encodeTokenBatch
      (fun ts => ts.length < 2 ^ 32 ∧ ∀ t ∈ ts, t.payload.length < 2 ^ 32) id
      (decodeTokenBatch reservable) ∧
    (∀ ts pre, ts.length < 2 ^ 32 → ts.length ≤ reservable → pre <+: encodeTokenBatch ts →
      refusal reservable tokenBytes pre = .truncated) ∧
    SelfDelimiting (refusal reservable resultBytes) encodeResultBatch
      (fun rs => rs.length < 2 ^ 32 ∧ ∀ r ∈ rs, r.payload.length < 2 ^ 32)
      (List.map RoutedResult.onWire) (decodeResultBatch reservable) ∧
    ∀ rs pre, rs.length < 2 ^ 32 → rs.length ≤ reservable → pre <+: encodeResultBatch rs →
      refusal reservable resultBytes pre = .truncated := by
  refine ⟨selfDelimiting_tokenBatch reservable, fun ts pre hn hle hpre => ?_,
    selfDelimiting_resultBatch reservable, fun rs pre hn hle hpre => ?_⟩
  · exact refusal_of_cut putToken_append tokenBytes hn hle hpre
  · exact refusal_of_cut putResult_append resultBytes hn hle hpre

/-! ## Counts that do not fit -/

/-- A batch of `n` tokens. -/
def blanks (n : ℕ) : List RoutedToken := List.replicate n ⟨0, 0, 0, 0, []⟩

/-- A batch of `2 ^ 32` tokens. -/
def overlong : List RoutedToken := blanks (2 ^ 32)

theorem encodeTokenBatch_blanks (n : ℕ) : encodeTokenBatch (blanks n) =
    leBytes 4 (UInt32.ofNat n).toNat ++ (blanks n).flatMap (putToken []) := by
  rw [encodeTokenBatch, foldl_put putToken_append, blanks, List.length_replicate]
  rfl

theorem flatMap_blanks_ne_nil {n : ℕ} (hn : n ≠ 0) :
    (blanks n).flatMap (putToken []) ≠ [] := by
  intro hnil
  have hmem : (⟨0, 0, 0, 0, []⟩ : RoutedToken) ∈ blanks n := List.mem_replicate.2 ⟨hn, rfl⟩
  exact absurd (List.flatMap_eq_nil_iff.1 hnil _ hmem) (by decide)

/-- **A count that wraps, and a count that nothing backs.** A batch of `2 ^ 32` tokens has an
encoding that begins with that of the empty batch and decodes to it, so that a proper prefix of it
is accepted. The first four bytes of a batch of `2 ^ 32 - 1` tokens are refused for want of memory,
on a host that reserves room for no more than a million. -/
theorem overlong_decodes_to_nil :
    (encodeTokenBatch [] <+: encodeTokenBatch overlong ∧
      encodeTokenBatch [] ≠ encodeTokenBatch overlong ∧
      decodeTokenBatch 1000000 (encodeTokenBatch overlong) = .ok [] ∧
      decodeTokenBatch 1000000 (encodeTokenBatch []) = .ok []) ∧
    [255, 255, 255, 255] <+: encodeTokenBatch (blanks (2 ^ 32 - 1)) ∧
    [255, 255, 255, 255] ≠ encodeTokenBatch (blanks (2 ^ 32 - 1)) ∧
    decodeTokenBatch 1000000 [255, 255, 255, 255] = .error .badAlloc := by
  have hencode : encodeTokenBatch overlong =
      encodeTokenBatch [] ++ overlong.flatMap (putToken []) := encodeTokenBatch_blanks (2 ^ 32)
  have hcount : encodeTokenBatch (blanks (2 ^ 32 - 1)) =
      [255, 255, 255, 255] ++ (blanks (2 ^ 32 - 1)).flatMap (putToken []) :=
    encodeTokenBatch_blanks (2 ^ 32 - 1)
  have hdecode :=
    getTokenBatch_run 1000000 [] (by decide) (by decide) (overlong.flatMap (putToken []))
  refine ⟨⟨⟨_, hencode.symm⟩, ?_, ?_, by decide⟩, ⟨_, hcount.symm⟩, ?_, by decide⟩
  · rw [hencode, ne_eq, List.self_eq_append_right]
    exact flatMap_blanks_ne_nil (by decide)
  · rw [decodeTokenBatch, run'_eq_ok, hencode]
    exact ⟨_, hdecode⟩
  · rw [hcount, ne_eq, List.self_eq_append_right]
    exact flatMap_blanks_ne_nil (by decide)

end AetherMoE
