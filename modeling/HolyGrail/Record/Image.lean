import HolyGrail.Record

/-!
# HolyGrail.Record.Image

What `decode` accepts, against what `encode` writes.

Past the checksum, `decode` reads a record from the front of the payload.  It
rejects a payload that is too short for its fields, but does not look whether
the fields fill it, so it accepts the payload of a record with any bytes behind
it (`parse_eq_ok_iff`).  The accepted frames are the image of `encode` exactly
for the buffers without such slack (`decode_exact_iff`).
-/

namespace HolyGrail

/-! ## the payload of a buffer -/

/-- The payload the header of a buffer announces. -/
def bodyOf (buf : Bytes) : Bytes :=
  slice buf frameHeaderLen (frameHeaderLen + leNat (slice buf 4 8))

/-- The key length field of a payload. -/
def keyLenOf (body : Bytes) : Nat := leNat (slice body 9 13)

/-- The value length field of a payload, behind the key. -/
def valLenOf (body : Bytes) : Nat :=
  leNat (slice body (13 + keyLenOf body) (13 + keyLenOf body + 4))

/-- The part of `decode` behind the checksum. -/
def parse (body : Bytes) (segment : FileName) (offset : Nat) : Except Error Record :=
  if body.length < 13 then
    .error (.corruptWal segment offset "payload shorter than fixed header")
  else
    match (slice body 8 9).head?.bind Op.fromU8 with
    | none => .error (.corruptWal segment offset "unknown op")
    | some op =>
      let keyEnd := 13 + leNat (slice body 9 13)
      if body.length < keyEnd + 4 then
        .error (.corruptWal segment offset "key length overruns payload")
      else
        let valEnd := keyEnd + 4 + leNat (slice body keyEnd (keyEnd + 4))
        if body.length < valEnd then
          .error (.corruptWal segment offset "value length overruns payload")
        else
          .ok {
            key := slice body 13 keyEnd
            lsn := leNat (slice body 0 8)
            op := op
            value := slice body (keyEnd + 4) valEnd }

theorem Checks.length_bodyOf {buf : Bytes} (h : Checks buf) :
    (bodyOf buf).length = leNat (slice buf 4 8) := by
  rw [bodyOf, length_slice h.whole]
  omega

theorem Checks.length_bodyOf_lt {buf : Bytes} (h : Checks buf) : (bodyOf buf).length < 2 ^ 32 := by
  rw [h.length_bodyOf]
  exact leNat_slice_lt buf (rfl : 4 + 4 = 8)

/-- **Decoding** a buffer whose header checks is parsing its payload. -/
theorem decode_eq_parse {buf : Bytes} (h : Checks buf) (seg : FileName) (off : Nat) :
    decode buf seg off =
      (parse (bodyOf buf) seg off).map fun rec =>
        some (rec, frameHeaderLen + leNat (slice buf 4 8)) := by
  have hwhole := h.whole
  have hcrc := h.crc
  have hbody : slice buf frameHeaderLen (frameHeaderLen + leNat (slice buf 4 8)) = bodyOf buf := rfl
  rw [hbody] at hcrc
  rw [decode, if_neg (by omega)]
  simp only [if_neg (show ¬ buf.length < frameHeaderLen + leNat (slice buf 4 8) by omega), hbody,
    ne_eq, hcrc, not_true_eq_false, if_false, parse]
  by_cases hfix : (bodyOf buf).length < 13
  · rw [if_pos hfix, if_pos hfix]
    rfl
  · rw [if_neg hfix, if_neg hfix]
    cases (slice (bodyOf buf) 8 9).head?.bind Op.fromU8 with
    | none => rfl
    | some op =>
        dsimp only
        split
        · rfl
        · split <;> rfl

/-! ## what a payload parses to -/

/-- The op field of a payload. -/
def opOf (body : Bytes) : Option Op := (slice body 8 9).head?.bind Op.fromU8

/-- The record the fields of a payload hold. -/
def fieldsOf (body : Bytes) (op : Op) : Record where
  key := slice body 13 (13 + keyLenOf body)
  lsn := leNat (slice body 0 8)
  op := op
  value := slice body (13 + keyLenOf body + 4) (13 + keyLenOf body + 4 + valLenOf body)

/-- The fields lie inside the payload. -/
def FieldsFit (body : Bytes) : Prop := 17 + keyLenOf body + valLenOf body ≤ body.length

/-- **Parsing** succeeds when the op is known and the fields lie inside the
payload, wherever they end. -/
theorem parse_eq_ok_iff {body : Bytes} {seg : FileName} {off : Nat} {rec : Record} :
    parse body seg off = .ok rec ↔
      ∃ op, opOf body = some op ∧ FieldsFit body ∧ fieldsOf body op = rec := by
  constructor
  · intro h
    rw [parse] at h
    split at h
    · contradiction
    · next hfix =>
        split at h
        · contradiction
        · next op hop =>
            dsimp only at h
            split at h
            · contradiction
            · split at h
              · contradiction
              · next hval =>
                  refine ⟨op, hop, ?_, Except.ok.inj h⟩
                  rw [FieldsFit, keyLenOf, valLenOf, keyLenOf]
                  omega
  · intro ⟨op, hop, hfit, hrec⟩
    rw [FieldsFit, keyLenOf, valLenOf, keyLenOf] at hfit
    rw [opOf] at hop
    rw [parse, if_neg (by omega), hop]
    dsimp only
    rw [if_neg (by omega), if_neg (by omega), ← hrec]
    rfl

/-- What does not parse is reported as corrupt. -/
theorem parse_error {body : Bytes} {seg : FileName} {off : Nat}
    (h : ∀ rec, parse body seg off ≠ .ok rec) :
    ∃ reason, parse body seg off = .error (.corruptWal seg off reason) := by
  rw [parse] at h ⊢
  split
  · exact ⟨_, rfl⟩
  · split
    · exact ⟨_, rfl⟩
    · dsimp only
      split
      · exact ⟨_, rfl⟩
      · split
        · exact ⟨_, rfl⟩
        · simp_all

/-! ## fields written again -/

theorem toU8_of_fromU8 {b : UInt8} {op : Op} (h : Op.fromU8 b = some op) : op.toU8 = b := by
  rw [Op.fromU8] at h
  cases op with
  | put => split at h <;> simp_all [Op.toU8]
  | delete => split at h <;> simp_all [Op.toU8]

/-- The fields of a payload that holds them, written again. -/
theorem payload_fieldsOf {body : Bytes} {op : Op} (hop : opOf body = some op)
    (hfit : FieldsFit body) :
    payload (fieldsOf body op) = slice body 0 (13 + keyLenOf body + 4 + valLenOf body) := by
  rw [FieldsFit] at hfit
  have hlsn : leBytes 8 (leNat (slice body 0 8)) = slice body 0 8 :=
    leBytes_leNat_of_length (length_slice (by omega))
  have hbyte : [op.toU8] = slice body 8 9 := by
    have h1 : (slice body 8 9).length = 1 := length_slice (by omega)
    obtain ⟨b, hb⟩ := List.length_eq_one_iff.mp h1
    rw [opOf, hb] at hop
    rw [hb, toU8_of_fromU8 hop]
  have hkeyLen : leBytes 4 (slice body 13 (13 + keyLenOf body)).length = slice body 9 13 := by
    rw [length_slice (by omega), Nat.add_sub_cancel_left]
    exact leBytes_leNat_of_length (length_slice (by omega))
  have hvalLen : leBytes 4 (slice body (13 + keyLenOf body + 4)
      (13 + keyLenOf body + 4 + valLenOf body)).length =
        slice body (13 + keyLenOf body) (13 + keyLenOf body + 4) := by
    have h4 : (slice body (13 + keyLenOf body) (13 + keyLenOf body + 4)).length = 4 := by
      rw [length_slice (by omega)]
      omega
    rw [length_slice (by omega), Nat.add_sub_cancel_left]
    exact leBytes_leNat_of_length h4
  simp only [payload, fieldsOf]
  rw [hlsn, hbyte, hkeyLen, hvalLen, slice_append_slice _ (by omega) (by omega),
    slice_append_slice _ (by omega) (by omega), slice_append_slice _ (by omega) (by omega),
    slice_append_slice _ (by omega) (by omega), slice_append_slice _ (by omega) (by omega)]

/-- The payload of a record with bytes behind it. -/
theorem fields_payload_append {rec : Record} (h : Fits rec) (trailing : Bytes) :
    opOf (payload rec ++ trailing) = some rec.op ∧
      keyLenOf (payload rec ++ trailing) = rec.key.length ∧
      valLenOf (payload rec ++ trailing) = rec.value.length := by
  have hfront : ∀ lo hi, hi ≤ (payload rec).length →
      slice (payload rec ++ trailing) lo hi = slice (payload rec) lo hi :=
    fun lo hi => slice_append_of_le trailing
  have hlen := length_payload rec
  have hkeyLen : keyLenOf (payload rec ++ trailing) = rec.key.length := by
    rw [keyLenOf, hfront 9 13 (by omega), keyLen_field_payload h]
  refine ⟨?_, hkeyLen, ?_⟩
  · rw [opOf, hfront 8 9 (by omega), op_field_payload]
  · rw [valLenOf, hkeyLen, hfront _ _ (by omega), valLen_field_payload h]

/-- The bytes a payload was parsed from are the payload of the record, and what
its fields do not fill. -/
theorem eq_payload_append_of_parse {body : Bytes} {seg : FileName} {off : Nat} {rec : Record}
    (hlt : body.length < 2 ^ 32) (h : parse body seg off = .ok rec) :
    Fits rec ∧ body = payload rec ++ body.drop (17 + keyLenOf body + valLenOf body) := by
  obtain ⟨op, hop, hfit, rfl⟩ := parse_eq_ok_iff.mp h
  have hpayload := payload_fieldsOf hop hfit
  rw [FieldsFit] at hfit
  have hend : 13 + keyLenOf body + 4 + valLenOf body = 17 + keyLenOf body + valLenOf body := by
    omega
  rw [hend] at hpayload
  have hlsn : (slice body 0 8).length = 8 := length_slice (by omega)
  refine ⟨⟨?_, ?_⟩, ?_⟩
  · have hlt := leNat_lt (slice body 0 8)
    rw [hlsn] at hlt
    exact hlt
  · rw [hpayload, length_slice hfit]
    omega
  · rw [hpayload, slice, List.drop_zero, Nat.sub_zero, List.take_append_drop]

/-- A buffer whose payload is that of a record starts with the frame of the
record. -/
theorem frame_eq_take {buf : Bytes} {rec : Record} (hc : Checks buf)
    (hbody : bodyOf buf = payload rec) :
    frame rec = buf.take (frameHeaderLen + leNat (slice buf 4 8)) := by
  have hwhole := hc.whole
  have hcrc := hc.crc
  have hlen := hc.length_bodyOf
  rw [show slice buf frameHeaderLen (frameHeaderLen + leNat (slice buf 4 8)) = bodyOf buf from rfl,
    hbody] at hcrc
  rw [hbody] at hlen
  simp only [frameHeaderLen] at hwhole
  have hfirst : leBytes 4 (crc32 (payload rec)).toNat = slice buf 0 4 := by
    rw [hcrc]
    exact leBytes_leNat_of_length (length_slice (by omega))
  have hsecond : leBytes 4 (payload rec).length = slice buf 4 8 := by
    rw [hlen]
    exact leBytes_leNat_of_length (length_slice (by omega))
  have hthird : payload rec = slice buf 8 (8 + leNat (slice buf 4 8)) := hbody.symm
  rw [frame, hfirst, hsecond]
  conv_lhs => rw [hthird]
  rw [slice_append_slice _ (by omega) (by omega), slice_append_slice _ (by omega) (by omega),
    slice, List.drop_zero]
  rfl

/-! ## the accepted frames -/

/-- The header checks and the op is known, but the fields end before the payload
does. -/
structure Slack (buf : Bytes) : Prop where
  checks : Checks buf
  op : (opOf (bodyOf buf)).isSome
  ends : 17 + keyLenOf (bodyOf buf) + valLenOf (bodyOf buf) < (bodyOf buf).length

/-- `decode` accepts the image of `encode`, and reports a payload that checks but
is not that of a record as corrupt. -/
structure DecodesImage (buf : Bytes) (seg : FileName) (off : Nat) : Prop where
  accepts : ∀ rec n, decode buf seg off = .ok (some (rec, n)) ↔
    Fits rec ∧ n = (encode rec []).length ∧ encode rec [] <+: buf
  rejects : Checks buf → (∀ rec, Fits rec → payload rec ≠ bodyOf buf) →
    ∃ reason, decode buf seg off = .error (.corruptWal seg off reason)

/-- A frame at the front of a buffer is accepted. -/
theorem decode_of_frame {buf : Bytes} {rec : Record} (h : Fits rec)
    (hbuf : frame rec <+: buf) (seg : FileName) (off : Nat) :
    decode buf seg off = .ok (some (rec, (frame rec).length)) := by
  obtain ⟨rest, rfl⟩ := hbuf
  exact decode_frame_append h rest seg off

/-- What an accepted buffer holds: the payload of the record, and what its fields
do not fill. -/
theorem eq_of_decode {buf : Bytes} {seg : FileName} {off : Nat} {rec : Record} {n : Nat}
    (h : decode buf seg off = .ok (some (rec, n))) :
    Checks buf ∧ Fits rec ∧ n = frameHeaderLen + (bodyOf buf).length ∧
      ∃ trailing, bodyOf buf = payload rec ++ trailing := by
  have hc : Checks buf := by
    by_contra hn
    rw [decode_eq_none_iff.mpr hn] at h
    simp at h
  rw [decode_eq_parse hc] at h
  cases hparse : parse (bodyOf buf) seg off with
  | error e =>
      rw [hparse] at h
      contradiction
  | ok rec' =>
      rw [hparse] at h
      simp only [Except.map, Except.ok.injEq, Option.some.injEq, Prod.mk.injEq] at h
      obtain ⟨rfl, rfl⟩ := h
      obtain ⟨hfits, hbody⟩ := eq_payload_append_of_parse hc.length_bodyOf_lt hparse
      exact ⟨hc, hfits, by rw [hc.length_bodyOf], _, hbody⟩

/-- Bytes behind the fields of an accepted payload are slack. -/
theorem slack_of_trailing {buf : Bytes} {rec : Record} {trailing : Bytes} (hc : Checks buf)
    (h : Fits rec) (hbody : bodyOf buf = payload rec ++ trailing) (hne : trailing ≠ []) :
    Slack buf := by
  obtain ⟨hop, hkey, hval⟩ := fields_payload_append h trailing
  have hpos := List.length_pos_iff.mpr hne
  refine ⟨hc, ?_, ?_⟩
  · rw [hbody, hop]
    rfl
  · rw [hbody, hkey, hval, List.length_append, length_payload]
    omega

/-- **A buffer with slack is accepted**, as a frame longer than the record's. -/
theorem Slack.decode_longer {buf : Bytes} (h : Slack buf) (seg : FileName) (off : Nat) :
    ∃ rec n, decode buf seg off = .ok (some (rec, n)) ∧ (frame rec).length < n := by
  obtain ⟨op, hop⟩ := Option.isSome_iff_exists.mp h.op
  have hends := h.ends
  have hfit : FieldsFit (bodyOf buf) := by
    rw [FieldsFit]
    omega
  have hparse : parse (bodyOf buf) seg off = .ok (fieldsOf (bodyOf buf) op) :=
    parse_eq_ok_iff.mpr ⟨op, hop, hfit, rfl⟩
  have hpayload := congrArg List.length (payload_fieldsOf hop hfit)
  rw [FieldsFit] at hfit
  rw [length_slice (by omega), length_payload] at hpayload
  refine ⟨_, _, by rw [decode_eq_parse h.checks, hparse]; rfl, ?_⟩
  rw [length_frame, ← h.checks.length_bodyOf, frameHeaderLen]
  omega

/-- **`decode` accepts exactly the image of `encode`** on a buffer if and only if
the buffer has no slack. -/
theorem decode_exact_iff (buf : Bytes) (seg : FileName) (off : Nat) :
    DecodesImage buf seg off ↔ ¬ Slack buf := by
  constructor
  · intro hexact hslack
    obtain ⟨rec, n, hdecode, hlt⟩ := hslack.decode_longer seg off
    obtain ⟨-, hn, -⟩ := (hexact.accepts rec n).mp hdecode
    rw [encode, List.nil_append] at hn
    omega
  · intro hslack
    have hfull : ∀ rec trailing, Checks buf → Fits rec → bodyOf buf = payload rec ++ trailing →
        trailing = [] := by
      intro rec trailing hc hfits hbody
      by_contra hne
      exact hslack (slack_of_trailing hc hfits hbody hne)
    constructor
    · intro rec n
      rw [encode, List.nil_append]
      constructor
      · intro hdecode
        obtain ⟨hc, hfits, hn, trailing, hbody⟩ := eq_of_decode hdecode
        rw [hfull rec trailing hc hfits hbody, List.append_nil] at hbody
        have hframe := frame_eq_take hc hbody
        refine ⟨hfits, ?_, hframe ▸ List.take_prefix _ _⟩
        rw [hn, hbody, frameHeaderLen, length_payload, length_frame]
        omega
      · rintro ⟨hfits, hn, hbuf⟩
        rw [hn]
        exact decode_of_frame hfits hbuf seg off
    · intro hc hnone
      rw [decode_eq_parse hc]
      have hparse : ∀ rec, parse (bodyOf buf) seg off ≠ .ok rec := by
        intro rec hrec
        obtain ⟨hfits, hbody⟩ := eq_payload_append_of_parse hc.length_bodyOf_lt hrec
        rw [hfull rec _ hc hfits hbody, List.append_nil] at hbody
        exact hnone rec hfits hbody.symm
      obtain ⟨reason, hreason⟩ := parse_error hparse
      exact ⟨reason, by rw [hreason]; rfl⟩

/-- A frame whose payload is that of an empty put, and one more byte. -/
def paddedFrame : Bytes :=
  let body := payload (.put [] 1 []) ++ [0]
  leBytes 4 (crc32 body).toNat ++ (leBytes 4 body.length ++ body)

/-- **A padded frame is accepted**: `decode` takes 26 bytes for a record whose
frame has 25. -/
theorem decode_paddedFrame :
    decode paddedFrame [] 0 = .ok (some (.put [] 1 [], 26)) ∧
      (encode (.put [] 1 []) []).length = 25 ∧ ¬ DecodesImage paddedFrame [] 0 := by
  have hdecode : decode paddedFrame [] 0 = .ok (some (.put [] 1 [], 26)) := by decide +kernel
  have hlen : (encode (.put [] 1 []) []).length = 25 := by decide
  refine ⟨hdecode, hlen, fun h => ?_⟩
  obtain ⟨-, hn, -⟩ := (h.accepts _ _).mp hdecode
  omega

end HolyGrail
