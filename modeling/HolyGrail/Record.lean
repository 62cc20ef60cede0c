import HolyGrail.Bytes

/-!
# HolyGrail.Record

The record model `(pk, lsn, op, value)` and its log frame (`record.rs`).
Log sequence numbers are natural numbers throughout; where the source keeps
them in a fixed-width field, the width is explicit.

A frame is

```
| crc32 (u32 LE) | len (u32 LE) | payload[len] |
payload = | lsn (u64 LE) | op (u8) | key_len (u32 LE) | key | val_len (u32 LE) | value |
```

Two facts carry everything the log needs: a whole frame decodes to its own
record whatever follows it (`decode_frame_append`), and a cut frame decodes
to nothing rather than to an error (`decode_cut_frame`).
-/

namespace HolyGrail

/-- A file name, as the characters `Path::file_name` shows. -/
abbrev FileName := List Char

/-- The errors the modelled functions return (`error.rs`). -/
inductive Error where
  | io
  /-- A fetch of the point read failed: `Parquet(External(..))`, with the error of
  the object store. -/
  | parquet
  | postgres
  | duckDbExec
  | corruptWal (segment : FileName) (offset : Nat) (reason : String)
  | writeStalled (frozen : Nat)
  | config (message : String)
  deriving DecidableEq, Repr

/-- A mutation. -/
inductive Op where
  | put
  | delete
  deriving DecidableEq, Repr

namespace Op

/-- `op as u8`. -/
def toU8 : Op → UInt8
  | .put => 0
  | .delete => 1

def fromU8 (b : UInt8) : Option Op :=
  if b = 0 then some .put else if b = 1 then some .delete else none

@[simp] theorem fromU8_toU8 (op : Op) : fromU8 op.toU8 = some op := by
  cases op <;> rfl

end Op

structure Record where
  key : Bytes
  lsn : Nat
  op : Op
  value : Bytes
  deriving DecidableEq, Repr

namespace Record

def put (key : Bytes) (lsn : Nat) (value : Bytes) : Record :=
  { key, lsn, op := .put, value }

def delete (key : Bytes) (lsn : Nat) : Record :=
  { key, lsn, op := .delete, value := [] }

/-- Rough per-entry cost of the skiplist node. -/
def entryOverhead : Nat := 64

/-- Bytes a record is charged for in a memtable. -/
def heapSize (rec : Record) : Nat :=
  rec.key.length + rec.value.length + entryOverhead

end Record

/-! ## the checksum -/

/-- One bit of the reflected CRC-32 division. -/
def crcBit (crc : UInt32) : UInt32 :=
  if crc &&& 1 = 1 then (crc >>> 1) ^^^ 0xEDB88320 else crc >>> 1

/-- One byte of the reflected CRC-32 division. -/
def crcByte (crc : UInt32) (b : UInt8) : UInt32 :=
  (List.range 8).foldl (fun c _ => crcBit c) (crc ^^^ b.toUInt32)

/-- `crc32fast::hash`: the standard CRC-32. -/
def crc32 (bs : Bytes) : UInt32 :=
  bs.foldl crcByte 0xFFFFFFFF ^^^ 0xFFFFFFFF

/-- The standard check value of CRC-32, over the ASCII digits `1..9`. -/
example : crc32 [49, 50, 51, 52, 53, 54, 55, 56, 57] = 0xCBF43926 := by decide +kernel

/-- A zero register stays zero over zeros. -/
theorem foldl_crcByte_zeros (n : Nat) : (List.replicate n 0).foldl crcByte 0 = 0 := by
  induction n with
  | zero => rfl
  | succ n ih =>
      have hzero : crcByte 0 0 = 0 := by decide +kernel
      rw [List.replicate_succ, List.foldl_cons, hzero, ih]

/-! ## framing -/

def frameHeaderLen : Nat := 8

/-- The payload of a record's frame.  The three `as u32` casts of the source
are the four-byte fields: a longer length is cut to its low 32 bits. -/
def payload (rec : Record) : Bytes :=
  leBytes 8 rec.lsn ++ ([rec.op.toU8] ++ (leBytes 4 rec.key.length ++ (rec.key ++
    (leBytes 4 rec.value.length ++ rec.value))))

/-- A record's frame: checksum, length and payload. -/
def frame (rec : Record) : Bytes :=
  leBytes 4 (crc32 (payload rec)).toNat ++ (leBytes 4 (payload rec).length ++ payload rec)

/-- Append a record's frame to the scratch buffer. -/
def encode (rec : Record) (out : Bytes) : Bytes := out ++ frame rec

/-- Decode one frame from the front of `buf`: the record and the number of
bytes consumed, or `none` if `buf` holds a torn tail. -/
def decode (buf : Bytes) (segment : FileName) (offset : Nat) :
    Except Error (Option (Record × Nat)) :=
  if buf.length < frameHeaderLen then .ok none
  else
    let crc := leNat (slice buf 0 4)
    let len := leNat (slice buf 4 8)
    let stop := frameHeaderLen + len
    if buf.length < stop then .ok none
    else
      let body := slice buf frameHeaderLen stop
      if (crc32 body).toNat ≠ crc then .ok none
      -- Past the crc check the payload is intact, so anything malformed from
      -- here is corruption, not a torn write.
      else if body.length < 13 then
        .error (.corruptWal segment offset "payload shorter than fixed header")
      else
        match (slice body 8 9).head?.bind Op.fromU8 with
        | none => .error (.corruptWal segment offset "unknown op")
        | some op =>
          let lsn := leNat (slice body 0 8)
          let keyEnd := 13 + leNat (slice body 9 13)
          if body.length < keyEnd + 4 then
            .error (.corruptWal segment offset "key length overruns payload")
          else
            let key := slice body 13 keyEnd
            let valEnd := keyEnd + 4 + leNat (slice body keyEnd (keyEnd + 4))
            if body.length < valEnd then
              .error (.corruptWal segment offset "value length overruns payload")
            else
              let value := slice body (keyEnd + 4) valEnd
              .ok (some ({ key, lsn, op, value }, stop))

/-- The records a frame can carry without loss: the LSN is a `u64` and the
payload length fits its four-byte field. -/
structure Fits (rec : Record) : Prop where
  lsn_lt : rec.lsn < 2 ^ 64
  payload_lt : (payload rec).length < 2 ^ 32

instance (rec : Record) : Decidable (Fits rec) :=
  decidable_of_iff (rec.lsn < 2 ^ 64 ∧ (payload rec).length < 2 ^ 32)
    ⟨fun h => ⟨h.1, h.2⟩, fun h => ⟨h.lsn_lt, h.payload_lt⟩⟩

/-- A decoded frame is as long as its header announces, and the buffer has
it whole. -/
theorem decode_length {buf : Bytes} {seg : FileName} {off : Nat} {r : Record} {n : Nat}
    (h : decode buf seg off = .ok (some (r, n))) :
    n = frameHeaderLen + leNat (slice buf 4 8) ∧ n ≤ buf.length := by
  simp only [decode] at h
  split at h
  · simp at h
  · split at h
    · simp at h
    · next hlen =>
        -- Every later branch that succeeds returns `frameHeaderLen + len`.
        have hn : frameHeaderLen + leNat (slice buf 4 8) = n := by
          split at h
          · simp at h
          · split at h
            · simp at h
            · split at h
              · simp at h
              · split at h
                · simp at h
                · split at h
                  · simp at h
                  · simp only [Except.ok.injEq, Option.some.injEq, Prod.mk.injEq] at h
                    exact h.2
        exact ⟨hn.symm, by omega⟩

theorem decode_consumes {buf : Bytes} {seg : FileName} {off : Nat} {r : Record} {n : Nat}
    (h : decode buf seg off = .ok (some (r, n))) : 0 < n ∧ n ≤ buf.length := by
  obtain ⟨hn, hle⟩ := decode_length h
  simp only [frameHeaderLen] at hn
  omega

/-- `decode` looks at the announced frame and at nothing behind it. -/
theorem decode_take {buf : Bytes} {m : Nat} (h : frameHeaderLen + leNat (slice buf 4 8) ≤ m)
    (hm : m ≤ buf.length) (seg : FileName) (off : Nat) :
    decode (buf.take m) seg off = decode buf seg off := by
  have h8 : 8 ≤ m := by
    simp only [frameHeaderLen] at h
    omega
  have hlen : (buf.take m).length = m := by rw [List.length_take, Nat.min_eq_left hm]
  have hcrc : slice (buf.take m) 0 4 = slice buf 0 4 := slice_take buf (by omega)
  have hfield : slice (buf.take m) 4 8 = slice buf 4 8 := slice_take buf h8
  have hbody : slice (buf.take m) frameHeaderLen (frameHeaderLen + leNat (slice buf 4 8)) =
      slice buf frameHeaderLen (frameHeaderLen + leNat (slice buf 4 8)) := slice_take buf h
  have hhead : ¬ m < frameHeaderLen := by omega
  have hhead' : ¬ buf.length < frameHeaderLen := by omega
  have hstop : ¬ m < frameHeaderLen + leNat (slice buf 4 8) := by omega
  have hstop' : ¬ buf.length < frameHeaderLen + leNat (slice buf 4 8) := by omega
  simp only [decode, hlen, hcrc, hfield, hbody, if_neg hhead, if_neg hhead', if_neg hstop,
    if_neg hstop']

/-- The buffer has the bytes its header announces, and they match its
checksum. -/
structure Checks (buf : Bytes) : Prop where
  whole : frameHeaderLen + leNat (slice buf 4 8) ≤ buf.length
  crc : (crc32 (slice buf frameHeaderLen (frameHeaderLen + leNat (slice buf 4 8)))).toNat =
    leNat (slice buf 0 4)

instance (buf : Bytes) : Decidable (Checks buf) :=
  decidable_of_iff (frameHeaderLen + leNat (slice buf 4 8) ≤ buf.length ∧
      (crc32 (slice buf frameHeaderLen (frameHeaderLen + leNat (slice buf 4 8)))).toNat =
        leNat (slice buf 0 4))
    ⟨fun h => ⟨h.1, h.2⟩, fun h => ⟨h.whole, h.crc⟩⟩

/-- A buffer decodes to nothing exactly when its header does not check. -/
theorem decode_eq_none_iff {buf : Bytes} {seg : FileName} {off : Nat} :
    decode buf seg off = .ok none ↔ ¬ Checks buf := by
  simp only [decode]
  split
  · exact ⟨fun _ hc => by have := hc.whole; omega, fun _ => rfl⟩
  · split
    · exact ⟨fun _ hc => by have := hc.whole; omega, fun _ => rfl⟩
    · split
      · next hne => exact ⟨fun _ hc => hne hc.crc, fun _ => rfl⟩
      · next heq =>
          have hc : Checks buf := ⟨by omega, not_not.mp heq⟩
          refine ⟨fun hd => ?_, fun hn => absurd hc hn⟩
          revert hd
          split
          · simp
          · split
            · simp
            · split
              · simp
              · split <;> simp

/-! ## lengths -/

@[simp] theorem length_payload (rec : Record) :
    (payload rec).length = 17 + rec.key.length + rec.value.length := by
  simp [payload]
  omega

@[simp] theorem length_frame (rec : Record) :
    (frame rec).length = 25 + rec.key.length + rec.value.length := by
  simp [frame]
  omega

namespace Fits

theorem key_lt {r : Record} (h : Fits r) : r.key.length < 256 ^ 4 := by
  have := h.payload_lt
  rw [length_payload] at this
  omega

theorem value_lt {r : Record} (h : Fits r) : r.value.length < 256 ^ 4 := by
  have := h.payload_lt
  rw [length_payload] at this
  omega

end Fits

/-! ## reading a frame back -/

/- The header fields of a buffer that starts with a frame. -/

theorem crc_field_frame (rec : Record) (rest : Bytes) :
    leNat (slice (frame rec ++ rest) 0 4) = (crc32 (payload rec)).toNat := by
  have hs : slice (frame rec ++ rest) 0 4 = leBytes 4 (crc32 (payload rec)).toNat :=
    slice_eq_of_append [] (by simp [frame]; rfl) rfl (by simp)
  rw [hs]
  exact leNat_leBytes (UInt32.toNat_lt _)

theorem len_field_frame (h : Fits rec) (rest : Bytes) :
    leNat (slice (frame rec ++ rest) 4 8) = (payload rec).length := by
  have hs : slice (frame rec ++ rest) 4 8 = leBytes 4 (payload rec).length :=
    slice_eq_of_append (leBytes 4 (crc32 (payload rec)).toNat)
      (by simp only [frame, List.append_assoc]; rfl) (by simp) (by simp)
  rw [hs]
  exact leNat_leBytes h.payload_lt

theorem body_frame (rec : Record) (rest : Bytes) :
    slice (frame rec ++ rest) frameHeaderLen (frameHeaderLen + (payload rec).length) =
      payload rec :=
  slice_eq_of_append
    (leBytes 4 (crc32 (payload rec)).toNat ++ leBytes 4 (payload rec).length)
    (by simp only [frame, List.append_assoc]; rfl) (by simp [frameHeaderLen]) rfl

/- The fields of a payload. -/

theorem lsn_field_payload (h : Fits rec) : leNat (slice (payload rec) 0 8) = rec.lsn := by
  have hs : slice (payload rec) 0 8 = leBytes 8 rec.lsn :=
    slice_eq_of_append [] (by simp only [payload, List.nil_append]; rfl) rfl (by simp)
  rw [hs]
  exact leNat_leBytes h.lsn_lt

theorem op_field_payload (rec : Record) :
    (slice (payload rec) 8 9).head?.bind Op.fromU8 = some rec.op := by
  have hs : slice (payload rec) 8 9 = [rec.op.toU8] :=
    slice_eq_of_append (leBytes 8 rec.lsn) (by rw [payload]) (by simp) (by simp)
  rw [hs]
  simp

theorem keyLen_field_payload (h : Fits rec) :
    leNat (slice (payload rec) 9 13) = rec.key.length := by
  have hs : slice (payload rec) 9 13 = leBytes 4 rec.key.length :=
    slice_eq_of_append (leBytes 8 rec.lsn ++ [rec.op.toU8])
      (by simp only [payload, List.append_assoc]; rfl) (by simp) (by simp)
  rw [hs]
  exact leNat_leBytes h.key_lt

theorem key_field_payload (rec : Record) :
    slice (payload rec) 13 (13 + rec.key.length) = rec.key :=
  slice_eq_of_append (leBytes 8 rec.lsn ++ [rec.op.toU8] ++ leBytes 4 rec.key.length)
    (by simp only [payload, List.append_assoc]; rfl) (by simp) rfl

theorem valLen_field_payload (h : Fits rec) :
    leNat (slice (payload rec) (13 + rec.key.length) (13 + rec.key.length + 4)) =
      rec.value.length := by
  have hs : slice (payload rec) (13 + rec.key.length) (13 + rec.key.length + 4) =
      leBytes 4 rec.value.length :=
    slice_eq_of_append
      (leBytes 8 rec.lsn ++ [rec.op.toU8] ++ leBytes 4 rec.key.length ++ rec.key)
      (by simp only [payload, List.append_assoc]; rfl) (by simp; omega) (by simp)
  rw [hs]
  exact leNat_leBytes h.value_lt

theorem value_field_payload (rec : Record) :
    slice (payload rec) (13 + rec.key.length + 4)
      (13 + rec.key.length + 4 + rec.value.length) = rec.value :=
  slice_eq_of_append
    (leBytes 8 rec.lsn ++ [rec.op.toU8] ++ leBytes 4 rec.key.length ++ rec.key ++
      leBytes 4 rec.value.length)
    (by simp only [payload, List.append_assoc]; rw [List.append_nil]) (by simp; omega) rfl

/-- **Frame round trip, prefix form**: a whole frame decodes to its record and
its own length, whatever follows it. -/
theorem decode_frame_append (h : Fits rec) (rest : Bytes) (segment : FileName) (offset : Nat) :
    decode (frame rec ++ rest) segment offset = .ok (some (rec, (frame rec).length)) := by
  have hlen : (frame rec).length = frameHeaderLen + (payload rec).length := by
    simp [frameHeaderLen]
    omega
  have hbuf : ¬ (frame rec ++ rest).length < frameHeaderLen := by
    rw [List.length_append, hlen]
    omega
  have hend : ¬ (frame rec ++ rest).length < frameHeaderLen + (payload rec).length := by
    rw [List.length_append, hlen]
    omega
  have hfix : ¬ (payload rec).length < 13 := by rw [length_payload]; omega
  have hkey : ¬ (payload rec).length < 13 + rec.key.length + 4 := by rw [length_payload]; omega
  have hval : ¬ (payload rec).length < 13 + rec.key.length + 4 + rec.value.length := by
    rw [length_payload]; omega
  rw [decode, if_neg hbuf]
  simp only [len_field_frame h, crc_field_frame, body_frame, if_neg hend, ne_eq, not_true,
    if_false, if_neg hfix, op_field_payload, keyLen_field_payload h, if_neg hkey,
    valLen_field_payload h, if_neg hval, lsn_field_payload h, key_field_payload,
    value_field_payload]
  rw [hlen]

/-- **Cut frame**: once the header is there, a buffer shorter than the frame
decodes to nothing, whatever stands where the rest of the frame should. -/
theorem not_checks_of_cut (h : Fits rec) {n : Nat} (hn : frameHeaderLen ≤ n) {rest : Bytes}
    (hlen : n + rest.length < (frame rec).length) : ¬ Checks ((frame rec).take n ++ rest) := by
  intro hc
  have htake : ((frame rec).take n).length = n := by
    rw [List.length_take, Nat.min_eq_left (by omega)]
  have hfield : slice ((frame rec).take n ++ rest) 4 8 = slice (frame rec ++ []) 4 8 := by
    simp only [frameHeaderLen] at hn
    rw [← slice_take ((frame rec).take n ++ rest) hn, List.take_append_of_le_length (by omega),
      List.take_take, Nat.min_self, slice_take _ hn, List.append_nil]
  have hwhole := hc.whole
  rw [hfield, len_field_frame h, List.length_append, htake] at hwhole
  simp only [frameHeaderLen, length_payload, length_frame] at hwhole hlen
  omega

/-- **Torn frame**: any proper prefix of a frame decodes to nothing.  Short of
the header there is no length to read; past it the length field is already
the whole frame's, so the buffer is too short for it. -/
theorem decode_cut_frame (h : Fits rec) {n : Nat} (hn : n < (frame rec).length)
    (segment : FileName) (offset : Nat) :
    decode ((frame rec).take n) segment offset = .ok none := by
  rw [decode_eq_none_iff]
  by_cases h8 : n < frameHeaderLen
  · intro hc
    have hwhole := hc.whole
    rw [List.length_take] at hwhole
    omega
  · rw [← List.append_nil ((frame rec).take n)]
    exact not_checks_of_cut h (by omega) (by simpa using hn)

end HolyGrail
