import HolyGrail.Record.Image
import HolyGrail.Wal.Log

/-!
# HolyGrail.Wal.Oversized

Records of any size, written and read back.

No call on the way to the log bounds the length of a key or a value, and the
length of a payload is cut to 32 bits in its frame.  Replay reads a record and
all later ones back if and only if none of their payloads has 2^32 bytes or more
(`replaySegment_frames_iff`): what a frame decodes to always fits the field, so
a longer payload is never what comes back.  A payload of exactly 2^32 bytes has
a length field of zero, and replay takes it, and everything behind it, for a
torn tail.
-/

namespace HolyGrail

/-- What replay reads back first is a record that fits its frame. -/
theorem fits_of_replayFrom {seg : FileName} {buf : Bytes} {off : Nat} {r : Record}
    {rs : List Record} {m good : Nat} (h : Wal.replayFrom seg buf off = .ok (r :: rs, m, good)) :
    Fits r ∧ ∃ n m', decode buf seg off = .ok (some (r, n)) ∧
      Wal.replayFrom seg (buf.drop n) (off + n) = .ok (rs, m', good) := by
  rcases replayFrom_cases h with ⟨-, hrs, -⟩ | ⟨r', n, rs', m', hd, hr, hrs, -⟩
  · contradiction
  · obtain ⟨rfl, rfl⟩ := List.cons.inj hrs
    exact ⟨(eq_of_decode hd).2.1, n, m', hd, hr⟩

/-- **Replay of the frames of some records** that returns the records found only
records that fit. -/
theorem fits_of_replayFrom_frames {seg : FileName} {off : Nat} {recs : List Record} {m good : Nat}
    (h : Wal.replayFrom seg (frames recs) off = .ok (recs, m, good)) : ∀ r ∈ recs, Fits r := by
  induction recs generalizing off m with
  | nil => simp
  | cons r recs ih =>
      obtain ⟨hr, n, m', hdecode, hrest⟩ := fits_of_replayFrom h
      have hframe := decode_frame_append hr (frames recs) seg off
      rw [← frames_cons, hdecode] at hframe
      simp only [Except.ok.injEq, Option.some.injEq, Prod.mk.injEq, true_and] at hframe
      rw [hframe, frames_cons, List.drop_left] at hrest
      intro r' hr'
      cases List.mem_cons.mp hr' with
      | inl heq => exact heq ▸ hr
      | inr hmem => exact ih hrest r' hmem

/-- **Reading back**: replay returns a record and all later ones if and only if
none of their payloads has 2^32 bytes or more. -/
theorem replaySegment_frames_iff (seg : FileName) (rec : Record) (later : List Record)
    (hlsn : ∀ r ∈ rec :: later, r.lsn < 2 ^ 64) :
    (∃ m good, Wal.replaySegment seg (frames (rec :: later)) = .ok (rec :: later, m, good)) ↔
      ∀ r ∈ rec :: later, (payload r).length < 2 ^ 32 := by
  constructor
  · intro ⟨m, good, h⟩ r hr
    exact (fits_of_replayFrom_frames h r hr).payload_lt
  · intro hlen
    have hfits : ∀ r ∈ rec :: later, Fits r := fun r hr => ⟨hlsn r hr, hlen r hr⟩
    have hreplay := replayFrom_frames hfits torn_nil seg 0
    rw [List.append_nil] at hreplay
    exact ⟨_, _, hreplay⟩

theorem replaySegment_frames_two :
    ∃ m good, Wal.replaySegment (segmentName 0) (frames [.put [1] 1 [7], .delete [1] 2]) =
      .ok ([.put [1] 1 [7], .delete [1] 2], m, good) :=
  (replaySegment_frames_iff (segmentName 0) (.put [1] 1 [7]) [.delete [1] 2] (by decide)).mpr
    (by decide)

/-! ## a length that wraps to zero -/

/-- The checksum's register after the fields of LSN 1, `put`, an empty key, and
the length of a value that fills 2^32 bytes. -/
def wrapRegister : UInt32 :=
  (leBytes 8 1 ++ [0] ++ leBytes 4 0 ++ leBytes 4 4294967279).foldl crcByte 0xFFFFFFFF

/-- A value that sets the register to zero, and keeps it there. -/
def wrapValue (n : Nat) : Bytes := leBytes 4 wrapRegister.toNat ++ List.replicate n 0

theorem length_wrapValue (n : Nat) : (wrapValue n).length = 4 + n := by
  simp [wrapValue]

/-- A put whose payload has 2^32 bytes: the length field is zero. -/
theorem frame_wrapValue {n : Nat} (hn : 4 + n = 4294967279) :
    frame (.put [] 1 (wrapValue n)) =
      [255, 255, 255, 255, 0, 0, 0, 0] ++ payload (.put [] 1 (wrapValue n)) := by
  have hhead : (leBytes 8 1 ++ [0] ++ leBytes 4 0 ++ leBytes 4 4294967279 ++
      leBytes 4 wrapRegister.toNat).foldl crcByte 0xFFFFFFFF = 0 := by decide +kernel
  have hpay : payload (.put [] 1 (wrapValue n)) = leBytes 8 1 ++ [0] ++ leBytes 4 0 ++
      leBytes 4 4294967279 ++ leBytes 4 wrapRegister.toNat ++ List.replicate n 0 := by
    simp only [payload, Record.put, length_wrapValue, hn]
    simp only [wrapValue, List.append_assoc, List.nil_append]
    rfl
  have hcrc : crc32 (payload (.put [] 1 (wrapValue n))) = 0xFFFFFFFF := by
    rw [crc32, hpay, List.foldl_append, hhead, foldl_crcByte_zeros]
    rfl
  have hlen : (payload (.put [] 1 (wrapValue n))).length = 2 ^ 32 := by
    rw [length_payload]
    simp only [Record.put, length_wrapValue, hn]
    rfl
  rw [frame, hcrc, hlen, ← List.append_assoc]
  rfl

/-- **An oversized record cuts the log off**: it is acknowledged with a payload
of 2^32 bytes, and replay takes it and the record behind it for a torn tail. -/
theorem replaySegment_wrapped :
    ∃ rec, rec.lsn < 2 ^ 64 ∧ (payload rec).length = 2 ^ 32 ∧
      Wal.replaySegment (segmentName 0) (frames [rec, .put [2] 2 [9]]) = .ok ([], 0, 0) := by
  obtain ⟨n, hn⟩ : ∃ n, 4 + n = 4294967279 := ⟨4294967275, rfl⟩
  have hlen : (payload (.put [] 1 (wrapValue n))).length = 2 ^ 32 := by
    rw [length_payload]
    simp only [Record.put, length_wrapValue, hn]
    rfl
  have htorn : Torn (frames [.put [] 1 (wrapValue n), .put [2] 2 [9]]) := by
    rw [torn_iff, frames_cons, frame_wrapValue hn]
    intro hc
    have hcrc := hc.crc
    have hfield : ∀ rest : Bytes,
        slice ([255, 255, 255, 255, 0, 0, 0, 0] ++ rest) 4 8 = [0, 0, 0, 0] :=
      fun rest => slice_append_of_le rest (by decide)
    have hsum : ∀ rest : Bytes,
        slice ([255, 255, 255, 255, 0, 0, 0, 0] ++ rest) 0 4 = [255, 255, 255, 255] :=
      fun rest => slice_append_of_le rest (by decide)
    rw [List.append_assoc, hfield, hsum, slice, Nat.add_sub_cancel_left] at hcrc
    exact absurd hcrc (by decide +kernel : (crc32 []).toNat ≠ leNat [255, 255, 255, 255])
  exact ⟨_, (by decide : 1 < 2 ^ 64), hlen, replayFrom_of_none (htorn _ 0)⟩

end HolyGrail
