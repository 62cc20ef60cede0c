import HolyGrail.Checked
import HolyGrail.Record.Image
import HolyGrail.Wal.Reopen

/-!
# HolyGrail.Wal.Safety

Replay of arbitrary bytes.

`Checked.decode` and `Checked.replaySegment` are the code with every slice,
conversion and addition it makes, each of which could panic, and with its loop run
for a number of rounds.  Whatever a segment contains, none of them does
(`decode_eq`), a frame that is accepted has 25 bytes at least, and so the loop
leaves within a round for each 25 bytes and one more (`replay_safe`).
-/

namespace HolyGrail

/-! ## the code, with its panics -/

namespace Checked

/-- `record::decode`. -/
def decode (buf : Bytes) (segment : FileName) (offset : Nat) :
    Checked (Except Error (Option (Record × Nat))) :=
  if buf.length < frameHeaderLen then .ok (.ok none)
  else do
    let crc ← fromLeBytes 4 buf 0 4
    let len ← fromLeBytes 4 buf 4 8
    let stop ← add frameHeaderLen len
    if buf.length < stop then .ok (.ok none)
    else do
      let body ← slice buf frameHeaderLen stop
      if (crc32 body).toNat ≠ crc then .ok (.ok none)
      else if body.length < 13 then
        .ok (.error (.corruptWal segment offset "payload shorter than fixed header"))
      else do
        let lsn ← fromLeBytes 8 body 0 8
        let byte ← index body 8
        match Op.fromU8 byte with
        | none => .ok (.error (.corruptWal segment offset "unknown op"))
        | some op => do
          let keyLen ← fromLeBytes 4 body 9 13
          let keyEnd ← add 13 keyLen
          let valLenEnd ← add keyEnd 4
          if body.length < valLenEnd then
            .ok (.error (.corruptWal segment offset "key length overruns payload"))
          else do
            let key ← slice body 13 keyEnd
            let valLen ← fromLeBytes 4 body keyEnd valLenEnd
            let valEnd ← add valLenEnd valLen
            if body.length < valEnd then
              .ok (.error (.corruptWal segment offset "value length overruns payload"))
            else do
              let value ← slice body valLenEnd valEnd
              .ok (.ok (some ({ key, lsn, op, value }, stop)))

/-- The local variables of `replay_segment`. -/
structure ReplayState where
  records : List Record
  maxLsn : Nat
  off : Nat

/-- What `replay_segment` returns. -/
abbrev Replayed := Except Error (List Record × Nat × Nat)

/-- One round of its loop. -/
def replayRound (segment : FileName) (buf : Bytes) (s : ReplayState) :
    Loop.Round ReplayState (Checked Replayed) :=
  match (do decode (← slice buf s.off buf.length) segment s.off) with
  | .error panic => .done (.error panic)
  | .ok (.error e) => .done (.ok (.error e))
  | .ok (.ok none) => .done (.ok (.ok (s.records, s.maxLsn, s.off)))
  | .ok (.ok (some (rec, n))) =>
      match add s.off n with
      | .error panic => .done (.error panic)
      | .ok off => .again
          { records := s.records ++ [rec], maxLsn := max s.maxLsn rec.lsn, off }

/-- `Wal::replay_segment`, for a number of rounds of its loop. -/
def replaySegment (segment : FileName) (buf : Bytes) (rounds : Nat) :
    Option (Checked Replayed) :=
  Loop.run (replayRound segment buf) rounds { records := [], maxLsn := 0, off := 0 }

/-! ## in bounds -/

/-- **Nothing is out of bounds**: on any bytes, `decode` makes no slice, index,
conversion or addition that panics. -/
theorem decode_eq (buf : Bytes) (seg : FileName) (off : Nat) :
    decode buf seg off = .ok (HolyGrail.decode buf seg off) := by
  rw [decode, HolyGrail.decode]
  split
  · rfl
  · next hhead =>
      rw [frameHeaderLen] at hhead
      have hlen := leNat_slice_lt buf (rfl : 4 + 4 = 8)
      rw [fromLeBytes_eq (rfl : 0 + 4 = 4) (by omega), ok_bind,
        fromLeBytes_eq (rfl : 4 + 4 = 8) (by omega), ok_bind,
        add_eq (by rw [frameHeaderLen]; omega), ok_bind]
      dsimp only
      split
      · rfl
      · next hwhole =>
          rw [slice_eq (by omega) (by omega), ok_bind]
          split
          · rfl
          · split
            · rfl
            · next hfix =>
                generalize HolyGrail.slice buf frameHeaderLen
                  (frameHeaderLen + leNat (HolyGrail.slice buf 4 8)) = body at hfix ⊢
                have hbyte : 8 < body.length := by omega
                rw [fromLeBytes_eq (rfl : 0 + 8 = 8) (by omega), ok_bind, index_eq hbyte,
                  ok_bind, head?_slice hbyte, Option.bind_some]
                cases Op.fromU8 body[8] with
                | none => rfl
                | some op =>
                    have hkey := leNat_slice_lt body (rfl : 9 + 4 = 13)
                    dsimp only
                    rw [fromLeBytes_eq (rfl : 9 + 4 = 13) (by omega), ok_bind,
                      add_eq (by omega), ok_bind, add_eq (by omega), ok_bind]
                    generalize leNat (HolyGrail.slice body 9 13) = keyLen at hkey ⊢
                    split
                    · rfl
                    · next hkeyEnd =>
                        have hval := leNat_slice_lt body (rfl : 13 + keyLen + 4 = _)
                        rw [slice_eq (by omega) (by omega), ok_bind,
                          fromLeBytes_eq rfl (by omega), ok_bind, add_eq (by omega), ok_bind]
                        split
                        · rfl
                        · rw [slice_eq (by omega) (by omega), ok_bind]

end Checked

/-! ## what is decoded -/

section
variable {seg : FileName} {buf : Bytes} {off : Nat}

/-- **Progress**: a frame that is accepted has its 25 bytes of fields, its key and
its value, and lies in the buffer. -/
theorem decode_bounds {rec : Record} {n : Nat} (h : decode buf seg off = .ok (some (rec, n))) :
    25 + rec.key.length + rec.value.length ≤ n ∧ n ≤ buf.length := by
  obtain ⟨-, -, hn, trailing, hbody⟩ := eq_of_decode h
  refine ⟨?_, (decode_length h).2⟩
  rw [hn, hbody, List.length_append, length_payload, frameHeaderLen]
  omega

/-- Only an error names the segment and the offset. -/
theorem decode_anywhere {rec : Record} {n : Nat} (h : decode buf seg off = .ok (some (rec, n)))
    (seg' : FileName) (off' : Nat) : decode buf seg' off' = .ok (some (rec, n)) := by
  have hc : Checks buf := (eq_of_decode h).1
  rw [decode_eq_parse hc] at h ⊢
  cases hparse : parse (bodyOf buf) seg off with
  | error e =>
      rw [hparse] at h
      contradiction
  | ok rec' =>
      have hparse' : parse (bodyOf buf) seg' off' = .ok rec' :=
        parse_eq_ok_iff.mpr (parse_eq_ok_iff.mp hparse)
      rw [hparse] at h
      rw [hparse']
      exact h

/-- An error is a corrupt log at the offset. -/
theorem decode_error {e : Error} (h : decode buf seg off = .error e) :
    ∃ reason, e = .corruptWal seg off reason := by
  have hc : Checks buf := by
    by_contra hn
    rw [decode_eq_none_iff.mpr hn] at h
    contradiction
  rw [decode_eq_parse hc] at h
  have hparse : ∀ rec, parse (bodyOf buf) seg off ≠ .ok rec := by
    intro rec hrec
    rw [hrec] at h
    contradiction
  obtain ⟨reason, hreason⟩ := parse_error hparse
  rw [hreason] at h
  exact ⟨reason, (Except.error.inj h).symm⟩

/-! ## what is replayed -/

/-- The bytes are frames, one behind the other, which decode to the records. -/
inductive Consumes : Bytes → List Record → Prop where
  | nil : Consumes [] []
  | cons {fr rest : Bytes} {rec : Record} {recs : List Record}
      (hframe : ∀ seg off, decode fr seg off = .ok (some (rec, fr.length)))
      (hrest : Consumes rest recs) : Consumes (fr ++ rest) (rec :: recs)

/-- How a replay of any bytes ends. -/
inductive ReplayEnds (seg : FileName) (buf : Bytes) : Checked.Replayed → Prop where
  | corrupt {off : Nat} {reason : String} (hoff : off ≤ buf.length) :
      ReplayEnds seg buf (.error (.corruptWal seg off reason))
  | intact {records : List Record} {maxLsn off : Nat} (hoff : off ≤ buf.length)
      (hframes : Consumes (buf.take off) records)
      (hrest : decode (buf.drop off) seg off = .ok none)
      (hmax : maxLsn = (records.map Record.lsn).max?.getD 0) :
      ReplayEnds seg buf (.ok (records, maxLsn, off))

/-- The bytes that a replay goes over are the frames of its records. -/
theorem consumes_of_replayFrom {rs : List Record} {m good : Nat}
    (h : Wal.replayFrom seg buf off = .ok (rs, m, good)) :
    Consumes (buf.take (good - off)) rs := by
  induction h using replayFrom_induction with
  | torn =>
      rw [Nat.sub_self, List.take_zero]
      exact .nil
  | @frame buf off r n rs m hd hr ih =>
      obtain ⟨hn, hle⟩ := decode_length hd
      have hlo := (replayFrom_bounds hr).1
      have hframe : ∀ seg' off', decode (buf.take n) seg' off' =
          .ok (some (r, (buf.take n).length)) := by
        intro seg' off'
        rw [decode_take (Nat.le_of_eq hn.symm) hle, List.length_take, Nat.min_eq_left hle]
        exact decode_anywhere hd seg' off'
      have hsplit : good - off = n + (good - (off + n)) := by omega
      rw [hsplit, List.take_add]
      exact .cons hframe ih

/-- Behind the last frame the bytes are torn. -/
theorem torn_of_replayFrom {rs : List Record} {m good : Nat}
    (h : Wal.replayFrom seg buf off = .ok (rs, m, good)) :
    decode (buf.drop (good - off)) seg good = .ok none := by
  induction h using replayFrom_induction with
  | torn hd =>
      rw [Nat.sub_self, List.drop_zero]
      exact hd
  | @frame buf off r n rs m hd hr ih =>
      have hlo := (replayFrom_bounds hr).1
      have hsplit : good - off = n + (good - (off + n)) := by omega
      rw [hsplit, ← List.drop_drop]
      exact ih

theorem maxLsn_of_replayFrom {rs : List Record} {m good : Nat}
    (h : Wal.replayFrom seg buf off = .ok (rs, m, good)) :
    m = (rs.map Record.lsn).max?.getD 0 := by
  induction h using replayFrom_induction with
  | torn => rfl
  | @frame buf off r n rs m hd hr ih =>
      rw [ih, List.map_cons, List.max?_cons]
      cases (rs.map Record.lsn).max? <;> simp

/-- A replay that fails says where in the file. -/
theorem error_of_replayFrom {e : Error} (h : Wal.replayFrom seg buf off = .error e) :
    ∃ bad reason, e = .corruptWal seg bad reason ∧ bad ≤ off + buf.length := by
  induction buf, off using Wal.replayFrom.induct seg generalizing e with
  | case1 buf off e' hd =>
      obtain ⟨reason, rfl⟩ := decode_error hd
      rw [replayFrom_of_error hd] at h
      exact ⟨off, reason, (Except.error.inj h).symm, Nat.le_add_right _ _⟩
  | case2 buf off hd =>
      rw [replayFrom_of_none hd] at h
      contradiction
  | case3 buf off r n hd _ e' hr ih =>
      obtain ⟨bad, reason, he, hbad⟩ := ih hr
      rw [replayFrom_of_some hd, hr] at h
      have hle := (decode_consumes hd).2
      rw [List.length_drop] at hbad
      exact ⟨bad, reason, (Except.error.inj h).symm.trans he, by omega⟩
  | case4 buf off r n hd _ rs m good hr ih =>
      rw [replayFrom_of_some hd, hr] at h
      contradiction

/-- Whatever a segment contains, its replay ends. -/
theorem replayEnds (seg : FileName) (buf : Bytes) :
    ReplayEnds seg buf (Wal.replaySegment seg buf) := by
  rw [Wal.replaySegment]
  cases h : Wal.replayFrom seg buf 0 with
  | error e =>
      obtain ⟨bad, reason, rfl, hbad⟩ := error_of_replayFrom h
      exact .corrupt (by omega)
  | ok out =>
      obtain ⟨rs, m, good⟩ := out
      have hgood := (replayFrom_bounds h).2
      have hframes := consumes_of_replayFrom h
      have htorn := torn_of_replayFrom h
      rw [Nat.sub_zero] at hframes htorn
      exact .intact (by omega) hframes htorn (maxLsn_of_replayFrom h)
end

/-! ## the loop -/

namespace Checked

variable {seg : FileName} {buf : Bytes} {s s' : ReplayState}

/-- What a round inside the file does: it leaves with an error, it leaves with
what was read, or it reads one more frame. -/
theorem replayRound_cases (hbuf : buf.length < 2 ^ 64) (hs : s.off ≤ buf.length) :
    (∃ e, HolyGrail.decode (buf.drop s.off) seg s.off = .error e ∧
      replayRound seg buf s = .done (.ok (.error e))) ∨
    (HolyGrail.decode (buf.drop s.off) seg s.off = .ok none ∧
      replayRound seg buf s = .done (.ok (.ok (s.records, s.maxLsn, s.off)))) ∨
    ∃ rec n, HolyGrail.decode (buf.drop s.off) seg s.off = .ok (some (rec, n)) ∧
      25 ≤ n ∧ s.off + n ≤ buf.length ∧
      replayRound seg buf s = .again
        { records := s.records ++ [rec], maxLsn := max s.maxLsn rec.lsn, off := s.off + n } := by
  rw [replayRound, slice_length hs, ok_bind, decode_eq]
  cases hd : HolyGrail.decode (buf.drop s.off) seg s.off with
  | error e => exact .inl ⟨e, rfl, rfl⟩
  | ok o =>
      cases o with
      | none => exact .inr (.inl ⟨rfl, rfl⟩)
      | some p =>
          obtain ⟨rec, n⟩ := p
          obtain ⟨hmin, hle⟩ := decode_bounds hd
          rw [List.length_drop] at hle
          refine .inr (.inr ⟨rec, n, rfl, by omega, by omega, ?_⟩)
          dsimp only
          rw [add_eq (by omega)]

/-- What is read so far, and what is left to read, make up the replay. -/
structure Replaying (seg : FileName) (buf : Bytes) (s : ReplayState) : Prop where
  off_le : s.off ≤ buf.length
  rest : Wal.replaySegment seg buf =
    (Wal.replayFrom seg (buf.drop s.off) s.off).map fun x =>
      (s.records ++ x.1, max s.maxLsn x.2.1, x.2.2)

theorem Replaying.again (h : Replaying seg buf s) (hbuf : buf.length < 2 ^ 64)
    (hround : replayRound seg buf s = .again s') :
    Replaying seg buf s' ∧ buf.length - s'.off + 25 ≤ buf.length - s.off := by
  rcases replayRound_cases hbuf h.off_le with ⟨e, -, hr⟩ | ⟨-, hr⟩ | ⟨rec, n, hd, hmin, hle, hr⟩
  · rw [hr] at hround
    contradiction
  · rw [hr] at hround
    contradiction
  · rw [hr] at hround
    obtain rfl := Loop.Round.again.inj hround
    refine ⟨⟨hle, ?_⟩, by dsimp only; omega⟩
    rw [h.rest, replayFrom_of_some hd, List.drop_drop]
    cases Wal.replayFrom seg (buf.drop (s.off + n)) (s.off + n) with
    | error e => rfl
    | ok x => simp [Except.map, Nat.max_assoc]

theorem Replaying.done (h : Replaying seg buf s) (hbuf : buf.length < 2 ^ 64)
    {result : Checked Replayed} (hround : replayRound seg buf s = .done result) :
    result = .ok (Wal.replaySegment seg buf) := by
  rw [h.rest]
  rcases replayRound_cases hbuf h.off_le with ⟨e, hd, hr⟩ | ⟨hd, hr⟩ | ⟨rec, n, -, -, -, hr⟩
  · rw [hr] at hround
    rw [replayFrom_of_error hd, ← Loop.Round.done.inj hround]
    rfl
  · rw [hr] at hround
    rw [replayFrom_of_none hd, ← Loop.Round.done.inj hround]
    simp [Except.map]
  · rw [hr] at hround
    contradiction

/-- **The loop ends**, without a panic and with the result of the replay, after at
most one round for each 25 bytes and one more. -/
theorem replaySegment_eq (hbuf : buf.length < 2 ^ 64) {rounds : Nat}
    (hrounds : buf.length / 25 < rounds) :
    replaySegment seg buf rounds = some (.ok (Wal.replaySegment seg buf)) := by
  have hstart : Replaying seg buf { records := [], maxLsn := 0, off := 0 } := by
    refine ⟨Nat.zero_le _, ?_⟩
    rw [Wal.replaySegment, List.drop_zero]
    cases Wal.replayFrom seg buf 0 <;> simp [Except.map]
  obtain ⟨result, hrun, rfl⟩ := Loop.run_of_variant (Replaying seg buf)
    (fun result => result = .ok (Wal.replaySegment seg buf)) (fun s => buf.length - s.off)
    (by decide) (fun s s' hs => hs.again hbuf) (fun s r hs => hs.done hbuf) hstart hrounds
  exact hrun

end Checked

/-- **Replay is safe and ends on any bytes**: `decode` never panics, a frame it
accepts is 25 bytes with its key and value and lies in the buffer, and the loop
leaves with a corrupt log or with the records of the frames it went over. -/
theorem replay_safe {buf : Bytes} (hbuf : buf.length < 2 ^ 64) (seg : FileName) :
    (∀ rest off, Checked.decode rest seg off = .ok (decode rest seg off)) ∧
    (∀ rest off rec n, Checked.decode rest seg off = .ok (.ok (some (rec, n))) →
      25 ≤ n ∧ n ≤ rest.length ∧ 25 + rec.key.length + rec.value.length ≤ n) ∧
    ∀ rounds, buf.length / 25 < rounds →
      Checked.replaySegment seg buf rounds = some (.ok (Wal.replaySegment seg buf)) ∧
        ReplayEnds seg buf (Wal.replaySegment seg buf) := by
  refine ⟨fun rest off => Checked.decode_eq rest seg off, fun rest off rec n h => ?_,
    fun rounds hrounds => ⟨Checked.replaySegment_eq hbuf hrounds, replayEnds seg buf⟩⟩
  rw [Checked.decode_eq, Except.ok.injEq] at h
  obtain ⟨hmin, hle⟩ := decode_bounds h
  exact ⟨by omega, hle, hmin⟩

/-- A frame and three bytes more. -/
theorem replay_safe_torn :
    Checked.replaySegment [] (frame (.put [1] 5 [7]) ++ [1, 2, 3]) 2 =
        some (.ok (.ok ([.put [1] 5 [7]], 5, 27))) ∧
      ReplayEnds [] (frame (.put [1] 5 [7]) ++ [1, 2, 3]) (.ok ([.put [1] 5 [7]], 5, 27)) := by
  have hrun : Checked.replaySegment [] (frame (.put [1] 5 [7]) ++ [1, 2, 3]) 2 =
      some (.ok (.ok ([.put [1] 5 [7]], 5, 27))) := by decide +kernel
  have hbuf : (frame (.put [1] 5 [7]) ++ [1, 2, 3]).length < 2 ^ 64 := by decide +kernel
  obtain ⟨-, -, hloop⟩ := replay_safe hbuf []
  obtain ⟨heq, hends⟩ := hloop 2 (by decide +kernel)
  rw [hrun, Option.some.injEq, Except.ok.injEq] at heq
  rw [← heq] at hends
  exact ⟨hrun, hends⟩

/-- Eight zero bytes are a header that checks, of a payload without fields. -/
example : Checked.replaySegment [] (List.replicate 8 0) 1 =
    some (.ok (.error (.corruptWal [] 0 "payload shorter than fixed header"))) := by
  decide +kernel

end HolyGrail
