import HolyGrail.Wal.Contents
import HolyGrail.Run

/-!
# HolyGrail.Wal.Faults

Appends that fail.  `Wal::append` writes through a `BufWriter`, so what an error
leaves behind depends on the size of the batch: a batch smaller than the buffer
is kept, and a later call writes what is missing of it; a larger one goes
straight to the file, and what was not written is dropped.

`Writer` is an open log with its buffer.  Each call is given a `Fault`: how many
bytes the file takes before a write fails, and which of the other system calls
fail.  `Sync` is the good state, in which the buffer completes the file to whole
frames; `Cut` is the bad one, a torn frame at the end of the file and nothing in
the buffer.
-/

namespace HolyGrail

open Std (ExtTreeMap)

/-! ## the buffered writer -/

/-- The capacity of `BufWriter::new`. -/
def bufferCapacity : Nat := 8192

/-- An open log, and the bytes its `BufWriter` holds. -/
structure Writer where
  dir : Dir
  wal : Wal
  buf : Bytes

/-- What the file system does in one call: the bytes it takes before a write
fails, whether `rotate` can sync the old segment and open the new one, and
whether the final `sync_data` succeeds. -/
structure Fault where
  quota : Nat
  seals : Bool
  syncs : Bool
  deriving DecidableEq, Repr

namespace Writer

/-- Bytes reach the active segment. -/
def write (w : Writer) (bs : Bytes) : Writer :=
  { w with dir := w.dir.append w.wal.active.path bs }

/-- `flush_buf`: what was not written stays in the buffer.  A failed call
leaves the writer it returns; a call that returned also leaves the rest of the
quota. -/
def flushBuf (w : Writer) (quota : Nat) : Except Writer (Writer × Nat) :=
  let w' := { w.write (w.buf.take quota) with buf := w.buf.drop quota }
  if w.buf.length ≤ quota then .ok (w', quota - w.buf.length) else .error w'

/-- The end of `write_all`: a batch as large as the buffer goes straight to the
file, and what was not written of it is dropped. -/
def put (w : Writer) (bs : Bytes) (quota : Nat) : Except Writer (Writer × Nat) :=
  if bs.length ≥ bufferCapacity then
    if bs.length ≤ quota then .ok (w.write bs, quota - bs.length)
    else .error (w.write (bs.take quota))
  else .ok ({ w with buf := w.buf ++ bs }, quota)

/-- `write_all` of a `BufWriter`. -/
def writeAll (w : Writer) (bs : Bytes) (quota : Nat) : Except Writer (Writer × Nat) :=
  if bs.length < bufferCapacity - w.buf.length then .ok ({ w with buf := w.buf ++ bs }, quota)
  else if bs.length > bufferCapacity - w.buf.length then do
    let (w, quota) ← w.flushBuf quota
    w.put bs quota
  else w.put bs quota

def rotate (w : Writer) (nextLsn : Nat) (fault : Fault) : Except Writer (Writer × Nat) := do
  let (w, quota) ← w.flushBuf fault.quota
  if fault.seals then
    let (dir, wal) := w.wal.rotate w.dir nextLsn
    return ({ dir, wal, buf := [] }, quota)
  else throw w

/-- The rotation before a batch that starts at `lsn`. -/
def makeRoom (w : Writer) (lsn : Nat) (fault : Fault) : Except Writer (Writer × Nat) :=
  if w.wal.activeBytes ≥ w.wal.segmentMaxBytes then w.rotate lsn fault
  else .ok (w, fault.quota)

/-- `append`, with its error paths. -/
def append (w : Writer) (records : List Record) (fault : Fault) : Except Writer Writer :=
  match records with
  | [] => .ok w
  | first :: _ => do
      let (w, quota) ← w.makeRoom first.lsn fault
      let scratch := frames records
      let (w, quota) ← w.writeAll scratch quota
      let (w, _) ← w.flushBuf quota
      if fault.syncs then
        return { w with
          wal := { w.wal with
            activeBytes := w.wal.activeBytes + scratch.length
            active := { w.wal.active with
              maxLsn := max w.wal.active.maxLsn (maxLsnOf records) } } }
      else throw w

end Writer

/-! ## calls in which nothing fails -/

theorem Dir.append_nil (dir : Dir) (path : FileName) : dir.append path [] = dir := by
  refine ExtTreeMap.ext_getElem? fun q => ?_
  rw [Dir.append, ExtTreeMap.getElem?_modify]
  split
  · next h =>
      rw [Std.LawfulEqCmp.eq_of_compare h]
      simp
  · rfl

namespace Writer

variable {w : Writer}

theorem write_nil (w : Writer) : w.write [] = w := by
  rw [write, Dir.append_nil]

theorem flushBuf_nil (h : w.buf = []) (quota : Nat) : w.flushBuf quota = .ok (w, quota) := by
  rw [flushBuf, h, List.take_nil, List.drop_nil, write_nil, List.length_nil, Nat.sub_zero,
    if_pos (Nat.zero_le _), ← h]

/-- Bytes written through an empty buffer and flushed. -/
theorem writeAll_flushBuf (h : w.buf = []) {bs : Bytes} {quota : Nat}
    (hquota : bs.length ≤ quota) :
    ∃ w' left, w.writeAll bs quota = .ok (w', left) ∧
      w'.flushBuf left = .ok (w.write bs, quota - bs.length) := by
  have hput : bufferCapacity ≤ bs.length →
      w.put bs quota = .ok (w.write bs, quota - bs.length) := by
    intro hlen
    rw [put, if_pos hlen, if_pos hquota]
  rw [writeAll, h, List.length_nil, Nat.sub_zero, List.nil_append]
  split
  · refine ⟨_, _, rfl, ?_⟩
    rw [flushBuf, if_pos hquota, List.take_of_length_le hquota, List.drop_eq_nil_of_le hquota, ← h]
    rfl
  · next hsmall =>
      split
      · rw [flushBuf_nil h]
        exact ⟨_, _, hput (by omega), flushBuf_nil (w := w.write bs) h _⟩
      · exact ⟨_, _, hput (by omega), flushBuf_nil (w := w.write bs) h _⟩

/-- An append in which nothing fails, by a log with nothing in its buffer. -/
theorem append_of_room (h : w.buf = []) {records : List Record} {fault : Fault}
    (hquota : (frames records).length ≤ fault.quota) (hseals : fault.seals = true)
    (hsyncs : fault.syncs = true) :
    w.append records fault = .ok
      { dir := (w.wal.append w.dir records).1
        wal := (w.wal.append w.dir records).2
        buf := [] } := by
  cases records with
  | nil =>
      obtain ⟨dir, wal, buf⟩ := w
      cases h
      rfl
  | cons first rest =>
      have hroom : w.makeRoom first.lsn fault = .ok
          ({ dir := (w.wal.makeRoom w.dir first.lsn).1
             wal := (w.wal.makeRoom w.dir first.lsn).2
             buf := [] }, fault.quota) := by
        rw [makeRoom, Wal.makeRoom]
        split
        · rw [rotate, flushBuf_nil h, hseals]
          rfl
        · rw [← h]
      rw [append, hroom]
      generalize hmk : w.wal.makeRoom w.dir first.lsn = opened
      obtain ⟨w', left, hwrite, hflush⟩ := writeAll_flushBuf
        (w := { dir := opened.1, wal := opened.2, buf := [] }) rfl hquota
      simp only [bind, Except.bind, hwrite, hflush, hsyncs, Wal.append, hmk]
      rfl

end Writer

/-! ## runs of calls -/

/-- An open log and the records of the appends that returned `Ok`. -/
structure Appends where
  writer : Writer
  acked : List Record

namespace Appends

/-- One call, and what the file system does in it. -/
abbrev Call := List Record × Fault

/-- A log that has just been opened. -/
def start (dir : Dir) (wal : Wal) : Appends :=
  { writer := { dir, wal, buf := [] }, acked := [] }

def step (s : Appends) (call : Call) : Option Appends :=
  match s.writer.append call.1 call.2 with
  | .ok writer => some { writer, acked := s.acked ++ call.1 }
  | .error writer => some { s with writer }

end Appends

/-! ## what a failed call leaves -/

/-- No frame is torn. -/
theorem eq_nil_of_torn_frames {rs : List Record} (hfit : ∀ r ∈ rs, Fits r)
    (h : Torn (frames rs)) : rs = [] := by
  cases rs with
  | nil => rfl
  | cons r rs =>
      have hd := h [] 0
      rw [frames_cons, decode_frame_append (hfit r List.mem_cons_self)] at hd
      simp at hd

namespace Writer

/-- The file of the active segment: whole frames and a tail, on a disk that
holds `log`. -/
structure Ends (w : Writer) (log : Log) (tail : Bytes) : Prop where
  mirrors : Mirrors Torn w.dir log
  path : w.wal.active.path = segmentName w.wal.active.startLsn
  file : ∃ rs, log[w.wal.active.startLsn]? = some rs ∧
    w.dir[w.wal.active.path]? = some (frames rs ++ tail)

/-- The buffer completes the file: `more` is what will be on disk besides `log`
when it is flushed. -/
def Sync (w : Writer) (log : Log) (more : List Record) : Prop :=
  ∃ tail, w.Ends log tail ∧ Torn tail ∧ tail ++ w.buf = frames more ∧ ∀ r ∈ more, Fits r

/-- The file ends in a torn frame, and the rest of the frame is lost. -/
def Cut (w : Writer) (log : Log) : Prop := ∃ tail, w.Ends log tail ∧ Torn tail ∧ w.buf = []

/-- Every record of one log is in the other. -/
def Grows (log log' : Log) : Prop := ∀ r, log.Holds r → log'.Holds r

theorem Grows.refl (log : Log) : Grows log log := fun _ h => h

theorem Grows.trans {a b c : Log} (h : Grows a b) (h' : Grows b c) : Grows a c :=
  fun r hr => h' r (h r hr)

variable {w w' : Writer} {log : Log} {more : List Record} {tail : Bytes} {quota quota' : Nat}

/-- Whole frames and a tail are written behind the tail of the file. -/
theorem Ends.write (h : w.Ends log tail) {bs : Bytes} {ss : List Record} {tail' : Bytes}
    (hbs : tail ++ bs = frames ss ++ tail') (hfit : ∀ r ∈ ss, Fits r) (ht : Torn tail') :
    ∃ log', Grows log log' ∧ (∀ r ∈ ss, log'.Holds r) ∧ (w.write bs).Ends log' tail' := by
  obtain ⟨rs, hrs, hfile⟩ := h.file
  have hlt := h.mirrors.start_lt _ (OrdMap.mem_of_getElem? hrs)
  have hnew : frames rs ++ tail ++ bs = frames (rs ++ ss) ++ tail' := by
    rw [List.append_assoc, hbs, frames_append, List.append_assoc]
  have hdir : ∀ p, (w.write bs).dir[p]? =
      if segmentName w.wal.active.startLsn = p then some (frames (rs ++ ss) ++ tail')
      else w.dir[p]? := by
    intro p
    rw [Writer.write, Dir.append, OrdMap.getElem?_modify, h.path]
    split
    · next he => rw [← he, ← h.path, hfile, Option.map_some, hnew]
    · rfl
  have hall : ∀ r ∈ rs ++ ss, Fits r := by
    intro r hr
    rw [List.mem_append] at hr
    exact hr.elim (h.mirrors.fits _ rs hrs r) (hfit r)
  have hext : log.insert w.wal.active.startLsn (rs ++ ss) =
      log.extend w.wal.active.startLsn ss := by
    rw [Log.extend, hrs, Option.getD_some]
  refine ⟨log.extend w.wal.active.startLsn ss, fun r hr => Log.holds_extend.mpr (.inl hr),
    fun r hr => Log.holds_extend.mpr (.inr hr), ⟨?_, h.path, rs ++ ss, ?_, ?_⟩⟩
  · rw [← hext]
    exact h.mirrors.insert hlt hall ht hdir
  · rw [← hext]
    exact ExtTreeMap.getElem?_insert_self
  · change (w.write bs).dir[w.wal.active.path]? = _
    rw [hdir, h.path, if_pos rfl]

/-- **A part of the buffer is written.**  The frames it completes are on disk,
and the buffer still completes the file. -/
theorem Sync.write (h : w.Sync log more) (k : Nat) :
    ∃ log' more', Grows log log' ∧
      Sync { w.write (w.buf.take k) with buf := w.buf.drop k } log' more' ∧
      (w.buf.length ≤ k → more' = [] ∧ ∀ r ∈ more, log'.Holds r) := by
  obtain ⟨tail, hends, htorn, hbuf, hfit⟩ := h
  have htake : tail ++ w.buf.take k = (frames more).take (tail.length + k) := by
    rw [← hbuf, List.take_length_add_append]
  obtain ⟨tail', hcut, htorn'⟩ := take_frames hfit (tail.length + k)
  obtain ⟨rest, hrest⟩ := prefix_survivors more (tail.length + k)
  have hsub : ∀ r ∈ survivors more (tail.length + k), r ∈ more :=
    (prefix_survivors more (tail.length + k)).subset
  obtain ⟨log', hgrow, hnew, hends'⟩ := hends.write (htake.trans hcut)
    (fun r hr => hfit r (hsub r hr)) htorn'
  have hrestFit : ∀ r ∈ rest, Fits r := fun r hr =>
    hfit r (hrest ▸ List.mem_append_right _ hr)
  -- What the buffer still holds is the rest of the frames.
  have hdrop : tail' ++ w.buf.drop k = frames rest := by
    have hall : frames (survivors more (tail.length + k)) ++ (tail' ++ w.buf.drop k) =
        frames (survivors more (tail.length + k)) ++ frames rest := by
      rw [← frames_append, hrest, ← List.append_assoc, ← hcut, ← htake, List.append_assoc,
        List.take_append_drop, hbuf]
    exact List.append_cancel_left hall
  refine ⟨log', rest, hgrow, ⟨tail', ⟨hends'.mirrors, hends'.path, hends'.file⟩, htorn', hdrop,
    hrestFit⟩, fun hk => ?_⟩
  rw [List.drop_eq_nil_of_le hk, List.append_nil] at hdrop
  have hnil : rest = [] := eq_nil_of_torn_frames hrestFit (hdrop ▸ htorn')
  rw [hnil, List.append_nil] at hrest
  exact ⟨hnil, fun r hr => hnew r (by rw [hrest]; exact hr)⟩

theorem Sync.flushBuf (h : w.Sync log more) (quota : Nat) :
    Leaves (w.flushBuf quota)
      (fun x => ∃ log', Grows log log' ∧ x.1.Sync log' [] ∧ x.1.buf = [] ∧
        ∀ r ∈ more, log'.Holds r)
      (fun w' => ∃ log' more', Grows log log' ∧ w'.Sync log' more') := by
  obtain ⟨log', more', hgrow, hsync, hall⟩ := h.write quota
  rw [Writer.flushBuf]
  split
  · next hle =>
      obtain ⟨rfl, hmore⟩ := hall hle
      exact ⟨log', hgrow, hsync, List.drop_eq_nil_of_le hle, hmore⟩
  · exact ⟨log', more', hgrow, hsync⟩

/-- A flushed buffer leaves whole frames. -/
theorem Sync.ends (h : w.Sync log more) (hbuf : w.buf = []) : w.Ends log [] := by
  obtain ⟨tail, hends, htorn, hmore, hfit⟩ := h
  rw [hbuf, List.append_nil] at hmore
  subst hmore
  have hnil := eq_nil_of_torn_frames hfit htorn
  subst hnil
  exact hends

theorem Ends.sync (h : w.Ends log []) (hbuf : w.buf = []) : w.Sync log [] :=
  ⟨[], h, torn_nil, by rw [hbuf]; rfl, fun _ hr => absurd hr List.not_mem_nil⟩

/-- Nothing acknowledged is in danger as long as nothing is written behind a
torn frame. -/
def Sound (w : Writer) (log : Log) : Prop := (∃ more, w.Sync log more) ∨ w.Cut log

/-- What a failed call leaves. -/
def Survives (log : Log) (w : Writer) : Prop := ∃ log', Grows log log' ∧ w.Sound log'

theorem Survives.trans {log₁ : Log} (h : Grows log log₁) (hw : Survives log₁ w) :
    Survives log w := by
  obtain ⟨log', hgrow, hsound⟩ := hw
  exact ⟨log', h.trans hgrow, hsound⟩

/-! ### writing a batch -/

/-- Frames are added to the buffer. -/
theorem Sync.buffer (h : w.Sync log more) {batch : List Record} (hfit : ∀ r ∈ batch, Fits r) :
    Sync { w with buf := w.buf ++ frames batch } log (more ++ batch) := by
  obtain ⟨tail, hends, htorn, hbuf, hmore⟩ := h
  refine ⟨tail, ⟨hends.mirrors, hends.path, hends.file⟩, htorn, ?_, fun r hr => ?_⟩
  · rw [← List.append_assoc, hbuf, frames_append]
  · rw [List.mem_append] at hr
    exact hr.elim (hmore r) (hfit r)

/-- A batch on its way: each record is on disk or completed by the buffer. -/
def Carries (log : Log) (batch : List Record) (w : Writer) : Prop :=
  ∃ log' more, Grows log log' ∧ w.Sync log' more ∧ ∀ r ∈ batch, log'.Holds r ∨ r ∈ more

theorem Sync.put (h : w.Sync log more) {batch : List Record} (hfit : ∀ r ∈ batch, Fits r)
    (hbuf : (frames batch).length ≥ bufferCapacity → w.buf = []) (quota : Nat) :
    Leaves (w.put (frames batch) quota) (fun x => Carries log batch x.1) (Survives log) := by
  rw [Writer.put]
  split
  · next hbig =>
      have hempty := hbuf hbig
      have hends := h.ends hempty
      split
      · have hall : [] ++ frames batch = frames batch ++ [] := (List.append_nil _).symm
        obtain ⟨log', hgrow, hnew, hends'⟩ := hends.write hall hfit torn_nil
        exact ⟨log', [], hgrow, hends'.sync hempty, fun r hr => .inl (hnew r hr)⟩
      · -- The frame at the cut is torn, and its rest is in no buffer.
        obtain ⟨tail, hcut, htorn⟩ := take_frames hfit quota
        rw [← List.nil_append ((frames batch).take quota)] at hcut
        obtain ⟨log', hgrow, -, hends'⟩ := hends.write hcut
          (fun r hr => hfit r ((prefix_survivors batch quota).subset hr)) htorn
        exact ⟨log', hgrow, .inr ⟨tail, hends', htorn, hempty⟩⟩
  · exact ⟨log, more ++ batch, .refl log, h.buffer hfit, fun r hr =>
      .inr (List.mem_append_right _ hr)⟩

theorem Sync.writeAll (h : w.Sync log more) {batch : List Record} (hfit : ∀ r ∈ batch, Fits r)
    (quota : Nat) :
    Leaves (w.writeAll (frames batch) quota) (fun x => Carries log batch x.1) (Survives log) := by
  rw [Writer.writeAll]
  split
  · exact ⟨log, more ++ batch, .refl log, h.buffer hfit, fun r hr =>
      .inr (List.mem_append_right _ hr)⟩
  · split
    · refine ((h.flushBuf quota).mono (fun x hx => hx) fun w' hw' => ?_).bind fun x hx => ?_
      · obtain ⟨log', more', hgrow, hsync⟩ := hw'
        exact ⟨log', hgrow, .inl ⟨more', hsync⟩⟩
      · obtain ⟨log', hgrow, hsync, hbuf, -⟩ := hx
        refine (hsync.put hfit (fun _ => hbuf) x.2).mono (fun y hy => ?_) fun w' hw' => ?_
        · obtain ⟨log'', more'', hgrow', hcarry⟩ := hy
          exact ⟨log'', more'', hgrow.trans hgrow', hcarry⟩
        · exact hw'.trans hgrow
    · refine h.put hfit (fun hbig => ?_) quota
      have hpos : 0 < bufferCapacity := by decide
      exact List.length_eq_zero_iff.mp (by omega)

/-! ### where a batch is written -/

/-- The bytes a batch that starts at `lsn` is written behind: those of the file
it lands in, and what the buffer adds to it. -/
def reach (w : Writer) (lsn : Nat) : Bytes :=
  let path := segmentName (w.wal.landing lsn)
  w.dir[path]?.getD [] ++ if path = w.wal.active.path then w.buf else []

/-- The bytes are whole frames to the end. -/
def readsThrough (bs : Bytes) : Bool :=
  (Wal.replaySegment [] bs).toOption.any fun out => out.2.2 = bs.length

theorem nil_of_readsThrough {rs : List Record} (hfit : ∀ r ∈ rs, Fits r) (ht : Torn tail)
    (h : readsThrough (frames rs ++ tail) = true) : tail = [] := by
  rw [readsThrough, Wal.replaySegment, replayFrom_frames hfit ht] at h
  simp only [Except.toOption, Option.any_some, decide_eq_true_eq, List.length_append] at h
  exact List.length_eq_zero_iff.mp (by omega)

theorem Ends.nil_of_readsThrough (h : w.Ends log tail) (ht : Torn tail) {bs : Bytes}
    (hfile : w.dir[w.wal.active.path]?.getD [] = bs) (hbs : readsThrough bs = true) :
    tail = [] := by
  obtain ⟨rs, hrs, hd⟩ := h.file
  rw [hd, Option.getD_some] at hfile
  rw [← hfile] at hbs
  exact Writer.nil_of_readsThrough (h.mirrors.fits _ rs hrs) ht hbs

/-- A flush that returns leaves the file with the whole buffer behind it. -/
theorem Sound.flushBuf (h : w.Sound log) (quota : Nat) :
    Leaves (w.flushBuf quota)
      (fun x => x.1 = { w.write w.buf with buf := [] } ∧
        ∃ log' tail, Grows log log' ∧ x.1.Ends log' tail ∧ Torn tail)
      (Survives log) := by
  have hdone : w.buf.length ≤ quota → ({ w.write (w.buf.take quota) with
      buf := w.buf.drop quota } : Writer) = { w.write w.buf with buf := [] } := by
    intro hle
    rw [List.take_of_length_le hle, List.drop_eq_nil_of_le hle]
  rcases h with ⟨more, hsync⟩ | ⟨tail, hends, htorn, hbuf⟩
  · obtain ⟨log', more', hgrow, hsync', hall⟩ := hsync.write quota
    rw [Writer.flushBuf]
    split
    · next hle =>
        refine ⟨hdone hle, log', [], hgrow, hsync'.ends ?_, torn_nil⟩
        exact List.drop_eq_nil_of_le hle
    · exact ⟨log', hgrow, .inl ⟨more', hsync'⟩⟩
  · -- An empty buffer has nothing to write.
    rw [flushBuf_nil hbuf]
    refine ⟨?_, log, tail, .refl log, hends, htorn⟩
    rw [hbuf, write_nil, ← hbuf]

/-- The new segment of a rotation: a fresh file, or one that was there. -/
theorem Ends.rotate (h : w.Ends log tail) {l : Nat} (hlt : l < 2 ^ 64) :
    ∃ log' tail', Grows log log' ∧ Torn tail' ∧
      Ends { dir := (w.wal.rotate w.dir l).1, wal := (w.wal.rotate w.dir l).2, buf := [] } log'
        tail' := by
  obtain ⟨log', hl, hholds, hmir⟩ := h.mirrors.reopen torn_nil hlt
  obtain ⟨rs, hrs⟩ := OrdMap.mem_iff_exists.mp hl
  obtain ⟨tail', ht, hd⟩ := hmir.framed l rs hrs
  exact ⟨log', tail', fun r hr => (hholds r).mpr hr, ht, hmir, rfl, rs, hrs, hd⟩

theorem getD_create (dir : Dir) (p : FileName) : (dir.create p)[p]?.getD [] = dir[p]?.getD [] := by
  rw [Dir.create]
  split
  · rfl
  · next hp => rw [ExtTreeMap.getElem?_insert_self, OrdMap.getElem?_eq_none_iff.mpr hp]; rfl

theorem getD_append {dir : Dir} {p q : FileName} (hq : q ∈ dir) (bs : Bytes) :
    (dir.append q bs)[p]?.getD [] = dir[p]?.getD [] ++ if p = q then bs else [] := by
  rw [Dir.append, OrdMap.getElem?_modify]
  by_cases hp : p = q
  · subst hp
    obtain ⟨v, hv⟩ := OrdMap.mem_iff_exists.mp hq
    simp [hv]
  · rw [if_neg fun he => hp he.symm, if_neg hp, List.append_nil]

theorem Sound.mem_dir (h : w.Sound log) : w.wal.active.path ∈ w.dir := by
  obtain ⟨tail, hends⟩ : ∃ tail, w.Ends log tail := by
    rcases h with ⟨more, tail, hends, -⟩ | ⟨tail, hends, -⟩ <;> exact ⟨tail, hends⟩
  obtain ⟨rs, -, hd⟩ := hends.file
  exact OrdMap.mem_of_getElem? hd

theorem Sound.makeRoom (h : w.Sound log) {l : Nat} (hlt : l < 2 ^ 64)
    (hreach : readsThrough (w.reach l) = true) (fault : Fault) :
    Leaves (w.makeRoom l fault) (fun x => ∃ log' more, Grows log log' ∧ x.1.Sync log' more)
      (Survives log) := by
  rw [Writer.makeRoom]
  split
  · next hfull =>
      rw [Writer.rotate]
      refine (h.flushBuf fault.quota).bind fun x hx => ?_
      obtain ⟨w₁, quota₁⟩ := x
      obtain ⟨hw, log₁, tail₁, hgrow₁, hends₁, htorn₁⟩ := hx
      dsimp only at hw hends₁ ⊢
      split
      · obtain ⟨log', tail', hgrow', htorn', hends'⟩ := hends₁.rotate hlt
        -- The condition is about the file as the flush leaves it.
        have hfile : (w₁.wal.rotate w₁.dir l).1[segmentName l]?.getD [] = w.reach l := by
          rw [Wal.rotate, getD_create, hw, Writer.write, getD_append h.mem_dir, reach, Wal.landing,
            if_pos hfull]
        have hnil := hends'.nil_of_readsThrough htorn' hfile hreach
        subst hnil
        exact ⟨log', [], hgrow₁.trans hgrow', hends'.sync rfl⟩
      · refine ⟨log₁, hgrow₁, .inr ⟨tail₁, hends₁, htorn₁, ?_⟩⟩
        rw [hw]
  · next hroom =>
      rcases h with ⟨more, hsync⟩ | ⟨tail, hends, htorn, hbuf⟩
      · exact ⟨log, more, .refl log, hsync⟩
      · have hfile : w.dir[w.wal.active.path]?.getD [] = w.reach l := by
          rw [reach, Wal.landing, if_neg hroom, ← hends.path, if_pos rfl, hbuf, List.append_nil]
        have hnil := hends.nil_of_readsThrough htorn hfile hreach
        subst hnil
        exact ⟨log, [], .refl log, hends.sync hbuf⟩

/-- **One append.**  If the batch is not written behind a torn frame, a call
that returns has put it on disk, and a call that fails loses nothing that was
there. -/
theorem Sound.append (h : w.Sound log) {batch : List Record} (hfit : ∀ r ∈ batch, Fits r)
    (hreach : ∀ r ∈ batch.head?, readsThrough (w.reach r.lsn) = true) (fault : Fault) :
    Leaves (w.append batch fault)
      (fun w' => ∃ log', Grows log log' ∧ w'.Sound log' ∧ ∀ r ∈ batch, log'.Holds r)
      (Survives log) := by
  cases batch with
  | nil => exact ⟨log, .refl log, h, fun r hr => absurd hr List.not_mem_nil⟩
  | cons first rest =>
      rw [Writer.append]
      refine (h.makeRoom (hfit first List.mem_cons_self).lsn_lt (hreach first rfl) fault).bind
        fun x hx => ?_
      obtain ⟨w₁, quota₁⟩ := x
      obtain ⟨log₁, more₁, hgrow₁, hsync₁⟩ := hx
      dsimp only at hsync₁ ⊢
      refine ((hsync₁.writeAll hfit quota₁).mono (fun _ hx => hx) fun _ hw =>
        hw.trans hgrow₁).bind fun x hx => ?_
      obtain ⟨w₂, quota₂⟩ := x
      obtain ⟨log₂, more₂, hgrow₂, hsync₂, hcarry⟩ := hx
      dsimp only at hsync₂ ⊢
      have hgrow := hgrow₁.trans hgrow₂
      refine ((hsync₂.flushBuf quota₂).mono (fun _ hx => hx) fun w' hw => ?_).bind fun x hx => ?_
      · obtain ⟨log', more', hgrow', hsync'⟩ := hw
        exact ⟨log', hgrow.trans hgrow', .inl ⟨more', hsync'⟩⟩
      · obtain ⟨w₃, quota₃⟩ := x
        obtain ⟨log₃, hgrow₃, hsync₃, hbuf₃, hdone⟩ := hx
        dsimp only at hsync₃ hbuf₃ ⊢
        have hends := hsync₃.ends hbuf₃
        split
        · refine ⟨log₃, hgrow.trans hgrow₃, .inl ⟨[], ?_⟩, fun r hr => ?_⟩
          · exact Ends.sync ⟨hends.mirrors, hends.path, hends.file⟩ hbuf₃
          · exact (hcarry r hr).elim (fun hr => hgrow₃ r hr) (hdone r)
        · exact ⟨log₃, hgrow.trans hgrow₃, .inl ⟨[], hsync₃⟩⟩

end Writer

/-! ## runs -/

namespace Appends

/-- Records as the engine hands them out, small enough for their frame; and the
batch is not written behind a frame that an earlier call left torn. -/
def Behind (s : Appends) (call : Call) : Prop :=
  (∀ r ∈ call.1, 0 < r.lsn ∧ Fits r) ∧
    ∀ r ∈ call.1.head?, Writer.readsThrough (s.writer.reach r.lsn) = true

instance (s : Appends) (call : Call) : Decidable (s.Behind call) :=
  inferInstanceAs (Decidable (_ ∧ _))

def Inv (s : Appends) : Prop :=
  ∃ log, s.writer.Sound log ∧ ∀ r ∈ s.acked, log.Holds r ∧ 0 < r.lsn

theorem inv_start {dir : Dir} {wal : Wal} {log : Log} (h : Tracks dir wal log) :
    (start dir wal).Inv := by
  obtain ⟨rs, hrs, -⟩ := h.active_mem
  obtain ⟨tail, ht, hd⟩ := h.mirrors.framed _ rs hrs
  have hends : (start dir wal).writer.Ends log [] :=
    ⟨h.mirrors.weaken torn_nil, h.active_path, rs, hrs, by rw [← ht, ← hd, ← h.active_path]; rfl⟩
  exact ⟨log, .inl ⟨[], hends.sync rfl⟩, fun _ hr => absurd hr List.not_mem_nil⟩

theorem inv_step (s : Appends) (call : Call) (s' : Appends) (hinv : s.Inv) (hg : s.Behind call)
    (hstep : s.step call = some s') : s'.Inv := by
  obtain ⟨log, hsound, hacked⟩ := hinv
  obtain ⟨hrecs, hreach⟩ := hg
  have hcall := hsound.append (fun r hr => (hrecs r hr).2) hreach call.2
  rw [step] at hstep
  split at hstep
  · next writer hok =>
      rw [hok] at hcall
      obtain ⟨log', hgrow, hsound', hall⟩ := hcall
      rw [← Option.some.inj hstep]
      refine ⟨log', hsound', fun r hr => ?_⟩
      rw [List.mem_append] at hr
      rcases hr with hr | hr
      · exact ⟨hgrow r (hacked r hr).1, (hacked r hr).2⟩
      · exact ⟨hall r hr, (hrecs r hr).1⟩
  · next writer herr =>
      rw [herr] at hcall
      obtain ⟨log', hgrow, hsound'⟩ := hcall
      rw [← Option.some.inj hstep]
      exact ⟨log', hsound', fun r hr => ⟨hgrow r (hacked r hr).1, (hacked r hr).2⟩⟩

/-- **A failed append costs no acknowledged one.**  After any calls on an open
log, each failing anywhere or not at all, none of them written behind a frame
that an earlier one left torn: the next open returns every record of every
append that returned `Ok`, whatever part of the buffer was still written when
the log was dropped. -/
theorem acked_survive_failures {dir : Dir} {wal : Wal} {log : Log} (h₀ : Tracks dir wal log)
    {s : Appends} (h : Reaches step Behind (start dir wal) s) (k segmentMaxBytes : Nat) :
    ∃ dir' wal' replay,
      Wal.open (s.writer.write (s.writer.buf.take k)).dir segmentMaxBytes 0 =
        .ok (dir', wal', replay) ∧
      ∀ r ∈ s.acked, r ∈ replay.records := by
  obtain ⟨log, hsound, hacked⟩ := h.invariant Inv (inv_start h₀) inv_step
  obtain ⟨log', hgrow, hmir⟩ : ∃ log', Writer.Grows log log' ∧
      Mirrors Torn (s.writer.write (s.writer.buf.take k)).dir log' := by
    rcases hsound with ⟨more, hsync⟩ | ⟨tail, hends, htorn, hbuf⟩
    · obtain ⟨log', more', hgrow, ⟨tail', hends, -⟩, -⟩ := hsync.write k
      exact ⟨log', hgrow, hends.mirrors⟩
    · rw [hbuf, List.take_nil, Writer.write_nil]
      exact ⟨log, .refl log, hends.mirrors⟩
  obtain ⟨dir', wal', hopen, -⟩ := open_tracks hmir segmentMaxBytes 0
  refine ⟨dir', wal', _, hopen, fun r hr => ?_⟩
  obtain ⟨hheld, hpos⟩ := hacked r hr
  exact List.mem_filter.mpr ⟨Log.mem_flat.mpr (hgrow r hheld), decide_eq_true hpos⟩

/-- A record whose frame is larger than the buffer. -/
def large : Record := .put [1] 1 (List.replicate bufferCapacity 7)

/-- A log opened in an empty directory. -/
def fresh : Appends := start (Wal.first 65536).1 (Wal.first 65536).2.1

/-- **A torn frame in front.**  An append of a large record fails with thirty
bytes written; the next one returns `Ok`; and its record is not replayed. -/
theorem failed_append_destroys_later : ∃ s,
    Reaches step (fun _ call => ∀ r ∈ call.1, 0 < r.lsn ∧ Fits r) fresh s ∧
      s.acked = [.put [2] 2 [8]] ∧
      (Wal.open s.writer.dir 65536 0).toOption.any (fun out => out.2.2.records = []) = true := by
  exact exists_reaches_of_attempt _
    [([large], ⟨30, true, true⟩), ([.put [2] 2 [8]], ⟨1000, true, true⟩)] (by decide +kernel)

theorem tracks_fresh : Tracks (Wal.first 65536).1 (Wal.first 65536).2.1
    (ExtTreeMap.empty.insert 0 []) :=
  open_tracks_nil .empty (by decide +kernel) 65536

/-- A small append fails halfway, and the next one completes it. -/
theorem acked_survive_failures_small : ∃ s, Reaches step Behind fresh s ∧
    s.acked = [.put [2] 2 [8]] ∧ ∀ k segmentMaxBytes, ∃ dir' wal' replay,
      Wal.open (s.writer.write (s.writer.buf.take k)).dir segmentMaxBytes 0 =
        .ok (dir', wal', replay) ∧
      ∀ r ∈ s.acked, r ∈ replay.records := by
  have hrun : ∃ s, Reaches step Behind fresh s ∧ s.acked = [.put [2] 2 [8]] :=
    exists_reaches_of_attempt _
      [([.put [1] 1 [7]], ⟨12, true, true⟩), ([.put [2] 2 [8]], ⟨1000, true, true⟩)]
      (by decide +kernel)
  obtain ⟨s, hreach, hacked⟩ := hrun
  exact ⟨s, hreach, hacked, acked_survive_failures tracks_fresh hreach⟩

end Appends

end HolyGrail
