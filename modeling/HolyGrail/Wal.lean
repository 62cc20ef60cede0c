import HolyGrail.Record
import Mathlib.Data.List.Sort

/-!
# HolyGrail.Wal

The segmented write-ahead log (`wal.rs`), over an explicit directory of
files.

A `Dir` maps file names to contents, so every file-system call of the source
is a function on it: `create` opens with `create(true).append(true)`,
`append` is a completed `write_all` plus `sync_data` on an open handle,
`setLen` is `set_len`, `remove` is `remove_file`.  `Wal` is the in-memory
bookkeeping beside it.
-/

namespace HolyGrail

/-! ## the directory -/

/-- The log directory: file name to contents. -/
abbrev Dir := Std.ExtTreeMap FileName Bytes

namespace Dir

/-- Open a file for appending, creating it empty if it is not there. -/
def create (dir : Dir) (path : FileName) : Dir :=
  if path ∈ dir then dir else dir.insert path []

/-- Bytes reach the end of an open file.  An unlinked file keeps no name in
the directory, so bytes written to it leave the directory as it is. -/
def append (dir : Dir) (path : FileName) (bs : Bytes) : Dir :=
  dir.modify path (· ++ bs)

def setLen (dir : Dir) (path : FileName) (len : Nat) : Dir :=
  dir.modify path (·.take len)

def remove (dir : Dir) (path : FileName) : Except Error Dir :=
  if path ∈ dir then .ok (dir.erase path) else .error .io

end Dir

/-! ## segment names -/

/-- The characters of `SEGMENT_SUFFIX`. -/
def segmentSuffix : FileName := ['.', 'w', 'a', 'l']

/-- The `w` low decimal digits of `n`, most significant first. -/
def decimal : Nat → Nat → List Char
  | 0, _ => []
  | w + 1, n => decimal w (n / 10) ++ [Nat.digitChar (n % 10)]

/-- `{start_lsn:020}` and the suffix.  Twenty digits hold every `u64`. -/
@[irreducible] def segmentName (startLsn : Nat) : FileName := decimal 20 startLsn ++ segmentSuffix

/-- `name.strip_suffix(SEGMENT_SUFFIX)`. -/
def stripSegmentSuffix (name : FileName) : Option FileName :=
  if segmentSuffix.isSuffixOf name then some (name.take (name.length - segmentSuffix.length))
  else none

/-- Read decimal digits after the number `acc`. -/
def parseDigits (acc : Nat) : List Char → Option Nat
  | [] => some acc
  | c :: cs => if c.isDigit then parseDigits (acc * 10 + (c.toNat - 48)) cs else none

/-- `str::parse::<u64>`: an optional plus sign, at least one digit, and a value
below `2 ^ 64`. -/
def parseLsn (s : List Char) : Option Nat :=
  let digits := if s.head? = some '+' then s.tail else s
  if digits = [] then none else (parseDigits 0 digits).filter (· < 2 ^ 64)

/-- The start LSN a directory entry's name carries, if it is a segment. -/
def startLsnOf (name : FileName) : Option Nat := (stripSegmentSuffix name).bind parseLsn

/-! ## the log -/

structure Segment where
  path : FileName
  startLsn : Nat
  maxLsn : Nat
  deriving DecidableEq, Repr

/-- The bookkeeping of an open log. -/
structure Wal where
  segmentMaxBytes : Nat
  active : Segment
  activeBytes : Nat
  sealed : List Segment
  deriving DecidableEq, Repr

/-- What a replay found on disk. -/
structure Replay where
  records : List Record
  maxLsn : Nat
  deriving DecidableEq, Repr

/-- The highest LSN of a batch, `0` for none. -/
def maxLsnOf (recs : List Record) : Nat := recs.foldr (fun r m => max r.lsn m) 0

/-- A batch as `append` lays it out in the scratch buffer. -/
def frames (recs : List Record) : Bytes := recs.foldl (fun out r => encode r out) []

namespace Wal

/-- The segment files of a directory, in the order of their start LSN. -/
def listSegments (dir : Dir) : List Segment :=
  (dir.keys.filterMap fun name =>
    (startLsnOf name).map fun start =>
      { path := name, startLsn := start, maxLsn := 0 }).insertionSort
    fun a b => a.startLsn ≤ b.startLsn

/-- Read frames from the front of `buf`, which starts at offset `off` of the
segment, until one is torn.  Returns the records, the highest LSN, and the
offset of the end of the last intact frame. -/
def replayFrom (seg : FileName) (buf : Bytes) (off : Nat) :
    Except Error (List Record × Nat × Nat) :=
  match h : decode buf seg off with
  | .error e => .error e
  | .ok none => .ok ([], 0, off)
  | .ok (some (r, n)) =>
      have := decode_consumes h
      match replayFrom seg (buf.drop n) (off + n) with
      | .error e => .error e
      | .ok (rs, m, good) => .ok (r :: rs, max r.lsn m, good)
termination_by buf.length
decreasing_by
  rw [List.length_drop]
  omega

def replaySegment (seg : FileName) (buf : Bytes) : Except Error (List Record × Nat × Nat) :=
  replayFrom seg buf 0

/-- The segment loop of `open`: replay each segment, cut it back to its last
good frame, and collect what lies above `fromLsn`. -/
def recoverSegments (fromLsn : Nat) : List Segment → Dir →
    Except Error (Dir × List Segment × Replay)
  | [], dir => .ok (dir, [], { records := [], maxLsn := 0 })
  | seg :: rest, dir =>
      match dir[seg.path]? with
      | none => .error .io
      | some buf =>
        match replaySegment seg.path buf with
        | .error e => .error e
        | .ok (recs, segMax, good) =>
          let dir := if good < buf.length then dir.setLen seg.path good else dir
          match recoverSegments fromLsn rest dir with
          | .error e => .error e
          | .ok (dir, segs, replay) =>
              .ok (dir, { seg with maxLsn := segMax } :: segs,
                { records := recs.filter (fun r => fromLsn < r.lsn) ++ replay.records
                  maxLsn := max segMax replay.maxLsn })

/-- Open (or create) the log, replaying whatever is there.  `fromLsn` is the
flush watermark: records at or below it are skipped. -/
def «open» (dir : Dir) (segmentMaxBytes : Nat) (fromLsn : Nat) :
    Except Error (Dir × Wal × Replay) :=
  match recoverSegments fromLsn (listSegments dir) dir with
  | .error e => .error e
  | .ok (dir, segments, replay) =>
      -- Reuse the newest segment as the active one.
      let (active, activeBytes, sealed) :=
        match segments.getLast? with
        | some last => (last, (dir[last.path]?.getD []).length, segments.dropLast)
        | none => ({ path := segmentName 0, startLsn := 0, maxLsn := 0 }, 0, [])
      .ok (dir.create active.path, { segmentMaxBytes, active, activeBytes, sealed }, replay)

def rotate (dir : Dir) (wal : Wal) (nextLsn : Nat) : Dir × Wal :=
  (dir.create (segmentName nextLsn),
    { wal with
      active := { path := segmentName nextLsn, startLsn := nextLsn, maxLsn := 0 }
      activeBytes := 0
      sealed := wal.sealed ++ [wal.active] })

/-- The rotation `append` makes before it writes a batch that starts at `lsn`. -/
def makeRoom (dir : Dir) (wal : Wal) (lsn : Nat) : Dir × Wal :=
  if wal.activeBytes ≥ wal.segmentMaxBytes then rotate dir wal lsn else (dir, wal)

/-- Durably append a batch: the call that returned. -/
def append (dir : Dir) (wal : Wal) (records : List Record) : Dir × Wal :=
  match records with
  | [] => (dir, wal)
  | first :: _ =>
      let (dir, wal) := makeRoom dir wal first.lsn
      let scratch := frames records
      (dir.append wal.active.path scratch,
        { wal with
          activeBytes := wal.activeBytes + scratch.length
          active := { wal.active with maxLsn := max wal.active.maxLsn (maxLsnOf records) } })

/-- The directory when the process dies inside `append` of a batch, with the
first `n` bytes of the batch on disk. -/
def appendTorn (dir : Dir) (wal : Wal) (records : List Record) (n : Nat) : Dir :=
  match records with
  | [] => dir
  | first :: _ =>
      let (dir, wal) := makeRoom dir wal first.lsn
      dir.append wal.active.path ((frames records).take n)

/-- The sealed segments `truncate_through` deletes. -/
def covered (wal : Wal) (watermark : Nat) : List Segment :=
  wal.sealed.filter fun s => s.maxLsn ≤ watermark ∧ s.maxLsn > 0

def removeAll : List Segment → Dir → Except Error Dir
  | [], dir => .ok dir
  | seg :: rest, dir =>
      match dir.remove seg.path with
      | .error e => .error e
      | .ok dir => removeAll rest dir

/-- The bookkeeping `truncate_through` leaves, on success and on error alike. -/
def dropCovered (wal : Wal) (watermark : Nat) : Wal :=
  { wal with sealed := wal.sealed.filter fun s => ¬ (s.maxLsn ≤ watermark ∧ s.maxLsn > 0) }

/-- Drop every sealed segment fully covered by `watermark`. -/
def truncateThrough (dir : Dir) (wal : Wal) (watermark : Nat) : Except Error (Dir × Wal) :=
  match removeAll (wal.covered watermark) dir with
  | .error e => .error e
  | .ok dir => .ok (dir, wal.dropCovered watermark)

end Wal

end HolyGrail
