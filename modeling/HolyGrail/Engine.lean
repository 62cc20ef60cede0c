import HolyGrail.DuckDb
import HolyGrail.Wal

/-!
# HolyGrail.Engine

The engine (`engine.rs`): write path, read path, flush and recovery, as one
client runs them.

What outlives the process is the `Store`: the log directory and the live files
of the lake.  Everything else is the `Engine`.  An operation takes both and
returns both, also when it fails; DuckDB is the parameter `db`.
-/

namespace HolyGrail

/-- The part of the configuration the modelled functions read. -/
structure Config where
  walSegmentBytes : Nat
  memtableMaxBytes : Nat
  maxFrozenMemtables : Nat
  /-- `MemtableSet::new` asserts it. -/
  maxFrozen_pos : 0 < maxFrozenMemtables

/-- What outlives the process. -/
structure Store where
  dir : Dir
  lake : List DataFile

structure Engine where
  index : FileIndex
  memtables : MemtableSet
  wal : Wal
  nextLsn : Nat

/-- Where a flush stops, for the crash harness. -/
inductive CrashAt where
  | beforeWrite
  | afterWrite
  | afterCommit
  | afterTruncate
  deriving DecidableEq, Repr

/-- One committed insert: the rows of the staged batches become a live file. -/
def publish (db : DuckDb) (lake : List DataFile) (staged : List RecordBatch) : List DataFile :=
  lake ++ [db.write lake.length (stagedRows staged)]

/-- The two mutations a client can ask for. -/
inductive Mutation where
  | put (key value : Bytes)
  | delete (key : Bytes)
  deriving DecidableEq, Repr

namespace Mutation

def record (m : Mutation) (lsn : Nat) : Record :=
  match m with
  | .put key value => Record.put key lsn value
  | .delete key => Record.delete key lsn

@[simp] theorem record_lsn (m : Mutation) (lsn : Nat) : (m.record lsn).lsn = lsn := by
  cases m <;> rfl

end Mutation

namespace Engine

/-- The end of `open`: replay the log above the watermark into fresh
memtables. -/
def recover (cfg : Config) (dir : Dir) (watermark : Nat) (index : FileIndex) :
    Except Error (Dir × Engine) :=
  match Wal.open dir cfg.walSegmentBytes watermark with
  | .error e => .error e
  | .ok (dir, wal, replay) =>
      let memtables := replay.records.foldl MemtableSet.insert
        (MemtableSet.new cfg.memtableMaxBytes cfg.maxFrozenMemtables cfg.maxFrozen_pos)
      .ok (dir, { index, memtables, wal, nextLsn := max replay.maxLsn watermark + 1 })

theorem index_recover {cfg : Config} {dir dir' : Dir} {watermark : Nat} {index : FileIndex}
    {engine : Engine} (h : recover cfg dir watermark index = .ok (dir', engine)) :
    engine.index = index := by
  rw [recover] at h
  split at h
  · contradiction
  · rw [Except.ok.injEq, Prod.mk.injEq] at h
    rw [← h.2]

/-- Rebuild all local state from the lake and the log. -/
def «open» (cfg : Config) (store : Store) : Except Error (Store × Engine) :=
  let watermark := publishedWatermark store.lake
  match FileIndex.load store.lake with
  | .error e => .error e
  | .ok index =>
      match recover cfg store.dir watermark index with
      | .error e => .error e
      | .ok (dir, engine) => .ok ({ store with dir }, engine)

/-- The row tier answers first, and its answer is final. -/
def get (store : Store) (engine : Engine) (key : Bytes) : Except Error (Option Bytes) :=
  match engine.memtables.get key with
  | .found v => .ok (some v)
  | .deleted => .ok none
  | .missing =>
      match ColumnarReader.get store.lake engine.index key with
      | .error e => .error e
      | .ok (.found v) => .ok (some v)
      | .ok .deleted => .ok none
      | .ok .missing => .ok none

/-- Rebuild the file index from the catalog. -/
def publishIndex (store : Store) (engine : Engine) : Except Error Engine :=
  match FileIndex.load store.lake with
  | .error e => .error e
  | .ok index => .ok { engine with index }

def truncateWal (store : Store) (engine : Engine) (watermark : Nat) :
    Except Error (Store × Engine) :=
  match engine.wal.truncateThrough store.dir watermark with
  | .error e => .error e
  | .ok (dir, wal) => .ok ({ store with dir }, { engine with wal })

def retire (engine : Engine) (flushed : Arc Memtable) : Engine :=
  { engine with memtables := engine.memtables.retire flushed }

/-- The part of `flush_inner` that follows `Plan::Write`. -/
def flushWrite (db : DuckDb) (store : Store) (engine : Engine) (frozen : Arc Memtable)
    (watermark : Nat) (crash : Option CrashAt) : Store × Engine × Except Error Flushed :=
  let staged := batches frozen.val
  if crash = some .afterWrite then (store, engine, .ok .empty)
  else
    let store := { store with lake := publish db store.lake staged }
    match publishIndex store engine with
    | .error e => (store, engine, .error e)
    | .ok engine =>
        if crash = some .afterCommit then (store, engine, .ok (.committed watermark 1))
        else
          match truncateWal store engine watermark with
          | .error e => (store, engine, .error e)
          | .ok (store, engine) =>
              if crash = some .afterTruncate then (store, engine, .ok (.committed watermark 1))
              else (store, engine.retire frozen, .ok (.committed watermark 1))

/-- Flush, optionally stopping partway through. -/
def flushInner (db : DuckDb) (store : Store) (engine : Engine) (crash : Option CrashAt) :
    Store × Engine × Except Error Flushed :=
  match engine.memtables.freeze with
  | .error e => (store, engine, .error e)
  | .ok (none, _) => (store, engine, .ok .empty)
  | .ok (some frozen, memtables) =>
      let engine := { engine with memtables }
      if crash = some .beforeWrite then (store, engine, .ok .empty)
      else
        match plan (publishedWatermark store.lake) frozen.val with
        | .empty => (store, engine.retire frozen, .ok .empty)
        | .alreadyPublished watermark =>
            match truncateWal store engine watermark with
            | .error e => (store, engine, .error e)
            | .ok (store, engine) =>
                (store, engine.retire frozen, .ok (.alreadyPublished watermark))
        | .write watermark => flushWrite db store engine frozen watermark crash

def flush (db : DuckDb) (store : Store) (engine : Engine) : Store × Engine × Except Error Flushed :=
  flushInner db store engine none

/-- Durable, then visible.  The flush inside is the automatic one; `crash` is
where it stops. -/
def append (db : DuckDb) (store : Store) (engine : Engine) (rec : Record)
    (crash : Option CrashAt) : Store × Engine × Except Error Unit :=
  let (dir, wal) := engine.wal.append store.dir [rec]
  let store := { store with dir }
  let engine := { engine with wal, memtables := engine.memtables.insert rec }
  if engine.memtables.shouldFreeze then
    match flushInner db store engine crash with
    | (store, engine, .ok _) => (store, engine, .ok ())
    | (store, engine, .error e) => (store, engine, .error e)
  else (store, engine, .ok ())

/-- `put` and `delete`: take the next LSN and append. -/
def mutate (db : DuckDb) (store : Store) (engine : Engine) (m : Mutation)
    (crash : Option CrashAt) : Store × Engine × Except Error Nat :=
  let lsn := engine.nextLsn
  let engine := { engine with nextLsn := lsn + 1 }
  match append db store engine (m.record lsn) crash with
  | (store, engine, .ok ()) => (store, engine, .ok lsn)
  | (store, engine, .error e) => (store, engine, .error e)

def put (db : DuckDb) (store : Store) (engine : Engine) (key value : Bytes) :
    Store × Engine × Except Error Nat :=
  mutate db store engine (.put key value) none

def delete (db : DuckDb) (store : Store) (engine : Engine) (key : Bytes) :
    Store × Engine × Except Error Nat :=
  mutate db store engine (.delete key) none

end Engine

end HolyGrail
