import HolyGrail.Engine
import HolyGrail.Run

/-!
# HolyGrail.Node

One process life of the engine, in atomic steps.

`put`, `delete`, `get` and `flush_inner` are asynchronous and take no common
lock, so any number of calls can be under way at once.  A call is kept at the
point it has reached, and `step` lets one call do what it does between two
points where another can come in:

* a write takes its LSN, appends to the log, inserts into the active memtable,
  and is acknowledged;
* a flush freezes the active memtable, reads the published watermark, plans,
  stages, publishes, queries the catalog, installs the new index, truncates the
  log, and retires its memtable;
* a read looks into the memtables, takes the current index, and scans its files.

A flush that a write starts is a flush like any other here, and the write may
be acknowledged at any time after its insert, so the runs of this system
include those of the source.  A flush that finds nothing to freeze or a full
queue changes nothing and has no step.

`Trail` and `History` record what happened; no step looks at them.
-/

namespace HolyGrail

open Std (ExtTreeMap)

/-! ## calls under way -/

inductive WriteStage where
  | allocated
  | logged
  | inserted
  deriving DecidableEq, Repr

/-- A `put` or `delete` under way. -/
structure WriteCall where
  record : Record
  stage : WriteStage

/-- How far a `flush_inner` has come.  From its publish on it remembers the
file it added to the lake. -/
inductive FlushStage where
  | frozen
  | read (published : Nat)
  | planned (watermark : Nat)
  | staged (watermark : Nat) (batches : List RecordBatch)
  | published (watermark : Nat) (file : DataFile)
  | queried (watermark : Nat) (file : DataFile) (index : FileIndex)
  /-- Published and visible, or found to be: the log can be truncated. -/
  | covered (result : Flushed) (file : Option DataFile)
  | truncated (result : Flushed) (file : Option DataFile)

/-- A `flush_inner` under way, with the memtable it froze. -/
structure FlushCall where
  memtable : Arc Memtable
  stage : FlushStage

inductive ReadStage where
  | began
  | missed
  | holding (index : FileIndex)

/-- A `get` under way, with what had happened when it began. -/
structure ReadCall where
  key : Bytes
  stage : ReadStage
  inserted : List Record
  acked : List Record
  prior : List (Bytes × Option (Version Bytes))

/-- A `get` that returned: the version it found, what it returned, and what
had happened when it began. -/
structure Answer where
  key : Bytes
  hit : Option (Version Bytes)
  result : Except Error (Option Bytes)
  inserted : List Record
  acked : List Record
  prior : List (Bytes × Option (Version Bytes))

/-- The steps of a flush that bear on the index. -/
inductive IndexStep where
  | publish
  | query
  | install
  deriving DecidableEq, Repr

/-- The memtables of this process life, in the order they were frozen, those
of them that were published, and the files whose memtable was retired; and the
order in which the flushes published, queried the catalog and installed. -/
structure Trail where
  closed : List (Arc Memtable)
  published : List (Arc Memtable)
  retired : List DataFile
  order : List (IndexStep × Nat)

def Trail.note (t : Trail) (step : IndexStep) (p : Nat) : Trail :=
  { t with order := t.order ++ [(step, p)] }

/-- What happened, over all process lives: records that reached a memtable,
records that were acknowledged, and reads that returned. -/
structure History where
  inserted : List Record
  acked : List Record
  answers : List Answer

/-- The volatile part of the system. -/
structure Process where
  engine : Engine
  /-- By LSN. -/
  writes : ExtTreeMap Nat WriteCall
  /-- By the pointer of the frozen memtable. -/
  flushes : ExtTreeMap Nat FlushCall
  /-- By a number of the client's choice. -/
  reads : ExtTreeMap Nat ReadCall
  trail : Trail

structure Node extends Process where
  store : Store
  history : History

/-! ## steps -/

inductive Act where
  | alloc (m : Mutation)
  | log (lsn : Nat)
  | insert (lsn : Nat)
  | ack (lsn : Nat)
  | freeze
  | readWatermark (p : Nat)
  | plan (p : Nat)
  | stage (p : Nat)
  | publish (p : Nat)
  | query (p : Nat)
  | install (p : Nat)
  | truncate (p : Nat)
  | retire (p : Nat)
  /-- The flush returns an error where it stands. -/
  | fail (p : Nat)
  /-- `truncate_through` fails at its `i`-th deletion. -/
  | failTruncate (p i : Nat)
  | begin (r : Nat) (key : Bytes)
  | lookup (r : Nat)
  | snapshot (r : Nat)
  | scan (r : Nat)
  deriving DecidableEq, Repr

/-- LSNs end where the `BIGINT` column does. -/
def lsnLimit : Nat := 2 ^ 63

/-- The files an index lists. -/
def FileIndex.files (lake : List DataFile) (index : FileIndex) : List DataFile :=
  index.entries.filterMap fun e => lake.find? fun f => f.location = e.location

/-- `Some` for a value found, `None` for a deletion or a miss. -/
def Lookup.toResult : Lookup → Option Bytes
  | .found v => some v
  | .deleted | .missing => none

namespace Node

/-- Move a write to its next stage. -/
def moveWrite (n : Node) (call : WriteCall) (stage : WriteStage) : Node :=
  { n with writes := n.writes.insert call.record.lsn { call with stage } }

/-- Move a flush to its next stage. -/
def moveFlush (n : Node) (call : FlushCall) (stage : FlushStage) : Node :=
  { n with flushes := n.flushes.insert call.memtable.ptr { call with stage } }

/-- A flush call is over. -/
def endFlush (n : Node) (call : FlushCall) : Node :=
  { n with flushes := n.flushes.erase call.memtable.ptr }

def retireMemtable (n : Node) (mt : Arc Memtable) : Node :=
  { n with engine := n.engine.retire mt }

/-- A read returns. -/
def answer (n : Node) (r : Nat) (call : ReadCall) (hit : Option (Version Bytes))
    (result : Except Error (Option Bytes)) : Node :=
  { n with
    reads := n.reads.erase r
    history := { n.history with
      answers := n.history.answers ++ [
        { key := call.key, hit, result, inserted := call.inserted, acked := call.acked,
          prior := call.prior }] } }

def stepWrite (n : Node) (call : WriteCall) : Act → Option Node
  | .log _ =>
      if call.stage = .allocated then
        let (dir, wal) := n.engine.wal.append n.store.dir [call.record]
        some (moveWrite
          { n with store := { n.store with dir }, engine := { n.engine with wal } } call .logged)
      else none
  | .insert _ =>
      if call.stage = .logged then
        some (moveWrite
          { n with
            engine := { n.engine with memtables := n.engine.memtables.insert call.record }
            history := { n.history with inserted := n.history.inserted ++ [call.record] } }
          call .inserted)
      else none
  | .ack _ =>
      if call.stage = .inserted then
        some { n with
          writes := n.writes.erase call.record.lsn
          history := { n.history with acked := n.history.acked ++ [call.record] } }
      else none
  | _ => none

def stepFlush (db : DuckDb) (n : Node) (call : FlushCall) : Act → Option Node
  | .readWatermark _ =>
      match call.stage with
      | .frozen => some (n.moveFlush call (.read (publishedWatermark n.store.lake)))
      | _ => none
  | .plan _ =>
      match call.stage with
      | .read published =>
          match plan published call.memtable.val with
          | .empty => some ((n.retireMemtable call.memtable).endFlush call)
          | .alreadyPublished w => some (n.moveFlush call (.covered (.alreadyPublished w) none))
          | .write w => some (n.moveFlush call (.planned w))
      | _ => none
  | .stage _ =>
      match call.stage with
      | .planned w => some (n.moveFlush call (.staged w (batches call.memtable.val)))
      | _ => none
  | .publish _ =>
      match call.stage with
      | .staged w staged =>
          some (moveFlush
            { n with
              store := { n.store with lake := publish db n.store.lake staged }
              trail := { n.trail.note .publish call.memtable.ptr with
                published := n.trail.published ++ [call.memtable] } }
            call (.published w (db.write n.store.lake.length (stagedRows staged))))
      | _ => none
  | .query _ =>
      match call.stage with
      | .published w file =>
          match FileIndex.load n.store.lake with
          | .ok index =>
              some (moveFlush { n with trail := n.trail.note .query call.memtable.ptr } call
                (.queried w file index))
          | .error _ => none
      | _ => none
  | .install _ =>
      match call.stage with
      | .queried w file index =>
          some (moveFlush
            { n with
              engine := { n.engine with index }
              trail := n.trail.note .install call.memtable.ptr }
            call (.covered (.committed w 1) (some file)))
      | _ => none
  | .truncate _ =>
      match call.stage with
      | .covered result file =>
          match result.watermark with
          | none => none
          | some w =>
              match n.engine.truncateWal n.store w with
              | .ok (store, engine) =>
                  some (moveFlush { n with store, engine } call (.truncated result file))
              | .error _ => none
      | _ => none
  | .retire _ =>
      match call.stage with
      | .truncated _ file =>
          some (endFlush
            { n.retireMemtable call.memtable with
              trail := { n.trail with retired := n.trail.retired ++ file.toList } } call)
      | _ => none
  | .fail _ => some (n.endFlush call)
  | .failTruncate _ i =>
      match call.stage with
      | .covered result _ =>
          match result.watermark with
          | none => none
          | some w =>
              match Wal.removeAll ((n.engine.wal.covered w).take i) n.store.dir with
              | .ok dir =>
                  some (endFlush
                    { n with
                      store := { n.store with dir }
                      engine := { n.engine with wal := n.engine.wal.dropCovered w } } call)
              | .error _ => none
      | _ => none
  | _ => none

def stepRead (n : Node) (r : Nat) (call : ReadCall) : Act → Option Node
  | .lookup _ =>
      match call.stage with
      | .began =>
          match n.engine.memtables.get call.key with
          | .missing => some { n with reads := n.reads.insert r { call with stage := .missed } }
          | hit =>
              some (n.answer r call (firstHit n.engine.memtables.tiers call.key)
                (.ok hit.toResult))
      | _ => none
  | .snapshot _ =>
      match call.stage with
      | .missed =>
          some { n with reads := n.reads.insert r { call with stage := .holding n.engine.index } }
      | _ => none
  | .scan _ =>
      match call.stage with
      | .holding index =>
          some (n.answer r call
            (firstHit ((index.files n.store.lake).map DataFile.find) call.key)
            ((ColumnarReader.get n.store.lake index call.key).map Lookup.toResult))
      | _ => none
  | _ => none

/-- One atomic step of one call. -/
def step (db : DuckDb) (n : Node) (a : Act) : Option Node :=
  match a with
  | .alloc m =>
      let lsn := n.engine.nextLsn
      if lsn < lsnLimit then
        some { n with
          engine := { n.engine with nextLsn := lsn + 1 }
          writes := n.writes.insert lsn { record := m.record lsn, stage := .allocated } }
      else none
  | .log lsn | .insert lsn | .ack lsn => n.writes[lsn]?.bind fun call => n.stepWrite call a
  | .freeze =>
      match n.engine.memtables.freeze with
      | .ok (some frozen, memtables) =>
          some { n with
            engine := { n.engine with memtables }
            flushes := n.flushes.insert frozen.ptr { memtable := frozen, stage := .frozen }
            trail := { n.trail with closed := n.trail.closed ++ [frozen] } }
      | _ => none
  | .readWatermark p | .plan p | .stage p | .publish p | .query p | .install p | .truncate p
  | .retire p | .fail p | .failTruncate p _ =>
      n.flushes[p]?.bind fun call => n.stepFlush db call a
  | .begin r key =>
      if r ∈ n.reads then none
      else
        some { n with
          reads := n.reads.insert r
            { key, stage := .began, inserted := n.history.inserted, acked := n.history.acked
              prior := n.history.answers.map fun a => (a.key, a.hit) } }
  | .lookup r | .snapshot r | .scan r => n.reads[r]?.bind fun call => n.stepRead r call a

/-- The process right after `Engine::open`. -/
def boot (store : Store) (engine : Engine) (history : History) : Node where
  engine
  writes := ∅
  flushes := ∅
  reads := ∅
  trail := { closed := [], published := [], retired := [], order := [] }
  store
  history

/-- A process that opens the store. -/
def start (cfg : Config) (store : Store) (history : History) : Option Node :=
  match Engine.open cfg store with
  | .error _ => none
  | .ok (store, engine) => some (boot store engine history)

/-- A run in which no flush fails. -/
def NoFailure : Act → Prop
  | .fail _ | .failTruncate _ _ => False
  | _ => True

instance (a : Act) : Decidable (NoFailure a) := by
  unfold NoFailure
  split <;> infer_instance

/-- A run from the opening of a store, by trying a list of actions. -/
theorem exists_run_of_attempt (db : DuckDb) (guard : Node → Act → Prop)
    [∀ n a, Decidable (guard n a)] (P : Node → Prop) [DecidablePred P] {cfg : Config}
    {store : Store} {history : History} (as : List Act)
    (h : (start cfg store history).any (fun n =>
      (attempt (step db) guard n as).any fun n' => P n') = true) :
    ∃ n n', start cfg store history = some n ∧ Reaches (step db) guard n n' ∧ P n' := by
  obtain ⟨n, hn, hrun⟩ := (Option.any_eq_true _ _).mp h
  obtain ⟨n', hreach, hP⟩ := exists_reaches_of_attempt P as hrun
  exact ⟨n, n', hn, hreach, hP⟩

/-- A history with nothing in it. -/
def noHistory : History := { inserted := [], acked := [], answers := [] }

/-- A store with nothing in it. -/
def emptyStore : Store := { dir := ∅, lake := [] }

/-- A small configuration for concrete runs: automatic flushes never trigger,
and two memtables can wait. -/
def smallConfig : Config where
  walSegmentBytes := 1024
  memtableMaxBytes := 1024
  maxFrozenMemtables := 2
  maxFrozen_pos := by decide

end Node

end HolyGrail
