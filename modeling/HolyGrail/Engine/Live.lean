import HolyGrail.Engine
import HolyGrail.Wal.Faults

/-!
# HolyGrail.Engine.Live

The write path with its error paths.  A `LiveEngine` is an engine with the buffer
of its log, and a `Call` says where a `put` or `delete` fails: in its log append,
as in `HolyGrail.Wal.Faults`, or in the flush it sets off.  A call that fails
leaves what it had done.

Where nothing fails, a call is the one of `HolyGrail.Engine` (`agrees_mutate`).
-/

namespace HolyGrail

/-! ## calls that fail -/

/-- Where the flush of a frozen memtable fails. -/
inductive FlushFault where
  /-- The catalog does not answer `published_watermark`. -/
  | readWatermark
  | stage
  /-- DuckDB exits with an error; its insert may have been committed. -/
  | publish (landed : Bool)
  | publishIndex
  /-- `truncate_through` fails at its `i`-th deletion. -/
  | truncate (i : Nat)
  deriving DecidableEq, Repr

/-- The deletion of `truncate_through` that fails, if the flush gets there. -/
def FlushFault.deletion : Option FlushFault → Option Nat
  | some (.truncate i) => some i
  | _ => none

/-- The loop of `truncate_through`, whose `i`-th deletion fails given `some i`. -/
def Wal.removeUntil : Option Nat → List Segment → Dir → Dir × Except Error Unit
  | _, [], dir => (dir, .ok ())
  | some 0, _ :: _, dir => (dir, .error .io)
  | fails, seg :: rest, dir =>
      match dir.remove seg.path with
      | .error e => (dir, .error e)
      | .ok dir => removeUntil (fails.map (· - 1)) rest dir

theorem Wal.removeUntil_none (segs : List Segment) (dir : Dir) :
    removeUntil none segs dir =
      match removeAll segs dir with
      | .ok dir => (dir, .ok ())
      | .error e => ((removeUntil none segs dir).1, .error e) := by
  induction segs generalizing dir with
  | nil => rfl
  | cons seg rest ih =>
      rw [removeUntil, removeAll]
      cases dir.remove seg.path with
      | error e => rfl
      | ok dir => exact ih dir
      · rintro ⟨⟩

/-- An engine in its process: what outlives it, what does not, and the bytes the
log's `BufWriter` holds. -/
structure LiveEngine where
  store : Store
  engine : Engine
  buf : Bytes

/-- A `put` or `delete`, what the file system does in its log append, and where
its flush fails. -/
structure Call where
  mutation : Mutation
  log : Fault
  flush : Option FlushFault
  deriving DecidableEq, Repr

namespace LiveEngine

def memtables (p : LiveEngine) : MemtableSet := p.engine.memtables

def writer (p : LiveEngine) : Writer := { dir := p.store.dir, wal := p.engine.wal, buf := p.buf }

def setWriter (p : LiveEngine) (w : Writer) : LiveEngine where
  store := { p.store with dir := w.dir }
  engine := { p.engine with wal := w.wal }
  buf := w.buf

def setMemtables (p : LiveEngine) (memtables : MemtableSet) : LiveEngine :=
  { p with engine := { p.engine with memtables } }

def setLake (p : LiveEngine) (lake : List DataFile) : LiveEngine :=
  { p with store := { p.store with lake } }

def retire (p : LiveEngine) (flushed : Arc Memtable) : LiveEngine :=
  { p with engine := p.engine.retire flushed }

/-- Truncate the log.  It forgets the covered segments before it deletes them,
so they are forgotten also when a deletion fails. -/
def truncateWal (p : LiveEngine) (watermark : Nat) (fault : Option FlushFault) :
    LiveEngine × Except Error Unit :=
  let (dir, result) :=
    Wal.removeUntil (FlushFault.deletion fault) (p.engine.wal.covered watermark) p.store.dir
  (p.setWriter { p.writer with dir, wal := p.engine.wal.dropCovered watermark }, result)

/-- The part of `flush_inner` that follows the publish. -/
def finish (p : LiveEngine) (frozen : Arc Memtable) (watermark : Nat) (fault : Option FlushFault) :
    LiveEngine × Except Error Flushed :=
  if fault = some .publishIndex then (p, .error .postgres)
  else
    match p.engine.publishIndex p.store with
    | .error e => (p, .error e)
    | .ok engine =>
        match { p with engine }.truncateWal watermark fault with
        | (p, .error e) => (p, .error e)
        | (p, .ok ()) => (p.retire frozen, .ok (.committed watermark 1))

/-- The part of `flush_inner` that follows the freeze. -/
def flushFrozen (db : DuckDb) (p : LiveEngine) (frozen : Arc Memtable) (fault : Option FlushFault) :
    LiveEngine × Except Error Flushed :=
  if fault = some .readWatermark then (p, .error .postgres)
  else
    match plan (publishedWatermark p.store.lake) frozen.val with
    | .empty => (p.retire frozen, .ok .empty)
    | .alreadyPublished watermark =>
        match p.truncateWal watermark fault with
        | (p, .error e) => (p, .error e)
        | (p, .ok ()) => (p.retire frozen, .ok (.alreadyPublished watermark))
    | .write watermark =>
        let published := p.setLake (publish db p.store.lake (batches frozen.val))
        match fault with
        | some .stage => (p, .error .io)
        | some (.publish false) => (p, .error .duckDbExec)
        | some (.publish true) => (published, .error .duckDbExec)
        | _ => published.finish frozen watermark fault

def flush (db : DuckDb) (p : LiveEngine) (fault : Option FlushFault) :
    LiveEngine × Except Error Flushed :=
  match p.memtables.freeze with
  | .error e => (p, .error e)
  | .ok (none, _) => (p, .ok .empty)
  | .ok (some frozen, memtables) => (p.setMemtables memtables).flushFrozen db frozen fault

/-- Durable, then visible, then flushed. -/
def append (db : DuckDb) (p : LiveEngine) (rec : Record) (log : Fault) (fault : Option FlushFault) :
    LiveEngine × Except Error Unit :=
  match p.writer.append [rec] log with
  | .error w => (p.setWriter w, .error .io)
  | .ok w =>
      let p := (p.setWriter w).setMemtables (p.memtables.insert rec)
      if p.memtables.shouldFreeze then
        let (p, flushed) := p.flush db fault
        (p, flushed.map fun _ => ())
      else (p, .ok ())

def takeLsn (p : LiveEngine) : LiveEngine :=
  { p with engine := { p.engine with nextLsn := p.engine.nextLsn + 1 } }

/-- `put` and `delete`: take the next LSN and append. -/
def mutate (db : DuckDb) (p : LiveEngine) (call : Call) : LiveEngine × Except Error Nat :=
  let lsn := p.engine.nextLsn
  let (p, appended) := p.takeLsn.append db (call.mutation.record lsn) call.log call.flush
  (p, appended.map fun _ => lsn)

/-- One call after the other, whatever each returned. -/
def run (db : DuckDb) (p : LiveEngine) (calls : List Call) : LiveEngine :=
  calls.foldl (fun p call => (p.mutate db call).1) p

/-! ## calls in which nothing fails -/

variable {db : DuckDb} {p : LiveEngine}

/-- The call returned what the engine's does, with the same memtables; if it
returned `ok`, everything is the same. -/
structure Agrees {α : Type} (x : LiveEngine × Except Error α)
    (y : Store × Engine × Except Error α) : Prop where
  result : x.2 = y.2.2
  memtables : x.1.memtables = y.2.1.memtables
  state : ∀ a, y.2.2 = .ok a → x.1 = { store := y.1, engine := y.2.1, buf := x.1.buf }

theorem Agrees.error {α : Type} {store : Store} {engine : Engine} {e : Error}
    (h : p.memtables = engine.memtables) :
    Agrees ((p, .error e) : LiveEngine × Except Error α) (store, engine, .error e) :=
  ⟨rfl, h, nofun⟩

theorem Agrees.ok {α : Type} {store : Store} {engine : Engine} {buf : Bytes} {a : α} :
    Agrees ({ store, engine, buf }, .ok a) (store, engine, .ok a) :=
  ⟨rfl, rfl, fun _ _ => rfl⟩

theorem truncateWal_none (p : LiveEngine) (watermark : Nat) :
    p.truncateWal watermark none =
      match p.engine.truncateWal p.store watermark with
      | .ok (store, engine) => ({ store, engine, buf := p.buf }, .ok ())
      | .error e => ((p.truncateWal watermark none).1, .error e) := by
  have hdel : FlushFault.deletion none = none := rfl
  rw [Engine.truncateWal, truncateWal, Wal.truncateThrough, hdel, Wal.removeUntil_none]
  cases Wal.removeAll (p.engine.wal.covered watermark) p.store.dir with
  | error e => rfl
  | ok dir => rfl

theorem agrees_finish (p : LiveEngine) (frozen : Arc Memtable) (watermark : Nat) :
    Agrees ((p.setLake (publish db p.store.lake (batches frozen.val))).finish frozen watermark none)
      (Engine.flushWrite db p.store p.engine frozen watermark none) := by
  rw [finish, if_neg nofun, Engine.flushWrite, if_neg nofun]
  generalize hp : p.setLake _ = q
  have hstore : { p.store with lake := publish db p.store.lake (batches frozen.val) } = q.store :=
    congrArg store hp
  have hengine : p.engine = q.engine := by
    rw [← hp]
    rfl
  dsimp only
  rw [hstore, hengine]
  cases hi : q.engine.publishIndex q.store with
  | error e => exact .error rfl
  | ok engine =>
      dsimp only
      rw [if_neg nofun, truncateWal_none]
      cases ht : engine.truncateWal q.store watermark with
      | error e => exact .error rfl
      | ok out => exact .ok

theorem agrees_flush (p : LiveEngine) :
    Agrees (p.flush db none) (Engine.flush db p.store p.engine) := by
  rw [flush, Engine.flush, Engine.flushInner]
  have hm : p.memtables = p.engine.memtables := rfl
  rw [hm]
  cases p.engine.memtables.freeze with
  | error e => exact .error rfl
  | ok out =>
      obtain ⟨_ | frozen, set'⟩ := out
      · exact .ok
      · dsimp only
        rw [flushFrozen, if_neg nofun, if_neg nofun]
        dsimp only [setMemtables]
        cases plan (publishedWatermark p.store.lake) frozen.val with
        | empty => exact .ok
        | alreadyPublished watermark =>
            dsimp only
            rw [truncateWal_none]
            dsimp only
            cases Engine.truncateWal p.store { p.engine with memtables := set' } watermark with
            | error e => exact .error rfl
            | ok out => exact .ok
        | write watermark => exact agrees_finish (p.setMemtables set') frozen watermark

theorem Agrees.map {α β : Type} {x : LiveEngine × Except Error α}
    {y : Store × Engine × Except Error α} (h : Agrees x y) (f : α → β) :
    Agrees (x.1, x.2.map f) (y.1, y.2.1, y.2.2.map f) where
  result := congrArg (Except.map f) h.result
  memtables := h.memtables
  state b hb := by
    cases hy : y.2.2 with
    | error e =>
        rw [hy] at hb
        contradiction
    | ok a => exact h.state a hy

theorem append_engine (store : Store) (engine : Engine) (rec : Record)
    (h : (engine.memtables.insert rec).shouldFreeze = true) :
    Engine.append db store engine rec none =
      let (dir, wal) := engine.wal.append store.dir [rec]
      let (store, engine, result) := Engine.flush db { store with dir }
        { engine with wal, memtables := engine.memtables.insert rec }
      (store, engine, result.map fun _ => ()) := by
  rw [Engine.append]
  dsimp only
  rw [if_pos h, Engine.flush]
  split
  · next hf => simp only [hf, Except.map]
  · next hf => simp only [hf, Except.map]

theorem mutate_engine (store : Store) (engine : Engine) (m : Mutation) :
    Engine.mutate db store engine m none =
      let (store, engine', result) := Engine.append db store
        { engine with nextLsn := engine.nextLsn + 1 } (m.record engine.nextLsn) none
      (store, engine', result.map fun _ => engine.nextLsn) := by
  rw [Engine.mutate]
  dsimp only
  split
  · next hf => simp only [hf, Except.map]
  · next hf => simp only [hf, Except.map]

theorem agrees_append {rec : Record} {log : Fault} (hbuf : p.buf = [])
    (hquota : (frames [rec]).length ≤ log.quota) (hseals : log.seals = true)
    (hsyncs : log.syncs = true) :
    Agrees (p.append db rec log none) (Engine.append db p.store p.engine rec none) := by
  rw [append, Writer.append_of_room (w := p.writer) hbuf hquota hseals hsyncs]
  dsimp only
  split
  · next h =>
      rw [append_engine p.store p.engine rec h]
      exact (agrees_flush _).map _
  · next h =>
      have hlow : ¬ (p.engine.memtables.insert rec).shouldFreeze = true := h
      rw [Engine.append]
      dsimp only
      rw [if_neg hlow]
      exact .ok

/-- **Where nothing fails, this is the engine.** -/
theorem agrees_mutate {call : Call} (hbuf : p.buf = []) (hflush : call.flush = none)
    (hquota : (frames [call.mutation.record p.engine.nextLsn]).length ≤ call.log.quota)
    (hseals : call.log.seals = true) (hsyncs : call.log.syncs = true) :
    Agrees (p.mutate db call) (Engine.mutate db p.store p.engine call.mutation none) := by
  rw [mutate, mutate_engine, hflush]
  exact (agrees_append (p := p.takeLsn) hbuf hquota hseals hsyncs).map _

end LiveEngine

end HolyGrail
