import HolyGrail.System.Steady

/-!
# HolyGrail.Client

One client over many process lives, against a plain map.

The client calls `put`, `delete` and `flush` one after the other; the process
may die between two calls, inside a log append with any part of it on disk, or
at any of the windows of `CrashAt`, and is opened again.  Beside the engine
goes a plain map from keys to values.  A call that returned is applied to the
map.  The call in flight at a crash is applied as a whole or not at all: it is
applied once its record lies whole in the log.

`gets_like_a_map` says that the engine and the map cannot be told apart.

Every call is a run of the process of `HolyGrail.Node`: its steps are taken in
the order of the source, with nothing in between.  So the invariants of a
sequential run hold after each call.
-/

namespace HolyGrail

open Std (ExtTreeMap)

namespace Mutation

def key : Mutation → Bytes
  | .put key _ => key
  | .delete key => key

def value : Mutation → Option Bytes
  | .put _ value => some value
  | .delete _ => none

/-- What a mutation does to a plain map. -/
def apply (m : Mutation) (map : Bytes → Option Bytes) : Bytes → Option Bytes :=
  fun k => if k = m.key then m.value else map k

theorem record_key (m : Mutation) (lsn : Nat) : (m.record lsn).key = m.key := by
  cases m <;> rfl

theorem record_value (m : Mutation) (lsn : Nat) : (m.record lsn).version.value = m.value := by
  cases m <;> rfl

end Mutation

/-- The store, the engine of the process that is up, and the plain map. -/
structure Client where
  store : Store
  engine : Option Engine
  map : Bytes → Option Bytes

namespace Client

inductive Op where
  | open (cfg : Config)
  | mutate (m : Mutation)
  | flush
  /-- The process dies between two calls. -/
  | crash
  /-- The process dies inside the log append of a call, with `len` bytes of it
  on disk. -/
  | crashInAppend (m : Mutation) (len : Nat)
  /-- The process dies in the automatic flush of a call. -/
  | crashInMutate (m : Mutation) (crash : CrashAt)
  | crashInFlush (crash : CrashAt)

def init : Client := { store := { dir := ∅, lake := [] }, engine := none, map := fun _ => none }

/-- A call that returns an error has no next state. -/
def step (db : DuckDb) (c : Client) : Op → Option Client
  | .open cfg =>
      match c.engine, Engine.open cfg c.store with
      | none, .ok (store, engine) => some { c with store, engine := some engine }
      | _, _ => none
  | .mutate m =>
      c.engine.bind fun engine =>
        match Engine.mutate db c.store engine m none with
        | (store, engine, .ok _) =>
            some { store, engine := some engine, map := m.apply c.map }
        | (_, _, .error _) => none
  | .flush =>
      c.engine.bind fun engine =>
        match Engine.flush db c.store engine with
        | (store, engine, .ok _) => some { c with store, engine := some engine }
        | (_, _, .error _) => none
  | .crash => c.engine.map fun _ => { c with engine := none }
  | .crashInAppend m len =>
      c.engine.map fun engine =>
        let record := m.record engine.nextLsn
        { store := { c.store with dir := engine.wal.appendTorn c.store.dir [record] len }
          engine := none
          map := if (frame record).length ≤ len then m.apply c.map else c.map }
  | .crashInMutate m crash =>
      c.engine.map fun engine =>
        { store := (Engine.mutate db c.store engine m (some crash)).1
          engine := none
          map := m.apply c.map }
  | .crashInFlush crash =>
      c.engine.map fun engine =>
        { c with store := (Engine.flushInner db c.store engine (some crash)).1, engine := none }

/-- The engine can give the call an LSN, and its payload length fits the
four-byte field. -/
def Takes (engine : Engine) (m : Mutation) : Prop :=
  engine.nextLsn < lsnLimit ∧ (payload (m.record engine.nextLsn)).length < 2 ^ 32

/-- A process is opened when none is up; calls go to the one that is. -/
def Allowed (c : Client) : Op → Prop
  | .open _ => c.engine.isNone
  | .mutate m | .crashInAppend m _ | .crashInMutate m _ => ∃ engine ∈ c.engine, Takes engine m
  | .flush | .crash | .crashInFlush _ => c.engine.isSome

instance (engine : Engine) (m : Mutation) : Decidable (Takes engine m) :=
  inferInstanceAs (Decidable (_ ∧ _))

instance (c : Client) : (op : Op) → Decidable (c.Allowed op)
  | .open _ => inferInstanceAs (Decidable (_ = true))
  | .mutate _ | .crashInAppend _ _ | .crashInMutate _ _ =>
      inferInstanceAs (Decidable (∃ engine ∈ c.engine, _))
  | .flush | .crash | .crashInFlush _ => inferInstanceAs (Decidable (_ = true))

end Client

/-! ## calls as runs of a process -/

/-- A system with a process that is up. -/
def System.ofNode (n : Node) : System :=
  { store := n.store, history := n.history, phase := .up n.toProcess, children := [] }

namespace Node

variable {db : DuckDb} {n n' : Node} {a : Act}

/-- The invariant of a sequential run, for one process. -/
def Calm (db : DuckDb) (n : Node) : Prop := (System.ofNode n).Calm db

namespace Calm

theorem secure (h : n.Calm db) : n.Secure db := h.toSteady.node_secure rfl

theorem serving (h : n.Calm db) : n.Serving := h.toSteady.node_serving rfl

theorem alone (h : n.Calm db) : n.Alone := h.flush n rfl

theorem writer (h : n.Calm db) : n.Sole ∧ n.Arrivals ∧ n.SoleLog := System.Calm.writer h

theorem move (h : n.Calm db) (hm : n.Move db a n') (hg : n.Sequential a) : n'.Calm db := by
  have hwithin : System.Within Sequential System.AnyCrash (System.ofNode n) (.node a) := by
    intro m hn
    cases hn
    exact hg
  refine System.Calm.step h hwithin ?_
  change (n.step db a).map _ = _
  rw [step_of_move hm]
  rfl

end Calm

theorem getElem?_moveFlush (n : Node) (mt : Arc Memtable) (stage stage' : FlushStage) :
    (n.moveFlush ⟨mt, stage⟩ stage').flushes[mt.ptr]? = some ⟨mt, stage'⟩ := by
  rw [moveFlush, OrdMap.getElem?_insert, if_pos rfl]

theorem getElem?_moveWrite (n : Node) (rec : Record) (stage stage' : WriteStage) :
    (n.moveWrite ⟨rec, stage⟩ stage').writes[rec.lsn]? = some ⟨rec, stage'⟩ := by
  rw [moveWrite, OrdMap.getElem?_insert, if_pos rfl]

/-- No call is under way and no memtable waits. -/
structure AtRest (db : DuckDb) (n : Node) : Prop where
  calm : n.Calm db
  quiet : n.Quiet
  frozen : n.engine.memtables.frozen = []

namespace AtRest

/-- **A write**, from its LSN to its acknowledgement. -/
theorem write (h : n.AtRest db) {m : Mutation} (hm : Client.Takes n.engine m) :
    ∃ n' : Node, n'.AtRest db ∧
      n'.history.inserted = n.history.inserted ++ [m.record n.engine.nextLsn] ∧
      n'.store =
        { n.store with dir := (n.engine.wal.append n.store.dir [m.record n.engine.nextLsn]).1 } ∧
      n'.engine =
        { n.engine with
          nextLsn := n.engine.nextLsn + 1
          wal := (n.engine.wal.append n.store.dir [m.record n.engine.nextLsn]).2
          memtables := n.engine.memtables.insert (m.record n.engine.nextLsn) } := by
  have hempty : n.writes.isEmpty = true := ExtTreeMap.isEmpty_iff.mpr h.quiet.writes
  have halloc := h.calm.move (.alloc m hm.1) ⟨hempty, trivial, trivial, hm.2⟩
  generalize hrec : m.record n.engine.nextLsn = rec at halloc ⊢
  have hlsn : n.engine.nextLsn = rec.lsn := by rw [← hrec, m.record_lsn]
  have hcall : (n.writes.insert n.engine.nextLsn ⟨rec, .allocated⟩)[rec.lsn]? =
      some ⟨rec, .allocated⟩ := by
    rw [OrdMap.getElem?_insert, if_pos hlsn]
  have hlog := halloc.move (.log hcall) ⟨trivial, trivial, trivial, trivial⟩
  have hinsert := hlog.move (.insert (getElem?_moveWrite _ rec .allocated .logged))
    ⟨trivial, trivial, trivial, trivial⟩
  have hack := hinsert.move (.ack (getElem?_moveWrite _ rec .logged .inserted))
    ⟨trivial, trivial, trivial, trivial⟩
  refine ⟨_, ⟨hack, ⟨?_, h.quiet.flushes, h.quiet.reads⟩, h.frozen⟩, rfl, rfl, rfl⟩
  refine OrdMap.eq_empty_of_forall_not_mem fun k hk => ?_
  simp only [moveWrite, OrdMap.mem_erase, OrdMap.mem_insert, h.quiet.writes, hlsn] at hk
  simp at hk

end AtRest

/-! ### a flush -/

/-- A flush has come to `stage`, and nothing else is under way. -/
structure Flushing (db : DuckDb) (n : Node) (mt : Arc Memtable) (stage : FlushStage)
    (history : History) : Prop where
  calm : n.Calm db
  call : n.flushes[mt.ptr]? = some ⟨mt, stage⟩
  writes : n.writes = ∅
  reads : n.reads = ∅
  history_eq : n.history = history

/-- The engine after a freeze. -/
def froze (engine : Engine) : Engine :=
  { engine with
    memtables := { engine.memtables with
      active := { ptr := engine.memtables.active.ptr + 1, val := Memtable.new }
      frozen := engine.memtables.frozen ++ [engine.memtables.active] } }

variable {mt : Arc Memtable} {history : History}

/-- A flush with something to flush is to be written, and comes to its staged
file. -/
theorem AtRest.stage (h : n.AtRest db) (hne : n.engine.memtables.active.val.isEmpty = false) :
    n.engine.memtables.freeze =
      .ok (some n.engine.memtables.active, (froze n.engine).memtables) ∧
    plan (publishedWatermark n.store.lake) n.engine.memtables.active.val =
      .write n.engine.memtables.active.val.maxLsn ∧
    ∃ n' : Node,
      n'.Flushing db n.engine.memtables.active
        (.staged n.engine.memtables.active.val.maxLsn (batches n.engine.memtables.active.val))
        n.history ∧ n'.store = n.store ∧ n'.engine = froze n.engine := by
  have hroom : n.engine.memtables.frozen.length < n.engine.memtables.maxFrozen := by
    rw [h.frozen]
    exact n.engine.memtables.maxFrozen_pos
  have hempty : n.flushes.isEmpty = true := ExtTreeMap.isEmpty_iff.mpr h.quiet.flushes
  have hfreeze := h.calm.move (.freeze hroom hne) ⟨trivial, hempty, trivial, trivial⟩
  have hcall : (n.flushes.insert n.engine.memtables.active.ptr
      ⟨n.engine.memtables.active, .frozen⟩)[n.engine.memtables.active.ptr]? =
      some ⟨n.engine.memtables.active, .frozen⟩ := by
    rw [OrdMap.getElem?_insert, if_pos rfl]
  have hread := hfreeze.move (.readWatermark hcall) ⟨trivial, trivial, trivial, trivial⟩
  have hlt : publishedWatermark n.store.lake < n.engine.memtables.active.val.maxLsn :=
    hread.serving.fresh _ _ (getElem?_moveFlush _ _ _ _)
  have hplan := hread.move (.planWrite (getElem?_moveFlush _ _ _ _) hlt hne)
    ⟨trivial, trivial, trivial, trivial⟩
  have hstage := hplan.move (.stage (getElem?_moveFlush _ _ _ _))
    ⟨trivial, trivial, trivial, trivial⟩
  refine ⟨?_, ?_, _, ⟨hstage, getElem?_moveFlush _ _ _ _, h.quiet.writes, h.quiet.reads, rfl⟩,
    rfl, rfl⟩
  · rw [MemtableSet.freeze, if_neg (Nat.not_le_of_lt hroom), hne]
    rfl
  · rw [HolyGrail.plan, hne, if_neg Bool.false_ne_true, if_neg (Nat.not_le_of_lt hlt)]

/-- From the staged file to the new index. -/
theorem Flushing.commit {w : Nat} {bs : List RecordBatch}
    (h : n.Flushing db mt (.staged w bs) history) :
    ∃ index, FileIndex.load (HolyGrail.publish db n.store.lake bs) = .ok index ∧
      ∃ (n' : Node) (f : DataFile),
        n'.Flushing db mt (.covered (.committed w 1) (some f)) history ∧
        n'.store = { n.store with lake := HolyGrail.publish db n.store.lake bs } ∧
        n'.engine = { n.engine with index } := by
  have hpublish := h.calm.move (.publish h.call) ⟨trivial, trivial, trivial, trivial⟩
  have hload := FileIndex.load_eq fun _ hf =>
    (hpublish.secure.shape.order.files.readable hf).lsnMax_nonneg
  have hquery := hpublish.move (.query (getElem?_moveFlush _ _ _ _) hload)
    ⟨trivial, trivial, trivial, trivial⟩
  have hinstall := hquery.move (.install (getElem?_moveFlush _ _ _ _))
    ⟨trivial, trivial, trivial, trivial⟩
  exact ⟨_, hload, _, _,
    ⟨hinstall, getElem?_moveFlush _ _ _ _, h.writes, h.reads, h.history_eq⟩, rfl, rfl⟩

/-- The truncation succeeds. -/
theorem Flushing.truncate {w : Nat} {f : Option DataFile}
    (h : n.Flushing db mt (.covered (.committed w 1) f) history) :
    ∃ dir wal, n.engine.wal.truncateThrough n.store.dir w = .ok (dir, wal) ∧
      ∃ n' : Node, n'.Flushing db mt (.truncated (.committed w 1) f) history ∧
        n'.store = { n.store with dir } ∧ n'.engine = { n.engine with wal } := by
  obtain ⟨log, hlog⟩ := h.calm.secure.logged
  obtain ⟨dir, htrunc, -⟩ := hlog.tracks.truncateThrough w
  have hmove := h.calm.move (.truncate h.call rfl htrunc) ⟨trivial, trivial, trivial, trivial⟩
  exact ⟨dir, _, htrunc, _,
    ⟨hmove, getElem?_moveFlush _ _ _ _, h.writes, h.reads, h.history_eq⟩, rfl, rfl⟩

/-- The memtable is retired, and the process is at rest again. -/
theorem Flushing.retire {result : Flushed} {f : Option DataFile}
    (h : n.Flushing db mt (.truncated result f) history) :
    ∃ n' : Node, n'.AtRest db ∧ n'.store = n.store ∧ n'.engine = n.engine.retire mt ∧
      n'.history = history := by
  have hretire := h.calm.move (.retire h.call) ⟨trivial, trivial, trivial, trivial⟩
  have hflushes : n.flushes.erase mt.ptr = ∅ := by
    refine OrdMap.eq_empty_of_forall_not_mem fun q hq => ?_
    obtain ⟨hne, hq⟩ := OrdMap.mem_erase.mp hq
    exact hne (h.calm.alone.one _ (OrdMap.mem_of_getElem? h.call) _ hq)
  refine ⟨_, ⟨hretire, ⟨h.writes, hflushes, h.reads⟩, ?_⟩, rfl, rfl, h.history_eq⟩
  refine List.eq_nil_iff_forall_not_mem.mpr fun m hm => ?_
  have hmem : m.ptr ∈ n.flushes.erase mt.ptr := hretire.alone.queue m hm
  rw [hflushes] at hmem
  exact absurd hmem ExtTreeMap.not_mem_empty

/-- **A flush**, whole or up to a window of `CrashAt`. -/
theorem AtRest.flush (h : n.AtRest db) (crash : Option CrashAt) :
    ∃ (n' : Node) (result : Flushed), n'.Calm db ∧ n'.writes = ∅ ∧ n'.history = n.history ∧
      Engine.flushInner db n.store n.engine crash = (n'.store, n'.engine, .ok result) ∧
      (crash = none → n'.AtRest db) := by
  cases hne : n.engine.memtables.active.val.isEmpty with
  | true =>
      have hroom : n.engine.memtables.frozen.length < n.engine.memtables.maxFrozen := by
        rw [h.frozen]
        exact n.engine.memtables.maxFrozen_pos
      refine ⟨n, .empty, h.calm, h.quiet.writes, rfl, ?_, fun _ => h⟩
      rw [Engine.flushInner, MemtableSet.freeze, if_neg (Nat.not_le_of_lt hroom), hne]
      rfl
  | false =>
      obtain ⟨hfreeze, hplan, n₁, h₁, hstore₁, hengine₁⟩ := h.stage hne
      obtain ⟨index, hload, n₂, f, h₂, hstore₂, hengine₂⟩ := h₁.commit
      obtain ⟨dir, wal, htrunc, n₃, h₃, hstore₃, hengine₃⟩ := h₂.truncate
      obtain ⟨n₄, h₄, hstore₄, hengine₄, hhist₄⟩ := h₃.retire
      rw [hstore₁] at hload hstore₂
      rw [hengine₁] at hengine₂
      rw [hstore₂, hengine₂] at htrunc
      rw [hstore₂] at hstore₃
      rw [hengine₂] at hengine₃
      rw [hstore₃] at hstore₄
      rw [hengine₃] at hengine₄
      have htrunc : (froze n.engine).wal.truncateThrough n.store.dir
          n.engine.memtables.active.val.maxLsn = .ok (dir, wal) := htrunc
      have hwrite : ∀ c, c ≠ some CrashAt.beforeWrite →
          Engine.flushInner db n.store n.engine c =
            Engine.flushWrite db n.store (froze n.engine) n.engine.memtables.active
              n.engine.memtables.active.val.maxLsn c := by
        intro c hc
        simp only [Engine.flushInner, hfreeze, hplan, if_neg hc]
        rfl
      have hpub : Engine.publishIndex
          { n.store with
            lake := HolyGrail.publish db n.store.lake (batches n.engine.memtables.active.val) }
          (froze n.engine) = .ok { froze n.engine with index } := by
        rw [Engine.publishIndex, hload]
      cases crash with
      | none =>
          refine ⟨n₄, .committed n.engine.memtables.active.val.maxLsn 1, h₄.calm, h₄.quiet.writes,
            hhist₄, ?_, fun _ => h₄⟩
          rw [hwrite none (by decide), hstore₄, hengine₄]
          simp [Engine.flushWrite, hpub, Engine.truncateWal, htrunc]
      | some c =>
          cases c with
          | beforeWrite =>
              refine ⟨n₁, .empty, h₁.calm, h₁.writes, h₁.history_eq, ?_, by simp⟩
              rw [hstore₁, hengine₁]
              simp [Engine.flushInner, hfreeze, froze]
          | afterWrite =>
              refine ⟨n₁, .empty, h₁.calm, h₁.writes, h₁.history_eq, ?_, by simp⟩
              rw [hwrite _ (by decide), hstore₁, hengine₁]
              rfl
          | afterCommit =>
              refine ⟨n₂, .committed n.engine.memtables.active.val.maxLsn 1, h₂.calm, h₂.writes,
                h₂.history_eq, ?_, by simp⟩
              rw [hwrite _ (by decide), hstore₂, hengine₂]
              simp [Engine.flushWrite, hpub]
          | afterTruncate =>
              refine ⟨n₃, .committed n.engine.memtables.active.val.maxLsn 1, h₃.calm, h₃.writes,
                h₃.history_eq, ?_, by simp⟩
              rw [hwrite _ (by decide), hstore₃, hengine₃]
              simp [Engine.flushWrite, hpub, Engine.truncateWal, htrunc]

/-- **`put` and `delete`**, whole or up to a window of the automatic flush. -/
theorem AtRest.mutate (h : n.AtRest db) {m : Mutation} (hm : Client.Takes n.engine m)
    (crash : Option CrashAt) :
    ∃ n' : Node, n'.Calm db ∧ n'.writes = ∅ ∧
      n'.history.inserted = n.history.inserted ++ [m.record n.engine.nextLsn] ∧
      Engine.mutate db n.store n.engine m crash = (n'.store, n'.engine, .ok n.engine.nextLsn) ∧
      (crash = none → n'.AtRest db) := by
  obtain ⟨n₁, h₁, hins, hstore₁, hengine₁⟩ := h.write hm
  have happend : Engine.append db n.store { n.engine with nextLsn := n.engine.nextLsn + 1 }
      (m.record n.engine.nextLsn) crash =
      if n₁.engine.memtables.shouldFreeze then
        match Engine.flushInner db n₁.store n₁.engine crash with
        | (store, engine, .ok _) => (store, engine, .ok ())
        | (store, engine, .error e) => (store, engine, .error e)
      else (n₁.store, n₁.engine, .ok ()) := by
    rw [hstore₁, hengine₁]
    rfl
  cases hfull : n₁.engine.memtables.shouldFreeze with
  | false =>
      refine ⟨n₁, h₁.calm, h₁.quiet.writes, hins, ?_, fun _ => h₁⟩
      rw [Engine.mutate, happend, hfull]
      rfl
  | true =>
      obtain ⟨n₂, result, hcalm, hwrites, hhist, hflush, hrest⟩ := h₁.flush crash
      refine ⟨n₂, hcalm, hwrites, hhist ▸ hins, ?_, hrest⟩
      rw [Engine.mutate, happend, hfull, hflush]
      rfl

end Node

/-! ## the invariant -/

/-- The newest of the writes to each key is what the map has. -/
def Shows (ws : Set (Write Bytes Bytes)) (map : Bytes → Option Bytes) : Prop :=
  ∀ k, ∃ hit, Newest ws k hit ∧ effect hit = map k

/-- One more write, above all others. -/
theorem Shows.append {recs : List Record} {map : Bytes → Option Bytes} {m : Mutation} {lsn : Nat}
    (h : Shows (Node.Wrote recs) map) (hlt : ∀ r ∈ recs, r.lsn < lsn) :
    Shows (Node.Wrote (recs ++ [m.record lsn])) (m.apply map) := by
  have hmem : ∀ w, w ∈ Node.Wrote (recs ++ [m.record lsn]) ↔
      w ∈ Node.Wrote recs ∨ w = (m.record lsn).write := by
    intro w
    simp only [Node.Wrote, Set.mem_ofPred_eq, List.mem_append, List.mem_singleton]
    constructor
    · rintro ⟨r, hr | rfl, rfl⟩
      · exact .inl ⟨r, hr, rfl⟩
      · exact .inr rfl
    · rintro (⟨r, hr, rfl⟩ | rfl)
      · exact ⟨r, .inl hr, rfl⟩
      · exact ⟨_, .inr rfl, rfl⟩
  intro k
  by_cases hk : k = m.key
  · refine ⟨some (m.record lsn).version, ⟨(hmem _).mpr (.inr ?_), fun w hw hwk => ?_⟩, ?_⟩
    · rw [Record.write, m.record_key, hk]
    · rcases (hmem w).mp hw with ⟨r, hr, rfl⟩ | rfl
      · have := hlt r hr
        simp only [Record.write_version, Record.version_lsn, m.record_lsn]
        omega
      · exact Nat.le_refl _
    · rw [Mutation.apply, if_pos hk, ← m.record_value lsn]
      rfl
  · obtain ⟨hit, hnew, heff⟩ := h k
    refine ⟨hit, ?_, by rw [Mutation.apply, if_neg hk, heff]⟩
    have hother : (m.record lsn).write.key ≠ k := by
      rw [Record.write_key, m.record_key]
      exact fun he => hk he.symm
    cases hit with
    | none =>
        intro w hw
        rcases (hmem w).mp hw with hw | rfl
        · exact hnew w hw
        · exact hother
    | some v =>
        refine ⟨(hmem _).mpr (.inl hnew.1), fun w hw hwk => ?_⟩
        rcases (hmem w).mp hw with hw | rfl
        · exact hnew.2 w hw hwk
        · exact absurd hwk hother

namespace Client

variable {db : DuckDb} {c c' : Client} {op : Op}

/-- The writes of a store at rest. -/
def Survived (history : History) (log : Log) : Set (Write Bytes Bytes) :=
  {w | ∃ r, (r ∈ history.inserted ∨ log.Holds r) ∧ r.write = w}

/-- The store at rest has what the map has. -/
def Down (db : DuckDb) (store : Store) (map : Bytes → Option Bytes) : Prop :=
  ∃ history log, StoreOk db store history log ∧ HistoryOk history ∧ SoleStore store ∧
    Shows (Survived history log) map

/-- The process at rest has what the map has. -/
def Up (db : DuckDb) (store : Store) (engine : Engine) (map : Bytes → Option Bytes) : Prop :=
  ∃ n : Node, n.AtRest db ∧ n.store = store ∧ n.engine = engine ∧
    Shows (Node.Wrote n.history.inserted) map

def Ok (db : DuckDb) (c : Client) : Prop :=
  match c.engine with
  | some engine => Up db c.store engine c.map
  | none => Down db c.store c.map

/-- **A crash** while no write is on its way. -/
theorem down_of_calm {n : Node} (h : n.Calm db) (hwrites : n.writes = ∅)
    {map : Bytes → Option Bytes} (hshows : Shows (Node.Wrote n.history.inserted) map) :
    Down db n.store map := by
  obtain ⟨hsole, -, hlog⟩ := h.writer
  obtain ⟨log, hst, hwritten⟩ := h.secure.crash (c := .between) trivial rfl
  refine ⟨n.history, log, hst, System.historyOk_of_serving (s := System.ofNode n) h.serving,
    hlog.crash hsole h.secure (c := .between) rfl, ?_⟩
  have hlisted : ∀ r, r ∈ n.history.inserted ∨ log.Holds r ↔ r ∈ n.history.inserted := by
    refine fun r => ⟨fun hr => ?_, .inl⟩
    rcases hr with hr | hr
    · exact hr
    · rcases hwritten r hr with hr | ⟨call, hc, -⟩
      · exact hr
      · rw [hwrites] at hc
        simp at hc
  rw [Survived, Log.wrote_eq hlisted]
  exact hshows

/-- **A crash inside an append**: the record counts once its frame is whole on
disk. -/
theorem down_of_torn {n : Node} (h : n.AtRest db) {m : Mutation} (hm : Takes n.engine m)
    {map : Bytes → Option Bytes} (hshows : Shows (Node.Wrote n.history.inserted) map) (len : Nat) :
    Down db
      { n.store with
        dir := n.engine.wal.appendTorn n.store.dir [m.record n.engine.nextLsn] len }
      (if (frame (m.record n.engine.nextLsn)).length ≤ len then m.apply map else map) := by
  have hempty : n.writes.isEmpty = true := ExtTreeMap.isEmpty_iff.mpr h.quiet.writes
  have hstamps := h.calm.secure.stamps
  generalize hrec : m.record n.engine.nextLsn = rec
  -- The process right before the append.
  obtain ⟨n₁, h₁, hwrites, hwal, hstore, hhist⟩ : ∃ n₁ : Node, n₁.Calm db ∧
      n₁.writes = n.writes.insert n.engine.nextLsn ⟨rec, .allocated⟩ ∧
      n₁.engine.wal = n.engine.wal ∧ n₁.store = n.store ∧ n₁.history = n.history :=
    ⟨_, h.calm.move (.alloc m hm.1) ⟨hempty, trivial, trivial, hm.2⟩, by rw [← hrec], rfl, rfl, rfl⟩
  have hcall : n₁.writes[n.engine.nextLsn]? = some ⟨rec, .allocated⟩ := by
    rw [hwrites, OrdMap.getElem?_insert, if_pos rfl]
  obtain ⟨hsole, -, hlog⟩ := h₁.writer
  obtain ⟨log, hlogged, -, hst⟩ := h₁.secure.crash_inAppend hcall
    (hlog.nameFree hsole h₁.secure.shape hcall) len
  have hcrash : n₁.crashed (.inAppend n.engine.nextLsn len) =
      some { n₁.store with dir := n₁.engine.wal.appendTorn n₁.store.dir [rec] len } := by
    rw [Node.crashed, hcall]
  have hsole := hlog.crash hsole h₁.secure hcrash
  rw [hwal, hstore] at hst hsole
  refine ⟨n₁.history, _, hst, System.historyOk_of_serving (s := System.ofNode n₁) h₁.serving,
    hsole, ?_⟩
  -- The log had only inserted records before.
  have hknown : ∀ r, log.Holds r → r ∈ n.history.inserted := by
    intro r hr
    rcases hlogged.known r hr with hr | ⟨l, hl⟩
    · exact hhist ▸ hr
    · rw [hwrites, OrdMap.getElem?_insert, h.quiet.writes] at hl
      split at hl
      · cases hl
      · simp at hl
  have hlisted : ∀ r, r ∈ n₁.history.inserted ∨
      (log.extend (n.engine.wal.landing rec.lsn) (survivors [rec] len)).Holds r ↔
      r ∈ n.history.inserted ++ survivors [rec] len := by
    intro r
    rw [hhist, Log.holds_extend, List.mem_append]
    constructor
    · rintro (hr | hr | hr)
      · exact .inl hr
      · exact .inl (hknown r hr)
      · exact .inr hr
    · rintro (hr | hr)
      · exact .inl hr
      · exact .inr (.inr hr)
  rw [Survived, Log.wrote_eq hlisted, survivors]
  split
  · rw [survivors, ← hrec]
    exact hshows.append fun r hr => (hstamps.lt r hr).2
  · rw [List.append_nil]
    exact hshows

/-- **Opening** a store at rest succeeds. -/
theorem up_of_down {store : Store} {map : Bytes → Option Bytes} (h : Down db store map)
    (cfg : Config) :
    ∃ store' engine, Engine.open cfg store = .ok (store', engine) ∧ Up db store' engine map := by
  obtain ⟨history, log, hst, hhist, hsole, hshows⟩ := h
  obtain ⟨index, hload⟩ := hst.load_ok
  obtain ⟨dir, wal, -, -, hrec, hproc⟩ := hst.recovered_eq cfg index
  -- The last step of `open`, from a system that has loaded the index.
  have hcalm : System.Calm db
      { store, history, phase := .indexLoaded (publishedWatermark store.lake) index
        children := [] } :=
    ⟨⟨⟨⟨rfl, hload⟩, log, hst⟩, hhist, nofun⟩, hsole⟩
  have hcalm := hcalm.step (e := .replay cfg) trivial (by
    simp only [System.step, hproc]
    rfl)
  refine ⟨_, _, Engine.open_eq hload hrec, _,
    ⟨hcalm, StoreOk.quiet_process cfg, rfl⟩, rfl, rfl, ?_⟩
  rw [Survived, Log.wrote_eq fun r => hst.mem_inserted.symm] at hshows
  exact hshows

/-! ## runs -/

theorem ok_init (db : DuckDb) : Ok db init := by
  refine ⟨Node.noHistory, ∅, System.storeOk_empty db, System.serving_init,
    System.soleWriter_init, fun k => ⟨none, ?_, rfl⟩⟩
  rintro w ⟨r, hr | hr, -⟩
  · exact absurd hr List.not_mem_nil
  · exact absurd hr (System.not_holds_empty r)

/-- **Every call succeeds** and keeps the engine and the map together. -/
theorem Ok.step (h : Ok db c) (hg : c.Allowed op) : ∃ c', c.step db op = some c' ∧ Ok db c' := by
  obtain ⟨store, engine, map⟩ := c
  cases engine with
  | none =>
      cases op with
      | «open» cfg =>
          obtain ⟨store', engine, hopen, hup⟩ := up_of_down h cfg
          exact ⟨{ store := store', engine := some engine, map },
            by simp only [Client.step, hopen], hup⟩
      | mutate | crashInAppend | crashInMutate =>
          obtain ⟨engine, he, -⟩ := hg
          cases he
      | flush | crash | crashInFlush => cases hg
  | some engine =>
      obtain ⟨n, hn, rfl, rfl, hshows⟩ := h
      cases op with
      | «open» cfg => cases hg
      | mutate m =>
          obtain ⟨engine, he, hm⟩ := hg
          cases he
          obtain ⟨n', -, -, hins, hcall, hrest⟩ := hn.mutate hm none
          refine ⟨{ store := n'.store, engine := some n'.engine, map := m.apply map },
            by simp only [Client.step, Option.bind_some, hcall], n', hrest rfl, rfl, rfl, ?_⟩
          rw [hins]
          exact hshows.append fun r hr => (hn.calm.secure.stamps.lt r hr).2
      | flush =>
          obtain ⟨n', result, -, -, hhist, hcall, hrest⟩ := hn.flush none
          refine ⟨{ store := n'.store, engine := some n'.engine, map },
            by simp only [Client.step, Option.bind_some, Engine.flush, hcall], n', hrest rfl, rfl,
            rfl, ?_⟩
          rw [hhist]
          exact hshows
      | crash => exact ⟨_, rfl, down_of_calm hn.calm hn.quiet.writes hshows⟩
      | crashInAppend m len =>
          obtain ⟨engine, he, hm⟩ := hg
          cases he
          exact ⟨_, rfl, down_of_torn hn hm hshows len⟩
      | crashInMutate m crash =>
          obtain ⟨engine, he, hm⟩ := hg
          cases he
          obtain ⟨n', hcalm, hwrites, hins, hcall, -⟩ := hn.mutate hm (some crash)
          refine ⟨{ store := n'.store, engine := none, map := m.apply map },
            by simp only [Client.step, Option.map_some, hcall], down_of_calm hcalm hwrites ?_⟩
          rw [hins]
          exact hshows.append fun r hr => (hn.calm.secure.stamps.lt r hr).2
      | crashInFlush crash =>
          obtain ⟨n', result, hcalm, hwrites, hhist, hcall, -⟩ := hn.flush (some crash)
          exact ⟨{ store := n'.store, engine := none, map },
            by simp only [Client.step, Option.map_some, hcall],
            down_of_calm hcalm hwrites (hhist ▸ hshows)⟩

/-- What the engine at rest returns is what the map has. -/
theorem Up.get_eq {store : Store} {engine : Engine} {map : Bytes → Option Bytes}
    (h : Up db store engine map) (k : Bytes) : Engine.get store engine k = .ok (map k) := by
  obtain ⟨n, hn, rfl, rfl, hshows⟩ := h
  obtain ⟨hit, hget, hnew⟩ := Node.get_newest hn.calm.secure.shape hn.calm.serving k
  obtain ⟨hit', hnew', heff⟩ := hshows k
  have hunique : ∀ u ∈ Node.Wrote n.history.inserted, ∀ w ∈ Node.Wrote n.history.inserted,
      u.version.lsn = w.version.lsn → u = w := by
    rintro _ ⟨r, hr, rfl⟩ _ ⟨s, hs, rfl⟩ he
    rw [hn.calm.secure.stamps.unique r hr s hs he]
  rw [hget, hnew.unique hunique hnew', heff]

/-- **The engine is a plain map.**  After any sequence of opens, calls and
crashes, every read returns what a plain map returns, and every call that the
client can make next succeeds.  The map applies the calls that returned, in
order, and of a call in flight at a crash all or nothing. -/
theorem gets_like_a_map (h : Reaches (Client.step db) Allowed init c) :
    (∀ engine, c.engine = some engine → ∀ k, Engine.get c.store engine k = .ok (c.map k)) ∧
    ∀ op, c.Allowed op → (c.step db op).isSome := by
  have hok : Ok db c := by
    refine h.invariant (Ok db) (ok_init db) fun c op c' hc hg hs => ?_
    obtain ⟨c'', hs', hc''⟩ := hc.step hg
    rw [hs, Option.some.injEq] at hs'
    exact hs' ▸ hc''
  refine ⟨fun engine he k => ?_, fun op hg => ?_⟩
  · rw [Ok, he] at hok
    exact hok.get_eq k
  · obtain ⟨c', hs, -⟩ := hok.step hg
    rw [hs]
    rfl

/-- A configuration in which every write flushes. -/
def eagerConfig : Config := { Node.smallConfig with memtableMaxBytes := 1 }

/-- Calls, a crash in a flush, a torn append, and a crash in an automatic
flush. -/
def threeCrashes : List Op :=
  [.open Node.smallConfig, .mutate (.put [1] [7]), .flush, .mutate (.put [1] [8]),
    .crashInFlush .afterCommit, .open Node.smallConfig, .mutate (.delete [1]),
    .crashInAppend (.put [2] [9]) 5, .open eagerConfig, .mutate (.put [4] [5]),
    .crashInMutate (.put [3] [6]) .afterWrite, .open Node.smallConfig]

theorem gets_like_a_map_threeCrashes :
    ∃ (c : Client) (engine : Engine), Reaches (Client.step DuckDb.plain) Allowed init c ∧
      c.engine = some engine ∧
      [[1], [2], [3], [4]].map c.map = [none, none, some [6], some [5]] ∧
      ∀ k, Engine.get c.store engine k = .ok (c.map k) := by
  obtain ⟨c, hrun, hup, hmap⟩ : ∃ c : Client, Reaches (Client.step DuckDb.plain) Allowed init c ∧
      c.engine.isSome ∧ [[1], [2], [3], [4]].map c.map = [none, none, some [6], some [5]] :=
    exists_reaches_of_attempt
      (fun c : Client => c.engine.isSome ∧
        [[1], [2], [3], [4]].map c.map = [none, none, some [6], some [5]])
      threeCrashes (by decide +kernel)
  obtain ⟨engine, he⟩ := Option.isSome_iff_exists.mp hup
  exact ⟨c, engine, hrun, he, hmap, (gets_like_a_map hrun).1 engine he⟩

end Client

end HolyGrail
