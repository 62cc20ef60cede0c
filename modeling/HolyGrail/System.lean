import HolyGrail.Node.Open

/-!
# HolyGrail.System

The engine over many process lives: processes run, die and are opened again
over the same store.

`Engine::open` is taken in the three steps between which something outside the
process can happen: it reads the watermark, loads the file index, and replays
the log.  What can happen outside is a DuckDB child: one that had its whole
script when the engine died may outlive it, and commit at any later time or
never.

The three predicates at the end are the invariants of a process, carried over
crashes and opens: `Secure` for what is on disk, `Serving` for what reads
return, and `SoleWriter` for runs with one writer.
-/

namespace HolyGrail

open Std (ExtTreeMap)

/-- A DuckDB child that outlived its engine, with the batches it inserts.  It
is fresh until an engine reads the watermark. -/
structure Child where
  batches : List RecordBatch
  fresh : Bool

/-- Where the engine stands. -/
inductive Phase where
  | down
  | watermarkRead (watermark : Nat)
  | indexLoaded (watermark : Nat) (index : FileIndex)
  | up (process : Process)

structure System where
  store : Store
  history : History
  phase : Phase
  children : List Child

/-- The children a crash leaves. -/
def Node.orphans (n : Node) : Crash → List Child
  | .inPublish p =>
      match n.flushes[p]? with
      | some ⟨_, .staged _ batches⟩ => [{ batches, fresh := true }]
      | _ => []
  | _ => []

namespace System

inductive Event where
  | node (a : Act)
  | crash (c : Crash)
  | readWatermark
  | loadIndex
  | replay (cfg : Config)
  /-- The process dies inside `open`, after `i` segments were cut back. -/
  | crashOpening (i : Nat)
  /-- The commit of the `i`-th child lands. -/
  | land (i : Nat)

def init : System :=
  { store := Node.emptyStore, history := Node.noHistory, phase := .down, children := [] }

/-- The system as one node, while a process is up. -/
def node (s : System) (p : Process) : Node :=
  { toProcess := p, store := s.store, history := s.history }

def node? (s : System) : Option Node :=
  match s.phase with
  | .up p => some (s.node p)
  | _ => none

/-- The system after a step of its process. -/
def withNode (s : System) (n : Node) : System :=
  { s with store := n.store, history := n.history, phase := .up n.toProcess }

def step (db : DuckDb) (s : System) : Event → Option System
  | .node a => s.node?.bind fun n => (n.step db a).map s.withNode
  | .crash c => s.node?.bind fun n => (n.crashed c).map fun store =>
      { s with store, phase := .down, children := s.children ++ n.orphans c }
  | .readWatermark =>
      match s.phase with
      | .down => some { s with
          phase := .watermarkRead (publishedWatermark s.store.lake)
          children := s.children.map fun child => { child with fresh := false } }
      | _ => none
  | .loadIndex =>
      match s.phase with
      | .watermarkRead w =>
          match FileIndex.load s.store.lake with
          | .ok index => some { s with phase := .indexLoaded w index }
          | .error _ => none
      | _ => none
  | .replay cfg =>
      match s.phase with
      | .indexLoaded w index => (Node.recovered cfg s.store s.history w index).map s.withNode
      | _ => none
  | .crashOpening i =>
      match s.phase with
      | .watermarkRead _ => some { s with phase := .down }
      | .indexLoaded w _ =>
          match Wal.recoverSegments w ((Wal.listSegments s.store.dir).take i) s.store.dir with
          | .ok (dir, _) => some { s with store := { s.store with dir }, phase := .down }
          | .error _ => none
      | _ => none
  | .land i => s.children[i]?.map fun child =>
      { s with
        store := { s.store with lake := publish db s.store.lake child.batches }
        children := s.children.eraseIdx i }

/-! ## what an event does -/

inductive Move (db : DuckDb) (s : System) : Event → System → Prop where
  | node {p : Process} {a : Act} {n : Node} (hp : s.phase = .up p)
      (hs : (s.node p).step db a = some n) : Move db s (.node a) (s.withNode n)
  | crash {p : Process} {c : Crash} {store : Store} (hp : s.phase = .up p)
      (hc : (s.node p).crashed c = some store) :
      Move db s (.crash c)
        { s with store, phase := .down, children := s.children ++ (s.node p).orphans c }
  | readWatermark (hp : s.phase = .down) :
      Move db s .readWatermark
        { s with
          phase := .watermarkRead (publishedWatermark s.store.lake)
          children := s.children.map fun child => { child with fresh := false } }
  | loadIndex {w : Nat} {index : FileIndex} (hp : s.phase = .watermarkRead w)
      (hload : FileIndex.load s.store.lake = .ok index) :
      Move db s .loadIndex { s with phase := .indexLoaded w index }
  | replay {cfg : Config} {w : Nat} {index : FileIndex} {n : Node}
      (hp : s.phase = .indexLoaded w index)
      (hr : Node.recovered cfg s.store s.history w index = some n) :
      Move db s (.replay cfg) (s.withNode n)
  | crashEarly {w i : Nat} (hp : s.phase = .watermarkRead w) :
      Move db s (.crashOpening i) { s with phase := .down }
  | crashOpening {w i : Nat} {index : FileIndex} {dir : Dir} {rest : List Segment × Replay}
      (hp : s.phase = .indexLoaded w index)
      (hr : Wal.recoverSegments w ((Wal.listSegments s.store.dir).take i) s.store.dir =
        .ok (dir, rest)) :
      Move db s (.crashOpening i) { s with store := { s.store with dir }, phase := .down }
  | land {i : Nat} {child : Child} (hc : s.children[i]? = some child) :
      Move db s (.land i)
        { s with
          store := { s.store with lake := publish db s.store.lake child.batches }
          children := s.children.eraseIdx i }

theorem node?_eq_some {s : System} {n : Node} (h : s.node? = some n) :
    ∃ p, s.phase = .up p ∧ s.node p = n := by
  rw [node?] at h
  split at h
  · next p hp => exact ⟨p, hp, Option.some.inj h⟩
  · contradiction

theorem node?_up {s : System} {p : Process} (h : s.phase = .up p) : s.node? = some (s.node p) := by
  rw [node?, h]

/-- **Inversion**: an event is one of the moves. -/
theorem move_of_step {db : DuckDb} {s s' : System} {e : Event} (h : s.step db e = some s') :
    Move db s e s' := by
  cases e with
  | node a =>
      obtain ⟨n, hn, h⟩ := Option.bind_eq_some_iff.mp h
      obtain ⟨n', hs, rfl⟩ := Option.map_eq_some_iff.mp h
      obtain ⟨p, hp, rfl⟩ := node?_eq_some hn
      exact .node hp hs
  | crash c =>
      obtain ⟨n, hn, h⟩ := Option.bind_eq_some_iff.mp h
      obtain ⟨store, hc, rfl⟩ := Option.map_eq_some_iff.mp h
      obtain ⟨p, hp, rfl⟩ := node?_eq_some hn
      exact .crash hp hc
  | readWatermark =>
      simp only [step] at h
      split at h
      · next hp => rw [← Option.some.inj h]; exact .readWatermark hp
      · contradiction
  | loadIndex =>
      simp only [step] at h
      split at h
      · next w hp =>
          split at h
          · next index hload => rw [← Option.some.inj h]; exact .loadIndex hp hload
          · contradiction
      · contradiction
  | replay cfg =>
      simp only [step] at h
      split at h
      · next w index hp =>
          obtain ⟨n, hr, rfl⟩ := Option.map_eq_some_iff.mp h
          exact .replay hp hr
      · contradiction
  | crashOpening i =>
      simp only [step] at h
      split at h
      · next w hp => rw [← Option.some.inj h]; exact .crashEarly hp
      · next w index hp =>
          split at h
          · next dir rest hr => rw [← Option.some.inj h]; exact .crashOpening hp hr
          · contradiction
      · contradiction
  | land i =>
      obtain ⟨child, hc, rfl⟩ := Option.map_eq_some_iff.mp h
      exact .land hc

/-! ## kinds of runs -/

/-- The runs in which a process takes only the actions `g` allows and dies only
in the ways `c` allows, and no child of a dead engine lands. -/
def Within (g : Node → Act → Prop) (c : Node → Crash → Prop) (s : System) : Event → Prop
  | .node a => ∀ n ∈ s.node?, g n a
  | .crash k => ∀ n ∈ s.node?, c n k
  | .land _ => False
  | .readWatermark | .loadIndex | .replay _ | .crashOpening _ => True

instance (g : Node → Act → Prop) (c : Node → Crash → Prop) [∀ n a, Decidable (g n a)]
    [∀ n k, Decidable (c n k)] (s : System) (e : Event) : Decidable (Within g c s e) := by
  unfold Within
  split <;> infer_instance

/-- A run from the beginning, by trying a list of events. -/
theorem exists_run_of_attempt (db : DuckDb) (guard : System → Event → Prop)
    [∀ s e, Decidable (guard s e)] (P : System → Prop) [DecidablePred P] (es : List Event)
    (h : (attempt (step db) guard init es).any (fun s => P s) = true) :
    ∃ s, Reaches (step db) guard init s ∧ P s :=
  exists_reaches_of_attempt P es h

/-- A run from the beginning to a process of a given kind, and a run of that
process. -/
theorem exists_life_of_attempt (db : DuckDb) (guard : System → Event → Prop)
    [∀ s e, Decidable (guard s e)] (g : Node → Act → Prop) [∀ n a, Decidable (g n a)]
    (Q P : Node → Prop) [DecidablePred Q] [DecidablePred P] (es : List Event) (as : List Act)
    (h : (attempt (step db) guard init es).any (fun s => s.node?.any fun n₀ =>
      Q n₀ ∧ (attempt (Node.step db) g n₀ as).any (fun n => P n)) = true) :
    ∃ s n₀ n, Reaches (step db) guard init s ∧ s.node? = some n₀ ∧ Q n₀ ∧
      Reaches (Node.step db) g n₀ n ∧ P n := by
  obtain ⟨s, hs, h⟩ := (Option.any_eq_true _ _).mp h
  obtain ⟨n₀, hn₀, h⟩ := (Option.any_eq_true _ _).mp h
  obtain ⟨hQ, h⟩ := of_decide_eq_true h
  obtain ⟨n, hrun, hP⟩ := exists_reaches_of_attempt P as h
  exact ⟨s, n₀, n, reaches_of_attempt hs, hn₀, hQ, hrun, hP⟩

/-- The steps of `Engine::open`. -/
def openSteps : List Event := [.readWatermark, .loadIndex, .replay Node.smallConfig]

/-- Steps of the process. -/
def nodeSteps (as : List Act) : List Event := as.map .node

/-- A crash of any kind. -/
def AnyCrash (_ : Node) (_ : Crash) : Prop := True

instance (n : Node) (c : Crash) : Decidable (AnyCrash n c) := inferInstanceAs (Decidable True)

/-! ## invariants over crashes and opens -/

/-- What has been read of the store since the process started to open it. -/
def Opening (s : System) : Prop :=
  match s.phase with
  | .down | .up _ => True
  | .watermarkRead w => w = publishedWatermark s.store.lake
  | .indexLoaded w index =>
      w = publishedWatermark s.store.lake ∧ FileIndex.load s.store.lake = .ok index

/-- Nothing that was inserted can be lost. -/
def Secure (db : DuckDb) (s : System) : Prop :=
  s.Opening ∧
    match s.phase with
    | .up p => (s.node p).Secure db
    | _ => ∃ log, StoreOk db s.store s.history log

/-- Reads are right. -/
def Serving (s : System) : Prop :=
  match s.phase with
  | .up p => (s.node p).Serving
  | _ => HistoryOk s.history

/-- There is one writer. -/
def SoleWriter (s : System) : Prop :=
  match s.phase with
  | .up p => (s.node p).Sole ∧ (s.node p).Arrivals ∧ (s.node p).SoleLog
  | _ => SoleStore s.store

/-- There is one flush at a time. -/
def SoleFlush (s : System) : Prop := ∀ n ∈ s.node?, n.Alone

end System

end HolyGrail
