import HolyGrail.Columnar.ReadPath
import HolyGrail.System.Steady

/-!
# HolyGrail.Node.Cached

`Engine::get` through the caches, beside everything else a process does.

`Node` takes the columnar part of a read for one step that looks the rows up.  Here it
is what it is: a program of the Parquet library that fetches ranges through the shared
byte cache and the footer cache, step by step, while the writes, the flushes and the
other reads go on and the lake grows.  A fetch may fail, and a read may be dropped at
any time.

* `cached_reads_refine` — what shows of a run is a run of `Node`, so a read that
  returns has read in one step, when it returned;
* `cached_answers_fresh` — its answers are fresh and exact;
* `cached_read_finishes` — a read can always be carried on to its answer by steps of
  its own.
-/

namespace HolyGrail

open Std (ExtTreeMap)
open Cache (RequestAct Request RequestWork)
open ReadPath (oneRowReader oneRowFile oneRowReader_lake_of)

/-! ## what an index lists -/

/-- The index lists live files only. -/
def FileIndex.Live (lake : List DataFile) (index : FileIndex) : Prop :=
  ∀ entry ∈ index.entries, ∃ f ∈ lake, f.location = entry.location

theorem FileIndex.Live.mono {lake lake' : List DataFile} {index : FileIndex}
    (h : index.Live lake) (hsub : lake ⊆ lake') : index.Live lake' := by
  intro entry hentry
  obtain ⟨f, hf, he⟩ := h entry hentry
  exact ⟨f, hsub hf, he⟩

theorem FileIndex.live_of_load {lake : List DataFile} {index : FileIndex}
    (h : load lake = .ok index) : index.Live lake := by
  intro entry hentry
  obtain ⟨f, hf, rfl⟩ := List.mem_map.mp ((load_perm h).mem_iff.mp hentry)
  exact ⟨f, hf, rfl⟩

namespace Node

variable {db : DuckDb} {n n' : Node} {a : Act}

/-- A step only adds files. -/
theorem lake_subset (hs : n.step db a = some n') : n.store.lake ⊆ n'.store.lake := by
  cases move_of_step hs with
  | publish hc => exact List.subset_append_left _ _
  | _ => exact List.Subset.refl _

/-- Every index of the process lists live files only. -/
structure Catalogued (n : Node) : Prop where
  index : n.engine.index.Live n.store.lake
  queried : ∀ (p w : Nat) (mt : Arc Memtable) (f : DataFile) (index : FileIndex),
    n.flushes[p]? = some ⟨mt, .queried w f index⟩ → index.Live n.store.lake
  holding : ∀ (q : Nat) (call : ReadCall) (index : FileIndex), n.reads[q]? = some call →
    call.stage = .holding index → index.Live n.store.lake

namespace Catalogued

variable (h : n.Catalogued)
include h

/-- The indexes of the next state are old or list its files. -/
theorem next (hlake : n.store.lake ⊆ n'.store.lake)
    (hindex : n'.engine.index.Live n'.store.lake)
    (hflushes : ∀ (p : Nat) (c : FlushCall), n'.flushes[p]? = some c → n.flushes[p]? = some c ∨
      ∀ w f index, c.stage = .queried w f index → index.Live n'.store.lake)
    (hreads : ∀ (q : Nat) (c : ReadCall), n'.reads[q]? = some c → n.reads[q]? = some c ∨
      ∀ index, c.stage = .holding index → index.Live n'.store.lake) : n'.Catalogued where
  index := hindex
  queried p w mt f index hp := by
    cases hflushes p _ hp with
    | inl hold => exact (h.queried p w mt f index hold).mono hlake
    | inr hnew => exact hnew w f index rfl
  holding q call index hq hs := by
    cases hreads q call hq with
    | inl hold => exact (h.holding q call index hold hs).mono hlake
    | inr hnew => exact hnew index hs

theorem same (hlake : n'.store.lake = n.store.lake) (hindex : n'.engine.index = n.engine.index)
    (hflushes : n'.flushes = n.flushes) (hreads : n'.reads = n.reads) : n'.Catalogued :=
  h.next (by rw [hlake]; exact List.Subset.refl _) (by rw [hlake, hindex]; exact h.index)
    (fun p c hc => .inl (hflushes ▸ hc)) fun q c hq => .inl (hreads ▸ hq)

/-- A flush moves on, to a stage with no new index. -/
theorem moveFlush {call : FlushCall} {stage : FlushStage}
    (hs : ∀ w f index, stage = .queried w f index → index.Live n.store.lake) :
    (n.moveFlush call stage).Catalogued := by
  refine h.next (List.Subset.refl _) h.index (fun p c hc => ?_) fun q c hq => .inl hq
  cases OrdMap.of_getElem?_insert hc with
  | inl hnew =>
      rw [hnew]
      exact .inr hs
  | inr hold => exact .inl hold

theorem endFlush (call : FlushCall) : (n.endFlush call).Catalogued :=
  h.next (List.Subset.refl _) h.index (fun _ _ hc => .inl (OrdMap.of_getElem?_erase hc))
    fun _ _ hq => .inl hq

theorem moveRead {q : Nat} {call : ReadCall}
    (hs : ∀ index, call.stage = .holding index → index.Live n.store.lake) :
    Catalogued { n with reads := n.reads.insert q call } := by
  refine h.next (List.Subset.refl _) h.index (fun p c hc => .inl hc) fun q c hq => ?_
  cases OrdMap.of_getElem?_insert hq with
  | inl hnew =>
      rw [hnew]
      exact .inr hs
  | inr hold => exact .inl hold

theorem answer (q : Nat) (call : ReadCall) (hit : Option (Version Bytes))
    (result : Except Error (Option Bytes)) : (n.answer q call hit result).Catalogued :=
  h.next (List.Subset.refl _) h.index (fun _ _ hc => .inl hc)
    fun _ _ hq => .inl (OrdMap.of_getElem?_erase hq)

theorem grow (f : DataFile) (trail : Trail) :
    Catalogued { n with
      store := { n.store with lake := n.store.lake ++ [f] }
      trail } :=
  h.next (List.subset_append_left _ _) (h.index.mono (List.subset_append_left _ _))
    (fun _ _ hc => .inl hc) fun _ _ hq => .inl hq

/-- **Step**: whatever the process does. -/
theorem step (hs : n.step db a = some n') : n'.Catalogued := by
  cases move_of_step hs with
  | freeze hroom hne =>
      refine h.next (List.Subset.refl _) h.index (fun p c hc => ?_) fun q c hq => .inl hq
      cases OrdMap.of_getElem?_insert hc with
      | inl hnew => exact .inr fun w f index hstage => by simp [hnew] at hstage
      | inr hold => exact .inl hold
  | readWatermark hc | planCovered hc | planWrite hc | stage hc => exact h.moveFlush (by simp)
  | publish hc => exact (h.grow _ _).moveFlush (by simp)
  | query hc hload =>
      refine Catalogued.moveFlush ?_ fun w f index he => ?_
      · exact h.same rfl rfl rfl rfl
      · rw [FlushStage.queried.injEq] at he
        exact he.2.2 ▸ FileIndex.live_of_load hload
  | install hc =>
      refine Catalogued.moveFlush ?_ (by simp)
      exact h.next (List.Subset.refl _) (h.queried _ _ _ _ _ hc) (fun _ _ hc => .inl hc)
        fun _ _ hq => .inl hq
  | truncate hc =>
      refine Catalogued.moveFlush ?_ (by simp)
      exact h.same rfl rfl rfl rfl
  | planEmpty hc | retire hc | fail hc | failTruncate hc =>
      refine Catalogued.endFlush ?_ _
      exact h.same rfl rfl rfl rfl
  | begin key hr => exact h.moveRead (by simp)
  | miss hc hs hm => exact h.moveRead (by simp)
  | snapshot hc hs => exact h.moveRead fun index he => ReadStage.holding.inj he ▸ h.index
  | hit hc hs hm => exact h.answer ..
  | scan hc hs => exact h.answer ..
  | _ => exact h.same rfl rfl rfl rfl

end Catalogued

end Node

/-! ## the model -/

structure CachedNode (r : ReadPath) where
  node : Node
  pool : r.Reads
  /-- The number of the columnar read of each `get` that has come to it. -/
  scanning : ExtTreeMap Nat Nat

inductive CachedAct where
  /-- An action of the process, other than the columnar part of a read. -/
  | node (a : Act)
  /-- `get` calls `ColumnarReader::get`. -/
  | call (q : Nat)
  | carryOn (q : Nat) (act : RequestAct)
  | drop (q : Nat)
  /-- `get` returns what the columnar read returned. -/
  | answer (q : Nat)

/-- The action of the process that it shows as. -/
def CachedAct.act? : CachedAct → Option Act
  | .node a => some a
  | .answer q => some (.scan q)
  | .call _ | .carryOn .. | .drop _ => none

namespace CachedNode

variable {r : ReadPath}

/-- A process with empty caches. -/
def boot (node : Node) (maxBytes : Nat) : CachedNode r :=
  { node, pool := r.new maxBytes, scanning := ∅ }

/-- A `get` whose columnar read failed or was dropped has no further step. -/
def step (db : DuckDb) (objects : FileName → Bytes) (s : CachedNode r) :
    CachedAct → Option (CachedNode r)
  | .node (.scan _) => none
  | .node a => (s.node.step db a).map fun node => { s with node }
  | .call q =>
      match s.node.reads[q]?, s.scanning[q]? with
      | some ⟨key, .holding index, _, _, _⟩, none =>
          (r.step objects s.pool (.call (index, key))).map fun pool =>
            { s with pool, scanning := s.scanning.insert q s.pool.jobs.length }
      | _, _ => none
  | .carryOn q act => s.scanning[q]?.bind fun j =>
      (r.step objects s.pool (.carryOn j act)).map fun pool => { s with pool }
  | .drop q => s.scanning[q]?.bind fun j =>
      (r.step objects s.pool (.drop j)).map fun pool => { s with pool }
  | .answer q =>
      match s.node.reads[q]?, s.scanning[q]? with
      | some call, some j =>
          match s.pool.jobs[j]? with
          | some ((index, _), .returned (.ok hit)) => some { s with
              node := s.node.answer q call
                (firstHit ((index.files s.node.store.lake).map DataFile.find) call.key)
                (.ok hit.toResult)
              scanning := s.scanning.erase q }
          | _ => none
      | _, _ => none

/-- The runs whose actions on the process `g` allows. -/
def Allows (g : Node → Act → Prop) (s : CachedNode r) (a : CachedAct) : Prop :=
  ∀ b ∈ a.act?, g s.node b

instance (g : Node → Act → Prop) [∀ n a, Decidable (g n a)] (s : CachedNode r) (a : CachedAct) :
    Decidable (Allows g s a) := inferInstanceAs (Decidable (∀ b ∈ a.act?, g s.node b))

/-- What an action does. -/
inductive Move (db : DuckDb) (objects : FileName → Bytes) (s : CachedNode r) :
    CachedAct → CachedNode r → Prop where
  | node {a : Act} {n : Node} (ha : ∀ q, a ≠ .scan q) (hn : s.node.step db a = some n) :
      Move db objects s (.node a) { s with node := n }
  | call {q : Nat} {call : ReadCall} {index : FileIndex} {pool : r.Reads}
      (hc : s.node.reads[q]? = some call) (hs : call.stage = .holding index)
      (hnone : s.scanning[q]? = none)
      (hpool : r.step objects s.pool (.call (index, call.key)) = some pool) :
      Move db objects s (.call q)
        { s with pool, scanning := s.scanning.insert q s.pool.jobs.length }
  | carryOn {q j : Nat} {act : RequestAct} {pool : r.Reads} (hj : s.scanning[q]? = some j)
      (hpool : r.step objects s.pool (.carryOn j act) = some pool) :
      Move db objects s (.carryOn q act) { s with pool }
  | drop {q j : Nat} {pool : r.Reads} (hj : s.scanning[q]? = some j)
      (hpool : r.step objects s.pool (.drop j) = some pool) :
      Move db objects s (.drop q) { s with pool }
  | answer {q j : Nat} {call : ReadCall} {index : FileIndex} {key : Bytes} {hit : Lookup}
      (hc : s.node.reads[q]? = some call) (hj : s.scanning[q]? = some j)
      (hjob : s.pool.jobs[j]? = some ((index, key), .returned (.ok hit))) :
      Move db objects s (.answer q)
        { s with
          node := s.node.answer q call
            (firstHit ((index.files s.node.store.lake).map DataFile.find) call.key)
            (.ok hit.toResult)
          scanning := s.scanning.erase q }

variable {db : DuckDb} {objects : FileName → Bytes} {s s' : CachedNode r} {a : CachedAct}

/-- **Inversion**: a step is one of the moves. -/
theorem move_of_step (h : s.step db objects a = some s') : Move db objects s a s' := by
  cases a with
  | node a =>
      by_cases ha : ∃ q, a = .scan q
      · obtain ⟨q, rfl⟩ := ha
        simp [step] at h
      · have hscan : ∀ q, a ≠ .scan q := fun q he => ha ⟨q, he⟩
        rw [step] at h
        · obtain ⟨n, hn, rfl⟩ := Option.map_eq_some_iff.mp h
          exact .node hscan hn
        · exact hscan
  | call q =>
      simp only [step] at h
      split at h
      · next hc hnone =>
          obtain ⟨pool, hpool, rfl⟩ := Option.map_eq_some_iff.mp h
          exact .call hc rfl hnone hpool
      · contradiction
  | carryOn q act =>
      obtain ⟨j, hj, h⟩ := Option.bind_eq_some_iff.mp h
      obtain ⟨pool, hpool, rfl⟩ := Option.map_eq_some_iff.mp h
      exact .carryOn hj hpool
  | drop q =>
      obtain ⟨j, hj, h⟩ := Option.bind_eq_some_iff.mp h
      obtain ⟨pool, hpool, rfl⟩ := Option.map_eq_some_iff.mp h
      exact .drop hj hpool
  | answer q =>
      simp only [step] at h
      split at h
      · next hc hj =>
          split at h
          · next hjob => rw [← Option.some.inj h]; exact .answer hc hj hjob
          · contradiction
      · contradiction

end CachedNode

namespace Node

variable {db : DuckDb} {n n' : Node} {a : Act}

/-- A read that has its index keeps it until it returns. -/
theorem holding_kept (ha : ∀ q, a ≠ .scan q) (hs : n.step db a = some n') {q : Nat}
    {call : ReadCall} {index : FileIndex} (hc : n.reads[q]? = some call)
    (hstage : call.stage = .holding index) : n'.reads[q]? = some call := by
  have hne : ∀ {q' : Nat} {c : ReadCall}, n.reads[q']? = some c →
      c.stage ≠ .holding index → q' ≠ q := by
    intro q' c hc' hs' he
    rw [he, hc, Option.some.injEq] at hc'
    exact hs' (hc' ▸ hstage)
  cases move_of_step hs with
  | scan hc' hs' => exact absurd rfl (ha _)
  | @begin q' key hr =>
      have hne : q' ≠ q := fun he => hr (he.symm ▸ OrdMap.mem_of_getElem? hc)
      show (n.reads.insert _ _)[q]? = some call
      rw [OrdMap.getElem?_insert_ne _ hne]
      exact hc
  | miss hc' hs' hm =>
      show (n.reads.insert _ _)[q]? = some call
      rw [OrdMap.getElem?_insert_ne _ (hne hc' (by simp [hs']))]
      exact hc
  | hit hc' hs' hm =>
      show (n.reads.erase _)[q]? = some call
      rw [OrdMap.getElem?_erase, if_neg (hne hc' (by simp [hs']))]
      exact hc
  | snapshot hc' hs' =>
      show (n.reads.insert _ _)[q]? = some call
      rw [OrdMap.getElem?_insert_ne _ (hne hc' (by simp [hs']))]
      exact hc
  | _ => exact hc

end Node

namespace CachedNode

variable {r : ReadPath} {db : DuckDb} {objects : FileName → Bytes} {g : Node → Act → Prop}
  {s s' t : CachedNode r} {a : CachedAct} {n₀ : Node} {maxBytes : Nat}

/-- The columnar reads are those of the process, through indexes of its files. -/
structure Follows (objects : FileName → Bytes) (maxBytes : Nat) (s : CachedNode r) : Prop where
  catalogued : s.node.Catalogued
  scanning : ∀ q j : Nat, s.scanning[q]? = some j → ∃ call index job,
    s.node.reads[q]? = some call ∧ call.stage = .holding index ∧
      s.pool.jobs[j]? = some ((index, call.key), job)
  pool : Reaches (r.step objects) (Pool.guard (ReadPath.Indexes s.node.store.lake))
    (r.new maxBytes) s.pool

/-- A step only adds files. -/
theorem lake_subset (hs : s.step db objects a = some s') :
    s.node.store.lake ⊆ s'.node.store.lake := by
  cases move_of_step hs with
  | node ha hn => exact Node.lake_subset hn
  | _ => exact List.Subset.refl _

namespace Follows

variable (h : s.Follows objects maxBytes)
include h

/-- A step of the columnar reads. -/
theorem read {act : PoolAct (FileIndex × Bytes) RequestAct} {pool : r.Reads}
    (hg : Pool.guard (ReadPath.Indexes s.node.store.lake) s.pool act)
    (hs : r.step objects s.pool act = some pool) :
    Follows objects maxBytes { s with pool } where
  catalogued := h.catalogued
  scanning q j hj := by
    obtain ⟨call, index, job, hc, hstage, hjob⟩ := h.scanning q j hj
    obtain ⟨job', hjob'⟩ := Pool.label_of_step hs hjob
    exact ⟨call, index, job', hc, hstage, hjob'⟩
  pool := h.pool.tail act hg hs

/-- A new columnar read. -/
theorem enter {q : Nat} {call : ReadCall} {index : FileIndex} {pool : r.Reads}
    (hc : s.node.reads[q]? = some call) (hstage : call.stage = .holding index)
    (hpool : r.step objects s.pool (.call (index, call.key)) = some pool) :
    Follows objects maxBytes
      { s with pool, scanning := s.scanning.insert q s.pool.jobs.length } := by
  have hlive : Pool.guard (ReadPath.Indexes s.node.store.lake) s.pool
      (.call (index, call.key) : PoolAct (FileIndex × Bytes) RequestAct) :=
    h.catalogued.holding q call index hc hstage
  have hread := h.read hlive hpool
  refine { hread with scanning := fun q' j hj => ?_ }
  cases OrdMap.of_getElem?_insert hj with
  | inl hnew =>
      simp only [ReadPath.step, Pool.step, Option.some.injEq] at hpool
      by_cases he : q = q'
      · subst he
        obtain ⟨job, hjob⟩ : ∃ job, pool.jobs[j]? = some ((index, call.key), job) := by
          rw [hnew, ← hpool]
          exact ⟨_, List.getElem?_concat_length⟩
        exact ⟨call, index, job, hc, hstage, hjob⟩
      · have hj : (s.scanning.insert q s.pool.jobs.length)[q']? = some j := hj
        rw [OrdMap.getElem?_insert_ne _ he] at hj
        exact hread.scanning q' j hj
  | inr hold => exact hread.scanning q' j hold

/-- A read returns. -/
theorem answer {q : Nat} {call : ReadCall} (hit : Option (Version Bytes))
    (result : Except Error (Option Bytes)) :
    Follows objects maxBytes
      { s with node := s.node.answer q call hit result, scanning := s.scanning.erase q } where
  catalogued := h.catalogued.answer q call hit result
  scanning q' j hj := by
    have hj : (s.scanning.erase q)[q']? = some j := hj
    have hne : q ≠ q' := by
      intro he
      rw [OrdMap.getElem?_erase, if_pos he] at hj
      contradiction
    obtain ⟨call', index, job, hc, hstage, hjob⟩ := h.scanning q' j (OrdMap.of_getElem?_erase hj)
    refine ⟨call', index, job, ?_, hstage, hjob⟩
    show (s.node.reads.erase q)[q']? = some call'
    rw [OrdMap.getElem?_erase, if_neg hne]
    exact hc
  pool := h.pool

/-- **Step**: beside any action of the process. -/
theorem step (hs : s.step db objects a = some s') : s'.Follows objects maxBytes := by
  cases move_of_step hs with
  | node ha hn =>
      refine ⟨h.catalogued.step hn, fun q j hj => ?_, h.pool.mono fun p act hg => ?_⟩
      · obtain ⟨call, index, job, hc, hstage, hjob⟩ := h.scanning q j hj
        exact ⟨call, index, job, Node.holding_kept ha hn hc hstage, hstage, hjob⟩
      · cases act with
        | call i => exact FileIndex.Live.mono (show i.1.Live _ from hg) (Node.lake_subset hn)
        | carryOn m act | drop m => trivial
  | call hc hstage hnone hpool => exact h.enter hc hstage hpool
  | carryOn hj hpool => exact h.read (by trivial) hpool
  | drop hj hpool => exact h.read (by trivial) hpool
  | answer hc hj hjob => exact h.answer _ _

omit h in
/-- A process that has come up. -/
theorem boot (h : n₀.Catalogued) : Follows objects maxBytes (r := r) (boot n₀ maxBytes) where
  catalogued := h
  scanning := by simp [CachedNode.boot]
  pool := .refl _

/-- **Run.** -/
theorem of_reaches {guard : CachedNode r → CachedAct → Prop}
    (ht : Reaches (CachedNode.step db objects) guard s t) : t.Follows objects maxBytes :=
  ht.invariant (Follows objects maxBytes) h fun _ _ _ h _ hs => h.step hs

/-- **A columnar read is exact**, over the lake as it is when the read returns. -/
theorem get_eq (hlake : r.Lake objects s.node.store.lake) {q j : Nat} {index : FileIndex}
    {key : Bytes} {hit : Lookup} (hj : s.scanning[q]? = some j)
    (hjob : s.pool.jobs[j]? = some ((index, key), .returned (.ok hit))) :
    ∃ call, s.node.reads[q]? = some call ∧ call.stage = .holding index ∧ call.key = key ∧
      ColumnarReader.get s.node.store.lake index key = .ok hit := by
  obtain ⟨call, index', job, hc, hstage, hjob'⟩ := h.scanning q j hj
  rw [hjob, Option.some.injEq, Prod.mk.injEq, Prod.mk.injEq] at hjob'
  obtain ⟨⟨rfl, rfl⟩, -⟩ := hjob'
  exact ⟨call, hc, hstage, rfl,
    ReadPath.get_of_holds hlake (ReadPath.holds_of_reaches hlake h.pool) hjob⟩

/-- A read that returns shows as the step that reads at once. -/
theorem shows (hlake : r.Lake objects s.node.store.lake)
    (hs : s.step db objects a = some s') (hg : Allows g s a) :
    s'.node = s.node ∨ ∃ b, g s.node b ∧ s.node.step db b = some s'.node := by
  cases move_of_step hs with
  | node ha hn => exact .inr ⟨_, hg _ rfl, hn⟩
  | call hc hstage hnone hpool => exact .inl rfl
  | carryOn hj hpool => exact .inl rfl
  | drop hj hpool => exact .inl rfl
  | answer hc hj hjob =>
      obtain ⟨call, hc', hstage, hkey, hget⟩ := h.get_eq hlake hj hjob
      rw [hc, Option.some.injEq] at hc'
      subst hc'
      refine .inr ⟨_, hg _ rfl, ?_⟩
      rw [Node.step_of_move (.scan hc hstage), hkey, hget]
      rfl

end Follows

end CachedNode

/-! ## what `open` brings up -/

namespace System

variable {db : DuckDb} {s s' : System} {e : Event}

/-- Every index, of the process or on its way to it, lists live files only. -/
def Catalogued (s : System) : Prop :=
  match s.phase with
  | .up p => (s.node p).Catalogued
  | .indexLoaded _ index => index.Live s.store.lake
  | .down | .watermarkRead _ => True

theorem catalogued_of_up {p : Process} (h : s.Catalogued) (hp : s.phase = .up p) :
    (s.node p).Catalogued := by
  rw [Catalogued, hp] at h
  exact h

/-- The process that the last step of `open` brings up. -/
theorem catalogued_recovered {cfg : Config} {store : Store} {history : History} {w : Nat}
    {index : FileIndex} {n : Node} (h : index.Live store.lake)
    (hr : Node.recovered cfg store history w index = some n) : n.Catalogued := by
  obtain ⟨dir, engine, history', rfl, rfl⟩ := Node.recovered_eq_boot hr
  exact ⟨h, by simp [Node.boot], by simp [Node.boot]⟩

/-- **Step**: whatever happens, also the commit of an orphan. -/
theorem catalogued_step (h : s.Catalogued) (hs : s.step db e = some s') : s'.Catalogued := by
  cases move_of_step hs with
  | node hp hn => exact (catalogued_of_up h hp).step hn
  | crash hp hc => trivial
  | readWatermark hp => trivial
  | loadIndex hp hload => exact FileIndex.live_of_load hload
  | replay hp hr =>
      rw [Catalogued, hp] at h
      exact catalogued_recovered h hr
  | crashEarly hp => trivial
  | crashOpening hp hr => trivial
  | @land i child hc =>
      have hsub : s.store.lake ⊆ publish db s.store.lake child.batches :=
        List.subset_append_left _ _
      unfold Catalogued at h ⊢
      cases hp : s.phase with
      | up p =>
          rw [hp] at h
          exact h.next hsub (h.index.mono hsub) (fun _ _ hc => .inl hc) fun _ _ hq => .inl hq
      | indexLoaded w index =>
          rw [hp] at h
          exact FileIndex.Live.mono (show index.Live _ from h) hsub
      | down => trivial
      | watermarkRead w => trivial

theorem catalogued_of_reaches {guard : System → Event → Prop}
    (h : Reaches (step db) guard init s) : s.Catalogued :=
  h.invariant Catalogued trivial fun _ _ _ h _ hs => catalogued_step h hs

end System

theorem ReadPath.Lake.mono {r : ReadPath} {objects : FileName → Bytes}
    {store store' : List DataFile} (h : r.Lake objects store') (hsub : store ⊆ store') :
    r.Lake objects store where
  encodes f hf := h.encodes f (hsub hf)
  fileSize f hf := h.fileSize f (hsub hf)

namespace CachedNode

variable {r : ReadPath} {db : DuckDb} {objects : FileName → Bytes} {g : Node → Act → Prop}
  {s t : CachedNode r} {maxBytes : Nat}

/-- **What shows of a run.** -/
theorem refines (h : s.Follows objects maxBytes) (ht : Reaches (step db objects) (Allows g) s t)
    (hlake : r.Lake objects t.node.store.lake) : Reaches (Node.step db) g s.node t.node := by
  induction ht with
  | refl => exact .refl _
  | tail hreach hm ih =>
      obtain ⟨a, hg, hs⟩ := hm
      have hfollows := h.of_reaches hreach
      have hsub := lake_subset hs
      have hbefore := ih (hlake.mono hsub)
      cases hfollows.shows (hlake.mono hsub) hs hg with
      | inl hsame => exact hsame ▸ hbefore
      | inr hmove =>
          obtain ⟨b, hb, hstep⟩ := hmove
          exact hbefore.tail b hb hstep

/-! ## progress -/

/-- The steps of one read. -/
def own (q : Nat) (_ : CachedNode r) : CachedAct → Prop
  | .carryOn q' _ | .answer q' => q' = q
  | .node _ | .call _ | .drop _ => False

/-- The fetches of a read, beside what else the process is at. -/
theorem reaches_of_pool {q j : Nat} {p : r.Reads} (hj : s.scanning[q]? = some j)
    (h : Reaches (r.step objects) (Pool.own j) s.pool p) :
    Reaches (step db objects) (own q) s { s with pool := p } := by
  induction h with
  | refl => exact .refl _
  | tail _ hm ih =>
      obtain ⟨act, hown, hp⟩ := hm
      cases act with
      | carryOn m act =>
          obtain rfl : m = j := hown
          refine ih.tail (.carryOn q act) rfl ?_
          simp only [step, hj, Option.bind_some, hp, Option.map_some]
      | call i | drop m => exact hown.elim

/-- A read that waits can be carried on to its answer. -/
theorem finishes (h : s.Follows objects maxBytes)
    (hlake : r.Lake objects s.node.store.lake) {q j : Nat} {call : FileIndex × Bytes}
    {question : Request r.parquet.Metadata} {work : RequestWork r.parquet.Metadata}
    {k : question.Answer → Cache.ReadProgram r.parquet.Metadata Lookup}
    (hj : s.scanning[q]? = some j)
    (hjob : s.pool.jobs[j]? = some (call, .waiting question work k)) :
    ∃ s', Reaches (step db objects) (own q) s s' ∧
      s.node.step db (.scan q) = some s'.node := by
  have hholds := ReadPath.holds_of_reaches hlake h.pool
  obtain ⟨hcall, -⟩ := hholds.jobs _ (List.mem_of_getElem? hjob)
  obtain ⟨hit, hget, -⟩ := ReadPath.returns_get hlake hcall
  obtain ⟨p, hreach, hend⟩ := (ReadPath.pool_sound hlake).finishes
    (Cache.readerService_live objects (r.IsFooter objects)) hholds hjob
  rw [ReadPath.result, hget] at hend
  -- The pool has come to the end of the read; the process has not moved.
  have hrun : Reaches (step db objects) (own q) s { s with pool := p } := reaches_of_pool hj hreach
  obtain ⟨index, key⟩ := call
  obtain ⟨read, hc, hstage, hkey, hget⟩ := (h.of_reaches hrun).get_eq hlake hj hend
  have hanswer : step db objects { s with pool := p } (.answer q) = some
      { node := s.node.answer q read
          (firstHit ((index.files s.node.store.lake).map DataFile.find) read.key)
          (.ok hit.toResult)
        pool := p
        scanning := s.scanning.erase q } := by
    have hc : s.node.reads[q]? = some read := hc
    simp only [step, hc, hj, hend]
  refine ⟨_, hrun.tail (.answer q) rfl hanswer, ?_⟩
  rw [Node.step_of_move (.scan hc hstage), hkey, hget]
  rfl

/-! ## on a file of one row -/

/-- A run of a process that has just been opened, by trying a list of actions. -/
theorem exists_run_of_attempt (db : DuckDb) (objects : FileName → Bytes) (maxBytes : Nat)
    (guard : CachedNode r → CachedAct → Prop) [∀ s a, Decidable (guard s a)]
    (P : CachedNode r → Prop) [DecidablePred P] (as : List CachedAct)
    (h : (attempt (System.step db) (System.Within Node.Concurrent Node.CrashFresh) System.init
        [.readWatermark, .loadIndex]).any (fun sys =>
      (sys.step db (.replay Node.smallConfig)).any fun sys' => sys'.node?.any fun n =>
        (attempt (step db objects) guard (boot n maxBytes) as).any fun t => P t) = true) :
    ∃ sys sys' n t, Reaches (System.step db) (System.Within Node.Concurrent Node.CrashFresh)
        System.init sys ∧ sys.step db (.replay Node.smallConfig) = some sys' ∧
      sys'.node? = some n ∧ Reaches (step db objects) guard (boot n maxBytes) t ∧ P t := by
  obtain ⟨sys, hsys, h⟩ := (Option.any_eq_true _ _).mp h
  obtain ⟨sys', hsys', h⟩ := (Option.any_eq_true _ _).mp h
  obtain ⟨n, hn, h⟩ := (Option.any_eq_true _ _).mp h
  obtain ⟨t, ht, hP⟩ := exists_reaches_of_attempt P as h
  exact ⟨sys, sys', n, t, reaches_of_attempt hsys, hsys', hn, ht, hP⟩

/-- Actions of the process. -/
def nodeActs (as : List Act) : List CachedAct := as.map .node

/-- A write is flushed, and a read of its key comes to the columnar level while a second
write is on its way. -/
def flushThenRead : List CachedAct :=
  nodeActs (Node.putSteps [1] [7] 1 ++ [.freeze] ++ Node.publishSteps 0 ++
    [.query 0, .install 0, .truncate 0, .retire 0, .begin 0 [1], .lookup 0, .snapshot 0,
      .alloc (.put [1] [8])]) ++ [.call 0]

/-- The fetches of the read, with the second write in between. -/
def fetchAll : List CachedAct :=
  let fetch (i : Nat) : List CachedAct :=
    [.carryOn 0 (.fetch (.lookup i)), .carryOn 0 (.fetch (.getRange i false)),
      .carryOn 0 (.fetch (.insert i))]
  [.carryOn 0 .metadata] ++ fetch 0 ++ fetch 0 ++ nodeActs [.log 2, .insert 2, .ack 2] ++
    [.carryOn 0 .metadata] ++ fetch 0 ++ fetch 1 ++ fetch 2 ++ [.answer 0]

/-- The file is that of the one row. -/
def IsRow (f : DataFile) : Prop :=
  f.rowGroups.map (fun rg => (rg.statistics, rg.rows.map Row.project)) =
    [(some (some [1], some [1]), [⟨[1], 0, [7]⟩])]

instance : DecidablePred IsRow := fun f =>
  inferInstanceAs (Decidable (f.rowGroups.map _ = _))

/-! ## the columnar read is one step -/

section
variable {guard : System → System.Event → Prop} {sys sys' : System} {cfg : Config} {n₀ : Node}

/-- **Cached reads are atomic.**  From any process that `open` brings up, whatever
happened to the system before: if the lake is the Parquet files of the object store,
then all that shows of a run with fetches, evictions, failures and dropped reads is a
run of the process whose reads look the rows up in one step. -/
theorem cached_reads_refine (h : Reaches (System.step db) guard System.init sys)
    (hs : sys.step db (.replay cfg) = some sys') (hn : sys'.node? = some n₀)
    (ht : Reaches (step db objects) (Allows g) (boot n₀ maxBytes) t)
    (hlake : r.Lake objects t.node.store.lake) : Reaches (Node.step db) g n₀ t.node := by
  obtain ⟨p, hp, rfl⟩ := System.node?_eq_some hn
  have hup := System.catalogued_step (System.catalogued_of_reaches h) hs
  exact refines (Follows.boot (System.catalogued_of_up hup hp)) ht hlake

/-- A read through the caches beside a write. -/
theorem cached_reads_refine_row : ∃ (n : Node) (t : CachedNode oneRowReader),
    Reaches (step DuckDb.plain fun _ => oneRowFile) (Allows Node.Concurrent) (boot n 1000) t ∧
      t.node.history.answers.length = 1 ∧
      Reaches (Node.step DuckDb.plain) Node.Concurrent n t.node := by
  obtain ⟨sys, sys', n, t, h, hs, hn, ht, hlen, hrow⟩ := exists_run_of_attempt DuckDb.plain
    (fun _ => oneRowFile) 1000 (Allows Node.Concurrent)
    (fun t : CachedNode oneRowReader => t.node.history.answers.length = 1 ∧
      ∀ f ∈ t.node.store.lake, IsRow f) (flushThenRead ++ fetchAll) (by decide +kernel)
  exact ⟨n, t, ht, hlen, cached_reads_refine h hs hn ht (oneRowReader_lake_of hrow)⟩

/-- **A cached read can always finish.**  Whatever the rest of the process and the other
reads are at, a read that waits for a fetch can be carried on, by steps of its own alone,
to where it returns what the lookup of the rows returns. -/
theorem cached_read_finishes (h : Reaches (System.step db) guard System.init sys)
    (hs : sys.step db (.replay cfg) = some sys') (hn : sys'.node? = some n₀)
    (ht : Reaches (step db objects) (Allows g) (boot n₀ maxBytes) t)
    (hlake : r.Lake objects t.node.store.lake) {q j : Nat} {entry}
    (hj : t.scanning[q]? = some j) (hentry : t.pool.jobs[j]? = some entry)
    (hwaits : entry.2.waits = true) :
    ∃ t', Reaches (step db objects) (own q) t t' ∧
      t.node.step db (.scan q) = some t'.node := by
  obtain ⟨p, hp, rfl⟩ := System.node?_eq_some hn
  have hup := System.catalogued_step (System.catalogued_of_reaches h) hs
  have hfollows := (Follows.boot (System.catalogued_of_up hup hp)).of_reaches ht
  obtain ⟨call, job⟩ := entry
  cases job with
  | waiting question work k => exact finishes hfollows hlake hj hentry
  | returned result | dropped => simp [Job.waits] at hwaits

/-- The read has asked for its first footer. -/
theorem cached_read_finishes_row : ∃ t t' : CachedNode oneRowReader,
    t.pool.jobs.map (·.2.waits) = [true] ∧
      t.node.step DuckDb.plain (.scan 0) = some t'.node := by
  obtain ⟨sys, sys', n, t, h, hs, hn, ht, ⟨hwaits, hj⟩, hrow⟩ := exists_run_of_attempt
    DuckDb.plain (fun _ => oneRowFile) 1000 (Allows Node.Concurrent)
    (fun t : CachedNode oneRowReader =>
      (t.pool.jobs.map (·.2.waits) = [true] ∧ t.scanning[0]? = some 0) ∧
        ∀ f ∈ t.node.store.lake, IsRow f) flushThenRead (by decide +kernel)
  obtain ⟨⟨call, job⟩, hjobs, hjob⟩ := List.map_eq_singleton_iff.mp hwaits
  obtain ⟨t', -, hshows⟩ := cached_read_finishes h hs hn ht (oneRowReader_lake_of hrow) hj
    (by rw [hjobs]; rfl) hjob
  exact ⟨t, t', hwaits, hshows⟩

end

end CachedNode

end HolyGrail
