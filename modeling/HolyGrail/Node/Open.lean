import HolyGrail.Node.Crash

/-!
# HolyGrail.Node.Open

The process that `Engine::open` brings up.

On a good store every step of `open` succeeds, and the process satisfies all
invariants at once: its active memtable holds the records above the watermark,
its index lists every live file, and nothing is under way.
-/

namespace HolyGrail

open Std (ExtTreeMap)

/-- Inserting records one by one into a set that freezes nothing. -/
theorem MemtableSet.foldl_insert (set : MemtableSet) (recs : List Record) :
    recs.foldl MemtableSet.insert set =
      { set with active := { set.active with val := set.active.val.insertAll recs } } := by
  induction recs generalizing set with
  | nil => rfl
  | cons r rs ih =>
      rw [List.foldl_cons, ih]
      rfl

/-- `open` reads the watermark, loads the index and recovers. -/
theorem Engine.open_eq {cfg : Config} {store : Store} {index : FileIndex} {dir : Dir}
    {engine : Engine} (hload : FileIndex.load store.lake = .ok index)
    (hrec : Engine.recover cfg store.dir (publishedWatermark store.lake) index =
      .ok (dir, engine)) : Engine.open cfg store = .ok ({ store with dir }, engine) := by
  rw [Engine.open, hload]
  simp only [hrec]

namespace Node

/-- No call is under way. -/
structure Quiet (n : Node) : Prop where
  writes : n.writes = ∅
  flushes : n.flushes = ∅
  reads : n.reads = ∅

/-- What reads rely on. -/
structure Serving (n : Node) : Prop where
  fresh : n.FreshPlans
  indexed : n.Indexed
  visible : n.Visible

/-- The actions that keep reads right. -/
structure Orderly (n : Node) (a : Act) : Prop where
  read : n.ReadInOrder a
  install : n.InstallNotOlder a
  retire : n.RetireInOrder a

theorem Serving.step {db : DuckDb} {n n' : Node} {a : Act} (h : n.Serving) (hsh : n.Shape db)
    (hg : n.Orderly a) (hs : n.step db a = some n') : n'.Serving where
  fresh := h.fresh.step hsh hg.read hs
  indexed := (h.indexed.step hg.install hs).1
  visible := h.visible.step hsh h.fresh h.indexed hg.install hg.retire hs

instance (n : Node) : Decidable n.Quiet :=
  decidable_of_iff (n.writes.isEmpty = true ∧ n.flushes.isEmpty = true ∧ n.reads.isEmpty = true)
    ⟨fun h => ⟨ExtTreeMap.isEmpty_iff.mp h.1, ExtTreeMap.isEmpty_iff.mp h.2.1,
        ExtTreeMap.isEmpty_iff.mp h.2.2⟩,
      fun h => ⟨ExtTreeMap.isEmpty_iff.mpr h.writes, ExtTreeMap.isEmpty_iff.mpr h.flushes,
        ExtTreeMap.isEmpty_iff.mpr h.reads⟩⟩

namespace Quiet

variable {n : Node} (h : n.Quiet)
include h

theorem no_write {l : Nat} {call : WriteCall} : n.writes[l]? ≠ some call := by
  rw [h.writes]
  simp

theorem no_flush {p : Nat} {call : FlushCall} : n.flushes[p]? ≠ some call := by
  rw [h.flushes]
  simp

theorem sole : n.Sole := fun _ _ hc => absurd hc h.no_write

theorem arrivals : n.Arrivals := fun _ _ hc => absurd hc h.no_write

theorem alone (hfrozen : n.engine.memtables.frozen = []) : n.Alone where
  one p hp := by
    rw [h.flushes] at hp
    exact absurd hp ExtTreeMap.not_mem_empty
  last p hp := by
    rw [h.flushes] at hp
    exact absurd hp ExtTreeMap.not_mem_empty
  queue m hm := by
    rw [hfrozen] at hm
    exact absurd hm List.not_mem_nil
  queried p w mt f index hc := absurd hc h.no_flush

end Quiet

end Node

/-! ## the fresh process -/

namespace StoreOk

variable {db : DuckDb} {store : Store} {history : History} {log : Log}

/-- The records the replay hands to the memtables. -/
def replayed (store : Store) (log : Log) : List Record :=
  log.flat.filter fun r => publishedWatermark store.lake < r.lsn

theorem mem_replayed {r : Record} :
    r ∈ replayed store log ↔ log.Holds r ∧ publishedWatermark store.lake < r.lsn := by
  rw [replayed, List.mem_filter, Log.mem_flat, decide_eq_true_eq]

variable (h : StoreOk db store history log)
include h

theorem top_le {f : DataFile} (hf : f ∈ store.lake) :
    f.chunk.top ≤ publishedWatermark store.lake :=
  le_publishedWatermark (fun _ hg => h.files.stamped hg) hf

theorem maxLsn_lt : maxLsnOf log.flat < lsnLimit := by
  have hle : maxLsnOf log.flat ≤ lsnLimit - 1 :=
    maxLsnOf_le fun r hr => Nat.le_sub_one_of_lt (h.lsn_ok r (.inr (Log.mem_flat.mp hr))).2
  have : 0 < lsnLimit := Nat.two_pow_pos 63
  omega

/-- The replay brings back exactly what the log holds beyond the inserted
records. -/
theorem mem_inserted {r : Record} :
    r ∈ history.inserted ++ replayed store log ↔ r ∈ history.inserted ∨ log.Holds r := by
  rw [List.mem_append, mem_replayed]
  constructor
  · exact fun hr => hr.imp_right And.left
  · rintro (hr | hr)
    · exact .inl hr
    · rcases h.known r hr with hlt | hr
      · exact .inr ⟨hr, hlt⟩
      · exact .inl hr

theorem order (maxBytes maxFrozen : Nat) (hpos : 0 < maxFrozen) (up : Nat → Prop)
    (hup : ∀ l, up l → publishedWatermark store.lake < l) :
    Order db
      { MemtableSet.new maxBytes maxFrozen hpos with
        active := { ptr := 0, val := Memtable.new.insertAll (replayed store log) } }
      store.lake [] [] up := by
  have htop : ∀ c ∈ closedChunks store.lake [], c.top ≤ publishedWatermark store.lake := by
    rintro c (⟨m, hm, -⟩ | ⟨f, hf, rfl⟩)
    · exact absurd hm List.not_mem_nil
    · exact h.top_le hf
  have hactive : ∀ k v, (Memtable.new.insertAll (replayed store log)).find k = some v →
      ∃ r, log.Holds r ∧ publishedWatermark store.lake < r.lsn ∧ v = r.version := by
    intro k v hv
    obtain ⟨r, hr, -, hrv⟩ := Memtable.exists_record_of_find hv
    exact ⟨r, (mem_replayed.mp hr).1, (mem_replayed.mp hr).2, hrv⟩
  refine
    { files := h.files, layered := ?_, below_active := fun c hc k v hv => ?_
      below_upcoming := fun c hc l hl => Nat.lt_of_le_of_lt (htop c hc) (hup l hl)
      active_fits := ?_, active_pos := fun k v hv => ?_
      closed_ok := fun m hm => absurd hm List.not_mem_nil
      closed_pos := fun m hm => absurd hm List.not_mem_nil, closed_order := .nil
      frozen_sub := .refl _, origin := fun f hf => .inr fun m hm => absurd hm List.not_mem_nil
      published_mem := fun m hm => absurd hm List.not_mem_nil }
  · refine h.layered.subset ?_
    rintro c (⟨m, hm, -⟩ | hc)
    · exact absurd hm List.not_mem_nil
    · exact hc
  · obtain ⟨r, -, hlt, rfl⟩ := hactive k v hv
    exact Nat.lt_of_le_of_lt (htop c hc) hlt
  · refine Nat.lt_of_le_of_lt
      (Memtable.maxLsn_insertAll_le (Nat.zero_le _) fun r hr => ?_) h.maxLsn_lt
    exact le_maxLsnOf (Log.mem_flat.mpr (mem_replayed.mp hr).1)
  · obtain ⟨r, hr, -, rfl⟩ := hactive k v hv
    exact (h.lsn_ok r (.inr hr)).1

omit h in
/-- The process over a log directory that was cut back to whole frames. -/
def process (cfg : Config) (store : Store) (history : History) (log : Log) (dir : Dir) (wal : Wal)
    (index : FileIndex) : Node :=
  Node.boot { store with dir }
    { index, wal
      memtables :=
        { MemtableSet.new cfg.memtableMaxBytes cfg.maxFrozenMemtables cfg.maxFrozen_pos with
          active := { ptr := 0, val := Memtable.new.insertAll (replayed store log) } }
      nextLsn := max (maxLsnOf log.flat) (publishedWatermark store.lake) + 1 }
    { history with inserted := history.inserted ++ replayed store log }

omit h in
/-- The last step of `open` succeeds on whatever a crash left. -/
theorem recovered_of_mirrors (hmir : Mirrors Torn store.dir log) (cfg : Config)
    (history : History) (index : FileIndex) :
    ∃ dir wal, Wal.open store.dir cfg.walSegmentBytes (publishedWatermark store.lake) =
        .ok (dir, wal, { records := replayed store log, maxLsn := maxLsnOf log.flat }) ∧
      Tracks dir wal log.opened ∧
      Engine.recover cfg store.dir (publishedWatermark store.lake) index =
        .ok (dir, (process cfg store history log dir wal index).engine) ∧
      Node.recovered cfg store history (publishedWatermark store.lake) index =
        some (process cfg store history log dir wal index) := by
  obtain ⟨dir, wal, hopen, htr, -⟩ :=
    open_tracks hmir cfg.walSegmentBytes (publishedWatermark store.lake)
  have hrec : Engine.recover cfg store.dir (publishedWatermark store.lake) index =
      .ok (dir, (process cfg store history log dir wal index).engine) := by
    rw [Engine.recover, hopen]
    simp only [MemtableSet.foldl_insert]
    rfl
  refine ⟨dir, wal, hopen, htr, hrec, ?_⟩
  rw [Node.recovered, hopen, hrec]
  rfl

theorem recovered_eq (cfg : Config) (index : FileIndex) :
    ∃ dir wal, Wal.open store.dir cfg.walSegmentBytes (publishedWatermark store.lake) =
        .ok (dir, wal, { records := replayed store log, maxLsn := maxLsnOf log.flat }) ∧
      Tracks dir wal log.opened ∧
      Engine.recover cfg store.dir (publishedWatermark store.lake) index =
        .ok (dir, (process cfg store history log dir wal index).engine) ∧
      Node.recovered cfg store history (publishedWatermark store.lake) index =
        some (process cfg store history log dir wal index) :=
  recovered_of_mirrors h.mirrors cfg history index

section
variable (cfg : Config) {dir : Dir} {wal : Wal} {index : FileIndex}

theorem shape_process : (process cfg store history log dir wal index).Shape db where
  order := by
    refine h.order _ _ _ _ ?_
    rintro l (hl | ⟨call, hc, -⟩)
    · have hl : max (maxLsnOf log.flat) (publishedWatermark store.lake) + 1 ≤ l := hl
      omega
    · simp [process, Node.boot] at hc
  flushes_ok p call hp := by simp [process, Node.boot] at hp
  writes_ok l call hc := by simp [process, Node.boot] at hc
  arrived l call hc := by simp [process, Node.boot] at hc
  acked_sub r hr := List.mem_append_left _ (h.acked_sub hr)
  sound := by
    rintro c (rfl | ⟨m, hm, -⟩ | ⟨f, hf, rfl⟩) k v hv
    · obtain ⟨r, hr, hk, rfl⟩ := Memtable.exists_record_of_find hv
      exact ⟨r, List.mem_append_right _ hr, hk, rfl⟩
    · exact absurd hm List.not_mem_nil
    · rw [h.files.chunk_find hf] at hv
      obtain ⟨r, hr, hrk⟩ := h.sound f hf k v hv
      exact ⟨r, List.mem_append_left _ hr, hrk⟩
  next_pos := Nat.succ_pos _
  next_le := by
    have h1 := h.maxLsn_lt
    have h2 := h.files.watermark_lt
    change max (maxLsnOf log.flat) (publishedWatermark store.lake) + 1 ≤ lsnLimit
    omega
  active_lt := by
    have hle : (Memtable.new.insertAll (replayed store log)).maxLsn ≤ maxLsnOf log.flat :=
      Memtable.maxLsn_insertAll_le (Nat.zero_le _) fun r hr =>
        le_maxLsnOf (Log.mem_flat.mpr (mem_replayed.mp hr).1)
    change _ < max (maxLsnOf log.flat) (publishedWatermark store.lake) + 1
    exact Nat.lt_succ_of_le (Nat.le_trans hle (Nat.le_max_left _ _))

theorem stamps_process : (process cfg store history log dir wal index).Stamps where
  lt r hr := by
    have hr := h.mem_inserted.mp hr
    refine ⟨(h.lsn_ok r hr).1, ?_⟩
    change _ < max (maxLsnOf log.flat) (publishedWatermark store.lake) + 1
    by_cases hle : r.lsn ≤ publishedWatermark store.lake
    · omega
    · have hheld : log.Holds r := hr.elim (fun hr => h.held r hr (by omega)) id
      have := le_maxLsnOf (Log.mem_flat.mpr hheld)
      omega
  unique r hr s hs := h.unique r s (h.mem_inserted.mp hr) (h.mem_inserted.mp hs)
  fresh l call hc := by simp [process, Node.boot] at hc

/-- A record of the store is in a live file or replayed. -/
theorem absorbed_or_replayed {r : Record} (hr : r ∈ history.inserted ∨ log.Holds r) :
    (∃ f ∈ store.lake, Absorbs f.find r.write) ∨ r ∈ replayed store log := by
  by_cases hle : r.lsn ≤ publishedWatermark store.lake
  · rcases hr with hr | hr
    · exact .inl (h.absorbed r hr hle)
    · rcases h.known r hr with hlt | hr
      · omega
      · exact .inl (h.absorbed r hr hle)
  · have hheld : log.Holds r := hr.elim (fun hr => h.held r hr (by omega)) id
    exact .inr (mem_replayed.mpr ⟨hheld, by omega⟩)

theorem secure_process (htr : Tracks dir wal log.opened) :
    (process cfg store history log dir wal index).Secure db where
  shape := h.shape_process cfg
  stamps := h.stamps_process cfg
  placed := by
    refine ⟨fun r hr => ?_, fun m hm => absurd hm List.not_mem_nil,
      fun m hm => absurd hm List.not_mem_nil⟩
    rcases h.absorbed_or_replayed (h.mem_inserted.mp hr) with hf | hr
    · exact .inl hf
    · refine .inr ⟨_, .inl rfl, Memtable.absorbs_insertAll hr, ?_⟩
      rintro c (⟨m, hm, -⟩ | ⟨f, hf, rfl⟩) -
      · exact absurd hm List.not_mem_nil
      · exact Nat.lt_of_le_of_lt (h.top_le hf) (mem_replayed.mp hr).2
  logged := by
    refine ⟨log.opened, htr, fun r hr hlt => ?_, fun l rec hc => ?_, fun r hr => ?_,
      fun l call hc => ?_⟩
    · rw [Log.holds_opened]
      exact (h.mem_inserted.mp hr).elim (fun hr => h.held r hr hlt) id
    · simp [process, Node.boot] at hc
    · exact .inl (h.mem_inserted.mpr (.inr (Log.holds_opened.mp hr)))
    · simp [process, Node.boot] at hc

theorem serving_process (hist : HistoryOk history) (hload : FileIndex.load store.lake = .ok index) :
    (process cfg store history log dir wal index).Serving where
  fresh p call hp := by simp [process, Node.boot] at hp
  indexed := by
    refine ⟨⟨store.lake, List.prefix_rfl, hload⟩, fun p call hp => ?_,
      fun f hf => absurd hf List.not_mem_nil⟩
    simp [process, Node.boot] at hp
  visible := by
    refine ⟨fun r hr => ?_, fun f hf k => .inr fun t ht => absurd ht List.not_mem_nil,
      fun r call hr => ?_, ?_, fun a ha => ?_⟩
    · rcases h.absorbed_or_replayed (h.mem_inserted.mp hr) with ⟨f, hf, ha⟩ | hr
      · refine .inr ⟨f, ⟨hf, (FileIndex.load_perm hload).mem_iff.mpr ?_⟩, ha⟩
        exact List.mem_map_of_mem hf
      · exact .inl ⟨_, List.mem_cons_self, Memtable.absorbs_insertAll hr⟩
    · simp [process, Node.boot] at hr
    · exact fun r hr => List.mem_append_left _ (hist.acked_sub hr)
    · exact (hist.answers_ok a ha).mono fun r hr => List.mem_append_left _ hr

omit h in
theorem quiet_process : (process cfg store history log dir wal index).Quiet := ⟨rfl, rfl, rfl⟩
end

omit h in
/-- The one writer's log stays in order across an open. -/
theorem soleLog_process (hsole : SoleStore store) (cfg : Config) {dir : Dir} {wal : Wal}
    {index : FileIndex}
    (hopen : Wal.open store.dir cfg.walSegmentBytes (publishedWatermark store.lake) =
      .ok (dir, wal, { records := replayed store log, maxLsn := maxLsnOf log.flat })) :
    (process cfg store history log dir wal index).SoleLog := by
  obtain ⟨kept, floor, hfloor, hinv⟩ := hsole
  refine ⟨_, kept, publishedWatermark store.lake, Nat.le_refl _,
    .inl ⟨rfl, fun l call hc => ?_⟩, ?_⟩
  · simp [process, Node.boot] at hc
  · refine LogSys.inv_step _ (.open cfg.walSegmentBytes (publishedWatermark store.lake)) _ hinv
      hfloor ?_
    simp only [LogSys.step, hopen]
    rfl

/-- The index of a good store can be loaded. -/
theorem load_ok : ∃ index, FileIndex.load store.lake = .ok index :=
  ⟨_, FileIndex.load_eq fun _ hf => (h.files.readable hf).lsnMax_nonneg⟩

end StoreOk

/-! ## a read of the whole engine -/

namespace Node

/-- The writes of a history, for the abstract model. -/
def Wrote (recs : List Record) : Set (Write Bytes Bytes) := {w | ∃ r ∈ recs, r.write = w}

/-- **A read at rest** returns the newest write to its key. -/
theorem get_newest {db : DuckDb} {n : Node} (hsh : n.Shape db) (h : n.Serving) (k : Bytes) :
    ∃ hit, Engine.get n.store n.engine k = .ok (effect hit) ∧
      Newest (Wrote n.history.inserted) k hit := by
  have hnew : ∀ v, (∃ r ∈ n.history.inserted, r.key = k ∧ r.version = v) →
      (∀ r ∈ n.history.inserted, r.key = k → r.lsn ≤ v.lsn) →
      Newest (Wrote n.history.inserted) k (some v) := by
    rintro v ⟨r, hr, rfl, rfl⟩ hmax
    refine ⟨⟨r, hr, rfl⟩, ?_⟩
    rintro w ⟨s, hs, rfl⟩ hk
    exact hmax s hs hk
  cases hfirst : firstHit n.engine.memtables.tiers k with
  | some v =>
      refine ⟨some v, ?_, hnew v (Visible.found_in_memtables hsh hfirst)
        (h.visible.lsn_le_of_hit hsh hfirst)⟩
      rw [Engine.get, MemtableSet.get_eq, hfirst]
      obtain ⟨l, _ | b⟩ := v <;> rfl
  | none =>
      have hcov := h.visible.covers_of_miss hfirst
      obtain ⟨hfound, hfresh⟩ := Visible.scan_spec hsh h.indexed.snapshot hcov
      refine ⟨firstHit ((n.engine.index.files n.store.lake).map DataFile.find) k, ?_, ?_⟩
      · rw [Engine.get, MemtableSet.get_eq, hfirst, h.indexed.snapshot.get_eq hsh.order.files]
        rcases firstHit ((n.engine.index.files n.store.lake).map DataFile.find) k with
          _ | ⟨l, _ | b⟩ <;> rfl
      · cases hscan : firstHit ((n.engine.index.files n.store.lake).map DataFile.find) k with
        | none =>
            rintro w ⟨r, hr, rfl⟩ hk
            obtain ⟨v, hv, -⟩ := hfresh r hr hk
            rw [hscan] at hv
            contradiction
        | some v =>
            refine hnew v (hfound v hscan) fun r hr hk => ?_
            obtain ⟨u, hu, hle⟩ := hfresh r hr hk
            rw [hscan] at hu
            exact Option.some.inj hu ▸ hle

end Node

/-- The writes of the inserted and the logged records, where these are listed. -/
theorem Log.wrote_eq {history : History} {log : Log} {rs : List Record}
    (h : ∀ r, r ∈ history.inserted ∨ log.Holds r ↔ r ∈ rs) :
    {w | ∃ r, (r ∈ history.inserted ∨ log.Holds r) ∧ r.write = w} = Node.Wrote rs := by
  ext w
  simp only [Node.Wrote, Set.mem_ofPred_eq, h]

/-- **Opening a good store** succeeds, and every read of the new engine returns
the newest record that was inserted or survived in the log. -/
theorem StoreOk.open_get {db : DuckDb} {store : Store} {history : History} {log : Log}
    (h : StoreOk db store history log) (cfg : Config) :
    ∃ store' engine, Engine.open cfg store = .ok (store', engine) ∧
      ∀ k, ∃ hit, Engine.get store' engine k = .ok (effect hit) ∧
        Newest {w | ∃ r, (r ∈ history.inserted ∨ log.Holds r) ∧ r.write = w} k hit := by
  obtain ⟨index, hload⟩ := h.load_ok
  -- Reads that returned before do not matter here.
  have h' : StoreOk db store { history with answers := [] } log := { h with }
  have hhist : HistoryOk { history with answers := [] } :=
    ⟨h.acked_sub, fun a ha => absurd ha List.not_mem_nil⟩
  obtain ⟨dir, wal, -, htr, hrec, -⟩ := h'.recovered_eq cfg index
  refine ⟨_, _, Engine.open_eq hload hrec, fun k => ?_⟩
  obtain ⟨hit, hget, hnew⟩ :=
    Node.get_newest (h'.shape_process cfg) (h'.serving_process cfg hhist hload) k
  refine ⟨hit, hget, ?_⟩
  rw [Log.wrote_eq fun r => h.mem_inserted.symm]
  exact hnew

/-! ## after a crash -/

namespace Node

/-- The engine answers the key of `r` with `r` itself or with a later write. -/
def Readable (n : Node) (store : Store) (engine : Engine) (r : Record) : Prop :=
  ∃ w, n.Written w ∧ w.key = r.key ∧ (w = r ∨ r.lsn < w.lsn) ∧
    Engine.get store engine r.key = .ok w.version.value

/-- **Nothing inserted is lost.**  After a crash, `open` succeeds, and a read
finds a write at least as new as every one that was inserted before. -/
theorem Secure.reopen {db : DuckDb} {n : Node} (h : n.Secure db) {c : Crash} {store : Store}
    (hfree : n.CrashFresh c) (hc : n.crashed c = some store) (cfg : Config) :
    ∃ store' engine, Engine.open cfg store = .ok (store', engine) ∧
      ∀ k, ∃ hit, Engine.get store' engine k = .ok (effect hit) ∧
        (∀ v, hit = some v → ∃ w, n.Written w ∧ w.key = k ∧ w.version = v) ∧
        ∀ r ∈ n.history.inserted, r.key = k →
          ∃ w, n.Written w ∧ w.key = k ∧ (w = r ∨ r.lsn < w.lsn) ∧ hit = some w.version := by
  obtain ⟨log, hst, hwritten⟩ := h.crash hfree hc
  obtain ⟨store', engine, hopen, hget⟩ := hst.open_get cfg
  refine ⟨store', engine, hopen, fun k => ?_⟩
  obtain ⟨hit, hk, hnew⟩ := hget k
  have hknown : ∀ w, w ∈ n.history.inserted ∨ log.Holds w → n.Written w :=
    fun w hw => hw.elim .inl (hwritten w)
  refine ⟨hit, hk, fun v hv => ?_, fun r hr hrk => ?_⟩
  · rw [hv] at hnew
    obtain ⟨w, hw, he⟩ := hnew.1
    rw [Record.write, Write.mk.injEq] at he
    exact ⟨w, hknown w hw, he⟩
  · cases hit with
    | none => exact absurd hrk (hnew _ ⟨r, .inl hr, rfl⟩)
    | some v =>
        obtain ⟨⟨w, hw, he⟩, hmax⟩ := hnew
        rw [Record.write, Write.mk.injEq] at he
        obtain ⟨hwk, rfl⟩ := he
        refine ⟨w, hknown w hw, hwk, ?_, rfl⟩
        have hle : r.lsn ≤ w.lsn := hmax _ ⟨r, .inl hr, rfl⟩ hrk
        rcases Nat.lt_or_eq_of_le hle with hlt | heq
        · exact .inr hlt
        · exact .inl (hst.unique r w (.inl hr) hw heq).symm

theorem Secure.reopen_readable {db : DuckDb} {n : Node} (h : n.Secure db) {c : Crash}
    {store : Store} (hfree : n.CrashFresh c) (hc : n.crashed c = some store) (cfg : Config) :
    ∃ store' engine, Engine.open cfg store = .ok (store', engine) ∧
      ∀ r ∈ n.history.acked, n.Readable store' engine r := by
  obtain ⟨store', engine, hopen, hget⟩ := h.reopen hfree hc cfg
  refine ⟨store', engine, hopen, fun r hr => ?_⟩
  obtain ⟨hit, hk, -, hnew⟩ := hget r.key
  obtain ⟨w, hw, hwk, hle, rfl⟩ := hnew r (h.shape.acked_sub hr) rfl
  exact ⟨w, hw, hwk, hle, hk⟩

end Node

end HolyGrail
