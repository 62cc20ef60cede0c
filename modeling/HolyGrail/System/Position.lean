import HolyGrail.System.Steady

/-!
# HolyGrail.System.Position

Reads go by position: active memtable, frozen memtables newest first, live
files by descending watermark.  With one flush at a time and no failure,
position is LSN order as long as every freeze is clean (`position_is_order`).
Then the first hit is the newest write, and the same version that a replay of
all records into one memtable ends with.

A version is met twice only while its memtable, already published, waits to be
retired.  A freeze that separates two writes of a key, on the other hand, can
put the older one in front (`position_out_of_order`).
-/

namespace HolyGrail

open Std (ExtTreeMap)

/-! ## files in order -/

/-- Ascending files are walked from the last one added. -/
theorem Ascending.newestFirst_eq {db : DuckDb} {lake : List DataFile} (h : Ascending lake)
    (hfiles : Files db lake) : DataFile.newestFirst lake = lake.reverse := by
  have hlt : lake.reverse.Pairwise fun f g => g.watermark < f.watermark := by
    rw [List.pairwise_reverse]
    exact h.imp_of_mem fun hf hg hbelow => hbelow.top_lt (hfiles.tight hg)
  have hperm : (DataFile.newestFirst lake).Perm lake.reverse :=
    (List.perm_insertionSort _ lake).trans (List.reverse_perm lake).symm
  -- Equal watermarks are the same file, so there is only one order.
  have hinj : ∀ f ∈ lake, ∀ g ∈ lake, f.watermark = g.watermark → f = g := by
    intro f hf g hg he
    have hall := List.Pairwise.forall_of_forall_of_flip (l := lake.reverse)
      (R := fun f g => f = g ∨ f.watermark ≠ g.watermark) (fun _ _ => .inl rfl)
      (hlt.imp fun hfg => .inr (Nat.ne_of_gt hfg)) (hlt.imp fun hfg => .inr (Nat.ne_of_lt hfg))
    exact (hall (List.mem_reverse.mpr hf) (List.mem_reverse.mpr hg)).resolve_right fun hne => hne he
  refine hperm.eq_of_pairwise (fun f g hf hg hle hge => ?_) (DataFile.pairwise_newestFirst lake)
    (hlt.imp Nat.le_of_lt)
  exact hinj f (DataFile.mem_newestFirst.mp hf) g (List.mem_reverse.mp hg) (Nat.le_antisymm hge hle)

/-- The newest of all records is what a replay of them ends with. -/
theorem Memtable.newest_insertAll (recs : List Record) (k : Bytes) :
    Newest (Node.Wrote recs) k ((Memtable.new.insertAll recs).find k) := by
  cases hv : (Memtable.new.insertAll recs).find k with
  | none =>
      rintro w ⟨r, hr, rfl⟩ rfl
      obtain ⟨u, hu, -⟩ := new.exists_find_insertAll hr
      rw [Record.write_key, hu] at hv
      contradiction
  | some v =>
      obtain ⟨r, hr, rfl, rfl⟩ := exists_record_of_find hv
      refine ⟨⟨r, hr, rfl⟩, ?_⟩
      rintro w ⟨s, hs, rfl⟩ hk
      obtain ⟨u, hu, hle⟩ := new.exists_find_insertAll hs
      rw [Record.write_key] at hk
      rw [hk, hv, Option.some.injEq] at hu
      exact hu ▸ hle

namespace Node

variable {db : DuckDb} {n n' : Node} {a : Act}

/-- The memtables of a walk. -/
def inMemtables (n : Node) (k : Bytes) : List (Version Bytes) :=
  versions n.engine.memtables.tiers k

/-- The live files of a walk, by descending watermark. -/
def inFiles (n : Node) (k : Bytes) : List (Version Bytes) :=
  versions ((DataFile.newestFirst n.store.lake).map DataFile.find) k

/-- The versions of a key that a walk meets: active memtable, frozen memtables
newest first, live files by descending watermark. -/
def visits (n : Node) (k : Bytes) : List (Version Bytes) := n.inMemtables k ++ n.inFiles k

/-! ## the walk -/

/-- Memtables are met in strictly descending LSN order. -/
theorem Shape.inMemtables_descend (hsh : n.Shape db) (k : Bytes) :
    (n.inMemtables k).Pairwise fun v u => u.lsn < v.lsn := by
  refine pairwise_versions ?_ k
  rw [MemtableSet.tiers, MemtableSet.walk, List.map_cons, List.pairwise_cons]
  refine ⟨fun t ht k v w hv hw => ?_, ?_⟩
  · obtain ⟨m, hm, rfl⟩ := List.mem_map.mp ht
    rw [List.mem_reverse] at hm
    exact (hsh.order.below_active _ (closed_mem_chunks (hsh.order.mem_closed hm))).lsn_lt hv hw
  · rw [List.pairwise_map, List.pairwise_reverse]
    refine (hsh.order.closed_order.sublist hsh.order.frozen_sub).imp fun hab k v w hv hw => ?_
    exact hab.2.lsn_lt hv hw

/-- Ascending files are met in strictly descending LSN order. -/
theorem Shape.inFiles_descend (hsh : n.Shape db) (hasc : Ascending n.store.lake) (k : Bytes) :
    (n.inFiles k).Pairwise fun v u => u.lsn < v.lsn := by
  refine pairwise_versions ?_ k
  rw [hasc.newestFirst_eq hsh.order.files, List.pairwise_map, List.pairwise_reverse]
  refine hasc.imp_of_mem fun hf hg hbelow k v w hv hw => ?_
  rw [← hsh.order.files.chunk_find hg] at hv
  rw [← hsh.order.files.chunk_find hf] at hw
  exact hbelow.lsn_lt hv hw

/-- A walk meets only writes. -/
theorem Shape.wrote_of_mem (hsh : n.Shape db) {t : Tier Bytes Bytes}
    (ht : t ∈ n.engine.memtables.tiers ++ (DataFile.newestFirst n.store.lake).map DataFile.find)
    {k : Bytes} {v : Version Bytes} (hv : t k = some v) : ⟨k, v⟩ ∈ Wrote n.history.inserted := by
  have hwrote : ∀ c : Chunk Bytes Bytes, (c = n.engine.memtables.active.val.chunk ∨
      c ∈ closedChunks n.store.lake n.trail.closed) → c.find k = some v →
      ⟨k, v⟩ ∈ Wrote n.history.inserted := by
    intro c hc hv
    obtain ⟨r, hr, rfl, rfl⟩ := hsh.sound c hc k v hv
    exact ⟨r, hr, rfl⟩
  rw [List.mem_append] at ht
  rcases ht with ht | ht
  · obtain ⟨m, hm, rfl⟩ := List.mem_map.mp ht
    rw [MemtableSet.walk, List.mem_cons, List.mem_reverse] at hm
    rcases hm with rfl | hm
    · exact hwrote _ (.inl rfl) hv
    · exact hwrote _ (.inr (closed_mem_chunks (hsh.order.mem_closed hm))) hv
  · obtain ⟨f, hf, rfl⟩ := List.mem_map.mp ht
    have hf := DataFile.mem_newestFirst.mp hf
    rw [← hsh.order.files.chunk_find hf] at hv
    exact hwrote _ (.inr (lake_mem_chunks hf)) hv

/-- With one flush at a time, a live file is below every memtable of the walk,
or it is the file of the memtable being flushed. -/
theorem Alone.below_or_copy (h : n.Alone) (hsh : n.Shape db) {m : Arc Memtable}
    (hm : m ∈ n.engine.memtables.walk) {f : DataFile} (hf : f ∈ n.store.lake) :
    f.chunk.Below m.val.chunk ∨
      m ∈ n.engine.memtables.frozen ∧ m ∈ n.trail.published ∧ f.chunk = m.val.chunk := by
  rw [MemtableSet.walk, List.mem_cons, List.mem_reverse] at hm
  rcases hm with rfl | hm
  · exact .inl (hsh.order.below_active _ (lake_mem_chunks hf))
  · have hclosed := hsh.order.mem_closed hm
    rcases hsh.order.origin f hf with ⟨m', hm', he⟩ | hold
    · have hle := h.published_le hsh (h.queue m hm) m' hm'
      rcases hsh.order.trichotomy (hsh.order.published_mem m' hm').1 hclosed with rfl | hlt | hgt
      · exact .inr ⟨hm, hm', he⟩
      · exact .inl (he ▸ hlt.2)
      · omega
    · exact .inl (hold m hclosed)

theorem Alone.visits_cross (h : n.Alone) (hsh : n.Shape db) {k : Bytes} {v u : Version Bytes}
    (hv : v ∈ n.inMemtables k) (hu : u ∈ n.inFiles k) :
    u.lsn < v.lsn ∨
      u = v ∧ ∃ m ∈ n.engine.memtables.frozen, m ∈ n.trail.published := by
  obtain ⟨t, ht, hv⟩ := mem_versions.mp hv
  obtain ⟨m, hm, rfl⟩ := List.mem_map.mp ht
  obtain ⟨t, ht, hu⟩ := mem_versions.mp hu
  obtain ⟨f, hf, rfl⟩ := List.mem_map.mp ht
  have hf := DataFile.mem_newestFirst.mp hf
  rw [← hsh.order.files.chunk_find hf] at hu
  rcases h.below_or_copy hsh hm hf with hbelow | ⟨hfrozen, hpub, he⟩
  · exact .inl (hbelow.lsn_lt hv hu)
  · rw [he] at hu
    exact .inr ⟨Option.some.inj (hu.symm.trans hv), m, hfrozen, hpub⟩

/-- What position order needs of a process. -/
structure Positioned (db : DuckDb) (n : Node) : Prop where
  shape : n.Shape db
  stamps : n.Stamps
  serving : n.Serving
  alone : n.Alone
  ascending : Ascending n.store.lake

namespace Positioned

/-- One flush at a time, no failure, and clean freezes. -/
theorem step (h : n.Positioned db) (hclean : n.FreezeClean a) (hone : n.OneFlush a)
    (hok : NoFailure a) (hs : n.step db a = some n') : n'.Positioned db where
  shape := h.shape.step hclean hs
  stamps := h.stamps.step h.shape hs
  serving := h.serving.step h.shape (h.alone.orderly h.shape h.serving.indexed hs) hs
  alone := h.alone.step h.shape hone hok hs
  ascending := h.alone.ascending_step h.shape h.ascending hs

theorem visits_descend (h : n.Positioned db) (k : Bytes) :
    (n.visits k).Pairwise fun v u => u.lsn < v.lsn ∨ u = v := by
  rw [visits, List.pairwise_append]
  refine ⟨(h.shape.inMemtables_descend k).imp .inl,
    (h.shape.inFiles_descend h.ascending k).imp .inl, fun v hv u hu => ?_⟩
  exact (h.alone.visits_cross h.shape hv hu).imp_right And.left

theorem visits_descend_strictly (h : n.Positioned db)
    (hpub : ∀ m ∈ n.engine.memtables.frozen, m ∉ n.trail.published) (k : Bytes) :
    (n.visits k).Pairwise fun v u => u.lsn < v.lsn := by
  rw [visits, List.pairwise_append]
  refine ⟨h.shape.inMemtables_descend k, h.shape.inFiles_descend h.ascending k,
    fun v hv u hu => ?_⟩
  rcases h.alone.visits_cross h.shape hv hu with hlt | ⟨-, m, hm, hmp⟩
  · exact hlt
  · exact absurd hmp (hpub m hm)

/-- The first version met is the newest write. -/
theorem newest_visit (h : n.Positioned db) (k : Bytes) :
    Newest (Wrote n.history.inserted) k (n.visits k).head? := by
  have hsh := h.shape
  rw [visits, inMemtables, inFiles, ← versions_append, ← firstHit_eq_head?]
  refine newest_of_walk hsh.order.tiers_shadow ?_ (fun t ht => ?_)
    (fun t ht k v hv => hsh.wrote_of_mem ht hv) (fun w hw => ?_) k
  · rw [List.pairwise_map, h.ascending.newestFirst_eq hsh.order.files, List.pairwise_reverse]
    refine h.ascending.imp_of_mem fun hf hg hbelow => ?_
    rw [← hsh.order.files.chunk_find hf, ← hsh.order.files.chunk_find hg]
    exact hbelow.shadows
  · obtain ⟨f, hf, rfl⟩ := List.mem_map.mp ht
    have hf := DataFile.mem_newestFirst.mp hf
    exact hsh.order.behind_tiers hf (h.serving.visible.behind f hf)
  · obtain ⟨r, hr, rfl⟩ := hw
    rcases h.serving.visible.kept r hr with ⟨m, hm, ha⟩ | ⟨f, hf, ha⟩
    · exact ⟨_, List.mem_append_left _ (List.mem_map_of_mem hm), ha⟩
    · exact ⟨_, List.mem_append_right _
        (List.mem_map_of_mem (DataFile.mem_newestFirst.mpr hf.1)), ha⟩

/-- When all LSNs differ, there is one newest write. -/
theorem newest_unique (h : n.Positioned db) {k : Bytes} {a b : Option (Version Bytes)}
    (ha : Newest (Wrote n.history.inserted) k a) (hb : Newest (Wrote n.history.inserted) k b) :
    a = b := by
  refine Newest.unique ?_ ha hb
  rintro _ ⟨r, hr, rfl⟩ _ ⟨s, hs, rfl⟩ he
  rw [h.stamps.unique r hr s hs he]

/-- A replay of all records, in any order, ends with the first version met. -/
theorem replay_eq (h : n.Positioned db) {recs : List Record}
    (hrecs : ∀ r, r ∈ recs ↔ r ∈ n.history.inserted) (k : Bytes) :
    (Memtable.new.insertAll recs).find k = (n.visits k).head? := by
  have hset : Wrote recs = Wrote n.history.inserted := by
    ext w
    simp only [Wrote, Set.mem_ofPred_eq, hrecs]
  have hreplay := Memtable.newest_insertAll recs k
  rw [hset] at hreplay
  exact h.newest_unique hreplay (h.newest_visit k)

theorem get_eq (h : n.Positioned db) (k : Bytes) :
    Engine.get n.store n.engine k = .ok (effect (n.visits k).head?) := by
  obtain ⟨hit, hget, hnew⟩ := get_newest h.shape h.serving k
  rw [hget, h.newest_unique hnew (h.newest_visit k)]

end Positioned

end Node

namespace System

variable {db : DuckDb} {s : System}

theorem positioned_of_reaches
    (h : Reaches (step db) (Within Node.Concurrent Node.CrashFresh) init s) {n : Node}
    (hn : s.node? = some n) : n.Positioned db where
  shape := ((steady_of_reaches h).node_secure hn).shape
  stamps := ((steady_of_reaches h).node_secure hn).stamps
  serving := (steady_of_reaches h).node_serving hn
  alone := (steady_of_reaches h).flush n hn
  ascending := by
    obtain ⟨p, -, rfl⟩ := node?_eq_some hn
    exact ascending_of_reaches h

end System

namespace Node

variable {db : DuckDb} {s : System} {n₀ n : Node}

/-- Flushes one at a time without failures, and clean freezes; writers are
free. -/
def Separated (n : Node) (a : Act) : Prop := n.FreezeClean a ∧ n.OneFlush a ∧ NoFailure a

instance (n : Node) (a : Act) : Decidable (n.Separated a) :=
  inferInstanceAs (Decidable (_ ∧ _ ∧ _))

/-- **Position order is LSN order.**  Over any store that earlier process lives
have left, in every state of a run with any number of writers, one flush at a
time, no failure and clean freezes: a walk meets the versions of a key in
strictly descending LSN order among the memtables and among the files, and
across both unless a memtable that is already published waits to be retired,
when its versions are met once more in its own file.  The first version met is
the newest of all inserted writes; it is what `Engine::get` returns, and what a
replay of all records into a fresh memtable ends with. -/
theorem position_is_order
    (h : Reaches (System.step db) (System.Within Concurrent CrashFresh) System.init s)
    (hn₀ : s.node? = some n₀) (hn : Reaches (step db) Separated n₀ n) (k : Bytes) :
    (n.inMemtables k).Pairwise (fun v u => u.lsn < v.lsn) ∧
    (n.inFiles k).Pairwise (fun v u => u.lsn < v.lsn) ∧
    (n.visits k).Pairwise (fun v u => u.lsn < v.lsn ∨ u = v) ∧
    ((∀ m ∈ n.engine.memtables.frozen, m ∉ n.trail.published) →
      (n.visits k).Pairwise fun v u => u.lsn < v.lsn) ∧
    Newest (Wrote n.history.inserted) k (n.visits k).head? ∧
    Engine.get n.store n.engine k = .ok (effect (n.visits k).head?) ∧
    ∀ recs : List Record, (∀ r, r ∈ recs ↔ r ∈ n.history.inserted) →
      (Memtable.new.insertAll recs).find k = (n.visits k).head? := by
  have hpos : n.Positioned db :=
    hn.invariant (Positioned db) (System.positioned_of_reaches h hn₀)
      fun _ _ _ h hg hs => h.step hg.1 hg.2.1 hg.2.2 hs
  exact ⟨hpos.shape.inMemtables_descend k, hpos.shape.inFiles_descend hpos.ascending k,
    hpos.visits_descend k, fun hpub => hpos.visits_descend_strictly hpub k, hpos.newest_visit k,
    hpos.get_eq k, fun _ hrecs => hpos.replay_eq hrecs k⟩

/-- Two writers of one key whose inserts cross, a flush, and one more write. -/
def crossedWriters : List Act :=
  [.alloc (.put [1] [7]), .alloc (.put [1] [8]), .log 2, .log 1, .insert 2, .insert 1, .ack 1,
    .ack 2, .freeze] ++ publishSteps 0 ++ [.query 0, .install 0, .truncate 0, .retire 0] ++
  putSteps [1] [9] 3

theorem position_is_order_crossedWriters :
    ∃ s n₀ n, Reaches (System.step DuckDb.plain) (System.Within Concurrent CrashFresh)
        System.init s ∧ s.node? = some n₀ ∧ Reaches (step DuckDb.plain) Separated n₀ n ∧
      n.visits [1] = [⟨3, some [9]⟩, ⟨2, some [8]⟩] ∧
      Engine.get n.store n.engine [1] = .ok (effect (n.visits [1]).head?) := by
  obtain ⟨s, n₀, n, h, hn₀, -, hn, hvisits⟩ := System.exists_life_of_attempt DuckDb.plain
    (System.Within Concurrent CrashFresh) Separated Quiet
    (fun n => n.visits [1] = [⟨3, some [9]⟩, ⟨2, some [8]⟩]) System.openSteps crossedWriters
    (by decide +kernel)
  exact ⟨s, n₀, n, h, hn₀, hn, hvisits, (position_is_order h hn₀ hn [1]).2.2.2.2.2.1⟩

/-- A flush up to its publish. -/
def flushToPublish : List Act := putSteps [1] [7] 1 ++ [.freeze] ++ publishSteps 0

/-- Two writers of one key, with a freeze between the later one's insert and
the earlier one's. -/
def freezeBetween : List Act :=
  [.alloc (.put [1] [7]), .alloc (.put [1] [8]), .log 1, .log 2, .insert 2, .ack 2, .freeze,
    .insert 1, .ack 1]

/-- A published memtable and its file hold the same version; and a freeze
between two writers puts the older version in front of the newer one. -/
theorem position_out_of_order :
    (∃ s n₀ n, Reaches (System.step DuckDb.plain) (System.Within Concurrent CrashFresh)
        System.init s ∧ s.node? = some n₀ ∧ n₀.Quiet ∧
      Reaches (step DuckDb.plain) Separated n₀ n ∧
      n.visits [1] = [⟨1, some [7]⟩, ⟨1, some [7]⟩]) ∧
    ∃ s n₀ n, Reaches (System.step DuckDb.plain) (System.Within Concurrent CrashFresh)
        System.init s ∧ s.node? = some n₀ ∧ n₀.Quiet ∧
      Reaches (step DuckDb.plain) (fun n a => n.OneFlush a ∧ NoFailure a) n₀ n ∧
      n.visits [1] = [⟨1, some [7]⟩, ⟨2, some [8]⟩] ∧
      Engine.get n.store n.engine [1] = .ok (some [7]) :=
  ⟨System.exists_life_of_attempt DuckDb.plain (System.Within Concurrent CrashFresh) Separated Quiet
    (fun n => n.visits [1] = [⟨1, some [7]⟩, ⟨1, some [7]⟩]) System.openSteps flushToPublish
    (by decide +kernel),
  System.exists_life_of_attempt DuckDb.plain (System.Within Concurrent CrashFresh)
    (fun n a => n.OneFlush a ∧ NoFailure a) Quiet
    (fun n => n.visits [1] = [⟨1, some [7]⟩, ⟨2, some [8]⟩] ∧
      Engine.get n.store n.engine [1] = .ok (some [7])) System.openSteps freezeBetween
    (by decide +kernel)⟩

end Node

end HolyGrail
