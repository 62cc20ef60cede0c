import HolyGrail.Node.Reads

/-!
# HolyGrail.Node.Visible

The invariant behind every read: `Visible`, and the three places where
overlapping or failing flushes can break it.

* `ReadInOrder`: when a flush reads the watermark, no memtable frozen later has
  been published.  Otherwise it takes its own memtable for published.
* `InstallNotOlder`: a flush stores an index at least as large as the installed
  one, as one that has not been overtaken does (`Dated.installNotOlder`).
* `RetireInOrder`: when a memtable is retired, no older one still waiting holds
  a key of it.  Otherwise the older one shadows the newer rows in the file.
-/

namespace HolyGrail

open Std (ExtTreeMap)

namespace Node

/-- When a memtable is retired, no older frozen one holds a key of it. -/
def RetireInOrder (n : Node) : Act → Prop
  | .retire p => ∀ call ∈ n.flushes[p]?, ∀ m ∈ n.engine.memtables.frozen, m.ptr < p →
      ∀ item ∈ m.val.iter, call.memtable.val.find item.1 = none
  | _ => True

structure Visible (n : Node) : Prop where
  /-- Every inserted record is in a memtable of the walk or behind the index. -/
  kept : ∀ r ∈ n.history.inserted,
    (∃ m ∈ n.engine.memtables.walk, Absorbs m.val.find r.write) ∨
      ∃ f, Listed n.store.lake n.engine.index f ∧ Absorbs f.find r.write
  behind : ∀ f ∈ n.store.lake,
    Behind (n.engine.memtables.frozen.map fun m => m.val.find) f.find
  reads_ok : ∀ (r : Nat) (call : ReadCall), n.reads[r]? = some call →
    ReadOk n.store.lake n.engine.index n.history.inserted call
  history_ok : HistoryOk n.history

namespace Visible

variable {db : DuckDb} {n : Node}

/-! ### what a read finds -/

/-- **A hit in the memtables** is at least as new as every inserted write. -/
theorem lsn_le_of_hit (h : n.Visible) (hsh : n.Shape db) {k : Bytes} {v : Version Bytes}
    (hit : firstHit n.engine.memtables.tiers k = some v) :
    ∀ r ∈ n.history.inserted, r.key = k → r.lsn ≤ v.lsn := by
  have hbehind : ∀ t ∈ n.store.lake.map DataFile.find, Behind n.engine.memtables.tiers t := by
    intro t ht
    obtain ⟨f, hf, rfl⟩ := List.mem_map.mp ht
    exact hsh.order.behind_tiers hf (h.behind f hf)
  have hmax := lsn_le_of_fresh_hit hsh.order.tiers_shadow hbehind hit
  rintro r hr rfl
  rcases h.kept r hr with ⟨m, hm, u, hu, hle⟩ | ⟨f, hf, u, hu, hle⟩
  · exact Nat.le_trans hle (hmax m.val.find
      (List.mem_append_left _ (List.mem_map_of_mem hm)) u hu)
  · exact Nat.le_trans hle (hmax f.find
      (List.mem_append_right _ (List.mem_map_of_mem hf.1)) u hu)

/-- **A miss in the memtables** leaves every inserted write to the index. -/
theorem covers_of_miss (h : n.Visible) {k : Bytes}
    (hmiss : firstHit n.engine.memtables.tiers k = none) :
    Covers n.store.lake n.engine.index n.history.inserted k := by
  rintro r hr rfl
  rcases h.kept r hr with ⟨m, hm, u, hu, -⟩ | hf
  · have hnone := firstHit_eq_none.mp hmiss m.val.find (List.mem_map_of_mem hm)
    rw [Record.write_key, hnone] at hu
    contradiction
  · exact hf

theorem found_in_memtables (hsh : n.Shape db) {k : Bytes} {v : Version Bytes}
    (hit : firstHit n.engine.memtables.tiers k = some v) :
    ∃ r ∈ n.history.inserted, r.key = k ∧ r.version = v := by
  obtain ⟨t, ht, hv⟩ := mem_of_firstHit hit
  obtain ⟨m, hm, rfl⟩ := List.mem_map.mp ht
  rw [MemtableSet.walk, List.mem_cons, List.mem_reverse] at hm
  rcases hm with rfl | hm
  · exact hsh.sound _ (.inl rfl) k v hv
  · exact hsh.sound _ (.inr (closed_mem_chunks (hsh.order.mem_closed hm))) k v hv

/-- **A scan** of a snapshot that covers the records of a key finds one at
least as new as each of them. -/
theorem scan_spec (hsh : n.Shape db) {index : FileIndex} {recs : List Record}
    {k : Bytes} (hsnap : Snapshot n.store.lake index)
    (hcov : Covers n.store.lake index recs k) :
    (∀ v, firstHit ((index.files n.store.lake).map DataFile.find) k = some v →
        ∃ r ∈ n.history.inserted, r.key = k ∧ r.version = v) ∧
      ∀ r ∈ recs, r.key = k →
        ∃ v, firstHit ((index.files n.store.lake).map DataFile.find) k = some v ∧
          r.lsn ≤ v.lsn := by
  have hmem := fun f => hsnap.mem_files hsh.order.files (f := f)
  refine ⟨fun v hv => ?_, fun r hr hk => ?_⟩
  · obtain ⟨t, ht, htv⟩ := mem_of_firstHit hv
    obtain ⟨f, hf, rfl⟩ := List.mem_map.mp ht
    have hlake := ((hmem f).mp hf).1
    rw [← hsh.order.files.chunk_find hlake] at htv
    exact hsh.sound _ (.inr (lake_mem_chunks hlake)) k v htv
  · obtain ⟨f, hf, u, hu, hle⟩ := hcov r hr hk
    rw [Record.write_key, hk] at hu
    have hin := List.mem_map_of_mem (f := DataFile.find) ((hmem f).mpr hf)
    cases hfirst : firstHit ((index.files n.store.lake).map DataFile.find) k with
    | none =>
        rw [firstHit_eq_none.mp hfirst f.find hin] at hu
        contradiction
    | some v =>
        have hmax := lsn_le_of_firstHit
          (hsnap.shadows hsh.order.files hsh.order.lake_layered) hfirst f.find hin u hu
        exact ⟨v, rfl, Nat.le_trans hle hmax⟩

/-! ### what the steps do -/

/-- A record arrives in the active memtable. -/
theorem insert (h : n.Visible) {rec : Record} :
    Visible (moveWrite
      { n with
        engine := { n.engine with memtables := n.engine.memtables.insert rec }
        history := { n.history with inserted := n.history.inserted ++ [rec] } }
      ⟨rec, .logged⟩ .inserted) := by
  have hsub : n.history.inserted ⊆ n.history.inserted ++ [rec] := fun _ hr =>
    List.mem_append_left _ hr
  refine
    { kept := ?_, behind := h.behind
      reads_ok := fun r call hr => ?_
      history_ok := ⟨fun r hr => hsub (h.history_ok.acked_sub hr),
        fun a ha => (h.history_ok.answers_ok a ha).mono hsub⟩ }
  · intro r hr
    have hr : r ∈ n.history.inserted ++ [rec] := hr
    rw [List.mem_append, List.mem_singleton] at hr
    rcases hr with hr | rfl
    · rcases h.kept r hr with ⟨m, hm, ha⟩ | hf
      · rw [MemtableSet.walk, List.mem_cons] at hm
        rcases hm with rfl | hm
        · exact .inl ⟨_, List.mem_cons_self, Memtable.absorbs_mono rec ha⟩
        · exact .inl ⟨m, List.mem_cons_of_mem _ hm, ha⟩
      · exact .inr hf
    · exact .inl ⟨_, List.mem_cons_self, Memtable.absorbs_insert _ r⟩
  · have := (h.reads_ok r call hr).mono [] (fun _ he => he) hsub
    rw [List.append_nil] at this
    exact this

/-- Freezing moves no record out of the walk. -/
theorem freeze (h : n.Visible) (hsh : n.Shape db) :
    Visible
      { n with
        engine := { n.engine with
          memtables := { n.engine.memtables with
            active := { ptr := n.engine.memtables.active.ptr + 1, val := Memtable.new }
            frozen := n.engine.memtables.frozen ++ [n.engine.memtables.active] } }
        flushes := n.flushes.insert n.engine.memtables.active.ptr
          { memtable := n.engine.memtables.active, stage := .frozen }
        trail := { n.trail with
          closed := n.trail.closed ++ [n.engine.memtables.active] } } := by
  refine { h with kept := ?_, behind := ?_ }
  · intro r hr
    rcases h.kept r hr with ⟨m, hm, ha⟩ | hf
    · refine .inl ⟨m, List.mem_cons_of_mem _ ?_, ha⟩
      rw [MemtableSet.walk, List.mem_cons, List.mem_reverse] at hm
      simp only [List.reverse_append, List.reverse_singleton, List.singleton_append,
        List.mem_cons, List.mem_reverse]
      exact hm
    · exact .inr hf
  · intro f hf k
    simp only [List.map_append, List.map_singleton, List.mem_append, List.mem_singleton]
    rcases h.behind f hf k with ⟨t, ht, he⟩ | hall
    · exact .inl ⟨t, .inl ht, he⟩
    · refine .inr fun t ht v w hv hw => ?_
      rcases ht with ht | rfl
      · exact hall t ht v w hv hw
      · have hsh' := (hsh.order.below_active _ (lake_mem_chunks hf)).shadows
        rw [hsh.order.files.chunk_find hf] at hsh'
        exact hsh' k v w hv hw

/-- A published file is a copy of a memtable of the walk. -/
theorem publish (h : n.Visible) (hsh : n.Shape db) {p w : Nat} {mt : Arc Memtable}
    {bs : List RecordBatch} (hc : n.flushes[p]? = some ⟨mt, .staged w bs⟩) (trail : Trail) :
    Visible (moveFlush
      { n with
        store := { n.store with lake := HolyGrail.publish db n.store.lake bs }
        trail }
      ⟨mt, .staged w bs⟩ (.published w (db.write n.store.lake.length (stagedRows bs)))) := by
  obtain ⟨hm, -, -, rfl⟩ := hsh.frozen_of_call hc
  have hclosed := hsh.order.mem_closed hm
  obtain ⟨hne, hfit, -⟩ := hsh.order.closed_ok mt hclosed
  have hcases : ∀ f ∈ HolyGrail.publish db n.store.lake (batches mt.val),
      f ∈ n.store.lake ∨ f = db.file n.store.lake.length mt.val := by
    intro f hf
    rw [HolyGrail.publish, List.mem_append, List.mem_singleton] at hf
    exact hf
  refine
    { h with
      kept := ?_, behind := ?_
      reads_ok := fun r call hr =>
        (h.reads_ok r call hr).mono _ (fun _ he => he) fun _ hr => hr }
  · intro r hr
    rcases h.kept r hr with hm | ⟨f, hf, ha⟩
    · exact .inl hm
    · exact .inr ⟨f, hf.append _, ha⟩
  · intro f hf
    rcases hcases f hf with hf | rfl
    · exact h.behind f hf
    · intro k
      refine .inl ⟨mt.val.find, List.mem_map_of_mem (f := fun m => m.val.find) hm, ?_⟩
      rw [db.find_file _ hfit]

/-- A larger index keeps all files of the old one. -/
theorem install (h : n.Visible) {p w : Nat} {mt : Arc Memtable} {file : DataFile}
    {index : FileIndex} (hsub : n.engine.index.entries ⊆ index.entries) (trail : Trail) :
    Visible { n with
      engine := { n.engine with index }
      flushes := n.flushes.insert p ⟨mt, .covered (.committed w 1) (some file)⟩
      trail } := by
  refine
    { h with
      kept := ?_, reads_ok := fun r call hr => ?_ }
  · intro r hr
    rcases h.kept r hr with hm | ⟨f, hf, ha⟩
    · exact .inl hm
    · exact .inr ⟨f, ⟨hf.1, hsub hf.2⟩, ha⟩
  · have := (h.reads_ok r call hr).mono [] hsub fun _ hr => hr
    rw [List.append_nil] at this
    exact this

/-- Retiring a memtable whose file the index lists, when no older one still
waiting holds a key of it. -/
theorem retire (h : n.Visible) (hsh : n.Shape db) (hfp : n.FreshPlans) (hix : n.Indexed) {p : Nat}
    {mt : Arc Memtable} {result : Flushed} {file : Option DataFile}
    (hc : n.flushes[p]? = some ⟨mt, .truncated result file⟩) (hg : n.RetireInOrder (.retire p))
    (retired : List DataFile) :
    Visible (endFlush
      { n.retireMemtable mt with trail := { n.trail with retired } }
      ⟨mt, .truncated result file⟩) := by
  obtain ⟨hptr, hm, -⟩ := hsh.flushes_ok p _ hc
  have hclosed := hsh.order.mem_closed hm
  obtain ⟨-, f, hfile, hf, hcopy⟩ := hfp.committed hsh hc
  have hlist : Listed n.store.lake n.engine.index f := ⟨hf, hix.calls p _ hc f hfile⟩
  have hmem : ∀ m ∈ n.engine.memtables.frozen, m ≠ mt →
      m ∈ n.engine.memtables.frozen.filter fun m => m.ptr ≠ mt.ptr := by
    intro m hmf hne
    refine List.mem_filter.mpr ⟨hmf, decide_eq_true ?_⟩
    exact fun he => hne (hsh.order.eq_of_ptr (hsh.order.mem_closed hmf) hclosed he)
  refine { h with kept := ?_, behind := ?_ }
  · intro r hr
    rcases h.kept r hr with ⟨m, hmw, ha⟩ | hf
    · rw [MemtableSet.walk, List.mem_cons, List.mem_reverse] at hmw
      rcases hmw with rfl | hmf
      · exact .inl ⟨_, List.mem_cons_self, ha⟩
      · by_cases hne : m = mt
        · subst hne
          exact .inr ⟨f, hlist, by rw [hcopy]; exact ha⟩
        · exact .inl ⟨m, List.mem_cons_of_mem _ (List.mem_reverse.mpr (hmem m hmf hne)), ha⟩
    · exact .inr hf
  · intro g hgl k
    rcases h.behind g hgl k with ⟨t, ht, he⟩ | hall
    · obtain ⟨m, hmf, rfl⟩ := List.mem_map.mp ht
      by_cases hne : m = mt
      · subst hne
        -- The file was hidden by the memtable that goes away.
        refine .inr fun t ht v w hv hw => ?_
        obtain ⟨m', hm', rfl⟩ := List.mem_map.mp ht
        obtain ⟨hm', hne'⟩ := List.mem_filter.mp hm'
        rw [← he] at hw
        rcases hsh.order.trichotomy (hsh.order.mem_closed hm') hclosed with rfl | hlt | hgt
        · simp at hne'
        · obtain ⟨e, hek, -⟩ := Option.map_eq_some_iff.mp hv
          have hnone := hg _ hc m' hm' (hptr ▸ hlt.1) (k, e) (OrdMap.mem_toList.mpr hek)
          have hnone : m.val.find k = none := hnone
          rw [hnone] at hw
          contradiction
        · exact hgt.2.shadows k v w hv hw
      · exact .inl ⟨m.val.find, List.mem_map_of_mem (f := fun m => m.val.find) (hmem m hmf hne), he⟩
    · refine .inr fun t ht v w hv hw => ?_
      obtain ⟨m', hm', rfl⟩ := List.mem_map.mp ht
      exact hall _ (List.mem_map_of_mem (f := fun m => m.val.find) (List.mem_filter.mp hm').1)
        v w hv hw

/-- A read begins, or moves on. -/
theorem move_read (h : n.Visible) {r : Nat} {call : ReadCall}
    (hok : ReadOk n.store.lake n.engine.index n.history.inserted call) :
    Visible { n with reads := n.reads.insert r call } := by
  refine { h with reads_ok := fun q c hq => ?_ }
  rw [OrdMap.getElem?_insert] at hq
  split at hq
  · rw [← Option.some.inj hq]
    exact hok
  · exact h.reads_ok q c hq

/-- What has happened when a read begins. -/
theorem began_now (h : n.Visible) :
    Began n.history.inserted n.history.inserted n.history.acked
      (n.history.answers.map fun a => (a.key, a.hit)) where
  seen_sub := fun _ hr => hr
  acked_sub := h.history_ok.acked_sub
  prior_found k v hp := by
    obtain ⟨a, ha, he⟩ := List.mem_map.mp hp
    rw [Prod.mk.injEq] at he
    obtain ⟨r, hr, hk, hv⟩ := (h.history_ok.answers_ok a ha).found v he.2
    exact ⟨r, hr, hk.trans he.1, hv⟩

/-- A read returns a good answer. -/
theorem answer (h : n.Visible) {r : Nat} {call : ReadCall} {hit : Option (Version Bytes)}
    {result : Except Error (Option Bytes)} (hc : n.reads[r]? = some call)
    (hres : result = .ok (effect hit))
    (hfound : ∀ v, hit = some v → ∃ rec ∈ n.history.inserted, rec.key = call.key ∧ rec.version = v)
    (hfresh : ∀ rec ∈ call.inserted, rec.key = call.key → ∃ v, hit = some v ∧ rec.lsn ≤ v.lsn) :
    Visible (n.answer r call hit result) := by
  have hbegan := (h.reads_ok r call hc).1
  refine { h with reads_ok := fun q c hq => ?_, history_ok := ⟨h.history_ok.acked_sub, ?_⟩ }
  · rw [Node.answer] at hq
    rw [OrdMap.getElem?_erase] at hq
    split at hq
    · contradiction
    · exact h.reads_ok q c hq
  · intro a ha
    rw [Node.answer, List.mem_append, List.mem_singleton] at ha
    rcases ha with ha | rfl
    · exact h.history_ok.answers_ok a ha
    · exact ⟨hbegan, hres, hfound, hfresh⟩

end Visible

/-- **Visibility is kept** by every step of a run in which freezes are clean
and flushes stay in order. -/
theorem Visible.step {db : DuckDb} {n n' : Node} {a : Act} (h : n.Visible) (hsh : n.Shape db)
    (hfp : n.FreshPlans) (hix : n.Indexed) (hinst : n.InstallNotOlder a)
    (hret : n.RetireInOrder a) (hs : n.step db a = some n') : n'.Visible := by
  cases move_of_step hs with
  | alloc m hlt => exact { h with }
  | log hc => exact { h with }
  | insert hc => exact h.insert
  | ack hc =>
      refine { h with history_ok := ⟨?_, h.history_ok.answers_ok⟩ }
      exact (hsh.ack hc).acked_sub
  | freeze hroom hne => exact h.freeze hsh
  | readWatermark hc => exact { h with }
  | planEmpty hc he =>
      have := (hsh.order.closed_ok _ (hsh.order.mem_closed (hsh.frozen_of_call hc).1)).1
      rw [this] at he
      contradiction
  | planCovered hc hle => exact { h with }
  | planWrite hc hlt => exact { h with }
  | stage hc => exact { h with }
  | publish hc => exact h.publish hsh hc _
  | query hc hload => exact { h with }
  | install hc =>
      rw [InstallNotOlder, hc] at hinst
      exact h.install (hix.snapshot.subperm (hix.calls _ _ hc).1 hinst).subset _
  | truncate hc hw ht => exact { h with }
  | retire hc => exact h.retire hsh hfp hix hc hret _
  | fail hc => exact { h with }
  | failTruncate hc hw hr => exact { h with }
  | begin key hr => exact h.move_read ⟨h.began_now, trivial⟩
  | miss hc hs hm =>
      rw [MemtableSet.get_eq, Lookup.ofHit_eq_missing] at hm
      obtain ⟨hb, -⟩ := h.reads_ok _ _ hc
      refine h.move_read ⟨hb, ?_⟩
      exact fun r hr hk => h.covers_of_miss hm r (hb.seen_sub hr) hk
  | @hit r call hc hs hm =>
      rw [MemtableSet.get_eq, ne_eq, Lookup.ofHit_eq_missing] at hm
      obtain ⟨v, hv⟩ := Option.ne_none_iff_exists'.mp hm
      obtain ⟨hb, -⟩ := h.reads_ok _ _ hc
      refine h.answer hc (by rw [MemtableSet.get_eq, toResult_ofHit]) ?_ ?_
      · exact fun u hu => found_in_memtables hsh hu
      · exact fun rec hr hk => ⟨v, hv, h.lsn_le_of_hit hsh hv rec (hb.seen_sub hr) hk⟩
  | snapshot hc hstage =>
      obtain ⟨hb, hst⟩ := h.reads_ok _ _ hc
      rw [hstage] at hst
      exact h.move_read ⟨hb, hix.snapshot, hst⟩
  | scan hc hstage =>
      obtain ⟨hb, hst⟩ := h.reads_ok _ _ hc
      rw [hstage] at hst
      obtain ⟨hsnap, hcov⟩ := hst
      obtain ⟨hfound, hfresh⟩ := scan_spec hsh hsnap hcov
      refine h.answer hc ?_ hfound hfresh
      rw [hsnap.get_eq hsh.order.files]
      exact congrArg Except.ok (toResult_ofHit _)

end Node

end HolyGrail
