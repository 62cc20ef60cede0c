import HolyGrail.Node.Guards
import HolyGrail.Wal.Recovery

/-!
# HolyGrail.Node.Durable

Why a crash loses nothing: every inserted record is below the published
watermark and in a live file, or above it and in the log.

* `Stamps`: LSNs identify records;
* `Placed`: where each inserted record was put, and that memtables were
  published in the order they were frozen.  It gives the first half
  (`Placed.absorbed`);
* `Logged`: what the log holds.  It gives the second half.

`Secure` is all of it, for any number of writers and flushes, failing or not,
as long as no freeze separates a memtable from a lower LSN, memtables are
published in order, and no append reopens a segment file that has records.
-/

namespace HolyGrail

open Std (ExtTreeMap)

namespace Node

variable {db : DuckDb} {n n' : Node} {a : Act}

/-! ## LSNs identify records -/

structure Stamps (n : Node) : Prop where
  lt : ∀ r ∈ n.history.inserted, 0 < r.lsn ∧ r.lsn < n.engine.nextLsn
  unique : ∀ r ∈ n.history.inserted, ∀ s ∈ n.history.inserted, r.lsn = s.lsn → r = s
  fresh : ∀ (l : Nat) (call : WriteCall), n.writes[l]? = some call → call.stage ≠ .inserted →
    ∀ r ∈ n.history.inserted, r.lsn ≠ l

theorem Stamps.insert (h : n.Stamps) (hsh : n.Shape db) {l : Nat} {rec : Record}
    (hc : n.writes[l]? = some ⟨rec, .logged⟩) :
    Stamps (moveWrite
      { n with
        engine := { n.engine with memtables := n.engine.memtables.insert rec }
        history := { n.history with inserted := n.history.inserted ++ [rec] } }
      ⟨rec, .logged⟩ .inserted) := by
  obtain ⟨rfl, hpos, hlt⟩ := hsh.writes_ok l _ hc
  have hfresh := h.fresh _ _ hc (by simp)
  have hmem : ∀ r, r ∈ n.history.inserted ++ [rec] → r ∈ n.history.inserted ∨ r = rec := by
    intro r hr
    rw [List.mem_append, List.mem_singleton] at hr
    exact hr
  refine ⟨fun r hr => ?_, fun r hr s hs he => ?_, fun l call hl hst r hr => ?_⟩
  · rcases hmem r hr with hr | rfl
    · exact h.lt r hr
    · exact ⟨hpos, hlt⟩
  · rcases hmem r hr with hr' | hr' <;> rcases hmem s hs with hs' | hs'
    · exact h.unique r hr' s hs' he
    · exact absurd (hs' ▸ he) (hfresh r hr')
    · exact absurd (hr' ▸ he.symm) (hfresh s hs')
    · rw [hr', hs']
  · rw [moveWrite, OrdMap.getElem?_insert] at hl
    split at hl
    · rw [← Option.some.inj hl] at hst
      contradiction
    · next hne =>
        rcases hmem r hr with hr | rfl
        · exact h.fresh l call hl hst r hr
        · exact hne

theorem Stamps.step (h : n.Stamps) (hsh : n.Shape db) (hs : n.step db a = some n') :
    n'.Stamps := by
  cases move_of_step hs with
  | alloc m hlt =>
      refine ⟨fun r hr => ?_, h.unique, fun l call hl hst r hr => ?_⟩
      · exact ⟨(h.lt r hr).1, Nat.lt_succ_of_lt (h.lt r hr).2⟩
      · rw [OrdMap.getElem?_insert] at hl
        split at hl
        · next he =>
            have := (h.lt r hr).2
            omega
        · exact h.fresh l call hl hst r hr
  | @log l rec hc =>
      obtain ⟨hl, -⟩ := hsh.writes_ok l _ hc
      refine { h with fresh := fun l' call hl' hst r hr => ?_ }
      rw [moveWrite, OrdMap.getElem?_insert] at hl'
      split at hl'
      · next he => rw [← he, hl]; exact h.fresh l _ hc (by simp) r hr
      · exact h.fresh l' call hl' hst r hr
  | insert hc => exact h.insert hsh hc
  | ack hc =>
      refine { h with fresh := fun l call hl hst r hr => ?_ }
      rw [OrdMap.getElem?_erase] at hl
      split at hl
      · contradiction
      · exact h.fresh l call hl hst r hr
  | _ => exact { h with }

/-! ## where records are -/

/-- An inserted record that is not in a live file is in the memtable it was
inserted into, above every chunk that was closed before. -/
structure Placed (n : Node) : Prop where
  home : ∀ r ∈ n.history.inserted, (∃ f ∈ n.store.lake, Absorbs f.find r.write) ∨
    ∃ m, (m = n.engine.memtables.active ∨ m ∈ n.trail.closed) ∧ Absorbs m.val.find r.write ∧
      ∀ c ∈ closedChunks n.store.lake n.trail.closed, c.Below m.val.chunk → c.top < r.lsn
  in_order : ∀ m ∈ n.trail.published, ∀ m' ∈ n.trail.closed, m'.ptr < m.ptr →
    m' ∈ n.trail.published
  gone : ∀ m ∈ n.trail.closed, m ∈ n.engine.memtables.frozen ∨ m ∈ n.trail.published

namespace Placed

/-- A closed memtable the watermark covers was published. -/
theorem published_of_le (h : n.Placed) (hsh : n.Shape db) {m : Arc Memtable}
    (hm : m ∈ n.trail.closed) (hle : m.val.maxLsn ≤ publishedWatermark n.store.lake) :
    m ∈ n.trail.published := by
  rcases publishedWatermark_cases (fun _ hf => hsh.order.files.stamped hf) with
    ⟨-, he⟩ | ⟨f, hf, he⟩
  · have := hsh.order.closed_pos m hm
    omega
  · have htight := Memtable.tight (hsh.order.closed_ok m hm).1
    rcases hsh.order.origin f hf with ⟨m', hm', hchunk⟩ | hold
    · have hle : m.val.chunk.top ≤ m'.val.chunk.top := by
        rw [← hchunk]
        exact Nat.le_trans hle (Nat.le_of_eq he)
      rcases hsh.order.trichotomy hm (hsh.order.published_mem m' hm').1 with rfl | hlt | hgt
      · exact hm'
      · exact h.in_order m' hm' m hm hlt.1
      · have := hgt.2.top_lt htight
        omega
    · have hlt : f.watermark < m.val.maxLsn := (hold m hm).top_lt htight
      omega

/-- **Below the watermark** everything is in a live file. -/
theorem absorbed (h : n.Placed) (hsh : n.Shape db) (hst : n.Stamps) {r : Record}
    (hr : r ∈ n.history.inserted) (hle : r.lsn ≤ publishedWatermark n.store.lake) :
    ∃ f ∈ n.store.lake, Absorbs f.find r.write := by
  rcases h.home r hr with hf | ⟨m, hm, habs, habove⟩
  · exact hf
  · have hlt : ∀ f ∈ n.store.lake, f.chunk.Below m.val.chunk → f.watermark < r.lsn :=
      fun f hf => habove f.chunk (lake_mem_chunks hf)
    rcases publishedWatermark_cases (fun _ hf => hsh.order.files.stamped hf) with
      ⟨-, he⟩ | ⟨f, hf, he⟩
    · have := (hst.lt r hr).1
      omega
    · rcases hm with rfl | hm
      · have := hlt f hf (hsh.order.below_active _ (lake_mem_chunks hf))
        omega
      · have hpub : m ∈ n.trail.published := by
          rcases hsh.order.origin f hf with ⟨m', hm', hchunk⟩ | hold
          · rcases hsh.order.trichotomy hm (hsh.order.published_mem m' hm').1 with
              rfl | hlt' | hgt
            · exact hm'
            · exact h.in_order m' hm' m hm hlt'.1
            · have := hlt f hf (hchunk ▸ hgt.2)
              omega
          · have := hlt f hf (hold m hm)
            omega
        obtain ⟨-, g, hg, hchunk⟩ := hsh.order.published_mem m hpub
        refine ⟨g, hg, ?_⟩
        rw [← hsh.order.files.chunk_find hg, hchunk]
        exact habs

theorem insert (h : n.Placed) (hsh : n.Shape db) {l : Nat} {rec : Record}
    (hc : n.writes[l]? = some ⟨rec, .logged⟩) :
    Placed (moveWrite
      { n with
        engine := { n.engine with memtables := n.engine.memtables.insert rec }
        history := { n.history with inserted := n.history.inserted ++ [rec] } }
      ⟨rec, .logged⟩ .inserted) := by
  obtain ⟨rfl, -⟩ := hsh.writes_ok l _ hc
  refine { h with home := fun r hr => ?_ }
  have hr : r ∈ n.history.inserted ++ [rec] := hr
  rw [List.mem_append, List.mem_singleton] at hr
  rcases hr with hr | rfl
  · rcases h.home r hr with hf | ⟨m, rfl | hm, habs, habove⟩
    · exact .inl hf
    · refine .inr ⟨_, .inl rfl, Memtable.absorbs_mono rec habs, fun c hc' _ => ?_⟩
      exact habove c hc' (hsh.order.below_active c hc')
    · exact .inr ⟨m, .inr hm, habs, habove⟩
  · refine .inr ⟨_, .inl rfl, Memtable.absorbs_insert _ r, fun c hc' _ => ?_⟩
    exact hsh.order.below_upcoming c hc' r.lsn (.inr ⟨_, hc, by simp⟩)

theorem freeze (h : n.Placed) (hsh : n.Shape db)
    (hne : n.engine.memtables.active.val.isEmpty = false) :
    Placed
      { n with
        engine := { n.engine with
          memtables := { n.engine.memtables with
            active := { ptr := n.engine.memtables.active.ptr + 1, val := Memtable.new }
            frozen := n.engine.memtables.frozen ++ [n.engine.memtables.active] } }
        flushes := n.flushes.insert n.engine.memtables.active.ptr
          { memtable := n.engine.memtables.active, stage := .frozen }
        trail := { n.trail with
          closed := n.trail.closed ++ [n.engine.memtables.active] } } := by
  have htight := Memtable.tight hne
  -- The new closed chunk lies above the old ones, so below none of them.
  have hnew : ∀ m, m = n.engine.memtables.active ∨ m ∈ n.trail.closed →
      ¬ n.engine.memtables.active.val.chunk.Below m.val.chunk := by
    rintro m (rfl | hm) hb
    · exact Nat.lt_irrefl _ (hb.top_lt htight)
    · have h1 := hb.top_lt (Memtable.tight (hsh.order.closed_ok m hm).1)
      have h2 := (hsh.order.below_active _ (closed_mem_chunks hm)).top_lt htight
      omega
  refine ⟨fun r hr => ?_, fun m hm m' hm' hlt => ?_, fun m hm => ?_⟩
  · rcases h.home r hr with hf | ⟨m, hm, habs, habove⟩
    · exact .inl hf
    · refine .inr ⟨m, .inr ?_, habs, fun c hc hb => ?_⟩
      · rw [List.mem_append, List.mem_singleton]
        exact hm.symm
      · rcases hc with ⟨m', hm', rfl⟩ | ⟨f, hf, rfl⟩
        · rw [List.mem_append, List.mem_singleton] at hm'
          rcases hm' with hm' | rfl
          · exact habove _ (closed_mem_chunks hm') hb
          · exact absurd hb (hnew m hm)
        · exact habove _ (lake_mem_chunks hf) hb
  · rw [List.mem_append, List.mem_singleton] at hm'
    rcases hm' with hm' | rfl
    · exact h.in_order m hm m' hm' hlt
    · have := hsh.order.closed_ok m (hsh.order.published_mem m hm).1
      omega
  · rw [List.mem_append, List.mem_singleton] at hm
    rcases hm with hm | rfl
    · exact (h.gone m hm).imp_left fun hm => List.mem_append_left _ hm
    · exact .inl (by simp)

theorem publish (h : n.Placed) (hsh : n.Shape db) {p w : Nat} {mt : Arc Memtable}
    {bs : List RecordBatch} (hc : n.flushes[p]? = some ⟨mt, .staged w bs⟩)
    (hg : n.PublishInOrder (.publish p)) (order : List (IndexStep × Nat)) :
    Placed (moveFlush
      { n with
        store := { n.store with lake := HolyGrail.publish db n.store.lake bs }
        trail := { n.trail with published := n.trail.published ++ [mt], order } }
      ⟨mt, .staged w bs⟩ (.published w (db.write n.store.lake.length (stagedRows bs)))) := by
  have hptr : mt.ptr = p := (hsh.flushes_ok p _ hc).1
  obtain ⟨hm, -, -, rfl⟩ := hsh.frozen_of_call hc
  have hclosed := hsh.order.mem_closed hm
  obtain ⟨hne, hfit, -⟩ := hsh.order.closed_ok mt hclosed
  refine ⟨fun r hr => ?_, fun m hm m' hm' hlt => ?_, fun m hm => ?_⟩
  · rcases h.home r hr with ⟨f, hf, habs⟩ | ⟨m, hm, habs, habove⟩
    · exact .inl ⟨f, List.mem_append_left _ hf, habs⟩
    · refine .inr ⟨m, hm, habs, fun c hc hb => ?_⟩
      rcases hc with ⟨m', hm', rfl⟩ | ⟨f, hf, rfl⟩
      · exact habove _ (closed_mem_chunks hm') hb
      · have hf : f ∈ n.store.lake ++ [db.file n.store.lake.length mt.val] := hf
        rw [List.mem_append, List.mem_singleton] at hf
        rcases hf with hf | rfl
        · exact habove _ (lake_mem_chunks hf) hb
        · rw [db.chunk_file _ hne hfit] at hb ⊢
          exact habove _ (closed_mem_chunks hclosed) hb
  · have hm : m ∈ n.trail.published ++ [mt] := hm
    change m' ∈ n.trail.published ++ [mt]
    rw [List.mem_append, List.mem_singleton] at hm
    refine List.mem_append_left _ ?_
    rcases hm with hm | rfl
    · exact h.in_order m hm m' hm' hlt
    · rcases h.gone m' hm' with hfrozen | hpub
      · exact h.published_of_le hsh hm' (hg m' hfrozen (hptr ▸ hlt))
      · exact hpub
  · exact (h.gone m hm).imp_right fun hm => List.mem_append_left _ hm

/-- A flush about to retire its memtable has published it. -/
theorem published_of_landed (h : n.Placed) (hsh : n.Shape db) {p : Nat} {mt : Arc Memtable}
    {result : Flushed} {file : Option DataFile}
    (hc : n.flushes[p]? = some ⟨mt, .truncated result file⟩) : mt ∈ n.trail.published := by
  obtain ⟨hm, hland⟩ := hsh.frozen_of_call hc
  cases result with
  | committed w files =>
      cases file with
      | none => exact hland.elim
      | some f => exact hland.2.1
  | alreadyPublished w =>
      cases file with
      | none =>
          obtain ⟨rfl, hnot, hle⟩ := hland
          exact absurd (h.published_of_le hsh (hsh.order.mem_closed hm) hle) hnot
      | some f => exact hland.elim
  | empty => cases file <;> exact hland.elim

theorem retire (h : n.Placed) (hsh : n.Shape db) {mt : Arc Memtable} {stage : FlushStage}
    (hm : mt ∈ n.engine.memtables.frozen) (hpub : mt ∈ n.trail.published)
    (retired : List DataFile) :
    Placed (endFlush
      { n.retireMemtable mt with trail := { n.trail with retired } } ⟨mt, stage⟩) := by
  refine { h with gone := fun m hmc => ?_ }
  rcases h.gone m hmc with hmf | hmp
  · by_cases he : m.ptr = mt.ptr
    · rw [hsh.order.eq_of_ptr hmc (hsh.order.mem_closed hm) he]
      exact .inr hpub
    · exact .inl (List.mem_filter.mpr ⟨hmf, decide_eq_true he⟩)
  · exact .inr hmp

theorem step (h : n.Placed) (hsh : n.Shape db) (hg : n.PublishInOrder a)
    (hs : n.step db a = some n') : n'.Placed := by
  cases move_of_step hs with
  | insert hc => exact h.insert hsh hc
  | freeze hroom hne => exact h.freeze hsh hne
  | publish hc => exact h.publish hsh hc hg _
  | planEmpty hc he =>
      have := (hsh.order.closed_ok _ (hsh.order.mem_closed (hsh.frozen_of_call hc).1)).1
      rw [this] at he
      contradiction
  | retire hc => exact h.retire hsh (hsh.frozen_of_call hc).1 (h.published_of_landed hsh hc) _
  | _ => exact { h with }

end Placed

/-! ## what the log holds -/

structure Logged (n : Node) (log : Log) : Prop where
  tracks : Tracks n.store.dir n.engine.wal log
  held : ∀ r ∈ n.history.inserted, publishedWatermark n.store.lake < r.lsn → log.Holds r
  pending : ∀ (l : Nat) (rec : Record), n.writes[l]? = some ⟨rec, .logged⟩ → log.Holds rec
  known : ∀ r, log.Holds r → r ∈ n.history.inserted ∨
    ∃ l : Nat, n.writes[l]? = some ⟨r, .logged⟩
  fits : ∀ (l : Nat) (call : WriteCall), n.writes[l]? = some call → Fits call.record

/-- A flush truncates at most through the watermark. -/
theorem Shape.truncated_le (h : n.Shape db) {p w : Nat} {mt : Arc Memtable} {result : Flushed}
    {file : Option DataFile} (hc : n.flushes[p]? = some ⟨mt, .covered result file⟩)
    (hw : result.watermark = some w) : w ≤ publishedWatermark n.store.lake := by
  have hland := (h.frozen_of_call hc).2
  cases result with
  | committed w' files =>
      cases file with
      | none => exact hland.elim
      | some f =>
          obtain ⟨hmax, -, hf, hchunk⟩ := hland
          have htop : f.watermark = mt.val.maxLsn := congrArg Chunk.top hchunk
          rw [← Option.some.inj hw, hmax, ← htop]
          exact le_publishedWatermark (fun _ hg => h.order.files.stamped hg) hf
  | alreadyPublished w' =>
      cases file with
      | none => exact Option.some.inj hw ▸ hland.2.2
      | some f => exact hland.elim
  | empty => contradiction

namespace Logged

variable {log : Log}

theorem upcoming_gt (hsh : n.Shape db) {l : Nat} {call : WriteCall}
    (hc : n.writes[l]? = some call) (hst : call.stage ≠ .inserted) :
    publishedWatermark n.store.lake < l :=
  hsh.order.watermark_lt (.inr ⟨call, hc, hst⟩) (hsh.writes_ok l call hc).2.1

theorem alloc (h : n.Logged log) (hsh : n.Shape db) (m : Mutation)
    (hlt : n.engine.nextLsn < lsnLimit)
    (hfit : (payload (m.record n.engine.nextLsn)).length < 2 ^ 32) :
    Logged
      { n with
        engine := { n.engine with nextLsn := n.engine.nextLsn + 1 }
        writes := n.writes.insert n.engine.nextLsn
          { record := m.record n.engine.nextLsn, stage := .allocated } } log := by
  refine { h with pending := fun l rec hl => ?_, known := fun r hr => ?_, fits := ?_ }
  · rw [OrdMap.getElem?_insert] at hl
    split at hl
    · cases Option.some.inj hl
    · exact h.pending l rec hl
  · rcases h.known r hr with hr | ⟨l, hl⟩
    · exact .inl hr
    · refine .inr ⟨l, ?_⟩
      have := (hsh.writes_ok l _ hl).2.2
      rw [OrdMap.getElem?_insert_ne _ (by omega)]
      exact hl
  · intro l call hl
    rw [OrdMap.getElem?_insert] at hl
    split at hl
    · rw [← Option.some.inj hl]
      refine ⟨?_, hfit⟩
      rw [Mutation.record_lsn]
      exact Nat.lt_trans hlt (by decide)
    · exact h.fits l call hl

/-- A write that moves on keeps its record in the log. -/
theorem move_write (h : n.Logged log) {rec : Record} {stage stage' : WriteStage}
    (hc : n.writes[rec.lsn]? = some ⟨rec, stage⟩) (l : Nat) (call : WriteCall)
    (hl : (n.writes.insert rec.lsn ⟨rec, stage'⟩)[l]? = some call) : Fits call.record := by
  rw [OrdMap.getElem?_insert] at hl
  split at hl
  · rw [← Option.some.inj hl]
    exact h.fits _ ⟨rec, stage⟩ hc
  · exact h.fits l call hl

/-- An empty segment file has no records. -/
theorem free_of_nameFree (h : n.Logged log) {l : Nat} (hfree : n.NameFree l)
    (hfull : n.engine.wal.activeBytes ≥ n.engine.wal.segmentMaxBytes) : log.Free l := by
  rcases hfree with hroom | hempty
  · omega
  · exact h.tracks.free_of_empty hempty

theorem append (h : n.Logged log) (hsh : n.Shape db) {l : Nat} {rec : Record}
    (hc : n.writes[l]? = some ⟨rec, .allocated⟩) (hfree : n.NameFree l) :
    Logged (moveWrite
      { n with
        store := { n.store with dir := (n.engine.wal.append n.store.dir [rec]).1 }
        engine := { n.engine with wal := (n.engine.wal.append n.store.dir [rec]).2 } }
      ⟨rec, .allocated⟩ .logged) (log.extend (n.engine.wal.landing rec.lsn) [rec]) := by
  obtain ⟨rfl, -⟩ := hsh.writes_ok l _ hc
  have hfit : ∀ r ∈ [rec], Fits r := by
    intro r hr
    rw [List.mem_singleton] at hr
    exact hr ▸ h.fits _ _ hc
  refine ⟨h.tracks.append hfit (h.free_of_nameFree hfree), fun r hr hw => ?_, fun l r hl => ?_,
    fun r hr => ?_,
    h.move_write hc⟩
  · exact Log.holds_extend.mpr (.inl (h.held r hr hw))
  · rw [moveWrite, OrdMap.getElem?_insert] at hl
    rw [Log.holds_extend]
    split at hl
    · cases Option.some.inj hl
      exact .inr List.mem_cons_self
    · exact .inl (h.pending l r hl)
  · rw [moveWrite]
    rw [Log.holds_extend, List.mem_singleton] at hr
    rcases hr with hr | rfl
    · rcases h.known r hr with hr | ⟨l, hl⟩
      · exact .inl hr
      · refine .inr ⟨l, ?_⟩
        rw [OrdMap.getElem?_insert_ne]
        · exact hl
        · rintro rfl
          rw [hc] at hl
          cases Option.some.inj hl
    · exact .inr ⟨r.lsn, ExtTreeMap.getElem?_insert_self⟩

theorem insert (h : n.Logged log) (hsh : n.Shape db) {l : Nat} {rec : Record}
    (hc : n.writes[l]? = some ⟨rec, .logged⟩) :
    Logged (moveWrite
      { n with
        engine := { n.engine with memtables := n.engine.memtables.insert rec }
        history := { n.history with inserted := n.history.inserted ++ [rec] } }
      ⟨rec, .logged⟩ .inserted) log := by
  obtain ⟨rfl, -⟩ := hsh.writes_ok l _ hc
  refine ⟨h.tracks, fun r hr hw => ?_, fun l r hl => ?_, fun r hr => ?_, h.move_write hc⟩
  · have hr : r ∈ n.history.inserted ++ [rec] := hr
    rw [List.mem_append, List.mem_singleton] at hr
    rcases hr with hr | rfl
    · exact h.held r hr hw
    · exact h.pending _ r hc
  · rw [moveWrite, OrdMap.getElem?_insert] at hl
    split at hl
    · cases Option.some.inj hl
    · exact h.pending l r hl
  · rcases h.known r hr with hr | ⟨l, hl⟩
    · exact .inl (List.mem_append_left _ hr)
    · by_cases he : rec.lsn = l
      · rw [← he, hc] at hl
        cases Option.some.inj hl
        exact .inl (List.mem_append_right _ List.mem_cons_self)
      · refine .inr ⟨l, ?_⟩
        rw [moveWrite, OrdMap.getElem?_insert_ne _ he]
        exact hl

theorem ack (h : n.Logged log) {l : Nat} {rec : Record} (hsh : n.Shape db)
    (hc : n.writes[l]? = some ⟨rec, .inserted⟩) (acked : List Record) :
    Logged
      { n with
        writes := n.writes.erase rec.lsn
        history := { n.history with acked } } log := by
  obtain ⟨rfl, -⟩ := hsh.writes_ok l _ hc
  have hkeep : ∀ (l : Nat) (call : WriteCall), (n.writes.erase rec.lsn)[l]? = some call →
      n.writes[l]? = some call := by
    intro l call hl
    rw [OrdMap.getElem?_erase] at hl
    split at hl
    · contradiction
    · exact hl
  refine ⟨h.tracks, h.held, fun l r hl => h.pending l r (hkeep l _ hl), fun r hr => ?_,
    fun l call hl => h.fits l call (hkeep l call hl)⟩
  rcases h.known r hr with hr | ⟨l, hl⟩
  · exact .inl hr
  · refine .inr ⟨l, ?_⟩
    rw [OrdMap.getElem?_erase, if_neg]
    · exact hl
    · rintro rfl
      rw [hc] at hl
      cases Option.some.inj hl

/-- Segments at or below the watermark can go. -/
theorem truncate (h : n.Logged log) (hsh : n.Shape db) {w i : Nat}
    (hw : w ≤ publishedWatermark n.store.lake) {dir : Dir}
    (htr : Tracks dir (n.engine.wal.dropCovered w)
      (log.eraseAll (Tracks.coveredStarts n.engine.wal w i)))
    (flushes : ExtTreeMap Nat FlushCall) :
    Logged
      { n with
        store := { n.store with dir }
        engine := { n.engine with wal := n.engine.wal.dropCovered w }
        flushes } (log.eraseAll (Tracks.coveredStarts n.engine.wal w i)) where
  tracks := htr
  held r hr hlt := h.tracks.holds_eraseAll (h.held r hr hlt) (Nat.lt_of_le_of_lt hw hlt) i
  pending l r hl := by
    have hlt := upcoming_gt hsh hl (by simp)
    rw [← (hsh.writes_ok l _ hl).1] at hlt
    exact h.tracks.holds_eraseAll (h.pending l r hl) (Nat.lt_of_le_of_lt hw hlt) i
  known r hr := h.known r (Tracks.holds_of_eraseAll hr)
  fits := h.fits

theorem publish (h : n.Logged log) {lake : List DataFile}
    (hle : publishedWatermark n.store.lake ≤ publishedWatermark lake)
    (flushes : ExtTreeMap Nat FlushCall) (trail : Trail) :
    Logged { n with store := { n.store with lake }, flushes, trail } log :=
  { h with held := fun r hr hw => h.held r hr (Nat.lt_of_le_of_lt hle hw) }

/-- **The log keeps what it must.** -/
theorem step (h : n.Logged log) (hsh : n.Shape db) (hfit : n.PayloadFits a)
    (hfree : n.RotateFresh a) (hs : n.step db a = some n') : ∃ log', n'.Logged log' := by
  cases move_of_step hs with
  | alloc m hlt => exact ⟨log, h.alloc hsh m hlt hfit⟩
  | log hc => exact ⟨_, h.append hsh hc hfree⟩
  | insert hc => exact ⟨log, h.insert hsh hc⟩
  | ack hc => exact ⟨log, h.ack hsh hc _⟩
  | publish hc =>
      obtain ⟨hm, -, -, rfl⟩ := hsh.frozen_of_call hc
      obtain ⟨hne, hfit, -⟩ := hsh.order.closed_ok _ (hsh.order.mem_closed hm)
      refine ⟨log, h.publish (publishedWatermark_mono (fun _ hf => hsh.order.files.stamped hf) ?_)
        _ _⟩
      exact (hsh.order.files.append hne hfit).stamped (List.mem_append_right _ List.mem_cons_self)
  | @truncate p w mt result file dir wal hc hw ht =>
      obtain ⟨dir', hdir, htr⟩ := h.tracks.truncateThrough w
      rw [hdir, Except.ok.injEq, Prod.mk.injEq] at ht
      obtain ⟨rfl, rfl⟩ := ht
      exact ⟨_, h.truncate hsh (hsh.truncated_le hc hw) htr _⟩
  | @failTruncate p w i mt result file dir hc hw hr =>
      obtain ⟨dir', hdir, htr⟩ := h.tracks.truncate w i
      rw [hdir, Except.ok.injEq] at hr
      subst hr
      exact ⟨_, h.truncate hsh (hsh.truncated_le hc hw) htr _⟩
  | _ => exact ⟨log, { h with }⟩

end Logged

/-! ## all of it -/

/-- The runs that lose nothing in a crash. -/
structure Safe (n : Node) (a : Act) : Prop where
  clean : n.FreezeClean a
  in_order : n.PublishInOrder a
  fits : n.PayloadFits a
  fresh : n.RotateFresh a

structure Secure (db : DuckDb) (n : Node) : Prop where
  shape : n.Shape db
  stamps : n.Stamps
  placed : n.Placed
  logged : ∃ log, n.Logged log

theorem Secure.step (h : n.Secure db) (hg : n.Safe a) (hs : n.step db a = some n') :
    n'.Secure db where
  shape := h.shape.step hg.clean hs
  stamps := h.stamps.step h.shape hs
  placed := h.placed.step h.shape hg.in_order hs
  logged := by
    obtain ⟨log, hlog⟩ := h.logged
    exact hlog.step h.shape hg.fits hg.fresh hs

end Node

end HolyGrail
