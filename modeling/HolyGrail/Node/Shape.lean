import HolyGrail.Node.Order

/-!
# HolyGrail.Node.Shape

The invariant of one process life that everything else builds on: the LSN
order of memtables and files, and what each flush under way has achieved.

It holds in every run in which no freeze separates a memtable from an LSN
below its maximum (`FreezeClean`), with any number of writers and flushes,
failing or not.
-/

namespace HolyGrail

open Std (ExtTreeMap)

/-! ## flushes under way -/

/-- What a flush past its plan can build on. -/
def Landed (lake : List DataFile) (published : List (Arc Memtable)) (mt : Arc Memtable) :
    Flushed → Option DataFile → Prop
  | .committed w _, some f =>
      w = mt.val.maxLsn ∧ mt ∈ published ∧ f ∈ lake ∧ f.chunk = mt.val.chunk
  | .alreadyPublished w, none =>
      w = mt.val.maxLsn ∧ mt ∉ published ∧ w ≤ publishedWatermark lake
  | _, _ => False

/-- What a flush of `mt` has achieved at each stage. -/
def StageOk (lake : List DataFile) (published : List (Arc Memtable)) (mt : Arc Memtable) :
    FlushStage → Prop
  | .frozen => mt ∉ published
  | .read w => mt ∉ published ∧ w ≤ publishedWatermark lake
  | .planned w => mt ∉ published ∧ w = mt.val.maxLsn
  | .staged w bs => mt ∉ published ∧ w = mt.val.maxLsn ∧ bs = batches mt.val
  | .published w f | .queried w f _ => Landed lake published mt (.committed w 1) (some f)
  | .covered result file | .truncated result file => Landed lake published mt result file

/-- The flushes under way, each with a frozen memtable of its own. -/
def FlushesOk (frozen : List (Arc Memtable)) (lake : List DataFile)
    (published : List (Arc Memtable)) (flushes : ExtTreeMap Nat FlushCall) : Prop :=
  ∀ (p : Nat) (call : FlushCall), flushes[p]? = some call →
    call.memtable.ptr = p ∧ call.memtable ∈ frozen ∧
      StageOk lake published call.memtable call.stage

theorem Landed.publish {lake : List DataFile} {published : List (Arc Memtable)}
    {mt m : Arc Memtable} {result : Flushed} {file : Option DataFile} {f : DataFile}
    (hlake : ∀ g ∈ lake, g.Stamped) (hf : f.Stamped) (hne : mt ≠ m)
    (h : Landed lake published mt result file) :
    Landed (lake ++ [f]) (published ++ [m]) mt result file := by
  have hmono := publishedWatermark_mono hlake hf
  cases result <;> cases file <;> simp only [Landed, List.mem_append, List.mem_singleton] at h ⊢
  · exact ⟨h.1, .inl h.2.1, .inl h.2.2.1, h.2.2.2⟩
  · exact ⟨h.1, fun hm => hm.elim h.2.1 hne, by omega⟩

theorem StageOk.publish {lake : List DataFile} {published : List (Arc Memtable)}
    {mt m : Arc Memtable} {stage : FlushStage} {f : DataFile}
    (hlake : ∀ g ∈ lake, g.Stamped) (hf : f.Stamped) (hne : mt ≠ m)
    (h : StageOk lake published mt stage) :
    StageOk (lake ++ [f]) (published ++ [m]) mt stage := by
  have hmono := publishedWatermark_mono hlake hf
  have hnot : mt ∉ published → mt ∉ published ++ [m] := by
    intro hm hm'
    rw [List.mem_append, List.mem_singleton] at hm'
    exact hm'.elim hm hne
  cases stage with
  | frozen => exact hnot h
  | read w => exact ⟨hnot h.1, by have := h.2; omega⟩
  | planned w => exact ⟨hnot h.1, h.2⟩
  | staged w bs => exact ⟨hnot h.1, h.2⟩
  | published w g | queried w g index =>
      have h : Landed lake published mt (.committed w 1) (some g) := h
      exact h.publish hlake hf hne
  | covered result file => exact Landed.publish hlake hf hne h
  | truncated result file => exact Landed.publish hlake hf hne h

namespace FlushesOk

variable {frozen : List (Arc Memtable)} {lake : List DataFile}
  {published : List (Arc Memtable)} {flushes : ExtTreeMap Nat FlushCall} {mt : Arc Memtable}

theorem insert (h : FlushesOk frozen lake published flushes) {stage : FlushStage}
    (hm : mt ∈ frozen) (hs : StageOk lake published mt stage) :
    FlushesOk frozen lake published (flushes.insert mt.ptr ⟨mt, stage⟩) := by
  intro p call hp
  rw [OrdMap.getElem?_insert] at hp
  split at hp
  · next he =>
      rw [← Option.some.inj hp]
      exact ⟨he, hm, hs⟩
  · exact h p call hp

theorem erase (h : FlushesOk frozen lake published flushes) (p : Nat) :
    FlushesOk frozen lake published (flushes.erase p) := by
  intro q call hq
  rw [OrdMap.getElem?_erase] at hq
  split at hq
  · contradiction
  · exact h q call hq

theorem freeze (h : FlushesOk frozen lake published flushes) (mt : Arc Memtable) :
    FlushesOk (frozen ++ [mt]) lake published flushes := by
  intro p call hp
  obtain ⟨hptr, hmem, hs⟩ := h p call hp
  exact ⟨hptr, List.mem_append_left _ hmem, hs⟩

theorem publish (h : FlushesOk frozen lake published flushes) {f : DataFile} {w : Nat}
    (hlake : ∀ g ∈ lake, g.Stamped) (hf : f.Stamped) (hm : mt ∈ frozen)
    (hs : Landed (lake ++ [f]) (published ++ [mt]) mt (.committed w 1) (some f)) :
    FlushesOk frozen (lake ++ [f]) (published ++ [mt])
      (flushes.insert mt.ptr ⟨mt, .published w f⟩) := by
  intro p call hp
  rw [OrdMap.getElem?_insert] at hp
  split at hp
  · next he =>
      rw [← Option.some.inj hp]
      exact ⟨he, hm, hs⟩
  · next hne =>
      obtain ⟨hptr, hmem, hst⟩ := h p call hp
      refine ⟨hptr, hmem, hst.publish hlake hf ?_⟩
      rintro rfl
      exact hne hptr

theorem retire (h : FlushesOk frozen lake published flushes) (mt : Arc Memtable) :
    FlushesOk (frozen.filter fun m => m.ptr ≠ mt.ptr) lake published (flushes.erase mt.ptr) := by
  intro p call hp
  rw [OrdMap.getElem?_erase] at hp
  split at hp
  · contradiction
  · next hne =>
      obtain ⟨hptr, hmem, hs⟩ := h p call hp
      refine ⟨hptr, List.mem_filter.mpr ⟨hmem, ?_⟩, hs⟩
      rw [decide_eq_true_eq, hptr]
      exact fun he => hne he.symm

end FlushesOk

/-! ## the invariant -/

namespace Node

/-- An LSN still on its way to a memtable. -/
def Upcoming (n : Node) (l : Nat) : Prop :=
  n.engine.nextLsn ≤ l ∨ ∃ call : WriteCall, n.writes[l]? = some call ∧ call.stage ≠ .inserted

structure Shape (db : DuckDb) (n : Node) : Prop where
  order : Order db n.engine.memtables n.store.lake n.trail.closed n.trail.published n.Upcoming
  flushes_ok : FlushesOk n.engine.memtables.frozen n.store.lake n.trail.published n.flushes
  writes_ok : ∀ (l : Nat) (call : WriteCall), n.writes[l]? = some call →
    call.record.lsn = l ∧ 0 < l ∧ l < n.engine.nextLsn
  arrived : ∀ (l : Nat) (call : WriteCall), n.writes[l]? = some call → call.stage = .inserted →
    call.record ∈ n.history.inserted
  acked_sub : n.history.acked ⊆ n.history.inserted
  /-- Memtables and files hold inserted records only. -/
  sound : ∀ c, c = n.engine.memtables.active.val.chunk ∨
    c ∈ closedChunks n.store.lake n.trail.closed →
    ∀ k v, c.find k = some v → ∃ r ∈ n.history.inserted, r.key = k ∧ r.version = v
  next_pos : 0 < n.engine.nextLsn
  next_le : n.engine.nextLsn ≤ lsnLimit
  active_lt : n.engine.memtables.active.val.maxLsn < n.engine.nextLsn

/-- No freeze separates the active memtable from a lower LSN on its way: every
write under way that has not reached it has a higher one. -/
def FreezeClean (n : Node) : Act → Prop
  | .freeze => ∀ item ∈ n.writes.toList, item.2.stage ≠ .inserted →
      n.engine.memtables.active.val.maxLsn < item.1
  | _ => True

instance (n : Node) (a : Act) : Decidable (n.FreezeClean a) := by
  unfold FreezeClean
  split <;> infer_instance

namespace Shape

variable {db : DuckDb} {n n' : Node} {a : Act} (h : n.Shape db)
include h

omit h in
/-- A stage change keeps an LSN on its way or lets it arrive. -/
theorem upcoming_of_move {call : WriteCall} {stage : WriteStage}
    (hc : n.writes[call.record.lsn]? = some call) (hs : call.stage ≠ .inserted) {l : Nat}
    (hl : n.engine.nextLsn ≤ l ∨ ∃ c : WriteCall,
      (n.writes.insert call.record.lsn { call with stage })[l]? = some c ∧ c.stage ≠ .inserted) :
    n.Upcoming l := by
  rcases hl with hl | ⟨c, hc', hs'⟩
  · exact .inl hl
  · rw [OrdMap.getElem?_insert] at hc'
    split at hc'
    · next he => exact .inr ⟨call, he ▸ hc, hs⟩
    · exact .inr ⟨c, hc', hs'⟩

theorem writes_ok_move {call : WriteCall} {stage : WriteStage}
    (hc : n.writes[call.record.lsn]? = some call) (l : Nat) (c : WriteCall)
    (hl : (n.writes.insert call.record.lsn { call with stage })[l]? = some c) :
    c.record.lsn = l ∧ 0 < l ∧ l < n.engine.nextLsn := by
  rw [OrdMap.getElem?_insert] at hl
  split at hl
  · next he =>
      rw [← Option.some.inj hl]
      have := h.writes_ok _ _ hc
      exact ⟨he, he ▸ this.2⟩
  · exact h.writes_ok l c hl

theorem arrived_move {call : WriteCall} {stage : WriteStage} {inserted : List Record}
    (hsub : n.history.inserted ⊆ inserted) (hs : stage = .inserted → call.record ∈ inserted)
    (l : Nat) (c : WriteCall)
    (hl : (n.writes.insert call.record.lsn { call with stage })[l]? = some c)
    (hc : c.stage = .inserted) : c.record ∈ inserted := by
  rw [OrdMap.getElem?_insert] at hl
  split at hl
  · have he := Option.some.inj hl
    rw [← he] at hc ⊢
    exact hs hc
  · exact hsub (h.arrived l c hl hc)

theorem frozen_of_call {p : Nat} {mt : Arc Memtable} {stage : FlushStage}
    (hc : n.flushes[p]? = some ⟨mt, stage⟩) :
    mt ∈ n.engine.memtables.frozen ∧ StageOk n.store.lake n.trail.published mt stage :=
  (h.flushes_ok p _ hc).2

/-- **Moving a flush** to a stage it has earned. -/
theorem moveFlush {p : Nat} {mt : Arc Memtable} {stage stage' : FlushStage}
    (hc : n.flushes[p]? = some ⟨mt, stage⟩)
    (hs : StageOk n.store.lake n.trail.published mt stage') :
    (n.moveFlush ⟨mt, stage⟩ stage').Shape db :=
  { h with flushes_ok := h.flushes_ok.insert (h.frozen_of_call hc).1 hs }

theorem clean (hg : n.FreezeClean .freeze) {l : Nat} (hl : n.Upcoming l) :
    n.engine.memtables.active.val.maxLsn < l := by
  rcases hl with hl | ⟨call, hc, hs⟩
  · exact Nat.lt_of_lt_of_le h.active_lt hl
  · exact hg (l, call) (OrdMap.mem_toList.mpr hc) hs

/-- While no memtable frozen later has been published, the watermark has not
reached a frozen memtable that is still to be published. -/
theorem watermark_lt_of_published {mt : Arc Memtable} (hm : mt ∈ n.engine.memtables.frozen)
    (hpub : mt ∉ n.trail.published) (hord : ∀ m ∈ n.trail.published, m.ptr ≤ mt.ptr) :
    publishedWatermark n.store.lake < mt.val.maxLsn := by
  have hclosed := h.order.mem_closed hm
  have htight := Memtable.tight (h.order.closed_ok mt hclosed).1
  have hbelow : ∀ f ∈ n.store.lake, f.chunk.Below mt.val.chunk := by
    intro f hf
    rcases h.order.origin f hf with ⟨m, hmp, he⟩ | hold
    · rw [he]
      rcases h.order.trichotomy (h.order.published_mem m hmp).1 hclosed with rfl | hlt | hgt
      · exact absurd hmp hpub
      · exact hlt.2
      · have := hord m hmp
        omega
    · exact hold mt hclosed
  exact publishedWatermark_lt (fun _ hf => h.order.files.stamped hf) (h.order.closed_pos mt hclosed)
    fun f hf => (hbelow f hf).top_lt htight

theorem alloc (m : Mutation) (hlt : n.engine.nextLsn < lsnLimit) :
    Shape db
      { n with
        engine := { n.engine with nextLsn := n.engine.nextLsn + 1 }
        writes := n.writes.insert n.engine.nextLsn
          { record := m.record n.engine.nextLsn, stage := .allocated } } := by
  refine
    { order := h.order.weaken ?_, flushes_ok := h.flushes_ok, writes_ok := ?_, arrived := ?_
      acked_sub := h.acked_sub, sound := h.sound, next_pos := Nat.succ_pos _, next_le := hlt
      active_lt := Nat.lt_succ_of_lt h.active_lt }
  · rintro l (hl | ⟨call, hc, hs⟩)
    · exact .inl (Nat.le_of_succ_le hl)
    · rw [OrdMap.getElem?_insert] at hc
      split at hc
      · next he => exact .inl (Nat.le_of_eq he)
      · exact .inr ⟨call, hc, hs⟩
  · intro l call hc
    rw [OrdMap.getElem?_insert] at hc
    split at hc
    · next he =>
        rw [← Option.some.inj hc]
        exact ⟨by simp [he], he ▸ h.next_pos, he ▸ Nat.lt_succ_self _⟩
    · have := h.writes_ok l call hc
      exact ⟨this.1, this.2.1, Nat.lt_succ_of_lt this.2.2⟩
  · intro l call hc hst
    rw [OrdMap.getElem?_insert] at hc
    split at hc
    · rw [← Option.some.inj hc] at hst
      contradiction
    · exact h.arrived l call hc hst

theorem log {l : Nat} {rec : Record} (hc : n.writes[l]? = some ⟨rec, .allocated⟩) (dir : Dir)
    (wal : Wal) :
    Shape db (moveWrite
      { n with store := { n.store with dir }, engine := { n.engine with wal } }
      ⟨rec, .allocated⟩ .logged) := by
  obtain ⟨rfl, -⟩ := h.writes_ok l _ hc
  exact
    { h with
      order := h.order.weaken fun l hl => upcoming_of_move hc (by simp) hl
      writes_ok := h.writes_ok_move hc
      arrived := h.arrived_move (fun _ hr => hr) (by simp) }

theorem insert {l : Nat} {rec : Record} (hc : n.writes[l]? = some ⟨rec, .logged⟩) :
    Shape db (moveWrite
      { n with
        engine := { n.engine with memtables := n.engine.memtables.insert rec }
        history := { n.history with inserted := n.history.inserted ++ [rec] } }
      ⟨rec, .logged⟩ .inserted) := by
  obtain ⟨rfl, hpos, hlt⟩ := h.writes_ok l _ hc
  have hfit : rec.lsn < 2 ^ 63 := Nat.lt_of_lt_of_le hlt h.next_le
  have hsound : ∀ c, c = (n.engine.memtables.active.val.insert rec).chunk ∨
      c ∈ closedChunks n.store.lake n.trail.closed → ∀ k v, c.find k = some v →
        ∃ r ∈ n.history.inserted ++ [rec], r.key = k ∧ r.version = v := by
    rintro c (rfl | hc) k v hv
    · rcases Memtable.find_insert_cases hv with hv | ⟨hk, hv⟩
      · obtain ⟨r, hr, hrk⟩ := h.sound _ (.inl rfl) k v hv
        exact ⟨r, List.mem_append_left _ hr, hrk⟩
      · exact ⟨rec, by simp, hk, hv.symm⟩
    · obtain ⟨r, hr, hrk⟩ := h.sound c (.inr hc) k v hv
      exact ⟨r, List.mem_append_left _ hr, hrk⟩
  exact
    { h with
      sound := hsound
      order := (h.order.insert (.inr ⟨_, hc, by simp⟩) hpos hfit).weaken fun l hl =>
        upcoming_of_move hc (by simp) hl
      writes_ok := h.writes_ok_move hc
      arrived := h.arrived_move (fun _ hr => List.mem_append_left _ hr) fun _ =>
        List.mem_append_right _ List.mem_cons_self
      acked_sub := fun _ hr => List.mem_append_left _ (h.acked_sub hr)
      active_lt := Nat.max_lt.mpr ⟨h.active_lt, hlt⟩ }

theorem ack {l : Nat} {rec : Record} (hc : n.writes[l]? = some ⟨rec, .inserted⟩) :
    Shape db
      { n with
        writes := n.writes.erase rec.lsn
        history := { n.history with acked := n.history.acked ++ [rec] } } := by
  have hkeep : ∀ (l : Nat) (call : WriteCall), (n.writes.erase rec.lsn)[l]? = some call →
      n.writes[l]? = some call := by
    intro l call hl
    rw [OrdMap.getElem?_erase] at hl
    split at hl
    · contradiction
    · exact hl
  refine { h with order := h.order.weaken ?_, writes_ok := ?_, arrived := ?_, acked_sub := ?_ }
  · rintro l (hl | ⟨call, hl, hs⟩)
    · exact .inl hl
    · exact .inr ⟨call, hkeep l call hl, hs⟩
  · exact fun l call hl => h.writes_ok l call (hkeep l call hl)
  · exact fun l call hl => h.arrived l call (hkeep l call hl)
  · intro r hr
    rw [List.mem_append, List.mem_singleton] at hr
    rcases hr with hr | rfl
    · exact h.acked_sub hr
    · exact h.arrived l _ hc rfl

theorem freeze (hne : n.engine.memtables.active.val.isEmpty = false)
    (hg : n.FreezeClean .freeze) :
    Shape db
      { n with
        engine := { n.engine with
          memtables := { n.engine.memtables with
            active := { ptr := n.engine.memtables.active.ptr + 1, val := Memtable.new }
            frozen := n.engine.memtables.frozen ++ [n.engine.memtables.active] } }
        flushes := n.flushes.insert n.engine.memtables.active.ptr
          { memtable := n.engine.memtables.active, stage := .frozen }
        trail := { n.trail with
          closed := n.trail.closed ++ [n.engine.memtables.active] } } := by
  have hnew : n.engine.memtables.active ∉ n.trail.published := by
    intro hm
    have := h.order.closed_ok _ (h.order.published_mem _ hm).1
    omega
  have hsound : ∀ c, c = Memtable.new.chunk ∨
      c ∈ closedChunks n.store.lake (n.trail.closed ++ [n.engine.memtables.active]) →
        ∀ k v, c.find k = some v → ∃ r ∈ n.history.inserted, r.key = k ∧ r.version = v := by
    rintro c (rfl | ⟨m, hm, rfl⟩ | ⟨f, hf, rfl⟩) k v hv
    · simp at hv
    · rw [List.mem_append, List.mem_singleton] at hm
      rcases hm with hm | rfl
      · exact h.sound _ (.inr (closed_mem_chunks hm)) k v hv
      · exact h.sound _ (.inl rfl) k v hv
    · exact h.sound _ (.inr (lake_mem_chunks hf)) k v hv
  exact
    { h with
      sound := hsound
      order := h.order.freeze hne fun l hl => h.clean hg hl
      flushes_ok := (h.flushes_ok.freeze _).insert (by simp) hnew
      active_lt := h.next_pos }

theorem publish {p w : Nat} {mt : Arc Memtable} {bs : List RecordBatch}
    (hc : n.flushes[p]? = some ⟨mt, .staged w bs⟩) (order : List (IndexStep × Nat)) :
    Shape db (Node.moveFlush
      { n with
        store := { n.store with lake := HolyGrail.publish db n.store.lake bs }
        trail := { n.trail with published := n.trail.published ++ [mt], order } }
      ⟨mt, .staged w bs⟩ (.published w (db.write n.store.lake.length (stagedRows bs)))) := by
  obtain ⟨hm, -, hw, rfl⟩ := h.frozen_of_call hc
  have hclosed := h.order.mem_closed hm
  have horder := h.order.publish hclosed
  have hfile : db.file n.store.lake.length mt.val ∈
      n.store.lake ++ [db.file n.store.lake.length mt.val] := by simp
  obtain ⟨hne, hfit, -⟩ := h.order.closed_ok mt hclosed
  have hland : Landed (n.store.lake ++ [db.file n.store.lake.length mt.val])
      (n.trail.published ++ [mt]) mt (.committed w 1)
      (some (db.file n.store.lake.length mt.val)) :=
    ⟨hw, by simp, hfile, db.chunk_file _ hne hfit⟩
  have hsound : ∀ c, c = n.engine.memtables.active.val.chunk ∨
      c ∈ closedChunks (n.store.lake ++ [db.file n.store.lake.length mt.val]) n.trail.closed →
        ∀ k v, c.find k = some v → ∃ r ∈ n.history.inserted, r.key = k ∧ r.version = v := by
    rintro c (rfl | ⟨m, hm, rfl⟩ | ⟨f, hf, rfl⟩) k v hv
    · exact h.sound _ (.inl rfl) k v hv
    · exact h.sound _ (.inr (closed_mem_chunks hm)) k v hv
    · rw [List.mem_append, List.mem_singleton] at hf
      rcases hf with hf | rfl
      · exact h.sound _ (.inr (lake_mem_chunks hf)) k v hv
      · rw [db.chunk_file _ hne hfit] at hv
        exact h.sound _ (.inr (closed_mem_chunks hclosed)) k v hv
  exact
    { h with
      sound := hsound
      order := horder
      flushes_ok := h.flushes_ok.publish (fun _ hg => h.order.files.stamped hg)
        (horder.files.stamped hfile) hm hland }

theorem retire (mt : Arc Memtable) (stage : FlushStage) (trail : Trail)
    (hclosed : trail.closed = n.trail.closed) (hpub : trail.published = n.trail.published) :
    Shape db (endFlush { n.retireMemtable mt with trail } ⟨mt, stage⟩) := by
  have horder := h.order.retire mt
  have hfl := h.flushes_ok.retire mt
  rw [← hclosed, ← hpub] at horder
  rw [← hpub] at hfl
  refine { h with order := horder, flushes_ok := hfl, sound := ?_ }
  intro c hc
  refine h.sound c ?_
  rw [← hclosed]
  exact hc

end Shape

/-- **The shape is kept** by every step of a run with clean freezes. -/
theorem Shape.step {db : DuckDb} {n n' : Node} {a : Act} (h : n.Shape db) (hg : n.FreezeClean a)
    (hs : n.step db a = some n') : n'.Shape db := by
  have hmove := move_of_step hs
  cases hmove with
  | alloc m hlt => exact h.alloc m hlt
  | log hc => exact h.log hc _ _
  | insert hc => exact h.insert hc
  | ack hc => exact h.ack hc
  | freeze hroom hne => exact h.freeze hne hg
  | readWatermark hc =>
      exact h.moveFlush hc ⟨(h.frozen_of_call hc).2, Nat.le_refl _⟩
  | planEmpty hc he => exact h.retire _ _ n.trail rfl rfl
  | planCovered hc hle =>
      obtain ⟨-, hpub, hw⟩ := h.frozen_of_call hc
      exact h.moveFlush hc ⟨rfl, hpub, Nat.le_trans hle hw⟩
  | planWrite hc hlt => exact h.moveFlush hc ⟨(h.frozen_of_call hc).2.1, rfl⟩
  | stage hc =>
      obtain ⟨-, hpub, hw⟩ := h.frozen_of_call hc
      exact h.moveFlush hc ⟨hpub, hw, rfl⟩
  | publish hc => exact h.publish hc _
  | query hc hload =>
      obtain ⟨hm, hland⟩ := h.frozen_of_call hc
      exact { h with flushes_ok := h.flushes_ok.insert hm hland }
  | install hc =>
      obtain ⟨hm, hland⟩ := h.frozen_of_call hc
      exact { h with flushes_ok := h.flushes_ok.insert hm hland }
  | truncate hc hw ht =>
      obtain ⟨hm, hland⟩ := h.frozen_of_call hc
      exact { h with flushes_ok := h.flushes_ok.insert hm hland }
  | retire hc => exact h.retire _ _ _ rfl rfl
  | fail hc => exact { h with flushes_ok := h.flushes_ok.erase _ }
  | failTruncate hc hw hr => exact { h with flushes_ok := h.flushes_ok.erase _ }
  | begin key hr => exact { h with }
  | miss hc hs hm => exact { h with }
  | hit hc hs hm => exact { h with }
  | snapshot hc hs => exact { h with }
  | scan hc hs => exact { h with }

/-! ## flushes that read the watermark in order -/

/-- When a flush reads the watermark, no memtable frozen later has been
published. -/
def ReadInOrder (n : Node) : Act → Prop
  | .readWatermark p => ∀ m ∈ n.trail.published, m.ptr ≤ p
  | _ => True

/-- The flush does not take its memtable for published. -/
def StageFresh (mt : Arc Memtable) : FlushStage → Prop
  | .read w => w < mt.val.maxLsn
  | .covered (.alreadyPublished _) _ | .truncated (.alreadyPublished _) _ => False
  | _ => True

/-- No flush takes an unpublished memtable for published. -/
def FreshPlans (n : Node) : Prop :=
  ∀ (p : Nat) (call : FlushCall), n.flushes[p]? = some call → StageFresh call.memtable call.stage

namespace FreshPlans

variable {db : DuckDb} {n n' : Node} {a : Act} (h : n.FreshPlans)
include h

theorem insert {p : Nat} {call : FlushCall} (hs : StageFresh call.memtable call.stage) (q : Nat)
    (c : FlushCall) (hq : (n.flushes.insert p call)[q]? = some c) :
    StageFresh c.memtable c.stage := by
  rw [OrdMap.getElem?_insert] at hq
  split at hq
  · rw [← Option.some.inj hq]
    exact hs
  · exact h q c hq

theorem erase {p : Nat} (q : Nat) (c : FlushCall) (hq : (n.flushes.erase p)[q]? = some c) :
    StageFresh c.memtable c.stage := by
  rw [OrdMap.getElem?_erase] at hq
  split at hq
  · contradiction
  · exact h q c hq

theorem step (hsh : n.Shape db) (hg : n.ReadInOrder a) (hs : n.step db a = some n') :
    n'.FreshPlans := by
  cases move_of_step hs with
  | alloc m hlt => exact h
  | log hc => exact h
  | insert hc => exact h
  | ack hc => exact h
  | freeze hroom hne => exact h.insert trivial
  | readWatermark hc =>
      obtain ⟨hptr, hm, hpub⟩ := hsh.flushes_ok _ _ hc
      exact h.insert (hsh.watermark_lt_of_published hm hpub fun m hm' => hptr ▸ hg m hm')
  | planEmpty hc he => exact h.erase
  | planCovered hc hle => exact absurd (h _ _ hc) (Nat.not_lt.mpr hle)
  | planWrite hc hlt => exact h.insert trivial
  | stage hc => exact h.insert trivial
  | publish hc => exact h.insert trivial
  | query hc hload => exact h.insert trivial
  | install hc => exact h.insert trivial
  | @truncate p w mt result file dir wal hc hw ht =>
      have hfresh := h _ _ hc
      cases result with
      | committed w files => exact h.insert trivial
      | alreadyPublished w => exact hfresh.elim
      | empty => contradiction
  | retire hc => exact h.erase
  | fail hc => exact h.erase
  | failTruncate hc hw hr => exact h.erase
  | begin key hr => exact h
  | miss hc hs hm => exact h
  | hit hc hs hm => exact h
  | snapshot hc hs => exact h
  | scan hc hs => exact h

/-- A flush about to retire its memtable has published it, and its file is a
copy. -/
theorem committed (hsh : n.Shape db) {p : Nat} {mt : Arc Memtable} {result : Flushed}
    {file : Option DataFile} (hc : n.flushes[p]? = some ⟨mt, .truncated result file⟩) :
    mt ∈ n.trail.published ∧ ∃ f, file = some f ∧ f ∈ n.store.lake ∧ f.find = mt.val.find := by
  have hland := (hsh.frozen_of_call hc).2
  have hfresh := h p _ hc
  cases result with
  | committed w files =>
      cases file with
      | none => exact hland.elim
      | some f =>
          obtain ⟨-, hpub, hf, hchunk⟩ := hland
          refine ⟨hpub, f, rfl, hf, ?_⟩
          rw [← hsh.order.files.chunk_find hf, hchunk]
          rfl
  | alreadyPublished w => exact hfresh.elim
  | empty => cases file <;> exact hland.elim

end FreshPlans

end Node

end HolyGrail
