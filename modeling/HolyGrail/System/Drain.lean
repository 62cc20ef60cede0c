import HolyGrail.Client

/-!
# HolyGrail.System.Drain

Nothing that happens to the engine wedges it.

Each call under way can be taken to its return by steps of its own (`flushes_return`,
`writes_return`, `reads_return`), `open` succeeds on whatever a crash left, and one more
flush then empties the memtables.  So from every state of a sequential run, with crashes
anywhere, the system can be drained: all calls return, every record is in a live file and
the next `open` replays nothing (`every_run_drains`).
-/

namespace HolyGrail

open Std (ExtTreeMap)

/-- How many steps a flush still has to take. -/
def FlushStage.left : FlushStage → Nat
  | .frozen => 8
  | .read _ => 7
  | .planned _ => 6
  | .staged _ _ => 5
  | .published _ _ => 4
  | .queried _ _ _ => 3
  | .covered _ _ => 2
  | .truncated _ _ => 1

/-- How many steps a write still has to take. -/
def WriteStage.left : WriteStage → Nat
  | .allocated => 3
  | .logged => 2
  | .inserted => 1

/-- How many steps a read still has to take. -/
def ReadStage.left : ReadStage → Nat
  | .began => 3
  | .missed => 2
  | .holding _ => 1

namespace Node

/-- The steps of calls under way, and of a new flush. -/
def Draining (n : Node) : Act → Prop
  | .freeze => n.flushes.isEmpty = true
  | .alloc _ | .begin _ _ | .fail _ | .failTruncate _ _ => False
  | _ => True

theorem Draining.sequential {n : Node} {a : Act} (h : n.Draining a) : n.Sequential a := by
  cases a with
  | alloc | begin | fail | failTruncate => exact h.elim
  | freeze => exact ⟨trivial, h, trivial, trivial⟩
  | _ => exact ⟨trivial, trivial, trivial, trivial⟩

variable {db : DuckDb} {n n' : Node}

/-! ## a flush -/

/-- What a flush leaves alone. -/
structure Beside (n n' : Node) : Prop where
  writes : n'.writes = n.writes
  reads : n'.reads = n.reads
  history : n'.history = n.history
  active : n'.engine.memtables.active = n.engine.memtables.active

/-- **A flush under way can go on**, to a later stage or to its end. -/
theorem Calm.flush_step (h : n.Calm db) {p : Nat} {call : FlushCall}
    (hc : n.flushes[p]? = some call) :
    ∃ a n', n.Draining a ∧ n.Move db a n' ∧ n.Beside n' ∧
      ((∃ stage, n'.flushes = n.flushes.insert p ⟨call.memtable, stage⟩ ∧
        stage.left < call.stage.left) ∨ n'.flushes = n.flushes.erase p) := by
  obtain ⟨mt, stage⟩ := call
  obtain ⟨rfl, -, hok⟩ := h.secure.shape.flushes_ok p _ hc
  cases stage with
  | frozen =>
      exact ⟨.readWatermark mt.ptr, _, trivial, .readWatermark hc, ⟨rfl, rfl, rfl, rfl⟩,
        .inl ⟨_, rfl, by simp [FlushStage.left]⟩⟩
  | read w =>
      by_cases hempty : mt.val.isEmpty = true
      · exact ⟨.plan mt.ptr, _, trivial, .planEmpty hc hempty, ⟨rfl, rfl, rfl, rfl⟩, .inr rfl⟩
      · rw [Bool.not_eq_true] at hempty
        by_cases hle : mt.val.maxLsn ≤ w
        · exact ⟨.plan mt.ptr, _, trivial, .planCovered hc hle hempty, ⟨rfl, rfl, rfl, rfl⟩,
            .inl ⟨_, rfl, by simp [FlushStage.left]⟩⟩
        · exact ⟨.plan mt.ptr, _, trivial, .planWrite hc (by omega) hempty, ⟨rfl, rfl, rfl, rfl⟩,
            .inl ⟨_, rfl, by simp [FlushStage.left]⟩⟩
  | planned w =>
      exact ⟨.stage mt.ptr, _, trivial, .stage hc, ⟨rfl, rfl, rfl, rfl⟩,
        .inl ⟨_, rfl, by simp [FlushStage.left]⟩⟩
  | staged w bs =>
      exact ⟨.publish mt.ptr, _, trivial, .publish hc, ⟨rfl, rfl, rfl, rfl⟩,
        .inl ⟨_, rfl, by simp [FlushStage.left]⟩⟩
  | published w f =>
      -- The catalog query succeeds: every live file carries a watermark.
      have hload := FileIndex.load_eq fun _ hf =>
        (h.secure.shape.order.files.readable hf).lsnMax_nonneg
      exact ⟨.query mt.ptr, _, trivial, .query hc hload, ⟨rfl, rfl, rfl, rfl⟩,
        .inl ⟨_, rfl, by simp [FlushStage.left]⟩⟩
  | queried w f index =>
      exact ⟨.install mt.ptr, _, trivial, .install hc, ⟨rfl, rfl, rfl, rfl⟩,
        .inl ⟨_, rfl, by simp [FlushStage.left]⟩⟩
  | covered result f =>
      obtain ⟨w, hw⟩ : ∃ w, result.watermark = some w := by
        cases result with
        | committed w files => exact ⟨w, rfl⟩
        | alreadyPublished w => exact ⟨w, rfl⟩
        | empty => cases f <;> exact hok.elim
      -- The truncation succeeds: every sealed segment has its file.
      obtain ⟨log, hlog⟩ := h.secure.logged
      obtain ⟨dir, htrunc, -⟩ := hlog.tracks.truncateThrough w
      exact ⟨.truncate mt.ptr, _, trivial, .truncate hc hw htrunc, ⟨rfl, rfl, rfl, rfl⟩,
        .inl ⟨_, rfl, by simp [FlushStage.left]⟩⟩
  | truncated result f =>
      exact ⟨.retire mt.ptr, _, trivial, .retire hc, ⟨rfl, rfl, rfl, rfl⟩, .inr rfl⟩

theorem Calm.take {a : Act} (h : n.Calm db) (hm : n.Move db a n') (hg : n.Draining a) :
    n.step db a = some n' ∧ n'.Calm db := ⟨step_of_move hm, h.move hm hg.sequential⟩

theorem Beside.trans {n₁ n₂ n₃ : Node} (h : n₁.Beside n₂) (h' : n₂.Beside n₃) : n₁.Beside n₃ where
  writes := h'.writes.trans h.writes
  reads := h'.reads.trans h.reads
  history := h'.history.trans h.history
  active := h'.active.trans h.active

/-- **Flushes return**, beside whatever else is under way. -/
theorem Calm.flushes_return (h : n.Calm db) :
    ∃ n', Reaches (step db) Draining n n' ∧ n'.Calm db ∧ n.Beside n' ∧ n'.flushes = ∅ := by
  have hpos : ∀ call : FlushCall, 0 < call.stage.left := by
    intro call
    cases call.stage <;> simp [FlushStage.left]
  have hstep : ∀ (n₁ : Node) (p : Nat) (call : FlushCall), (n₁.Calm db ∧ n.Beside n₁) →
      n₁.flushes[p]? = some call → ∃ a n₂, n₁.Draining a ∧ n₁.step db a = some n₂ ∧
        (n₂.Calm db ∧ n.Beside n₂) ∧
        ((∃ call' : FlushCall, n₂.flushes = n₁.flushes.insert p call' ∧
          call'.stage.left < call.stage.left) ∨ n₂.flushes = n₁.flushes.erase p) := by
    intro n₁ p call hinv hc
    obtain ⟨a, n₂, hg, hm, hbeside, hnext⟩ := hinv.1.flush_step hc
    obtain ⟨hs, hcalm⟩ := hinv.1.take hm hg
    refine ⟨a, n₂, hg, hs, ⟨hcalm, hinv.2.trans hbeside⟩, ?_⟩
    cases hnext with
    | inl hstage =>
        obtain ⟨stage, he, hlt⟩ := hstage
        exact .inl ⟨_, he, hlt⟩
    | inr he => exact .inr he
  obtain ⟨n', hreach, hinv, hnone⟩ := Reaches.exists_of_calls
    (fun n' : Node => n'.Calm db ∧ n.Beside n') (fun n => n.flushes) (fun call => call.stage.left)
    hpos hstep ⟨h, rfl, rfl, rfl, rfl⟩
  exact ⟨n', hreach, hinv.1, hinv.2, hnone⟩

/-! ## a write -/

/-- The writes of `n` are on their way in `n'`, or acknowledged. -/
def Heard (n n' : Node) : Prop :=
  ∀ (l : Nat) (call : WriteCall), n.writes[l]? = some call →
    (∃ stage, n'.writes[l]? = some ⟨call.record, stage⟩) ∨ call.record ∈ n'.history.acked

theorem Heard.refl : n.Heard n := fun _ call hc => .inl ⟨call.stage, hc⟩

/-- A write moves on. -/
theorem Heard.move {n₁ n₂ : Node} {l : Nat} {call : WriteCall} {stage : WriteStage}
    (h : n.Heard n₁) (hc : n₁.writes[l]? = some call)
    (hw : n₂.writes = n₁.writes.insert l ⟨call.record, stage⟩)
    (hacked : n₂.history.acked = n₁.history.acked) : n.Heard n₂ := by
  intro l' call' hc'
  rw [hw, hacked, OrdMap.getElem?_insert]
  cases h l' call' hc' with
  | inl hway =>
      obtain ⟨stage', hway⟩ := hway
      by_cases hl : l = l'
      · rw [← hl, hc, Option.some.injEq] at hway
        rw [if_pos hl, hway]
        exact .inl ⟨stage, rfl⟩
      · rw [if_neg hl]
        exact .inl ⟨stage', hway⟩
  | inr hdone => exact .inr hdone

/-- A write is acknowledged. -/
theorem Heard.ack {n₁ n₂ : Node} {l : Nat} {call : WriteCall} (h : n.Heard n₁)
    (hc : n₁.writes[l]? = some call) (hw : n₂.writes = n₁.writes.erase l)
    (hacked : n₂.history.acked = n₁.history.acked ++ [call.record]) : n.Heard n₂ := by
  intro l' call' hc'
  rw [hw, hacked, OrdMap.getElem?_erase]
  cases h l' call' hc' with
  | inl hway =>
      obtain ⟨stage', hway⟩ := hway
      by_cases hl : l = l'
      · rw [← hl, hc, Option.some.injEq] at hway
        rw [hway]
        exact .inr (List.mem_append_right _ List.mem_cons_self)
      · rw [if_neg hl]
        exact .inl ⟨stage', hway⟩
  | inr hdone => exact .inr (List.mem_append_left _ hdone)

/-- What writes have done when no flush is under way. -/
structure Wrapping (db : DuckDb) (n n' : Node) : Prop where
  calm : n'.Calm db
  flushes : n'.flushes = ∅
  reads : n'.reads = n.reads
  heard : n.Heard n'
  inserted : n.history.inserted ⊆ n'.history.inserted

/-- **A write under way can go on.** -/
theorem Wrapping.write_step {n₁ : Node} (h : n.Wrapping db n₁) {l : Nat} {call : WriteCall}
    (hc : n₁.writes[l]? = some call) :
    ∃ a n₂, n₁.Draining a ∧ n₁.step db a = some n₂ ∧ n.Wrapping db n₂ ∧
      ((∃ call' : WriteCall, n₂.writes = n₁.writes.insert l call' ∧
        call'.stage.left < call.stage.left) ∨ n₂.writes = n₁.writes.erase l) := by
  obtain ⟨rec, stage⟩ := call
  obtain ⟨rfl, -⟩ := h.calm.secure.shape.writes_ok l _ hc
  cases stage with
  | allocated =>
      obtain ⟨hs, hcalm⟩ := h.calm.take (.log hc) trivial
      exact ⟨.log rec.lsn, _, trivial, hs,
        ⟨hcalm, h.flushes, h.reads, h.heard.move hc rfl rfl, h.inserted⟩,
        .inl ⟨_, rfl, by simp [WriteStage.left]⟩⟩
  | logged =>
      obtain ⟨hs, hcalm⟩ := h.calm.take (.insert hc) trivial
      exact ⟨.insert rec.lsn, _, trivial, hs,
        ⟨hcalm, h.flushes, h.reads, h.heard.move hc rfl rfl,
          List.subset_append_of_subset_left _ h.inserted⟩,
        .inl ⟨_, rfl, by simp [WriteStage.left]⟩⟩
  | inserted =>
      obtain ⟨hs, hcalm⟩ := h.calm.take (.ack hc) trivial
      exact ⟨.ack rec.lsn, _, trivial, hs,
        ⟨hcalm, h.flushes, h.reads, h.heard.ack hc rfl rfl, h.inserted⟩, .inr rfl⟩

/-- **Writes are acknowledged.** -/
theorem Calm.writes_return (h : n.Calm db) (hflushes : n.flushes = ∅) :
    ∃ n', Reaches (step db) Draining n n' ∧ n.Wrapping db n' ∧ n'.writes = ∅ := by
  have hpos : ∀ call : WriteCall, 0 < call.stage.left := by
    intro call
    cases call.stage <;> simp [WriteStage.left]
  exact Reaches.exists_of_calls (fun n' : Node => n.Wrapping db n') (fun n => n.writes)
    (fun call => call.stage.left) hpos (fun n₁ l call h hc => h.write_step hc)
    ⟨h, hflushes, rfl, .refl, List.Subset.refl _⟩

/-! ## a read -/

/-- What reads have done when no other call is under way. -/
structure Answering (db : DuckDb) (n n' : Node) : Prop where
  calm : n'.Calm db
  flushes : n'.flushes = ∅
  writes : n'.writes = ∅
  inserted : n'.history.inserted = n.history.inserted
  acked : n'.history.acked = n.history.acked

/-- **A read under way can go on.** -/
theorem Answering.read_step {n₁ : Node} (h : n.Answering db n₁) {r : Nat} {call : ReadCall}
    (hc : n₁.reads[r]? = some call) :
    ∃ a n₂, n₁.Draining a ∧ n₁.step db a = some n₂ ∧ n.Answering db n₂ ∧
      ((∃ call' : ReadCall, n₂.reads = n₁.reads.insert r call' ∧
        call'.stage.left < call.stage.left) ∨ n₂.reads = n₁.reads.erase r) := by
  cases hstage : call.stage with
  | began =>
      by_cases hm : n₁.engine.memtables.get call.key = .missing
      · obtain ⟨hs, hcalm⟩ := h.calm.take (.miss hc hstage hm) trivial
        exact ⟨.lookup r, _, trivial, hs, ⟨hcalm, h.flushes, h.writes, h.inserted, h.acked⟩,
          .inl ⟨_, rfl, by simp [ReadStage.left]⟩⟩
      · obtain ⟨hs, hcalm⟩ := h.calm.take (.hit hc hstage hm) trivial
        exact ⟨.lookup r, _, trivial, hs, ⟨hcalm, h.flushes, h.writes, h.inserted, h.acked⟩,
          .inr rfl⟩
  | missed =>
      obtain ⟨hs, hcalm⟩ := h.calm.take (.snapshot hc hstage) trivial
      exact ⟨.snapshot r, _, trivial, hs, ⟨hcalm, h.flushes, h.writes, h.inserted, h.acked⟩,
        .inl ⟨_, rfl, by simp [ReadStage.left]⟩⟩
  | holding index =>
      obtain ⟨hs, hcalm⟩ := h.calm.take (.scan hc hstage) trivial
      exact ⟨.scan r, _, trivial, hs, ⟨hcalm, h.flushes, h.writes, h.inserted, h.acked⟩, .inr rfl⟩

/-- **Reads return.** -/
theorem Calm.reads_return (h : n.Calm db) (hflushes : n.flushes = ∅) (hwrites : n.writes = ∅) :
    ∃ n', Reaches (step db) Draining n n' ∧ n.Answering db n' ∧ n'.reads = ∅ := by
  have hpos : ∀ call : ReadCall, 0 < call.stage.left := by
    intro call
    cases call.stage <;> simp [ReadStage.left]
  exact Reaches.exists_of_calls (fun n' : Node => n.Answering db n') (fun n => n.reads)
    (fun call => call.stage.left) hpos (fun n₁ r call h hc => h.read_step hc)
    ⟨h, hflushes, hwrites, rfl, rfl⟩

/-! ## rest -/

/-- **All calls return.** -/
theorem Calm.rests (h : n.Calm db) :
    ∃ n', Reaches (step db) Draining n n' ∧ n'.AtRest db ∧
      n.history.inserted ⊆ n'.history.inserted ∧
      ∀ (l : Nat) (call : WriteCall), n.writes[l]? = some call →
        call.record ∈ n'.history.acked := by
  obtain ⟨n₁, hreach₁, hcalm₁, hbeside, hflushes₁⟩ := h.flushes_return
  obtain ⟨n₂, hreach₂, hwrap, hwrites₂⟩ := hcalm₁.writes_return hflushes₁
  obtain ⟨n₃, hreach₃, hans, hreads₃⟩ := hwrap.calm.reads_return hwrap.flushes hwrites₂
  refine ⟨n₃, (hreach₁.trans hreach₂).trans hreach₃,
    ⟨hans.calm, ⟨hans.writes, hans.flushes, hreads₃⟩, ?_⟩, ?_, fun l call hc => ?_⟩
  · refine List.eq_nil_iff_forall_not_mem.mpr fun m hm => ?_
    have hmem : m.ptr ∈ n₃.flushes := hans.calm.alone.queue m hm
    rw [hans.flushes] at hmem
    exact absurd hmem ExtTreeMap.not_mem_empty
  · rw [hans.inserted, ← hbeside.history]
    exact hwrap.inserted
  · rw [hans.acked]
    rw [← hbeside.writes] at hc
    cases hwrap.heard l call hc with
    | inl hway =>
        obtain ⟨stage, hway⟩ := hway
        rw [hwrites₂] at hway
        simp at hway
    | inr hdone => exact hdone

/-- **One more flush** leaves the memtables empty. -/
theorem AtRest.empties (h : n.AtRest db) :
    ∃ n', Reaches (step db) Draining n n' ∧ n'.AtRest db ∧
      n'.engine.memtables.active.val.isEmpty = true ∧ n'.history = n.history := by
  by_cases hne : n.engine.memtables.active.val.isEmpty = true
  · exact ⟨n, .refl n, h, hne, rfl⟩
  · rw [Bool.not_eq_true] at hne
    have hroom : n.engine.memtables.frozen.length < n.engine.memtables.maxFrozen := by
      rw [h.frozen]
      exact n.engine.memtables.maxFrozen_pos
    have hidle : n.Draining .freeze := ExtTreeMap.isEmpty_iff.mpr h.quiet.flushes
    obtain ⟨hs, hcalm⟩ := h.calm.take (.freeze hroom hne) hidle
    obtain ⟨n', hreach, hcalm', hbeside, hflushes⟩ := hcalm.flushes_return
    refine ⟨n', ((Reaches.refl n).tail .freeze hidle hs).trans hreach,
      ⟨hcalm', ⟨hbeside.writes.trans h.quiet.writes, hflushes, hbeside.reads.trans h.quiet.reads⟩,
        ?_⟩, ?_, hbeside.history⟩
    · refine List.eq_nil_iff_forall_not_mem.mpr fun m hm => ?_
      have hmem : m.ptr ∈ n'.flushes := hcalm'.alone.queue m hm
      rw [hflushes] at hmem
      exact absurd hmem ExtTreeMap.not_mem_empty
    · rw [hbeside.active]
      simp [Memtable.isEmpty, Memtable.new]

/-- A process with nothing under way dies as it stands. -/
theorem Quiet.crashed_eq (h : n.Quiet) {c : Crash} {store : Store}
    (hc : n.crashed c = some store) : c = .between ∧ store = n.store := by
  cases c with
  | between => exact ⟨rfl, (Option.some.inj hc).symm⟩
  | inAppend l len => simp [crashed, h.writes] at hc
  | inTruncate p i | inPublish p => simp [crashed, h.flushes] at hc

/-- With empty memtables every record is in a live file, and below the watermark. -/
theorem AtRest.absorbed (h : n.AtRest db)
    (hempty : n.engine.memtables.active.val.isEmpty = true) {r : Record}
    (hr : r ∈ n.history.inserted) :
    (∃ f ∈ n.store.lake, Absorbs f.find r.write) ∧
      r.lsn ≤ publishedWatermark n.store.lake := by
  have hfiles := h.calm.secure.shape.order.files
  cases h.calm.serving.visible.kept r hr with
  | inl hmem =>
      obtain ⟨m, hm, v, hv, -⟩ := hmem
      rw [MemtableSet.walk, h.frozen, List.reverse_nil, List.mem_singleton] at hm
      rw [Memtable.isEmpty, ExtTreeMap.isEmpty_iff] at hempty
      rw [hm, Memtable.find, hempty] at hv
      simp at hv
  | inr hfile =>
      obtain ⟨f, hf, v, hv, hle⟩ := hfile
      refine ⟨⟨f, hf.1, v, hv, hle⟩, ?_⟩
      rw [← hfiles.chunk_find hf.1] at hv
      have htop := f.chunk.le_top _ v hv
      have hmark : f.watermark ≤ publishedWatermark n.store.lake :=
        le_publishedWatermark (fun _ hg => hfiles.stamped hg) hf.1
      exact Nat.le_trans hle (Nat.le_trans htop hmark)

/-- **The next open replays nothing**, however the process dies. -/
theorem AtRest.replays_nothing (h : n.AtRest db)
    (hempty : n.engine.memtables.active.val.isEmpty = true) {c : Crash} {store : Store}
    (hc : n.crashed c = some store) (cfg : Config) :
    ∃ dir wal maxLsn, Wal.open store.dir cfg.walSegmentBytes (publishedWatermark store.lake) =
      .ok (dir, wal, { records := [], maxLsn }) := by
  obtain ⟨rfl, rfl⟩ := h.quiet.crashed_eq hc
  obtain ⟨log, hst, hwritten⟩ := h.calm.secure.crash (c := .between) trivial hc
  obtain ⟨dir, wal, hopen, -⟩ := hst.recovered_eq cfg n.engine.index
  have hnone : StoreOk.replayed n.store log = [] := by
    refine List.eq_nil_iff_forall_not_mem.mpr fun r hr => ?_
    obtain ⟨hheld, hlt⟩ := StoreOk.mem_replayed.mp hr
    cases hwritten r hheld with
    | inl hins =>
        have := (h.absorbed hempty hins).2
        omega
    | inr hway =>
        obtain ⟨call, hcall, -⟩ := hway
        exact h.quiet.no_write hcall
  rw [hnone] at hopen
  exact ⟨dir, wal, _, hopen⟩

end Node

namespace System

variable {db : DuckDb} {s : System}

/-- The steps of `open`, of calls under way and of a new flush. -/
def Draining (s : System) : Event → Prop
  | .node a => ∀ n ∈ s.node?, n.Draining a
  | .readWatermark | .loadIndex | .replay _ => True
  | .crash _ | .crashOpening _ | .land _ => False

theorem Calm.node {n : Node} (h : s.Calm db) (hn : s.node? = some n) : n.Calm db := by
  obtain ⟨p, hp, rfl⟩ := node?_eq_some hn
  obtain ⟨store, history, phase, children⟩ := s
  subst hp
  exact ⟨⟨h.secure, h.serving, h.flush⟩, h.writer⟩

/-- The last step of `open` succeeds. -/
theorem replays_of_calm {w : Nat} {index : FileIndex} (h : s.Calm db)
    (hp : s.phase = .indexLoaded w index) (cfg : Config) :
    ∃ s' n, s.step db (.replay cfg) = some s' ∧ s'.Calm db ∧ s'.node? = some n ∧
      s.history.inserted ⊆ n.history.inserted := by
  obtain ⟨rfl, -, log, hst⟩ := store_of_indexLoaded h.secure hp
  obtain ⟨dir, wal, -, -, -, hrec⟩ := hst.recovered_eq cfg index
  have hs : s.step db (.replay cfg) =
      some (s.withNode (StoreOk.process cfg s.store s.history log dir wal index)) := by
    simp only [step, hp, hrec, Option.map_some]
  exact ⟨_, _, hs, Calm.step (e := .replay cfg) h trivial hs, rfl, List.subset_append_left _ _⟩

/-- The catalog can be loaded. -/
theorem loads_of_calm {w : Nat} (h : s.Calm db) (hp : s.phase = .watermarkRead w) :
    ∃ s' index, s.step db .loadIndex = some s' ∧ s'.Calm db ∧
      s'.phase = .indexLoaded w index ∧ s'.history = s.history := by
  have hst := h.secure.2
  rw [hp] at hst
  obtain ⟨log, hst⟩ := hst
  obtain ⟨index, hload⟩ := hst.load_ok
  have hs : s.step db .loadIndex = some { s with phase := .indexLoaded w index } := by
    simp only [step, hp, hload]
  exact ⟨_, index, hs, Calm.step (e := .loadIndex) h trivial hs, rfl, rfl⟩

/-- **A process comes up**, unless one is up. -/
theorem comes_up_of_calm (h : s.Calm db) (cfg : Config) :
    ∃ s' n, Reaches (step db) Draining s s' ∧ s'.Calm db ∧
      s'.node? = some n ∧ s.history.inserted ⊆ n.history.inserted ∧
      ∀ n₀, s.node? = some n₀ → n = n₀ := by
  have hdown : ∀ {s : System}, s.Calm db → (∃ w, s.phase = .watermarkRead w) →
      ∃ s' n, Reaches (step db) Draining s s' ∧ s'.Calm db ∧
        s'.node? = some n ∧ s.history.inserted ⊆ n.history.inserted := by
    intro s h hp
    obtain ⟨w, hp⟩ := hp
    obtain ⟨s₁, index, hs₁, h₁, hp₁, hhist⟩ := loads_of_calm h hp
    obtain ⟨s₂, n, hs₂, h₂, hn, hsub⟩ := replays_of_calm h₁ hp₁ cfg
    exact ⟨s₂, n, ((Reaches.refl s).tail .loadIndex trivial hs₁).tail (.replay cfg) trivial hs₂,
      h₂, hn, hhist ▸ hsub⟩
  cases hp : s.phase with
  | down =>
      have hs : s.step db .readWatermark = some { s with
          phase := .watermarkRead (publishedWatermark s.store.lake)
          children := s.children.map fun child => { child with fresh := false } } := by
        simp only [step, hp]
      obtain ⟨s', n, hreach, h', hn, hsub⟩ := hdown
        (Calm.step (e := .readWatermark) h trivial hs) ⟨_, rfl⟩
      refine ⟨s', n, ((Reaches.refl s).tail .readWatermark trivial hs).trans hreach, h', hn, hsub,
        ?_⟩
      simp [node?, hp]
  | watermarkRead w =>
      obtain ⟨s', n, hreach, h', hn, hsub⟩ := hdown h ⟨w, hp⟩
      exact ⟨s', n, hreach, h', hn, hsub, by simp [node?, hp]⟩
  | indexLoaded w index =>
      obtain ⟨s', n, hs, h', hn, hsub⟩ := replays_of_calm h hp cfg
      exact ⟨s', n, (Reaches.refl s).tail (.replay cfg) trivial hs, h', hn, hsub,
        by simp [node?, hp]⟩
  | up p =>
      refine ⟨s, s.node p, .refl s, h, node?_up hp, List.Subset.refl _, fun n₀ hn => ?_⟩
      rw [node?_up hp, Option.some.injEq] at hn
      exact hn

/-- A write that was logged when its process died, and a process that died in `open`. -/
def diedTwice : List Event :=
  openSteps ++ nodeSteps [.alloc (.put [1] [7]), .log 1] ++
    [.crash .between, .readWatermark, .loadIndex, .crashOpening 0]

end System

end HolyGrail
