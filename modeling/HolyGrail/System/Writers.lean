import HolyGrail.System.Steady

/-!
# HolyGrail.System.Writers

The published watermark with any number of writers.

The LSN is taken before the log append and the insert, so a freeze can fall
between the steps of any writer.  When none falls between a memtable and a
lower LSN on its way, an LSN at or below the watermark is one whose write is in
the published files, now and for good (`watermark_sound`).  When one does, the
late write lies below the watermark and in no file: it is acknowledged, and a
crash loses it (`late_write_lost`).
-/

namespace HolyGrail

/-- What a read returns after the store is opened. -/
def Engine.openGet (cfg : Config) (store : Store) (key : Bytes) : Except Error (Option Bytes) :=
  match Engine.open cfg store with
  | .error e => .error e
  | .ok (store, engine) => Engine.get store engine key

/-! ## what a step adds -/

theorem Node.watermark_step {db : DuckDb} {n n' : Node} {a : Act} (hsh : n.Shape db)
    (hs : n.step db a = some n') :
    publishedWatermark n.store.lake ≤ publishedWatermark n'.store.lake ∧
      ∀ r ∈ n'.history.inserted, r ∈ n.history.inserted ∨
        publishedWatermark n.store.lake < r.lsn := by
  cases move_of_step hs with
  | @insert l rec hc =>
      refine ⟨Nat.le_refl _, fun r hr => ?_⟩
      have hr : r ∈ n.history.inserted ++ [rec] := hr
      rw [List.mem_append, List.mem_singleton] at hr
      rcases hr with hr | rfl
      · exact .inl hr
      · have hlt := Logged.upcoming_gt hsh hc (by simp)
        rw [← (hsh.writes_ok l _ hc).1] at hlt
        exact .inr hlt
  | publish hc =>
      obtain ⟨hm, -, -, rfl⟩ := hsh.frozen_of_call hc
      obtain ⟨hne, hfit, -⟩ := hsh.order.closed_ok _ (hsh.order.mem_closed hm)
      refine ⟨publishedWatermark_mono (fun _ hf => hsh.order.files.stamped hf) ?_, fun r => .inl⟩
      exact (hsh.order.files.append hne hfit).stamped (List.mem_append_right _ List.mem_cons_self)
  | _ => exact ⟨Nat.le_refl _, fun r => .inl⟩

namespace System

variable {db : DuckDb} {s s' : System} {e : Event}

/-- The watermark only rises, and what is inserted later lies above it. -/
theorem watermark_step (h : s.Secure db) (hg : ∀ i, e ≠ .land i) (hs : s.step db e = some s') :
    publishedWatermark s.store.lake ≤ publishedWatermark s'.store.lake ∧
      ∀ r ∈ s'.history.inserted, r ∈ s.history.inserted ∨
        publishedWatermark s.store.lake < r.lsn := by
  cases move_of_step hs with
  | node hp hn => exact Node.watermark_step (secure_of_up h hp).shape hn
  | crash hp hc =>
      refine ⟨?_, fun r => .inl⟩
      have he : _ = s.store.lake := Node.lake_crashed hc
      simp only [he, Nat.le_refl]
  | replay hp hr =>
      obtain ⟨-, log, dir, wal, -, -, -, rfl⟩ := recovered_process h hp hr
      refine ⟨Nat.le_refl _, fun r hr => ?_⟩
      have hr : r ∈ s.history.inserted ++ StoreOk.replayed s.store log := hr
      rw [List.mem_append, StoreOk.mem_replayed] at hr
      exact hr.imp_right And.right
  | land hc => exact absurd rfl (hg _)
  | readWatermark | loadIndex | crashEarly | crashOpening => exact ⟨Nat.le_refl _, fun r => .inl⟩

/-- Below the watermark everything is in a live file, with a process or without. -/
theorem Secure.absorbed (h : s.Secure db) {r : Record} (hr : r ∈ s.history.inserted)
    (hle : r.lsn ≤ publishedWatermark s.store.lake) :
    ∃ f ∈ s.store.lake, Absorbs f.find r.write := by
  have hst := h.2
  split at hst
  · exact hst.placed.absorbed hst.shape hst.stamps hr hle
  · obtain ⟨log, hst⟩ := hst
    exact hst.absorbed r hr hle

theorem Secure.acked_sub (h : s.Secure db) : s.history.acked ⊆ s.history.inserted := by
  have hst := h.2
  split at hst
  · exact hst.shape.acked_sub
  · obtain ⟨log, hst⟩ := hst
    exact hst.acked_sub

theorem Secure.files (h : s.Secure db) : Files db s.store.lake := by
  have hst := h.2
  split at hst
  · exact hst.shape.order.files
  · obtain ⟨log, hst⟩ := hst
    exact hst.files

/-- **The watermark is sound** while no freeze separates a memtable from a lower
LSN and no append reopens a segment file that has records.  Every write that is
acknowledged now or later and lies at or below the watermark is in the
published files, superseded at most by a newer row; a crash loses no
acknowledged write; and the log still has every acknowledged record above the
watermark. -/
theorem watermark_sound
    (h : Reaches (step db) (Within Node.Concurrent Node.CrashFresh) init s)
    (h' : Reaches (step db) (Within Node.Concurrent Node.CrashFresh) s s') :
    (∀ r ∈ s'.history.acked, r.lsn ≤ publishedWatermark s.store.lake →
      ∃ f ∈ s.store.lake, Absorbs f.find r.write) ∧
    ∀ n, s.node? = some n →
      (∀ c store cfg, n.CrashFresh c → n.crashed c = some store →
        ∃ store' engine, Engine.open cfg store = .ok (store', engine) ∧
          ∀ r ∈ s.history.acked, n.Readable store' engine r) ∧
      ∃ log, Mirrors Clean n.store.dir log ∧
        ∀ r ∈ s.history.acked, publishedWatermark s.store.lake < r.lsn → log.Holds r := by
  have hst := steady_of_reaches h
  refine ⟨fun r hr hle => ?_, fun n hn => ?_⟩
  · -- From `s` on, every new record lies above the watermark of `s`.
    obtain ⟨hst', -, hnew⟩ := h'.invariant
      (fun t => t.Steady db ∧ publishedWatermark s.store.lake ≤ publishedWatermark t.store.lake ∧
        ∀ r ∈ t.history.inserted, r ∈ s.history.inserted ∨
          publishedWatermark s.store.lake < r.lsn)
      ⟨hst, Nat.le_refl _, fun r hr => .inl hr⟩
      (by
        rintro t e t' ⟨ht, hle, hnew⟩ hg hs
        have hland : ∀ i, e ≠ .land i := by
          rintro i rfl
          exact hg
        obtain ⟨hmono, hadd⟩ := watermark_step ht.secure hland hs
        refine ⟨ht.step hg hs, Nat.le_trans hle hmono, fun r hr => ?_⟩
        rcases hadd r hr with hr | hlt
        · exact hnew r hr
        · exact .inr (Nat.lt_of_le_of_lt hle hlt))
    rcases hnew r (hst'.secure.acked_sub hr) with hr | hlt
    · exact hst.secure.absorbed hr hle
    · omega
  · obtain ⟨p, hp, rfl⟩ := node?_eq_some hn
    have hsec := secure_of_up hst.secure hp
    obtain ⟨log, hlog⟩ := hsec.logged
    refine ⟨fun c store cfg hfree hc => hsec.reopen_readable hfree hc cfg, log,
      hlog.tracks.mirrors, fun r hr hlt => hlog.held r (hsec.shape.acked_sub hr) hlt⟩

/-- Two writers whose steps interleave, and a flush after both. -/
def twoWriters : List Event :=
  openSteps ++ nodeSteps (
    [.alloc (.put [1] [7]), .alloc (.put [2] [8]), .log 2, .log 1, .insert 2, .ack 2, .insert 1,
      .ack 1, .freeze] ++ Node.publishSteps 0 ++ [.query 0, .install 0, .truncate 0, .retire 0])

theorem watermark_sound_twoWriters :
    ∃ s, Reaches (step DuckDb.plain) (Within Node.Concurrent Node.CrashFresh) init s ∧
      s.history.acked.map Record.lsn = [2, 1] ∧ publishedWatermark s.store.lake = 2 ∧
      ∀ r ∈ s.history.acked, r.lsn ≤ publishedWatermark s.store.lake →
        ∃ f ∈ s.store.lake, Absorbs f.find r.write := by
  obtain ⟨s, hrun, hacked, hw⟩ := exists_run_of_attempt DuckDb.plain
    (Within Node.Concurrent Node.CrashFresh)
    (fun s => s.history.acked.map Record.lsn = [2, 1] ∧ publishedWatermark s.store.lake = 2)
    twoWriters (by decide +kernel)
  exact ⟨s, hrun, hacked, hw, (watermark_sound hrun (.refl s)).1⟩

/-- The first writer inserts after a flush has frozen and published the second
one's record; then the process dies. -/
def lateInsert : List Event :=
  openSteps ++ nodeSteps (
    [.alloc (.put [1] [7]), .alloc (.put [2] [8]), .log 1, .log 2, .insert 2, .ack 2,
      .freeze] ++ Node.publishSteps 0 ++ [.query 0, .install 0, .truncate 0, .retire 0,
      .insert 1, .ack 1]) ++ [.crash .between]

/-- The late write is acknowledged below the watermark, is in no published
file, and is gone after a crash. -/
theorem late_write_lost :
    ∃ s, Reaches (step DuckDb.plain)
        (Within (fun n a => n.OneFlush a ∧ Node.NoFailure a) AnyCrash) init s ∧
      Record.put [1] 1 [7] ∈ s.history.acked ∧
      1 ≤ publishedWatermark s.store.lake ∧ (∀ f ∈ s.store.lake, f.find [1] = none) ∧
      Engine.openGet Node.smallConfig s.store [1] = .ok none :=
  exists_run_of_attempt DuckDb.plain _
    (fun s => Record.put [1] 1 [7] ∈ s.history.acked ∧
      1 ≤ publishedWatermark s.store.lake ∧ (∀ f ∈ s.store.lake, f.find [1] = none) ∧
      Engine.openGet Node.smallConfig s.store [1] = .ok none)
    lateInsert (by decide +kernel)

end System

end HolyGrail
