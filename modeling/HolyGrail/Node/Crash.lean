import HolyGrail.Node.Writer

/-!
# HolyGrail.Node.Crash

What a crash leaves behind and what `Engine::open` makes of it.

`StoreOk` is what a store promises while no process runs: every record ever
inserted is in a live file if its LSN is at or below the published watermark,
and in the log if it is above.  A crash at any point of a secure process leaves
such a store (`Secure.crash`), opening one always succeeds
(`StoreOk.recovered`), and the process that comes up is secure again and reads
the newest of all records that survived.
-/

namespace HolyGrail

open Std (ExtTreeMap)

/-- How a process dies. -/
inductive Crash where
  /-- While nothing is being written to the log directory. -/
  | between
  /-- Inside the log append of a write, with `len` bytes of it on disk. -/
  | inAppend (lsn len : Nat)
  /-- Inside the truncation of a flush, after `i` deletions. -/
  | inTruncate (p i : Nat)
  /-- While DuckDB has the whole script of a flush; the child outlives it. -/
  | inPublish (p : Nat)
  deriving DecidableEq, Repr

namespace Node

/-- The store a crash leaves. -/
def crashed (n : Node) : Crash → Option Store
  | .between => some n.store
  | .inAppend lsn len =>
      match n.writes[lsn]? with
      | some ⟨rec, .allocated⟩ =>
          some { n.store with dir := n.engine.wal.appendTorn n.store.dir [rec] len }
      | _ => none
  | .inTruncate p i =>
      match n.flushes[p]? with
      | some ⟨_, .covered result _⟩ =>
          match result.watermark with
          | none => none
          | some w =>
              match Wal.removeAll ((n.engine.wal.covered w).take i) n.store.dir with
              | .ok dir => some { n.store with dir }
              | .error _ => none
      | _ => none
  | .inPublish p =>
      match n.flushes[p]? with
      | some ⟨_, .staged _ _⟩ => some n.store
      | _ => none

/-- The torn append of a crash reopens no segment file that has records. -/
def CrashFresh (n : Node) : Crash → Prop
  | .inAppend l _ => n.NameFree l
  | _ => True

instance (n : Node) (c : Crash) : Decidable (n.CrashFresh c) := by
  unfold CrashFresh
  split <;> infer_instance

/-- The process when the last step of `Engine::open` is done: the replayed
records have reached a memtable. -/
def recovered (cfg : Config) (store : Store) (history : History) (watermark : Nat)
    (index : FileIndex) : Option Node :=
  match Wal.open store.dir cfg.walSegmentBytes watermark,
    Engine.recover cfg store.dir watermark index with
  | .ok (_, _, replay), .ok (dir, engine) =>
      some (boot { store with dir } engine
        { history with inserted := history.inserted ++ replay.records })
  | _, _ => none

/-- Nothing is under way in it, and it has the index that was loaded. -/
theorem recovered_eq_boot {cfg : Config} {store : Store} {history : History} {watermark : Nat}
    {index : FileIndex} {n : Node} (h : recovered cfg store history watermark index = some n) :
    ∃ dir engine history', n = boot { store with dir } engine history' ∧
      engine.index = index := by
  rw [recovered] at h
  split at h
  · next dir engine _ hrec =>
      exact ⟨dir, engine, _, (Option.some.inj h).symm, Engine.index_recover hrec⟩
  · contradiction

end Node

/-! ## a store at rest -/

structure StoreOk (db : DuckDb) (store : Store) (history : History) (log : Log) : Prop where
  mirrors : Mirrors Torn store.dir log
  files : Files db store.lake
  layered : Layered {c | ∃ f ∈ store.lake, c = f.chunk}
  sound : ∀ f ∈ store.lake, ∀ k v, f.find k = some v →
    ∃ r ∈ history.inserted, r.key = k ∧ r.version = v
  absorbed : ∀ r ∈ history.inserted, r.lsn ≤ publishedWatermark store.lake →
    ∃ f ∈ store.lake, Absorbs f.find r.write
  held : ∀ r ∈ history.inserted, publishedWatermark store.lake < r.lsn → log.Holds r
  known : ∀ r, log.Holds r → publishedWatermark store.lake < r.lsn ∨ r ∈ history.inserted
  lsn_ok : ∀ r, r ∈ history.inserted ∨ log.Holds r → 0 < r.lsn ∧ r.lsn < lsnLimit
  unique : ∀ r s, r ∈ history.inserted ∨ log.Holds r → s ∈ history.inserted ∨ log.Holds s →
    r.lsn = s.lsn → r = s
  acked_sub : history.acked ⊆ history.inserted

namespace Node

variable {db : DuckDb} {n n' : Node} {a : Act}

/-- A write that has not reached a memtable. -/
def OnItsWay (n : Node) (r : Record) : Prop :=
  ∃ call, n.writes[r.lsn]? = some call ∧ call.stage ≠ .inserted ∧ call.record = r

/-- A write that a client has asked for: inserted or on its way. -/
def Written (n : Node) (r : Record) : Prop := r ∈ n.history.inserted ∨ n.OnItsWay r

namespace Secure

/-- A secure process leaves a good store, whatever a crash adds to the log from
the writes under way. -/
theorem storeOk (h : n.Secure db) {dir : Dir} {log : Log} (hmir : Mirrors Torn dir log)
    (hheld : ∀ r ∈ n.history.inserted, publishedWatermark n.store.lake < r.lsn → log.Holds r)
    (hknown : ∀ r, log.Holds r → n.Written r) :
    StoreOk db { n.store with dir } n.history log := by
  have hsh := h.shape
  have hall : ∀ r, r ∈ n.history.inserted ∨ log.Holds r → n.Written r :=
    fun r hr => hr.elim .inl (hknown r)
  refine
    { mirrors := hmir, files := hsh.order.files, layered := hsh.order.lake_layered
      sound := fun f hf k v hv => ?_, absorbed := fun r hr => h.placed.absorbed hsh h.stamps hr
      held := hheld, known := fun r hr => ?_, lsn_ok := fun r hr => ?_
      unique := fun r s hr hs he => ?_, acked_sub := hsh.acked_sub }
  · rw [← hsh.order.files.chunk_find hf] at hv
    exact hsh.sound _ (.inr (lake_mem_chunks hf)) k v hv
  · rcases hknown r hr with hr | ⟨call, hc, hst, -⟩
    · exact .inr hr
    · exact .inl (Logged.upcoming_gt hsh hc hst)
  · have hle := hsh.next_le
    rcases hall r hr with hr | ⟨call, hc, -, -⟩
    · have := h.stamps.lt r hr
      omega
    · have := hsh.writes_ok _ call hc
      omega
  · rcases hall r hr with hr | ⟨call, hc, hst, hrec⟩ <;>
      rcases hall s hs with hs | ⟨call', hc', hst', hrec'⟩
    · exact h.stamps.unique r hr s hs he
    · exact absurd he (h.stamps.fresh _ call' hc' hst' r hr)
    · exact absurd he.symm (h.stamps.fresh _ call hc hst s hs)
    · rw [he, hc', Option.some.injEq] at hc
      rw [← hrec, ← hrec', hc]

theorem written_of_holds {log : Log} (h : n.Secure db) (hlog : n.Logged log) (r : Record)
    (hr : log.Holds r) : n.Written r := by
  rcases hlog.known r hr with hr | ⟨l, hl⟩
  · exact .inl hr
  · have he : r.lsn = l := (h.shape.writes_ok l _ hl).1
    exact .inr ⟨_, by rw [he]; exact hl, by simp, rfl⟩

/-- A crash inside an append adds to the log what survived of it. -/
theorem crash_inAppend (h : n.Secure db) {l : Nat} {rec : Record}
    (hw : n.writes[l]? = some ⟨rec, .allocated⟩) (hfree : n.NameFree l) (len : Nat) :
    ∃ log, n.Logged log ∧
      (∀ r, (log.extend (n.engine.wal.landing rec.lsn) (survivors [rec] len)).Holds r →
        n.Written r) ∧
      StoreOk db { n.store with dir := n.engine.wal.appendTorn n.store.dir [rec] len } n.history
        (log.extend (n.engine.wal.landing rec.lsn) (survivors [rec] len)) := by
  obtain ⟨log, hlog⟩ := h.logged
  obtain ⟨rfl, -⟩ := h.shape.writes_ok l _ hw
  have hfit : ∀ r ∈ [rec], Fits r := by
    intro r hr
    rw [List.mem_singleton] at hr
    exact hr ▸ hlog.fits _ _ hw
  have hmir := hlog.tracks.appendTorn hfit (hlog.free_of_nameFree hfree) len
  have htorn : ∀ r, (log.extend (n.engine.wal.landing rec.lsn)
      (survivors [rec] len)).Holds r → n.Written r := by
    intro r hr
    rcases Log.holds_extend.mp hr with hr | hr
    · exact h.written_of_holds hlog r hr
    · have hr := (prefix_survivors _ len).subset hr
      rw [List.mem_singleton] at hr
      subst hr
      exact .inr ⟨_, hw, by simp, rfl⟩
  refine ⟨log, hlog, htorn, h.storeOk hmir (fun r hr hlt => ?_) htorn⟩
  exact Log.holds_extend.mpr (.inl (hlog.held r hr hlt))

/-- **A crash leaves a good store**, with a log of records that were inserted
or on their way. -/
theorem crash (h : n.Secure db) {c : Crash} {store : Store} (hfree : n.CrashFresh c)
    (hc : n.crashed c = some store) :
    ∃ log, StoreOk db store n.history log ∧ ∀ r, log.Holds r → n.Written r := by
  obtain ⟨log, hlog⟩ := h.logged
  have hknown := h.written_of_holds hlog
  have hrest : StoreOk db n.store n.history log :=
    h.storeOk (hlog.tracks.mirrors.weaken torn_nil) hlog.held hknown
  cases c with
  | between => exact ⟨log, Option.some.inj hc ▸ hrest, hknown⟩
  | inAppend l len =>
      rw [crashed] at hc
      split at hc
      · next rec hw =>
          obtain ⟨log', -, htorn, hst⟩ := h.crash_inAppend hw hfree len
          exact ⟨_, Option.some.inj hc ▸ hst, htorn⟩
      · contradiction
  | inTruncate p i =>
      rw [crashed] at hc
      split at hc
      · next mt result file hf =>
          split at hc
          · contradiction
          · next w hw =>
              obtain ⟨dir, hrem, htr⟩ := hlog.tracks.truncate w i
              rw [hrem] at hc
              have hcut := hlog.truncate h.shape (h.shape.truncated_le hf hw) htr n.flushes
              have hleft : ∀ r, (log.eraseAll (Tracks.coveredStarts n.engine.wal w i)).Holds r →
                  n.Written r := fun r hr => hknown r (Tracks.holds_of_eraseAll hr)
              rw [← Option.some.inj hc]
              exact ⟨_, h.storeOk (htr.mirrors.weaken torn_nil) hcut.held hleft, hleft⟩
      · contradiction
  | inPublish p =>
      rw [crashed] at hc
      split at hc
      · exact ⟨log, Option.some.inj hc ▸ hrest, hknown⟩
      · contradiction

end Secure

end Node

/-! ## one writer's log at rest -/

/-- The log of a store at rest, as its own history sees it. -/
def SoleStore (store : Store) : Prop :=
  ∃ kept floor, floor ≤ publishedWatermark store.lake ∧
    LogSys.Inv ⟨store.dir, none, kept, floor⟩

theorem Node.SoleLog.crash {db : DuckDb} {n : Node} (h : n.SoleLog) (hsole : n.Sole)
    (hsec : n.Secure db) {c : Crash} {store : Store} (hc : n.crashed c = some store) :
    SoleStore store := by
  obtain ⟨next, kept, floor, hfloor, hnext, hinv⟩ := h
  have hrest : SoleStore n.store :=
    ⟨kept, floor, hfloor, LogSys.inv_step _ .crash _ hinv trivial rfl⟩
  cases c with
  | between => exact Option.some.inj hc ▸ hrest
  | inAppend l len =>
      rw [crashed] at hc
      split at hc
      · next rec hw =>
          obtain rfl := hnext.eq hsole hw
          obtain ⟨rfl, -⟩ := hsec.shape.writes_ok _ _ hw
          obtain ⟨log, hlog⟩ := hsec.logged
          have hfit := hlog.fits _ _ hw
          rw [← Option.some.inj hc]
          refine ⟨_, floor, hfloor, LogSys.inv_step _ (.crashInAppend [rec] len) _ hinv
            ⟨by simp, by simpa using hfit, ?_⟩ rfl⟩
          rintro p hp
          cases hp
          rfl
      · contradiction
  | inTruncate p i =>
      rw [crashed] at hc
      split at hc
      · next mt result file hf =>
          split at hc
          · contradiction
          · next w hw =>
              split at hc
              · next dir hrem =>
                  rw [← Option.some.inj hc]
                  refine ⟨kept, max floor w,
                    Nat.max_le.mpr ⟨hfloor, hsec.shape.truncated_le hf hw⟩, ?_⟩
                  refine LogSys.inv_step _ (.crashInTruncate w i) _ hinv trivial ?_
                  simp only [LogSys.step, hrem]
              · contradiction
      · contradiction
  | inPublish p =>
      rw [crashed] at hc
      split at hc
      · exact Option.some.inj hc ▸ hrest
      · contradiction

end HolyGrail
