import HolyGrail.System.Writers

/-!
# HolyGrail.System.Failures

Flushes that fail, in a sequential run.

A flush that returns an error leaves its memtable in the queue, and nothing
ever flushes it again.  That costs nothing as long as no later memtable is
published past it (`failed_flush_keeps_acked`).  A later flush does publish
past it, though: its watermark then covers records that are in no file, and the
next open skips them (`failed_flush_loses_write`).
-/

namespace HolyGrail

/-- One write at a time, and no memtable is published past an older one that
still waits above the watermark.  Flushes may fail anywhere. -/
def Node.Cautious (n : Node) (a : Act) : Prop :=
  n.OneWriter a ∧ n.PublishInOrder a ∧ n.PayloadFits a

instance (n : Node) (a : Act) : Decidable (n.Cautious a) :=
  inferInstanceAs (Decidable (_ ∧ _ ∧ _))

namespace System

variable {db : DuckDb} {s s' : System} {e : Event}

/-- The invariant of a sequential run with failures. -/
structure Kept (db : DuckDb) (s : System) : Prop where
  secure : s.Secure db
  writer : s.SoleWriter

theorem Kept.step (h : s.Kept db) (hg : Within Node.Cautious AnyCrash s e)
    (hs : s.step db e = some s') : s'.Kept db where
  secure := by
    refine secure_step h.secure (within_of_step hg hs ?_ fun _ _ _ hn hc _ =>
      h.writer.crashFresh h.secure hn hc) hs
    rintro n a n' hn hs ⟨-, hpub, hfit⟩
    exact ⟨h.writer.clean hn a, hpub, hfit, h.writer.rotateFresh h.secure hn hs⟩
  writer := soleWriter_step h.writer h.secure
    (within_of_step hg hs (fun _ _ _ _ _ hg => hg.1) fun _ _ _ _ _ hc => hc) hs

/-- **A failed flush costs nothing** in a sequential run in which no memtable is
published past an older one that still waits above the watermark.  Whatever
flushes fail, and wherever, a crash at any point followed by `open` makes every
acknowledged write readable again; and at any point the watermark covers only
records that are in a live file, and the log has all others. -/
theorem failed_flush_keeps_acked
    (h : Reaches (step db) (Within Node.Cautious AnyCrash) init s) {n : Node}
    (hn : s.node? = some n) :
    (∀ c store cfg, n.crashed c = some store →
      ∃ store' engine, Engine.open cfg store = .ok (store', engine) ∧
        ∀ r ∈ s.history.acked, n.Readable store' engine r) ∧
    (∀ r ∈ s.history.inserted, r.lsn ≤ publishedWatermark s.store.lake →
      ∃ f ∈ s.store.lake, Absorbs f.find r.write) ∧
    ∃ log, Mirrors Clean s.store.dir log ∧
      ∀ r ∈ s.history.inserted, publishedWatermark s.store.lake < r.lsn → log.Holds r := by
  have hkept := h.invariant (Kept db) ⟨secure_init db, soleWriter_init⟩
    fun _ _ _ h hg hs => h.step hg hs
  obtain ⟨p, hp, rfl⟩ := node?_eq_some hn
  have hsec := secure_of_up hkept.secure hp
  obtain ⟨log, hlog⟩ := hsec.logged
  refine ⟨fun c store cfg hc => ?_, fun r hr hle => hkept.secure.absorbed hr hle,
    log, hlog.tracks.mirrors, hlog.held⟩
  exact hsec.reopen_readable (hkept.writer.crashFresh hkept.secure hn hc) hc cfg

/-- A flush that fails after its publish, another write, and a flush that goes
through. -/
def failAfterPublish : List Event :=
  openSteps ++ nodeSteps (Node.putSteps [1] [7] 1 ++ [.freeze] ++ Node.publishSteps 0 ++
    [.query 0, .install 0, .failTruncate 0 0] ++ Node.putSteps [2] [8] 2 ++ [.freeze] ++
    Node.publishSteps 1 ++ [.query 1, .install 1, .truncate 1, .retire 1])

theorem failed_flush_keeps_acked_run :
    ∃ s n, Reaches (step DuckDb.plain) (Within Node.Cautious AnyCrash) init s ∧
      s.node? = some n ∧ s.history.acked.length = 2 ∧
      ∃ store' engine, Engine.open Node.smallConfig s.store = .ok (store', engine) ∧
        ∀ r ∈ s.history.acked, n.Readable store' engine r := by
  obtain ⟨s, hrun, hup, hacked⟩ := exists_run_of_attempt DuckDb.plain
    (Within Node.Cautious AnyCrash)
    (fun s => s.node?.isSome ∧ s.history.acked.length = 2) failAfterPublish (by decide +kernel)
  obtain ⟨n, hn⟩ := Option.isSome_iff_exists.mp hup
  obtain ⟨p, hp, rfl⟩ := node?_eq_some hn
  exact ⟨s, _, hrun, hn, hacked, (failed_flush_keeps_acked hrun hn).1 .between _ _ rfl⟩

/-- A flush whose publish fails, another write, a flush that goes through, and
a crash. -/
def failBeforePublish : List Event :=
  openSteps ++ nodeSteps (Node.putSteps [1] [7] 1 ++
    [.freeze, .readWatermark 0, .plan 0, .stage 0, .fail 0] ++ Node.putSteps [2] [8] 2 ++
    [.freeze] ++ Node.publishSteps 1 ++ [.query 1, .install 1, .truncate 1, .retire 1]) ++
  [.crash .between]

/-- The write whose flush failed is acknowledged, and gone after the crash. -/
theorem failed_flush_loses_write :
    ∃ s, Reaches (step DuckDb.plain)
        (Within (fun n a => n.OneWriter a ∧ n.OneFlush a ∧ n.PayloadFits a) AnyCrash) init s ∧
      Record.put [1] 1 [7] ∈ s.history.acked ∧
      Engine.openGet Node.smallConfig s.store [1] = .ok none :=
  exists_run_of_attempt DuckDb.plain _
    (fun s => Record.put [1] 1 [7] ∈ s.history.acked ∧
      Engine.openGet Node.smallConfig s.store [1] = .ok none)
    failBeforePublish (by decide +kernel)

end System

end HolyGrail
