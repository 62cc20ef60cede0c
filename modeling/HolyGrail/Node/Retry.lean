import HolyGrail.Node.Open

/-!
# HolyGrail.Node.Retry

What becomes of the memtable of a flush that failed.

A flush works on the memtable it froze and on no other.  When it fails, its
memtable stays in the queue and no call is left that would flush or retire it:
it is stuck there as long as the process lives (`Stuck.step`), and after
`max_frozen` failures so are the writes.  The queue can be emptied by further
flushes exactly when no flush has failed (`retryable_iff_no_failure`).
-/

namespace HolyGrail

open Std (ExtTreeMap)

namespace Node

variable {db : DuckDb} {n n' : Node} {a : Act}

/-! ## the queue -/

/-- Every flush under way has its memtable in the queue, and the active memtable
is newer than those. -/
structure Queue (n : Node) : Prop where
  calls : ∀ (p : Nat) (call : FlushCall), n.flushes[p]? = some call →
    call.memtable.ptr = p ∧ call.memtable ∈ n.engine.memtables.frozen
  old : ∀ m ∈ n.engine.memtables.frozen, m.ptr < n.engine.memtables.active.ptr

namespace Queue

theorem moveFlush (h : n.Queue) {p : Nat} {call : FlushCall} (hc : n.flushes[p]? = some call)
    (stage : FlushStage) : (n.moveFlush call stage).Queue := by
  refine { h with calls := fun q call' hc' => ?_ }
  rw [Node.moveFlush, OrdMap.getElem?_insert] at hc'
  split at hc'
  · next he =>
      rw [← Option.some.inj hc']
      exact ⟨he, (h.calls p call hc).2⟩
  · exact h.calls q call' hc'

theorem endFlush (h : n.Queue) (call : FlushCall) : (n.endFlush call).Queue := by
  refine { h with calls := fun q call' hc' => ?_ }
  rw [Node.endFlush, OrdMap.getElem?_erase] at hc'
  split at hc'
  · contradiction
  · exact h.calls q call' hc'

/-- A flush is over, and its memtable has left the queue. -/
theorem retire (h : n.Queue) (call : FlushCall) :
    ((n.retireMemtable call.memtable).endFlush call).Queue := by
  refine ⟨fun q call' hc' => ?_, fun m hm => h.old m (List.mem_filter.mp hm).1⟩
  rw [Node.endFlush, OrdMap.getElem?_erase] at hc'
  split at hc'
  · contradiction
  · next hne =>
      obtain ⟨hptr, hm⟩ := h.calls q call' hc'
      exact ⟨hptr, List.mem_filter.mpr ⟨hm, decide_eq_true fun he => hne (he.symm.trans hptr)⟩⟩

theorem step (h : n.Queue) (hs : n.step db a = some n') : n'.Queue := by
  cases move_of_step hs with
  | freeze hroom hne =>
      refine ⟨fun q call hc => ?_, fun m hm => ?_⟩
      · rw [OrdMap.getElem?_insert] at hc
        split at hc
        · next he =>
            rw [← Option.some.inj hc]
            exact ⟨he, List.mem_append_right _ (List.mem_singleton.mpr rfl)⟩
        · obtain ⟨hptr, hm⟩ := h.calls q call hc
          exact ⟨hptr, List.mem_append_left _ hm⟩
      · rw [List.mem_append, List.mem_singleton] at hm
        rcases hm with hm | rfl
        · exact Nat.lt_succ_of_lt (h.old m hm)
        · exact Nat.lt_succ_self _
  | readWatermark hc | planCovered hc | planWrite hc | stage hc => exact h.moveFlush hc _
  | query hc => exact { h.moveFlush hc (.queried _ _ _) with }
  | publish hc => exact { h.moveFlush hc (.published _ _) with }
  | install hc => exact { h.moveFlush hc (.covered _ _) with }
  | truncate hc => exact { h.moveFlush hc (.truncated _ _) with }
  | planEmpty hc he => exact h.retire ⟨_, .read _⟩
  | retire hc => exact { h.retire ⟨_, .truncated _ _⟩ with }
  | fail hc => exact h.endFlush _
  | failTruncate hc => exact { h.endFlush _ with }
  | _ => exact { h with }

end Queue

/-! ## stuck memtables -/

/-- The memtable waits in the queue, and no flush has it. -/
structure Stuck (n : Node) (m : Arc Memtable) : Prop where
  mem : m ∈ n.engine.memtables.frozen
  gone : m.ptr ∉ n.flushes

namespace Stuck

variable {m : Arc Memtable}

theorem moveFlush (h : n.Stuck m) (hq : n.Queue) {p : Nat} {call : FlushCall}
    (hc : n.flushes[p]? = some call) (stage : FlushStage) : (n.moveFlush call stage).Stuck m := by
  refine { h with gone := fun hm => ?_ }
  rw [Node.moveFlush, OrdMap.mem_insert] at hm
  rcases hm with he | hm
  · have hp := OrdMap.mem_of_getElem? hc
    rw [← (hq.calls p call hc).1, he] at hp
    exact h.gone hp
  · exact h.gone hm

theorem endFlush (h : n.Stuck m) (call : FlushCall) : (n.endFlush call).Stuck m :=
  { h with gone := fun hm => h.gone (OrdMap.mem_erase.mp hm).2 }

/-- The flush that retires has a memtable of its own. -/
theorem retire (h : n.Stuck m) (hq : n.Queue) {p : Nat} {call : FlushCall}
    (hc : n.flushes[p]? = some call) :
    ((n.retireMemtable call.memtable).endFlush call).Stuck m := by
  refine ⟨List.mem_filter.mpr ⟨h.mem, decide_eq_true fun he => ?_⟩,
    fun hm => h.gone (OrdMap.mem_erase.mp hm).2⟩
  have hp := OrdMap.mem_of_getElem? hc
  rw [← (hq.calls p call hc).1, ← he] at hp
  exact h.gone hp

/-- **Once stuck, always stuck.** -/
theorem step (h : n.Stuck m) (hq : n.Queue) (hs : n.step db a = some n') : n'.Stuck m := by
  cases move_of_step hs with
  | freeze hroom hne =>
      refine ⟨List.mem_append_left _ h.mem, fun hm => ?_⟩
      rw [OrdMap.mem_insert] at hm
      rcases hm with he | hm
      · have := hq.old m h.mem
        omega
      · exact h.gone hm
  | readWatermark hc | planCovered hc | planWrite hc | stage hc => exact h.moveFlush hq hc _
  | query hc => exact { h.moveFlush hq hc (.queried _ _ _) with }
  | publish hc => exact { h.moveFlush hq hc (.published _ _) with }
  | install hc => exact { h.moveFlush hq hc (.covered _ _) with }
  | truncate hc => exact { h.moveFlush hq hc (.truncated _ _) with }
  | planEmpty hc he => exact h.retire hq hc
  | retire hc => exact { h.retire hq hc with }
  | fail hc => exact h.endFlush _
  | failTruncate hc => exact { h.endFlush _ with }
  | _ => exact { h with }

end Stuck

/-- A failure leaves a stuck memtable. -/
theorem stuck_of_failure (hq : n.Queue) (ha : ¬ NoFailure a) (hs : n.step db a = some n') :
    ∃ m, n'.Stuck m := by
  have hleft : ∀ {p : Nat} {call : FlushCall}, n.flushes[p]? = some call →
      (n.endFlush call).Stuck call.memtable := by
    intro p call hc
    exact ⟨(hq.calls p call hc).2, fun hm => (OrdMap.mem_erase.mp hm).1 rfl⟩
  cases move_of_step hs with
  | fail hc => exact ⟨_, hleft hc⟩
  | failTruncate hc => exact ⟨_, { hleft hc with }⟩
  | _ => exact absurd trivial ha

/-- Every memtable of the queue has a flush. -/
def Attended (n : Node) : Prop := ∀ m ∈ n.engine.memtables.frozen, m.ptr ∈ n.flushes

theorem Attended.step (h : n.Attended) (ha : NoFailure a) (hs : n.step db a = some n') :
    n'.Attended := by
  have hmove : ∀ (call : FlushCall) (stage : FlushStage), (n.moveFlush call stage).Attended :=
    fun call stage m hm => (OrdMap.mem_insert _).mpr (.inr (h m hm))
  have hretire : ∀ call : FlushCall, ((n.retireMemtable call.memtable).endFlush call).Attended := by
    intro call m hm
    obtain ⟨hm, hne⟩ := List.mem_filter.mp hm
    exact OrdMap.mem_erase.mpr ⟨fun he => of_decide_eq_true hne he.symm, h m hm⟩
  cases move_of_step hs with
  | freeze hroom hne =>
      intro m hm
      rw [List.mem_append, List.mem_singleton] at hm
      rcases hm with hm | rfl
      · exact (OrdMap.mem_insert _).mpr (.inr (h m hm))
      · exact (OrdMap.mem_insert _).mpr (.inl rfl)
  | readWatermark | planCovered | planWrite | stage | query | publish | install | truncate =>
      exact hmove _ _
  | planEmpty => exact hretire ⟨_, .read _⟩
  | retire => exact hretire ⟨_, .truncated _ _⟩
  | fail | failTruncate => exact ha.elim
  | _ => exact h

/-! ## retries -/

/-- The steps of `flush` calls that do not fail. -/
def IsRetry (_ : Node) : Act → Prop
  | .freeze | .readWatermark _ | .plan _ | .stage _ | .publish _ | .query _ | .install _
  | .truncate _ | .retire _ => True
  | .alloc _ | .log _ | .insert _ | .ack _ | .fail _ | .failTruncate _ _ | .begin _ _ | .lookup _
  | .snapshot _ | .scan _ => False

/-- Some number of `flush` calls, all of which succeed, empty the queue: all
that was in it is in live files, and writes do not stall. -/
def Retryable (db : DuckDb) (n : Node) : Prop :=
  ∃ n', Reaches (step db) IsRetry n n' ∧ n'.flushes = ∅ ∧ n'.engine.memtables.frozen = [] ∧
    (∀ m ∈ n.engine.memtables.frozen, ∀ item ∈ m.val.iter,
      ∃ f ∈ n'.store.lake, rowOf item ∈ f.rows) ∧
    n'.engine.memtables.stalled = false

/-- Any action. -/
def AnyAct (_ : Node) (_ : Act) : Prop := True

instance (n : Node) (a : Act) : Decidable (AnyAct n a) := inferInstanceAs (Decidable True)

theorem Stuck.not_retryable {m : Arc Memtable} (h : n.Stuck m) (hq : n.Queue) :
    ¬ n.Retryable db := by
  rintro ⟨n', hrun, -, hnil, -⟩
  obtain ⟨-, hstuck⟩ := hrun.invariant (fun x => x.Queue ∧ x.Stuck m) ⟨hq, h⟩
    fun _ _ _ h _ hs => ⟨h.1.step hs, h.2.step h.1 hs⟩
  have := hstuck.mem
  rw [hnil] at this
  contradiction

theorem retryable_of_empty (hflushes : n.flushes = ∅) (h : n.engine.memtables.frozen = []) :
    n.Retryable db := by
  refine ⟨n, .refl n, hflushes, h, fun m hm => ?_, ?_⟩
  · rw [h] at hm
    contradiction
  · have := n.engine.memtables.maxFrozen_pos
    rw [MemtableSet.stalled, h, List.length_nil, decide_eq_false_iff_not]
    omega

/-- What the actions taken since the open say about the queue. -/
structure Queued (as : List Act) (n : Node) : Prop where
  queue : n.Queue
  attended : (∀ a ∈ as, NoFailure a) → n.Attended
  stuck : ∀ a ∈ as, ¬ NoFailure a → ∃ m, n.Stuck m

theorem Queued.step {as : List Act} (h : n.Queued as) (hs : n.step db a = some n') :
    n'.Queued (as ++ [a]) where
  queue := h.queue.step hs
  attended hall := by
    refine (h.attended fun b hb => hall b (List.mem_append_left _ hb)).step (hall a ?_) hs
    exact List.mem_append_right _ (List.mem_singleton.mpr rfl)
  stuck b hb hfail := by
    rw [List.mem_append, List.mem_singleton] at hb
    rcases hb with hb | rfl
    · obtain ⟨m, hm⟩ := h.stuck b hb hfail
      exact ⟨m, hm.step h.queue hs⟩
    · exact stuck_of_failure h.queue hfail hs

/-- A process starts with nothing in the queue. -/
theorem frozen_of_start {cfg : Config} {store : Store} {history : History}
    (h : start cfg store history = some n) :
    n.flushes = ∅ ∧ n.engine.memtables.frozen = [] := by
  cases hload : FileIndex.load store.lake with
  | error e => simp [start, Engine.open, hload] at h
  | ok index =>
      cases hopen : Wal.open store.dir cfg.walSegmentBytes (publishedWatermark store.lake) with
      | error e => simp [start, Engine.open, Engine.recover, hload, hopen] at h
      | ok opened =>
          simp only [start, Engine.open, Engine.recover, hload, hopen, MemtableSet.foldl_insert,
            Option.some.injEq] at h
          rw [← h]
          exact ⟨rfl, rfl⟩

section
variable {cfg : Config} {store : Store} {history : History} {n₀ : Node} {as : List Act}
  (h₀ : start cfg store history = some n₀) (hrun : attempt (step db) AnyAct n₀ as = some n)
include h₀ hrun

theorem queued_of_attempt : n.Queued as := by
  obtain ⟨hflushes, hfrozen⟩ := frozen_of_start h₀
  refine invariant_of_attempt hrun (fun as n => n.Queued as) ⟨⟨?_, ?_⟩, ?_, ?_⟩
    fun _ _ _ _ h _ hs => h.step hs
  · intro p call hc
    simp [hflushes] at hc
  · simp [hfrozen]
  · intro _ m hm
    simp [hfrozen] at hm
  · exact fun a ha => absurd ha List.not_mem_nil

theorem not_retryable_of_failure {a : Act} (ha : a ∈ as) (hfail : ¬ NoFailure a) :
    ¬ n.Retryable db := by
  have hq := queued_of_attempt h₀ hrun
  obtain ⟨m, hm⟩ := hq.stuck a ha hfail
  exact hm.not_retryable hq.queue

/-- **A queue can be emptied exactly when no flush has failed.**  After any
actions of any writers and flushes, with no flush under way, some number of
successful `flush` calls empties the queue if and only if no flush since the
open has returned an error behind its freeze. -/
theorem retryable_iff_no_failure (hquiet : n.flushes = ∅) :
    n.Retryable db ↔ ∀ a ∈ as, NoFailure a := by
  refine ⟨fun hret a ha => ?_, fun hall => ?_⟩
  · by_contra hfail
    exact not_retryable_of_failure h₀ hrun ha hfail hret
  · refine retryable_of_empty hquiet (List.eq_nil_iff_forall_not_mem.mpr fun m hm => ?_)
    have := (queued_of_attempt h₀ hrun).attended hall m hm
    rw [hquiet] at this
    exact ExtTreeMap.not_mem_empty this
end

/-- A run of listed actions from a fresh store to a node of a given kind. -/
theorem exists_attempt (as : List Act) (P : Node → Prop) [DecidablePred P]
    (h : (start smallConfig emptyStore noHistory).any (fun n₀ =>
      (attempt (step DuckDb.plain) AnyAct n₀ as).any fun n => n.flushes.isEmpty ∧ P n) = true) :
    ∃ n₀ n, start smallConfig emptyStore noHistory = some n₀ ∧
      attempt (step DuckDb.plain) AnyAct n₀ as = some n ∧ n.flushes = ∅ ∧ P n := by
  obtain ⟨n₀, h₀, h⟩ := (Option.any_eq_true _ _).mp h
  obtain ⟨n, hn, h⟩ := (Option.any_eq_true _ _).mp h
  obtain ⟨hempty, hP⟩ := of_decide_eq_true h
  exact ⟨n₀, n, h₀, hn, ExtTreeMap.isEmpty_iff.mp hempty, hP⟩

/-- A write and a flush that goes through, and another write. -/
def oneFlush : List Act :=
  putSteps [1] [7] 1 ++ [.freeze] ++ publishSteps 0 ++
    [.query 0, .install 0, .truncate 0, .retire 0] ++ putSteps [2] [8] 2

theorem retryable_oneFlush :
    ∃ n₀ n, start smallConfig emptyStore noHistory = some n₀ ∧
      attempt (step DuckDb.plain) AnyAct n₀ oneFlush = some n ∧ n.flushes = ∅ ∧
      n.store.lake.length = 1 ∧ n.Retryable DuckDb.plain := by
  obtain ⟨n₀, n, h₀, hrun, hquiet, hlake⟩ :=
    exists_attempt oneFlush (fun n => n.store.lake.length = 1) (by decide +kernel)
  exact ⟨n₀, n, h₀, hrun, hquiet, hlake,
    (retryable_iff_no_failure h₀ hrun hquiet).mpr (by decide)⟩

/-- Two flushes that fail, the first with its publish not sent, the second with
its file already live. -/
def twoFailures : List Act :=
  putSteps [1] [7] 1 ++ [.freeze, .readWatermark 0, .plan 0, .stage 0, .fail 0] ++
    putSteps [2] [8] 2 ++ [.freeze] ++ publishSteps 1 ++ [.fail 1]

/-- Writes stall, and no flush can help. -/
theorem failed_flushes_stall_for_good :
    ∃ n₀ n, start smallConfig emptyStore noHistory = some n₀ ∧
      attempt (step DuckDb.plain) AnyAct n₀ twoFailures = some n ∧ n.flushes = ∅ ∧
      n.engine.memtables.stalled = true ∧ ¬ n.Retryable DuckDb.plain := by
  obtain ⟨n₀, n, h₀, hrun, hquiet, hstalled⟩ :=
    exists_attempt twoFailures (fun n => n.engine.memtables.stalled = true) (by decide +kernel)
  exact ⟨n₀, n, h₀, hrun, hquiet, hstalled,
    not_retryable_of_failure h₀ hrun (by decide : Act.fail 0 ∈ twoFailures) (by decide)⟩

end Node

end HolyGrail
