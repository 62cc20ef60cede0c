import HolyGrail.System

/-!
# HolyGrail.System.Invariants

The invariants of a process survive its death.

Each lemma is about one event: a step of the process keeps the invariant by
what was proved about processes, a crash turns it into the one of the store at
rest, and the last step of `open` turns that back.
-/

namespace HolyGrail

open Std (ExtTreeMap)

/-- A segment cut back to its whole frames changes nothing that counts. -/
theorem StoreOk.cut {db : DuckDb} {store : Store} {history : History} {log : Log}
    (h : StoreOk db store history log) {w i : Nat} {dir : Dir} {rest : List Segment × Replay}
    (hr : Wal.recoverSegments w ((Wal.listSegments store.dir).take i) store.dir = .ok (dir, rest)) :
    StoreOk db { store with dir } history log := by
  obtain ⟨dir', hrec, hmir, -⟩ := recoverSegments_take h.mirrors w i
  rw [hr, Except.ok.injEq, Prod.mk.injEq] at hrec
  exact { h with mirrors := hrec.1 ▸ hmir }

theorem SoleStore.cut {store : Store} (h : SoleStore store) {i : Nat} {dir : Dir}
    {rest : List Segment × Replay}
    (hr : Wal.recoverSegments (publishedWatermark store.lake)
      ((Wal.listSegments store.dir).take i) store.dir = .ok (dir, rest)) :
    SoleStore { store with dir } := by
  obtain ⟨kept, floor, hfloor, hinv⟩ := h
  refine ⟨kept, publishedWatermark store.lake, Nat.le_refl _, ?_⟩
  refine LogSys.inv_step _ (.crashInOpen (publishedWatermark store.lake) i) _ hinv hfloor ?_
  simp only [LogSys.step, hr]

namespace System

variable {db : DuckDb} {s s' : System} {e : Event}

theorem secure_of_up {p : Process} (h : s.Secure db) (hp : s.phase = .up p) :
    (s.node p).Secure db := by
  have h := h.2
  rw [hp] at h
  exact h

theorem serving_of_up {p : Process} (h : s.Serving) (hp : s.phase = .up p) :
    (s.node p).Serving := by
  rw [Serving, hp] at h
  exact h

theorem soleWriter_of_up {p : Process} (h : s.SoleWriter) (hp : s.phase = .up p) :
    (s.node p).Sole ∧ (s.node p).Arrivals ∧ (s.node p).SoleLog := by
  rw [SoleWriter, hp] at h
  exact h

theorem store_of_indexLoaded {w : Nat} {index : FileIndex} (h : s.Secure db)
    (hp : s.phase = .indexLoaded w index) :
    w = publishedWatermark s.store.lake ∧ FileIndex.load s.store.lake = .ok index ∧
      ∃ log, StoreOk db s.store s.history log := by
  obtain ⟨hopen, h⟩ := h
  rw [Opening, hp] at hopen
  rw [hp] at h
  exact ⟨hopen.1, hopen.2, h⟩

/-- The process the last step of `open` brings up. -/
theorem recovered_process {cfg : Config} {w : Nat} {index : FileIndex} {n : Node}
    (h : s.Secure db) (hp : s.phase = .indexLoaded w index)
    (hr : Node.recovered cfg s.store s.history w index = some n) :
    FileIndex.load s.store.lake = .ok index ∧ ∃ log dir wal,
      StoreOk db s.store s.history log ∧ Tracks dir wal log.opened ∧
      Wal.open s.store.dir cfg.walSegmentBytes (publishedWatermark s.store.lake) =
        .ok (dir, wal, { records := StoreOk.replayed s.store log, maxLsn := maxLsnOf log.flat }) ∧
      n = StoreOk.process cfg s.store s.history log dir wal index := by
  obtain ⟨rfl, hload, log, hst⟩ := store_of_indexLoaded h hp
  obtain ⟨dir, wal, hopen, htr, -, hrec⟩ := hst.recovered_eq cfg index
  rw [hr, Option.some.injEq] at hrec
  exact ⟨hload, log, dir, wal, hst, htr, hopen, hrec⟩

/-! ## nothing is lost -/

theorem not_holds_empty (r : Record) : ¬ Log.Holds ∅ r := by
  rintro ⟨n, rs, hn, -⟩
  simp at hn

/-- Nothing is a good store. -/
theorem storeOk_empty (db : DuckDb) : StoreOk db Node.emptyStore Node.noHistory ∅ where
  mirrors := .empty
  files i f hf := by simp [Node.emptyStore] at hf
  layered c hc := by simp [Node.emptyStore] at hc
  sound f hf := absurd hf List.not_mem_nil
  absorbed r hr := absurd hr List.not_mem_nil
  held r hr := absurd hr List.not_mem_nil
  known r hr := absurd hr (not_holds_empty r)
  lsn_ok r hr := hr.elim (fun hr => absurd hr List.not_mem_nil) fun hr =>
    absurd hr (not_holds_empty r)
  unique r s hr := hr.elim (fun hr => absurd hr List.not_mem_nil) fun hr =>
    absurd hr (not_holds_empty r)
  acked_sub r hr := hr

theorem secure_init (db : DuckDb) : init.Secure db := ⟨trivial, ∅, storeOk_empty db⟩

theorem secure_step (h : s.Secure db) (hg : Within Node.Safe Node.CrashFresh s e)
    (hs : s.step db e = some s') : s'.Secure db := by
  cases move_of_step hs with
  | node hp hn => exact ⟨trivial, (secure_of_up h hp).step (hg _ (node?_up hp)) hn⟩
  | crash hp hc =>
      obtain ⟨log, hst, -⟩ := (secure_of_up h hp).crash (hg _ (node?_up hp)) hc
      exact ⟨trivial, log, hst⟩
  | readWatermark hp =>
      have hst := h.2
      rw [hp] at hst
      exact ⟨rfl, hst⟩
  | loadIndex hp hload =>
      obtain ⟨hopen, hst⟩ := h
      rw [Opening, hp] at hopen
      rw [hp] at hst
      exact ⟨⟨hopen, hload⟩, hst⟩
  | replay hp hr =>
      obtain ⟨-, log, dir, wal, hst, htr, -, rfl⟩ := recovered_process h hp hr
      exact ⟨trivial, hst.secure_process _ htr⟩
  | crashEarly hp =>
      have hst := h.2
      rw [hp] at hst
      exact ⟨trivial, hst⟩
  | crashOpening hp hr =>
      obtain ⟨rfl, -, log, hst⟩ := store_of_indexLoaded h hp
      exact ⟨trivial, log, hst.cut hr⟩
  | land hc => exact hg.elim

/-! ## reads are right -/

theorem historyOk_of_serving (h : s.Serving) : HistoryOk s.history := by
  rw [Serving] at h
  split at h
  · exact h.visible.history_ok
  · exact h

theorem serving_init : init.Serving :=
  ⟨fun _ hr => hr, fun _ ha => absurd ha List.not_mem_nil⟩

theorem serving_step (h : s.Serving) (hsec : s.Secure db)
    (hg : Within Node.Orderly AnyCrash s e) (hs : s.step db e = some s') : s'.Serving := by
  have hist := historyOk_of_serving h
  cases move_of_step hs with
  | node hp hn =>
      exact (serving_of_up h hp).step (secure_of_up hsec hp).shape (hg _ (node?_up hp)) hn
  | replay hp hr =>
      obtain ⟨hload, log, dir, wal, hst, -, -, rfl⟩ := recovered_process hsec hp hr
      exact hst.serving_process _ hist hload
  | land hc => exact hg.elim
  | crash | readWatermark | loadIndex | crashEarly | crashOpening => exact hist

/-! ## one writer -/

theorem soleStore_of_indexLoaded {w : Nat} {index : FileIndex} (h : s.SoleWriter)
    (hp : s.phase = .indexLoaded w index) : SoleStore s.store := by
  rw [SoleWriter, hp] at h
  exact h

theorem soleWriter_init : init.SoleWriter := ⟨[], 0, Nat.zero_le _, LogSys.inv_init⟩

theorem soleWriter_step (h : s.SoleWriter) (hsec : s.Secure db)
    (hg : Within Node.OneWriter AnyCrash s e) (hs : s.step db e = some s') : s'.SoleWriter := by
  cases move_of_step hs with
  | node hp hn =>
      have hsec := secure_of_up hsec hp
      obtain ⟨hsole, harr, hlog⟩ := soleWriter_of_up h hp
      have hone := hg _ (node?_up hp)
      exact ⟨hsole.step hsec.shape hone hn, harr.step hsec.shape (hsole.inLsnOrder hn) hn,
        hlog.step hsole hsec hone hn⟩
  | crash hp hc =>
      obtain ⟨hsole, -, hlog⟩ := soleWriter_of_up h hp
      exact hlog.crash hsole (secure_of_up hsec hp) hc
  | readWatermark hp =>
      rw [SoleWriter, hp] at h
      exact h
  | loadIndex hp hload =>
      rw [SoleWriter, hp] at h
      exact h
  | replay hp hr =>
      obtain ⟨-, log, dir, wal, -, -, hopen, rfl⟩ := recovered_process hsec hp hr
      exact ⟨(StoreOk.quiet_process _).sole, (StoreOk.quiet_process _).arrivals,
        StoreOk.soleLog_process (soleStore_of_indexLoaded h hp) _ hopen⟩
  | crashEarly hp =>
      rw [SoleWriter, hp] at h
      exact h
  | crashOpening hp hr =>
      obtain ⟨rfl, -⟩ := store_of_indexLoaded hsec hp
      exact (soleStore_of_indexLoaded h hp).cut hr
  | land hc => exact hg.elim

/-- One writer gives what the log and the freezes need. -/
theorem SoleWriter.clean {n : Node} (h : s.SoleWriter) (hn : s.node? = some n) (a : Act) :
    n.FreezeClean a := by
  obtain ⟨p, hp, rfl⟩ := node?_eq_some hn
  exact (soleWriter_of_up h hp).2.1.freezeClean a

theorem SoleWriter.rotateFresh {n n' : Node} {a : Act} (h : s.SoleWriter) (hsec : s.Secure db)
    (hn : s.node? = some n) (hs : n.step db a = some n') : n.RotateFresh a := by
  obtain ⟨p, hp, rfl⟩ := node?_eq_some hn
  obtain ⟨hsole, -, hlog⟩ := soleWriter_of_up h hp
  exact hlog.rotateFresh hsole (secure_of_up hsec hp).shape hs

theorem SoleWriter.crashFresh {n : Node} {c : Crash} {store : Store} (h : s.SoleWriter)
    (hsec : s.Secure db) (hn : s.node? = some n) (hc : n.crashed c = some store) :
    n.CrashFresh c := by
  obtain ⟨p, hp, rfl⟩ := node?_eq_some hn
  obtain ⟨hsole, -, hlog⟩ := soleWriter_of_up h hp
  cases c with
  | inAppend l len =>
      rw [Node.crashed] at hc
      split at hc
      · next hw => exact hlog.nameFree hsole (secure_of_up hsec hp).shape hw
      · contradiction
  | between | inTruncate | inPublish => trivial

/-! ## one flush at a time -/

theorem soleFlush_init : init.SoleFlush := nofun

theorem soleFlush_step (h : s.SoleFlush) (hsec : s.Secure db)
    (hg : Within (fun n a => n.OneFlush a ∧ Node.NoFailure a) AnyCrash s e)
    (hs : s.step db e = some s') : s'.SoleFlush := by
  have hup : ∀ {s' : System} {p : Process} {n : Node}, s'.phase = .up p → n ∈ s'.node? →
      n = s'.node p := by
    intro s' p n hp hn
    rw [Option.mem_def, node?_up hp] at hn
    exact (Option.some.inj hn).symm
  cases move_of_step hs with
  | node hp hn =>
      intro n hn'
      rw [hup rfl hn']
      obtain ⟨hone, hok⟩ := hg _ (node?_up hp)
      exact (h _ (node?_up hp)).step (secure_of_up hsec hp).shape hone hok hn
  | replay hp hr =>
      obtain ⟨-, log, dir, wal, -, -, -, rfl⟩ := recovered_process hsec hp hr
      intro n hn
      rw [hup rfl hn]
      exact (StoreOk.quiet_process _).alone rfl
  | land hc => exact hg.elim
  | crash | readWatermark | loadIndex | crashEarly | crashOpening => exact nofun

/-! ## the order of the steps -/

/-- No flush queries twice, whatever happens. -/
theorem asked_of_reaches {guard : System → Event → Prop} {n : Node}
    (h : Reaches (step db) guard init s) (hn : s.node? = some n) : n.Asked := by
  refine h.invariant (fun s => ∀ m ∈ s.node?, m.Asked) nofun (fun s e s' h _ hs => ?_) n hn
  cases move_of_step hs with
  | node hp hstep =>
      intro m hm
      obtain rfl := Option.some.inj hm
      exact (h _ (node?_up hp)).step hstep
  | replay hp hr =>
      intro m hm
      obtain rfl := Option.some.inj hm
      obtain ⟨dir, engine, history, rfl, -⟩ := Node.recovered_eq_boot hr
      exact .boot
  | land hc =>
      intro m hm
      obtain ⟨p, hp, rfl⟩ := node?_eq_some hm
      exact { h _ (node?_up (s := s) hp) with }
  | crash | readWatermark | loadIndex | crashEarly | crashOpening => exact nofun

/-! ## runs of a process -/

/-- The action of the process is the only one asked about. -/
theorem forall_node {g : Node → Act → Prop} (s : System) (n : Node) (a : Act)
    (hn : s.node? = some n) (hg : g n a) : ∀ m ∈ s.node?, g m a := by
  intro m hm
  rw [Option.mem_def, hn, Option.some.injEq] at hm
  exact hm ▸ hg

/-- A run of the process is a run of the system. -/
theorem reaches_of_node {g : Node → Act → Prop} {guard : System → Event → Prop} {n n' : Node}
    (hguard : ∀ s n a, s.node? = some n → g n a → guard s (.node a))
    (h : Reaches (Node.step db) g n n') (hn : s.node? = some n) :
    ∃ s', Reaches (step db) guard s s' ∧ s'.node? = some n' := by
  induction h with
  | refl => exact ⟨s, .refl s, hn⟩
  | tail _ hm ih =>
      obtain ⟨a, hg, hs⟩ := hm
      obtain ⟨s₁, hreach, hn₁⟩ := ih
      refine ⟨s₁.withNode _, hreach.tail (.node a) (hguard s₁ _ a hn₁ hg) ?_, rfl⟩
      simp only [step, hn₁, Option.bind_some, hs, Option.map_some]

end System

end HolyGrail
