import HolyGrail.System.Writers

/-!
# HolyGrail.System.Orphans

A publish in doubt: the engine dies while DuckDB has its script, and the child
commits later or never.

As long as the commit lands before the next `Engine::open` reads the watermark,
it is as if the flush had got that far before the crash
(`orphan_before_open_harmless`).  A commit that lands later adds rows the new
engine has replayed already: its next flush takes them for its own and drops
the memtable while its index does not list the file, or writes them a second
time (`late_orphan_harmful`).
-/

namespace HolyGrail

open Std (ExtTreeMap)

namespace System

variable {db : DuckDb} {s s' : System} {e : Event}

/-- Sequential runs with crashes of any kind, in which children land as `land`
allows. -/
def Landing (land : System → Nat → Prop) (s : System) : Event → Prop
  | .land i => land s i
  | .node a => ∀ n ∈ s.node?, n.Sequential a
  | .crash _ | .readWatermark | .loadIndex | .replay _ | .crashOpening _ => True

instance (land : System → Nat → Prop) [∀ s i, Decidable (land s i)] (s : System) (e : Event) :
    Decidable (Landing land s e) :=
  match e with
  | .land i => inferInstanceAs (Decidable (land s i))
  | .node a => inferInstanceAs (Decidable (∀ n ∈ s.node?, n.Sequential a))
  | .crash _ | .readWatermark | .loadIndex | .replay _ | .crashOpening _ => .isTrue trivial

/-- A child lands only before an engine reads the watermark. -/
def Fresh (s : System) (i : Nat) : Prop := ∀ child ∈ s.children[i]?, child.fresh = true

instance (s : System) (i : Nat) : Decidable (s.Fresh i) :=
  inferInstanceAs (Decidable (∀ child ∈ s.children[i]?, _))

theorem within_of_landing {land : System → Nat → Prop} (hg : Landing land s e)
    (hland : ∀ i, e ≠ .land i) : Within Node.Sequential AnyCrash s e := by
  cases e with
  | land i => exact absurd rfl (hland i)
  | node a => exact hg
  | crash c => exact fun _ _ => trivial
  | readWatermark | loadIndex | replay | crashOpening => trivial

/-! ## the invariant -/

/-- The system after a child has committed. -/
def landed (db : DuckDb) (s : System) (child : Child) : System :=
  { s with store := { s.store with lake := publish db s.store.lake child.batches } }

/-- The last child is from the last crash, and could land now; all others are
too late. -/
structure Waiting (db : DuckDb) (s : System) : Prop where
  calm : s.Calm db
  ascending : Ascending s.store.lake
  children : ∃ old last, s.children = old ++ Option.toList last ∧
    (∀ child ∈ old, child.fresh = false) ∧
    ∀ child ∈ last, child.fresh = true → s.phase = .down ∧ (s.landed db child).Calm db ∧
      Ascending (s.landed db child).store.lake

/-- The invariant of a sequential run does not look at the children. -/
theorem Calm.with_children (h : s.Calm db) (children : List Child) :
    Calm db { s with children } := by
  obtain ⟨store, history, phase, _⟩ := s
  exact ⟨⟨h.secure, h.serving, h.flush⟩, h.writer⟩

theorem waiting_init (db : DuckDb) : init.Waiting db where
  calm := calm_init db
  ascending := .nil
  children := ⟨[], none, rfl, fun _ h => absurd h List.not_mem_nil, nofun⟩

/-- Children that are all too late. -/
theorem stale {children : List Child} (h : ∀ child ∈ children, child.fresh = false)
    (P : Child → Prop) : ∃ old last, children = old ++ Option.toList last ∧
      (∀ child ∈ old, child.fresh = false) ∧ ∀ child ∈ last, child.fresh = true → P child :=
  ⟨children, none, (List.append_nil _).symm, h, nofun⟩

theorem Waiting.stale_of_up (h : s.Waiting db) (hp : s.phase ≠ .down) :
    ∀ child ∈ s.children, child.fresh = false := by
  obtain ⟨old, last, hch, hold, hlast⟩ := h.children
  intro child hc
  rw [hch, List.mem_append, Option.mem_toList] at hc
  rcases hc with hc | hc
  · exact hold child hc
  · cases hf : child.fresh with
    | false => rfl
    | true => exact absurd (hlast child hc hf).1 hp

/-- **An orphan landing at once** is a publish before the crash. -/
theorem Waiting.orphan (h : s.Waiting db) {p : Process} (hp : s.phase = .up p) {q w : Nat}
    {mt : Arc Memtable} {bs : List RecordBatch}
    (hc : (s.node p).flushes[q]? = some ⟨mt, .staged w bs⟩) (children : List Child) :
    Calm db
      { s with
        phase := .down
        store := { s.store with lake := publish db s.store.lake bs }
        children } ∧
    Ascending (publish db s.store.lake bs) := by
  have hsec := secure_of_up h.calm.secure hp
  have halone := h.calm.flush _ (node?_up hp)
  refine ⟨?_, halone.ascending_publish hsec.shape hc h.ascending⟩
  obtain ⟨n, hn, hstore, hhist⟩ : ∃ n, (s.node p).step db (.publish q) = some n ∧
      n.store = { s.store with lake := publish db s.store.lake bs } ∧ n.history = s.history :=
    ⟨_, Node.step_of_move (.publish hc), rfl, rfl⟩
  have hpub : s.step db (.node (.publish q)) = some (s.withNode n) := by
    rw [step, node?_up hp, Option.bind_some, hn, Option.map_some]
  have hseq : Within Node.Sequential AnyCrash s (.node (.publish q)) :=
    fun _ _ => ⟨trivial, trivial, trivial, trivial⟩
  have hcrash := (h.calm.step hseq hpub).step (e := .crash .between) (fun _ _ => trivial) rfl
  have := hcrash.with_children children
  simp only [withNode, hstore, hhist, node] at this
  exact this

/-- **The commit of a fresh child lands**: it is the last child, so none that is
left is fresh. -/
theorem Waiting.land (h : s.Waiting db) {i : Nat} {child : Child}
    (hc : s.children[i]? = some child) (hfresh : child.fresh = true) :
    Waiting db
      { s with
        store := { s.store with lake := publish db s.store.lake child.batches }
        children := s.children.eraseIdx i } := by
  obtain ⟨old, last, hch, hold, hlast⟩ := h.children
  have hi : ¬ i < old.length := by
    intro hlt
    rw [hch, List.getElem?_append_left hlt] at hc
    have := hold child (List.mem_of_getElem? hc)
    rw [this] at hfresh
    contradiction
  rw [hch, List.getElem?_append_right (Nat.le_of_not_lt hi)] at hc
  have hmem : child ∈ last := Option.mem_toList.mp (List.mem_of_getElem? hc)
  obtain ⟨-, hcalm, hasc⟩ := hlast child hmem hfresh
  refine ⟨hcalm.with_children _, hasc, stale ?_ _⟩
  rw [Option.mem_def.mp hmem] at hch hc
  have hzero : i - old.length = 0 := by
    rw [Option.toList_some, List.getElem?_singleton] at hc
    split at hc
    · assumption
    · contradiction
  simp only [hch, List.eraseIdx_append_of_length_le (Nat.le_of_not_lt hi), hzero,
    Option.toList_some, List.eraseIdx_cons_zero, List.append_nil]
  exact hold

/-- What a crash leaves behind: older children, and the one it may orphan. -/
theorem Waiting.children_of_crash (h : s.Waiting db) {p : Process} (hp : s.phase = .up p)
    {c : Crash} {store : Store} (hc : (s.node p).crashed c = some store)
    (hs' : s' = { s with
      store, phase := .down, children := s.children ++ (s.node p).orphans c }) :
    ∃ old last, s'.children = old ++ Option.toList last ∧
      (∀ child ∈ old, child.fresh = false) ∧
      ∀ child ∈ last, child.fresh = true → s'.phase = .down ∧ (s'.landed db child).Calm db ∧
        Ascending (s'.landed db child).store.lake := by
  subst hs'
  have hold := h.stale_of_up (by simp [hp])
  cases c with
  | inPublish q =>
      rw [Node.crashed] at hc
      split at hc
      · next mt w bs hf =>
          refine ⟨s.children, some ⟨bs, true⟩, ?_, hold, ?_⟩
          · simp only [Node.orphans, hf]
            rfl
          · rintro child hchild -
            rw [Option.mem_def, Option.some.injEq] at hchild
            subst hchild
            rw [← Option.some.inj hc]
            have horphan := h.orphan hp hf (s.children ++ (s.node p).orphans (.inPublish q))
            exact ⟨rfl, horphan.1, horphan.2⟩
      · contradiction
  | between | inAppend | inTruncate =>
      refine stale ?_ _
      simp only [Node.orphans, List.append_nil]
      exact hold

theorem Waiting.step (h : s.Waiting db) (hg : Landing Fresh s e) (hs : s.step db e = some s') :
    s'.Waiting db := by
  by_cases hland : ∃ i, e = .land i
  · obtain ⟨i, rfl⟩ := hland
    cases move_of_step hs with
    | @land _ child hc => exact h.land hc (hg child hc)
  · have hland : ∀ i, e ≠ .land i := fun i he => hland ⟨i, he⟩
    have hcalm := h.calm.step (within_of_landing hg hland) hs
    refine ⟨hcalm, h.calm.ascending_step h.ascending hland hs, ?_⟩
    cases move_of_step hs with
    | node hp | loadIndex hp | replay hp | crashEarly hp | crashOpening hp =>
        exact stale (h.stale_of_up (by simp [hp])) _
    | crash hp hc => exact h.children_of_crash hp hc rfl
    | readWatermark hp =>
        refine stale (fun child hc => ?_) _
        obtain ⟨child', -, rfl⟩ := List.mem_map.mp hc
        rfl
    | land hc => exact absurd rfl (hland _)

theorem waiting_of_reaches (h : Reaches (System.step db) (Landing Fresh) init s) :
    s.Waiting db :=
  h.invariant (Waiting db) (waiting_init db) fun _ _ _ h hg hs => h.step hg hs

/-- **A publish in doubt is harmless** if it lands before the next engine reads
the watermark, or never.  In every state of such a run the engine that is up
answers every acknowledged write with itself or a later one, an engine that is
down can be opened, and no version is in two live files. -/
theorem orphan_before_open_harmless (h : Reaches (System.step db) (Landing Fresh) init s) :
    (∀ n, s.node? = some n → ∀ r ∈ s.history.acked, n.Readable s.store n.engine r) ∧
    (s.phase = .down → ∀ cfg, ∃ store engine, Engine.open cfg s.store = .ok (store, engine)) ∧
    ∀ (i j : Nat) (f g : DataFile) (row row' : Row), s.store.lake[i]? = some f →
      s.store.lake[j]? = some g → row ∈ f.rows → row' ∈ g.rows → row.pk = row'.pk →
      row.lsn = row'.lsn → i = j := by
  have hw := waiting_of_reaches h
  have hsec := hw.calm.secure
  refine ⟨fun n hn r hr => ?_, fun hp cfg => ?_, fun i j f g row row' hf hg => ?_⟩
  · obtain ⟨p, hp, rfl⟩ := node?_eq_some hn
    exact Node.readable_now (secure_of_up hsec hp) (serving_of_up hw.calm.serving hp)
      (hsec.acked_sub hr)
  · obtain ⟨-, hst⟩ := hsec
    rw [hp] at hst
    obtain ⟨log, hst⟩ := hst
    obtain ⟨store, engine, hopen, -⟩ := hst.open_get cfg
    exact ⟨store, engine, hopen⟩
  · exact hw.ascending.row_unique hsec.files hf hg

/-- A crash inside a publish that lands before the next open, and a flush after
it. -/
def landsBeforeOpen : List Event :=
  openSteps ++ nodeSteps (Node.putSteps [1] [7] 1 ++ [.freeze, .readWatermark 0, .plan 0,
    .stage 0]) ++ [.crash (.inPublish 0), .land 0] ++ openSteps ++
  nodeSteps (Node.putSteps [2] [8] 2 ++ [.freeze] ++ Node.publishSteps 0 ++
    [.query 0, .install 0, .truncate 0, .retire 0])

theorem orphan_before_open_harmless_run :
    ∃ s n, Reaches (System.step DuckDb.plain) (Landing Fresh) init s ∧ s.node? = some n ∧
      s.history.acked.length = 2 ∧ s.store.lake.length = 2 ∧
      ∀ r ∈ s.history.acked, n.Readable s.store n.engine r := by
  obtain ⟨s, hrun, hup, hacked, hlake⟩ := exists_run_of_attempt DuckDb.plain (Landing Fresh)
    (fun s => s.node?.isSome ∧ s.history.acked.length = 2 ∧ s.store.lake.length = 2)
    landsBeforeOpen (by decide +kernel)
  obtain ⟨n, hn⟩ := Option.isSome_iff_exists.mp hup
  exact ⟨s, n, hrun, hn, hacked, hlake, (orphan_before_open_harmless hrun).1 n hn⟩

/-- The child lands after the next engine has replayed its records. -/
def landsAfterOpen : List Event :=
  openSteps ++ nodeSteps (Node.putSteps [1] [7] 1 ++ [.freeze, .readWatermark 0, .plan 0,
    .stage 0]) ++ [.crash (.inPublish 0)] ++ openSteps ++ [.land 0]

/-- The next flush finds the memtable covered, truncates and retires. -/
def flushCovered : List Event :=
  nodeSteps [.freeze, .readWatermark 0, .plan 0, .truncate 0, .retire 0]

/-- The next flush has one more record, and publishes both. -/
def flushAgain : List Event :=
  nodeSteps (Node.putSteps [2] [8] 2 ++ [.freeze] ++ Node.publishSteps 0)

/-- A late commit hides an acknowledged write from the engine that is up, or
leaves a version in two live files. -/
theorem late_orphan_harmful :
    (∃ s, Reaches (System.step DuckDb.plain) (Landing fun _ _ => True) init s ∧
      Record.put [1] 1 [7] ∈ s.history.acked ∧
      ∃ n ∈ s.node?, Engine.get n.store n.engine [1] = .ok none) ∧
    ∃ s, Reaches (System.step DuckDb.plain) (Landing fun _ _ => True) init s ∧
      s.store.lake.map (fun f => f.rows.map fun row => (row.pk, row.lsn)) =
        [[([1], 1)], [([1], 1), ([2], 2)]] :=
  ⟨exists_run_of_attempt DuckDb.plain _
    (fun s => Record.put [1] 1 [7] ∈ s.history.acked ∧
      ∃ n ∈ s.node?, Engine.get n.store n.engine [1] = .ok none)
    (landsAfterOpen ++ flushCovered) (by decide +kernel),
  exists_run_of_attempt DuckDb.plain _
    (fun s => s.store.lake.map (fun f => f.rows.map fun row => (row.pk, row.lsn)) =
        [[([1], 1)], [([1], 1), ([2], 2)]])
    (landsAfterOpen ++ flushAgain) (by decide +kernel)⟩

end System

end HolyGrail
