import HolyGrail.Wal.Refinement
import HolyGrail.Wal.Reopen

/-!
# HolyGrail.Wal.Sessions

The log over many sessions when many writers share it: LSNs are handed out in
order, but reach `append` in any order, or are lost in a crashed append.

Segments are named by the first LSN of the batch that caused the rotation, and
LSNs are handed out again after a crash, so a rotation can come upon a file of
its own name.  `Apart` is what a session relies on: its sealed segments and its
active one are different files of the directory.  It holds as long as no
rotation takes a name that is in use (`truncation_spares_active`).
-/

namespace HolyGrail

open Std (ExtTreeMap)

/-! ## the files of an open log -/

namespace Wal

/-- The paths of all segments of an open log. -/
def paths (wal : Wal) : List FileName := (wal.sealed ++ [wal.active]).map Segment.path

/-- The segments are different files, and all are there. -/
structure Apart (dir : Dir) (wal : Wal) : Prop where
  nodup : wal.paths.Nodup
  mem : ∀ p ∈ wal.paths, p ∈ dir

theorem mem_append_iff {dir : Dir} {path : FileName} {bs : Bytes} {p : FileName} :
    p ∈ dir.append path bs ↔ p ∈ dir := by
  rw [Dir.append, ExtTreeMap.mem_modify]

theorem mem_create {dir : Dir} {path p : FileName} : p ∈ dir.create path ↔ path = p ∨ p ∈ dir := by
  rw [Dir.create]
  split
  · next h => exact ⟨.inr, fun hp => hp.elim (fun he => he ▸ h) id⟩
  · exact OrdMap.mem_insert _

namespace Apart

variable {dir dir' : Dir} {wal : Wal}

theorem «open» {segmentMaxBytes fromLsn : Nat} {replay : Replay}
    (h : Wal.open dir segmentMaxBytes fromLsn = .ok (dir', wal, replay)) : Apart dir' wal := by
  obtain ⟨done, segs, hrec, rfl, hsegs⟩ := open_inv h
  have hnd := nodup_listSegments dir
  obtain ⟨hin, -, hpaths⟩ := recoverSegments_reads hnd hrec
  rcases hsegs with ⟨-, hsealed, -⟩ | hsegs
  · refine ⟨by simp [paths, hsealed], fun p hp => ?_⟩
    simp only [paths, hsealed, List.nil_append, List.map_cons, List.map_nil,
      List.mem_singleton] at hp
    exact mem_create.mpr (.inl hp.symm)
  · have hsame : wal.paths = (listSegments dir).map Segment.path := by
      rw [paths, ← hsegs, hpaths]
    refine ⟨by rw [hsame]; exact hnd, fun p hp => ?_⟩
    rw [hsame] at hp
    obtain ⟨seg, hseg, rfl⟩ := List.mem_map.mp hp
    obtain ⟨out, file, -, hd⟩ := hin seg hseg
    exact mem_create.mpr (.inr (OrdMap.mem_of_getElem? hd))

/-- A rotation to a name that is not in use. -/
theorem makeRoom (h : Apart dir wal) {lsn : Nat}
    (hnew : wal.activeBytes ≥ wal.segmentMaxBytes → segmentName lsn ∉ dir) :
    Apart (wal.makeRoom dir lsn).1 (wal.makeRoom dir lsn).2 := by
  rw [Wal.makeRoom]
  split
  · next hfull =>
      have hpaths : (wal.rotate dir lsn).2.paths = wal.paths ++ [segmentName lsn] := by
        simp [paths, rotate]
      refine ⟨?_, fun p hp => ?_⟩
      · rw [hpaths]
        refine h.nodup.append (List.nodup_singleton _) fun p hp hp' => ?_
        rw [List.mem_singleton] at hp'
        exact hnew hfull (hp' ▸ h.mem p hp)
      · rw [hpaths, List.mem_append, List.mem_singleton] at hp
        exact mem_create.mpr (hp.symm.imp (fun he => he.symm) (h.mem p))
  · exact h

theorem append (h : Apart dir wal) {first : Record} {rest : List Record}
    (hnew : wal.activeBytes ≥ wal.segmentMaxBytes → segmentName first.lsn ∉ dir) :
    Apart (wal.append dir (first :: rest)).1 (wal.append dir (first :: rest)).2 := by
  have hroom := h.makeRoom hnew
  rw [Wal.append]
  generalize wal.makeRoom dir first.lsn = room at hroom
  obtain ⟨dir, wal⟩ := room
  have hsame : ∀ (n m : Nat), ({ wal with activeBytes := n, active := { wal.active with
      maxLsn := m } } : Wal).paths = wal.paths := fun n m => by simp [paths]
  exact ⟨by rw [hsame]; exact hroom.nodup,
    fun p hp => mem_append_iff.mpr (hroom.mem p (by rw [hsame] at hp; exact hp))⟩

theorem getElem?_removeAll {segs : List Segment} (h : removeAll segs dir = .ok dir')
    {p : FileName} (hp : p ∉ segs.map Segment.path) : dir'[p]? = dir[p]? := by
  induction segs generalizing dir with
  | nil => rw [← Except.ok.inj h]
  | cons seg segs ih =>
      rw [List.map_cons, List.mem_cons, not_or] at hp
      rw [removeAll] at h
      cases hrem : dir.remove seg.path with
      | error e => simp [hrem] at h
      | ok dir₁ =>
          rw [hrem] at h
          rw [ih h hp.2]
          rw [Dir.remove] at hrem
          split at hrem
          · rw [← Except.ok.inj hrem, OrdMap.getElem?_erase, if_neg fun he => hp.1 he.symm]
          · contradiction

/-- A segment that is not covered keeps its file. -/
theorem getElem?_truncate (h : Apart dir wal) {w i : Nat}
    (hrem : removeAll ((wal.covered w).take i) dir = .ok dir') {p : FileName}
    (hp : p ∈ (wal.dropCovered w).paths) : dir'[p]? = dir[p]? := by
  refine getElem?_removeAll hrem fun hc => ?_
  obtain ⟨t, ht, hpt⟩ := List.mem_map.mp hc
  obtain ⟨s, hs, hps⟩ := List.mem_map.mp hp
  have htc := List.mem_of_mem_take ht
  rw [covered, List.mem_filter] at htc
  have htp : t ∈ wal.sealed ++ [wal.active] := List.mem_append_left _ htc.1
  have hnd := h.nodup
  rw [paths] at hnd
  rw [List.mem_append, List.mem_singleton] at hs
  rcases hs with hs | rfl
  · rw [dropCovered, List.mem_filter] at hs
    have he := List.inj_on_of_nodup_map hnd (List.mem_append_left _ hs.1) htp (hps.trans hpt.symm)
    rw [he] at hs
    exact absurd (of_decide_eq_true htc.2) (of_decide_eq_true hs.2)
  · rw [List.map_append, List.nodup_append] at hnd
    exact hnd.2.2 t.path (List.mem_map_of_mem htc.1) p (by rw [← hps]; simp [dropCovered]) hpt

theorem truncate (h : Apart dir wal) {w i : Nat}
    (hrem : removeAll ((wal.covered w).take i) dir = .ok dir') :
    Apart dir' (wal.dropCovered w) := by
  refine ⟨h.nodup.sublist ?_, fun p hp => ?_⟩
  · exact (List.filter_sublist.append_right _).map _
  · have hsame := h.getElem?_truncate hrem hp
    have hmem : p ∈ wal.paths :=
      ((List.filter_sublist.append_right _).map Segment.path).subset hp
    obtain ⟨v, hv⟩ := OrdMap.mem_iff_exists.mp (h.mem p hmem)
    exact OrdMap.mem_of_getElem? (hsame.trans hv)

end Apart

end Wal

/-! ## histories -/

/-- A session: the open log, the first LSN it hands out, and the LSNs that have
reached `append`. -/
structure Session where
  wal : Wal
  start : Nat
  handed : List Nat

/-- A log directory, the session that has it open, the records of the appends
that returned, and the highest watermark a truncation was given. -/
structure Sessions where
  dir : Dir
  session : Option Session
  acked : List Record
  truncated : Nat

namespace Sessions

/-- The calls and crashes are those of a single writer's history. -/
abbrev Action := LogSys.Action

def init : Sessions := { dir := ∅, session := none, acked := [], truncated := 0 }

def step (s : Sessions) : Action → Option Sessions
  | .open segmentMaxBytes fromLsn =>
      match s.session, Wal.open s.dir segmentMaxBytes fromLsn with
      | none, .ok (dir, wal, replay) =>
          some { s with
            dir
            session := some { wal, start := max replay.maxLsn fromLsn + 1, handed := [] } }
      | _, _ => none
  | .append batch => s.session.map fun c =>
      { s with
        dir := (c.wal.append s.dir batch).1
        session := some { c with
          wal := (c.wal.append s.dir batch).2
          handed := c.handed ++ batch.map Record.lsn }
        acked := s.acked ++ batch }
  | .truncateThrough w =>
      match s.session with
      | none => none
      | some c =>
          match c.wal.truncateThrough s.dir w with
          | .error _ => none
          | .ok (dir, wal) =>
              some { s with
                dir
                session := some { c with wal }
                truncated := max s.truncated w }
  | .crash => s.session.map fun _ => { s with session := none }
  | .crashInAppend batch n => s.session.map fun c =>
      { s with dir := c.wal.appendTorn s.dir batch n, session := none }
  | .crashInTruncate w i =>
      match s.session with
      | none => none
      | some c =>
          match Wal.removeAll ((c.wal.covered w).take i) s.dir with
          | .error _ => none
          | .ok dir => some { s with dir, session := none, truncated := max s.truncated w }
  | .crashInOpen fromLsn i =>
      match s.session, Wal.recoverSegments fromLsn ((Wal.listSegments s.dir).take i) s.dir with
      | none, .ok (dir, _) => some { s with dir }
      | _, _ => none

/-- LSNs are handed out as the engine does: each once in a session, from the
session's first one on, and in no particular order. -/
def Handed (s : Sessions) : Action → Prop
  | .append batch | .crashInAppend batch _ =>
      batch ≠ [] ∧ (batch.map Record.lsn).Nodup ∧
        ∀ c ∈ s.session, ∀ r ∈ batch, c.start ≤ r.lsn ∧ r.lsn ∉ c.handed ∧ r.lsn < 2 ^ 64
  | .open _ _ | .truncateThrough _ | .crash | .crashInTruncate _ _ | .crashInOpen _ _ => True

/-- The records can be framed, and an append that rotates does not rotate to
the name of a file that is there. -/
def NewName (s : Sessions) : Action → Prop
  | .append batch | .crashInAppend batch _ =>
      (∀ r ∈ batch, (payload r).length < 2 ^ 32) ∧
        ∀ c ∈ s.session, ∀ r ∈ batch.head?, c.wal.activeBytes ≥ c.wal.segmentMaxBytes →
          segmentName r.lsn ∉ s.dir
  | .open _ _ | .truncateThrough _ | .crash | .crashInTruncate _ _ | .crashInOpen _ _ => True

instance (s : Sessions) (a : Action) : Decidable (s.Handed a) := by
  unfold Handed
  split <;> infer_instance

instance (s : Sessions) (a : Action) : Decidable (s.NewName a) := by
  unfold NewName
  split <;> infer_instance

/-- What holds between the steps: the bytes are whole frames, an open log knows
its files apart, and no acknowledged record above the truncations is gone. -/
def Inv (s : Sessions) : Prop :=
  ∃ log, (∀ r ∈ s.acked, s.truncated < r.lsn → log.Holds r) ∧
    match s.session with
    | none => Mirrors Torn s.dir log
    | some c => Tracks s.dir c.wal log ∧ Wal.Apart s.dir c.wal

theorem inv_init : init.Inv :=
  ⟨∅, fun _ hr => absurd hr List.not_mem_nil, .empty⟩

section
variable {s : Sessions} {batch : List Record} {c : Session} {log : Log}

/-- A batch of such a step: it has a first record, fits its frames, and finds a
free name if it rotates. -/
theorem batch_spec {a : Action} (ha : a = .append batch ∨ ∃ n, a = .crashInAppend batch n)
    (hc : s.session = some c) (htr : Tracks s.dir c.wal log) (hh : s.Handed a)
    (hn : s.NewName a) :
    ∃ first rest, batch = first :: rest ∧ (∀ r ∈ batch, Fits r) ∧
      (c.wal.activeBytes ≥ c.wal.segmentMaxBytes → segmentName first.lsn ∉ s.dir) ∧
      (c.wal.activeBytes ≥ c.wal.segmentMaxBytes → log.Free first.lsn) := by
  have hh' : batch ≠ [] ∧ (batch.map Record.lsn).Nodup ∧
      ∀ c ∈ s.session, ∀ r ∈ batch, c.start ≤ r.lsn ∧ r.lsn ∉ c.handed ∧ r.lsn < 2 ^ 64 := by
    rcases ha with rfl | ⟨n, rfl⟩ <;> exact hh
  have hn' : (∀ r ∈ batch, (payload r).length < 2 ^ 32) ∧
      ∀ c ∈ s.session, ∀ r ∈ batch.head?, c.wal.activeBytes ≥ c.wal.segmentMaxBytes →
        segmentName r.lsn ∉ s.dir := by
    rcases ha with rfl | ⟨n, rfl⟩ <;> exact hn
  obtain ⟨first, rest, rfl⟩ := List.exists_cons_of_ne_nil hh'.1
  have hnew := hn'.2 c hc first rfl
  refine ⟨first, rest, rfl, fun r hr => ⟨(hh'.2.2 c hc r hr).2.2, hn'.1 r hr⟩, hnew, ?_⟩
  intro hfull rs hrs
  exact absurd (htr.mirrors.mem_dir (OrdMap.mem_of_getElem? hrs)) (hnew hfull)
end

/-- Truncation up to its `i`-th deletion, in a session in order. -/
theorem inv_truncate {dir dir' : Dir} {wal : Wal} {log : Log} {acked : List Record}
    {truncated w i : Nat} (hkept : ∀ r ∈ acked, truncated < r.lsn → log.Holds r)
    (htr : Tracks dir wal log) (hap : Wal.Apart dir wal)
    (hrem : Wal.removeAll ((wal.covered w).take i) dir = .ok dir') :
    ∃ log', (∀ r ∈ acked, max truncated w < r.lsn → log'.Holds r) ∧
      Tracks dir' (wal.dropCovered w) log' ∧ Wal.Apart dir' (wal.dropCovered w) := by
  obtain ⟨dir'', hrem', htr'⟩ := htr.truncate w i
  rw [hrem, Except.ok.injEq] at hrem'
  subst hrem'
  refine ⟨_, fun r hr hlsn => ?_, htr', hap.truncate hrem⟩
  exact htr.holds_eraseAll (hkept r hr (by omega)) (by omega) i

theorem inv_step (s : Sessions) (a : Action) (s' : Sessions) (hinv : s.Inv)
    (hg : s.Handed a ∧ s.NewName a) (hstep : s.step a = some s') : s'.Inv := by
  obtain ⟨hh, hn⟩ := hg
  obtain ⟨log, hkept, hlive⟩ := hinv
  cases hc : s.session with
  | none =>
      rw [hc] at hlive
      cases a with
      | «open» segmentMaxBytes fromLsn =>
          obtain ⟨dir', wal, hopen, htr, -⟩ := open_tracks hlive segmentMaxBytes fromLsn
          simp only [step, hc, hopen, Option.some.injEq] at hstep
          subst hstep
          exact ⟨log.opened, fun r hr hlsn => Log.holds_opened.mpr (hkept r hr hlsn), htr,
            Wal.Apart.open hopen⟩
      | crashInOpen fromLsn i =>
          obtain ⟨dir', hrec, hmir, -⟩ := recoverSegments_take hlive fromLsn i
          simp only [step, hc, hrec, Option.some.injEq] at hstep
          subst hstep
          exact ⟨log, hkept, hmir⟩
      | append | truncateThrough | crash | crashInAppend | crashInTruncate =>
          simp [step, hc] at hstep
  | some c =>
      rw [hc] at hlive
      obtain ⟨htr, hap⟩ := hlive
      cases a with
      | «open» | crashInOpen => simp [step, hc] at hstep
      | append batch =>
          obtain ⟨first, rest, rfl, hfit, hnew, hfree⟩ := batch_spec (.inl rfl) hc htr hh hn
          simp only [step, hc, Option.map_some, Option.some.injEq] at hstep
          subst hstep
          refine ⟨_, fun r hr hlsn => Log.holds_extend.mpr ?_, htr.append hfit hfree,
            hap.append hnew⟩
          rw [List.mem_append] at hr
          exact hr.imp (fun hr => hkept r hr hlsn) id
      | crashInAppend batch n =>
          obtain ⟨first, rest, rfl, hfit, -, hfree⟩ := batch_spec (.inr ⟨n, rfl⟩) hc htr hh hn
          simp only [step, hc, Option.map_some, Option.some.injEq] at hstep
          subst hstep
          exact ⟨_, fun r hr hlsn => Log.holds_extend.mpr (.inl (hkept r hr hlsn)),
            htr.appendTorn hfit hfree n⟩
      | truncateThrough w =>
          obtain ⟨dir', hrem, -⟩ := htr.truncate w (c.wal.covered w).length
          obtain ⟨log', hkept', htr', hap'⟩ := inv_truncate hkept htr hap hrem
          rw [List.take_length] at hrem
          simp only [step, hc, Wal.truncateThrough, hrem, Option.some.injEq] at hstep
          subst hstep
          exact ⟨log', hkept', htr', hap'⟩
      | crashInTruncate w i =>
          obtain ⟨dir', hrem, -⟩ := htr.truncate w i
          obtain ⟨log', hkept', htr', -⟩ := inv_truncate hkept htr hap hrem
          simp only [step, hc, hrem, Option.some.injEq] at hstep
          subst hstep
          exact ⟨log', hkept', htr'.mirrors.weaken torn_nil⟩
      | crash =>
          simp only [step, hc, Option.map_some, Option.some.injEq] at hstep
          subst hstep
          exact ⟨log, hkept, htr.mirrors.weaken torn_nil⟩

/-- **Truncation spares the live end of the log.**  After any history in which
no append rotates to a name in use, the segments of the open log are pairwise
different files; truncating them through any watermark succeeds and leaves the
active file as it is; and a process that dies here and opens the log again gets
back every acknowledged record above its own watermark and above all
truncations. -/
theorem truncation_spares_active {s : Sessions}
    (h : Reaches step (fun s a => s.Handed a ∧ s.NewName a) init s) :
    (∀ c ∈ s.session, c.wal.paths.Nodup ∧ ∀ w, ∃ dir',
      c.wal.truncateThrough s.dir w = .ok (dir', c.wal.dropCovered w) ∧
      c.wal.active.path ∈ dir' ∧ dir'[c.wal.active.path]? = s.dir[c.wal.active.path]?) ∧
    ∀ segmentMaxBytes fromLsn, ∃ dir' wal replay,
      Wal.open s.dir segmentMaxBytes fromLsn = .ok (dir', wal, replay) ∧
      ∀ r ∈ s.acked, s.truncated < r.lsn → fromLsn < r.lsn → r ∈ replay.records := by
  obtain ⟨log, hkept, hlive⟩ := h.invariant Inv inv_init inv_step
  constructor
  · intro c hc
    rw [hc] at hlive
    obtain ⟨htr, hap⟩ := hlive
    refine ⟨hap.nodup, fun w => ?_⟩
    obtain ⟨dir', hrem, -⟩ := htr.truncate w (c.wal.covered w).length
    have hactive : c.wal.active.path ∈ (c.wal.dropCovered w).paths := by
      simp [Wal.paths, Wal.dropCovered]
    refine ⟨dir', ?_, (hap.truncate hrem).mem _ hactive, hap.getElem?_truncate hrem hactive⟩
    rw [List.take_length] at hrem
    rw [Wal.truncateThrough, hrem]
  · intro segmentMaxBytes fromLsn
    have hmir : Mirrors Torn s.dir log := by
      cases hc : s.session with
      | none => rw [hc] at hlive; exact hlive
      | some c => rw [hc] at hlive; exact hlive.1.mirrors.weaken torn_nil
    obtain ⟨dir', wal, hopen, -⟩ := open_tracks hmir segmentMaxBytes fromLsn
    refine ⟨dir', wal, _, hopen, fun r hr hlsn hfrom => ?_⟩
    exact List.mem_filter.mpr ⟨Log.mem_flat.mpr (hkept r hr hlsn), decide_eq_true hfrom⟩

/-! ## a name that comes back -/

/-- A value that fills a segment of thirty bytes. -/
def filler : Bytes := List.replicate 10 7

/-- LSN 2 rotates and is torn before its first byte, and is handed out again;
LSN 3 comes first and fills the segment named 2; LSN 2 rotates to it. -/
def nameReused : List Action :=
  [.open 30 0, .append [.put [1] 1 filler], .crashInAppend [.put [2] 2 [7]] 0, .open 30 0,
    .append [.put [3] 3 filler], .append [.put [2] 2 [7]]]

/-- **A rotation onto the live segment.**  The sealed segment of LSN 3 and the
active one are the same file; a truncation through 3 unlinks it; LSN 4 is
appended to the unlinked file and acknowledged, and is lost in a crash. -/
theorem truncation_unlinks_active :
    (∃ s, Reaches step Handed init s ∧
      s.session.any (fun c => ¬ c.wal.paths.Nodup) = true) ∧
    ∃ s, Reaches step Handed init s ∧ s.session.isNone = true ∧
      .put [4] 4 [8] ∈ s.acked ∧ s.truncated = 3 ∧
      (Wal.open s.dir 30 3).toOption.any (fun out => out.2.2.records = []) = true := by
  constructor
  · exact exists_reaches_of_attempt _ nameReused (by decide +kernel)
  · exact exists_reaches_of_attempt _
      (nameReused ++ [.truncateThrough 3, .append [.put [4] 4 [8]], .crash]) (by decide +kernel)

/-- LSN 2 is torn in its rotation, and no name comes back. -/
theorem truncation_spares_active_torn : ∃ s,
    Reaches step (fun s a => s.Handed a ∧ s.NewName a) init s ∧ s.truncated = 3 ∧
      .put [4] 4 [8] ∈ s.acked ∧
      (∀ c ∈ s.session, c.wal.paths.Nodup ∧ ∀ w, ∃ dir',
        c.wal.truncateThrough s.dir w = .ok (dir', c.wal.dropCovered w) ∧
        c.wal.active.path ∈ dir' ∧ dir'[c.wal.active.path]? = s.dir[c.wal.active.path]?) ∧
      ∀ segmentMaxBytes fromLsn, ∃ dir' wal replay,
        Wal.open s.dir segmentMaxBytes fromLsn = .ok (dir', wal, replay) ∧
        ∀ r ∈ s.acked, s.truncated < r.lsn → fromLsn < r.lsn → r ∈ replay.records := by
  have hrun : ∃ s, Reaches step (fun s a => s.Handed a ∧ s.NewName a) init s ∧
      s.truncated = 3 ∧ .put [4] 4 [8] ∈ s.acked :=
    exists_reaches_of_attempt _
      [.open 30 0, .append [.put [1] 1 filler], .crashInAppend [.put [2] 2 [7]] 0, .open 30 0,
        .append [.put [2] 2 [7]], .append [.put [3] 3 filler], .truncateThrough 3,
        .append [.put [4] 4 [8]]] (by decide +kernel)
  obtain ⟨s, hreach, htr, hmem⟩ := hrun
  exact ⟨s, hreach, htr, hmem, truncation_spares_active hreach⟩

end Sessions

end HolyGrail
