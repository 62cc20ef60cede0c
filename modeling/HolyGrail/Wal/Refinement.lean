import HolyGrail.Wal.Recovery
import HolyGrail.Run

/-!
# HolyGrail.Wal.Refinement

The log over whole histories: any sequence of opens, appends, truncations and
crashes by a single writer.  The specification side is the list `kept` of all
records of returned appends and of the whole frames that survived a crash, in
append order; the refinement theorem `open_replays_kept` says that every open
returns exactly the part of `kept` above its watermark.

The invariant (`Inv`) needs no order on the LSNs inside a segment.  It rests on
three facts about names: a segment's name is at most the LSN of every record
in it, the active segment is the newest, and the next LSN leaves no gap above
what is on disk or below the floor.  The last one keeps a name that is
reissued after a tear from colliding with a segment that has records.
-/

namespace HolyGrail

open Std (ExtTreeMap)

/-! ## the flat log under the operations -/

namespace Log

/-- The newest segment comes last. -/
theorem toList_eq_erase {log : Log} {a : Nat} (ha : ∀ n ∈ log, n ≤ a) :
    log.toList = (log.erase a).toList ++ (log[a]?.toList.map fun rs => (a, rs)) := by
  refine OrdMap.toList_eq_of_ordered ?_ fun n rs => ?_
  · rw [List.pairwise_append]
    refine ⟨ExtTreeMap.ordered_keys_toList, ?_, ?_⟩
    · cases log[a]? <;> simp
    · intro x hx y hy
      obtain ⟨n, rs⟩ := x
      rw [OrdMap.mem_toList] at hx
      obtain ⟨hne, hn⟩ := OrdMap.mem_erase.mp (OrdMap.mem_of_getElem? hx)
      obtain ⟨ss, -, rfl⟩ := List.mem_map.mp hy
      exact Nat.compare_eq_lt.mpr (Nat.lt_of_le_of_ne (ha n hn) (Ne.symm hne))
  · rw [List.mem_append, OrdMap.mem_toList, OrdMap.getElem?_erase]
    by_cases he : a = n
    · subst he
      cases h : log[a]? <;> simp [eq_comm]
    · simp [he]

theorem flat_eq_erase {log : Log} {a : Nat} (ha : ∀ n ∈ log, n ≤ a) :
    log.flat = Log.flat (log.erase a) ++ log[a]?.getD [] := by
  rw [flat, toList_eq_erase ha, List.flatMap_append]
  cases log[a]? <;> simp [flat]

/-- Records added to the newest segment come last. -/
theorem flat_extend {log : Log} {a : Nat} (ha : ∀ n ∈ log, n ≤ a) (recs : List Record) :
    (log.extend a recs).flat = log.flat ++ recs := by
  have ha' : ∀ n ∈ log.extend a recs, n ≤ a := by
    intro n hn
    rw [extend, OrdMap.mem_insert] at hn
    cases hn with
    | inl he => exact Nat.le_of_eq he.symm
    | inr hn => exact ha n hn
  have herase : (log.extend a recs).erase a = log.erase a := by
    refine ExtTreeMap.ext_getElem? fun n => ?_
    simp only [extend, OrdMap.getElem?_erase, OrdMap.getElem?_insert]
    by_cases he : a = n <;> simp [he]
  rw [flat_eq_erase ha', flat_eq_erase ha, herase, extend, ExtTreeMap.getElem?_insert_self,
    Option.getD_some, List.append_assoc]

theorem flat_opened (log : Log) : log.opened.flat = log.flat := by
  rw [opened]
  split
  · next h =>
      have hins : log.insert 0 [] = log.extend 0 [] := by
        rw [extend, eq_empty_of_toList h]
        simp
      rw [hins, flat_extend, List.append_nil]
      rw [eq_empty_of_toList h]
      exact fun n hn => absurd hn ExtTreeMap.not_mem_empty
  · rfl

theorem toList_eraseAll (log : Log) (ns : List Nat) :
    (log.eraseAll ns).toList = log.toList.filter fun item => item.1 ∉ ns := by
  refine OrdMap.toList_eq_of_ordered (ExtTreeMap.ordered_keys_toList.filter _) fun n rs => ?_
  rw [List.mem_filter, OrdMap.mem_toList, getElem?_eraseAll]
  by_cases hn : n ∈ ns <;> simp [hn]

/-- Dropping segments whose records are all at or below `w` is invisible above
`w`. -/
theorem filter_flat_eraseAll {log : Log} {ns : List Nat} {w : Nat}
    (h : ∀ n ∈ ns, ∀ rs, log[n]? = some rs → ∀ r ∈ rs, r.lsn ≤ w) :
    ((log.eraseAll ns).flat.filter fun r => w < r.lsn) =
      log.flat.filter fun r => w < r.lsn := by
  have hitems : ∀ item ∈ log.toList, item.1 ∈ ns →
      (item.2.filter fun r => w < r.lsn) = [] := by
    intro item hitem hn
    rw [List.filter_eq_nil_iff]
    intro r hr
    have := h item.1 hn item.2 (OrdMap.mem_toList.mp hitem) r hr
    rw [decide_eq_true_eq]
    omega
  rw [flat, flat, toList_eraseAll]
  generalize log.toList = items at hitems
  induction items with
  | nil => rfl
  | cons item items ih =>
      have ih := ih fun i hi => hitems i (List.mem_cons_of_mem _ hi)
      have hhead := hitems item List.mem_cons_self
      simp only [decide_not] at ih
      by_cases hn : item.1 ∈ ns
      · simp [hn, ih, hhead hn]
      · simp [hn, ih]

end Log

/-! ## histories -/

/-- A log directory, the session that has it open, and what the history so far
promises: the records that were kept, in append order, and the floor below
which the next open may not look. -/
structure LogSys where
  dir : Dir
  session : Option (Wal × Nat)
  kept : List Record
  floor : Nat

namespace LogSys

inductive Action where
  | open (segmentMaxBytes fromLsn : Nat)
  | append (batch : List Record)
  | truncateThrough (w : Nat)
  | crash
  /-- The process dies inside `append`, with `n` bytes of the batch on disk. -/
  | crashInAppend (batch : List Record) (n : Nat)
  /-- The process dies inside `truncate_through`, after `i` deletions. -/
  | crashInTruncate (w i : Nat)
  /-- The process dies inside `open`, after `i` segments were cut back. -/
  | crashInOpen (fromLsn i : Nat)

def init : LogSys := { dir := ∅, session := none, kept := [], floor := 0 }

def step (s : LogSys) : Action → Option LogSys
  | .open segmentMaxBytes fromLsn =>
      match s.session, Wal.open s.dir segmentMaxBytes fromLsn with
      | none, .ok (dir, wal, replay) =>
          some { s with
            dir
            session := some (wal, max replay.maxLsn fromLsn + 1)
            floor := fromLsn }
      | _, _ => none
  | .append batch => s.session.map fun (wal, next) =>
      { s with
        dir := (wal.append s.dir batch).1
        session := some ((wal.append s.dir batch).2, next + batch.length)
        kept := s.kept ++ batch }
  | .truncateThrough w =>
      match s.session with
      | none => none
      | some (wal, next) =>
          match wal.truncateThrough s.dir w with
          | .error _ => none
          | .ok (dir, wal) =>
              some { s with dir, session := some (wal, next), floor := max s.floor w }
  | .crash => s.session.map fun _ => { s with session := none }
  | .crashInAppend batch n => s.session.map fun (wal, _) =>
      { s with
        dir := wal.appendTorn s.dir batch n
        session := none
        kept := s.kept ++ survivors batch n }
  | .crashInTruncate w i =>
      match s.session with
      | none => none
      | some (wal, _) =>
          match Wal.removeAll ((wal.covered w).take i) s.dir with
          | .error _ => none
          | .ok dir => some { s with dir, session := none, floor := max s.floor w }
  | .crashInOpen fromLsn i =>
      match s.session, Wal.recoverSegments fromLsn ((Wal.listSegments s.dir).take i) s.dir with
      | none, .ok (dir, _) => some { s with dir, floor := fromLsn }
      | _, _ => none

/-- What the single writer hands to `append`: a non-empty batch of encodable
records with consecutive LSNs from the next one on. -/
def Batch (s : LogSys) (batch : List Record) : Prop :=
  batch ≠ [] ∧ (∀ r ∈ batch, Fits r) ∧
    ∀ p ∈ s.session, batch.map Record.lsn = List.range' p.2 batch.length

/-- The histories considered: `from_lsn` never decreases and covers every
truncation so far, and batches are the single writer's. -/
def Allowed (s : LogSys) : Action → Prop
  | .open _ fromLsn | .crashInOpen fromLsn _ => s.floor ≤ fromLsn
  | .append batch | .crashInAppend batch _ => s.Batch batch
  | .truncateThrough _ | .crash | .crashInTruncate _ _ => True

instance (s : LogSys) (batch : List Record) : Decidable (s.Batch batch) :=
  inferInstanceAs (Decidable (_ ∧ _ ∧ _))

instance (s : LogSys) (a : Action) : Decidable (s.Allowed a) := by
  unfold Allowed
  split <;> infer_instance

/-! ## the invariant -/

/-- What the history guarantees about the records on disk. -/
structure Sound (kept : List Record) (floor : Nat) (log : Log) : Prop where
  kept_eq : (kept.filter fun r => floor < r.lsn) = log.flat.filter fun r => floor < r.lsn
  start_le : ∀ (n : Nat) (rs : List Record), log[n]? = some rs → ∀ r ∈ rs, n ≤ r.lsn
  no_gap : ∀ n ∈ log, n ≤ max (maxLsnOf log.flat) floor + 1

/-- An open session appends to the newest segment, above everything on disk. -/
structure SessionSound (dir : Dir) (wal : Wal) (next floor : Nat) (log : Log) : Prop where
  tracks : Tracks dir wal log
  newest : ∀ n ∈ log, n ≤ wal.active.startLsn
  lt_next : ∀ r ∈ log.flat, r.lsn < next
  start_le_next : ∀ n ∈ log, n ≤ next
  next_le : next ≤ max (maxLsnOf log.flat) floor + 1

def Inv (s : LogSys) : Prop :=
  ∃ log, Sound s.kept s.floor log ∧
    match s.session with
    | none => Mirrors Torn s.dir log
    | some (wal, next) => SessionSound s.dir wal next s.floor log

theorem inv_init : init.Inv := by
  refine ⟨∅, ⟨by simp [init, Log.flat], fun n rs h => by simp at h, fun n h => ?_⟩, .empty⟩
  exact absurd h ExtTreeMap.not_mem_empty

/-- Raising the floor keeps the promise about what lies above it. -/
theorem filter_above_floor {as bs : List Record} {f g : Nat}
    (h : (as.filter fun r => f < r.lsn) = bs.filter fun r => f < r.lsn) (hfg : f ≤ g) :
    (as.filter fun r => g < r.lsn) = bs.filter fun r => g < r.lsn := by
  have hsplit : ∀ l : List Record, (l.filter fun r => g < r.lsn) =
      (l.filter fun r => f < r.lsn).filter fun r => g < r.lsn := by
    intro l
    rw [List.filter_filter]
    refine List.filter_congr fun r _ => ?_
    by_cases hg : g < r.lsn
    · simp [hg, Nat.lt_of_le_of_lt hfg hg]
    · simp [hg]
  rw [hsplit as, hsplit bs, h]

theorem Sound.raise {kept : List Record} {f g : Nat} {log : Log} (h : Sound kept f log)
    (hfg : f ≤ g) : Sound kept g log where
  kept_eq := filter_above_floor h.kept_eq hfg
  start_le := h.start_le
  no_gap n hn := by
    have := h.no_gap n hn
    omega

/-! ### opening -/

theorem mem_opened {log : Log} {n : Nat} (h : n ∈ log.opened) : n = 0 ∨ n ∈ log := by
  rw [Log.opened] at h
  split at h
  · rw [OrdMap.mem_insert] at h
    exact h.imp Eq.symm id
  · exact .inr h

theorem Sound.opened {kept : List Record} {floor : Nat} {log : Log} (h : Sound kept floor log) :
    Sound kept floor log.opened where
  kept_eq := by rw [Log.flat_opened]; exact h.kept_eq
  start_le n rs hn r hr := by
    rw [Log.opened] at hn
    split at hn
    · rw [OrdMap.getElem?_insert] at hn
      split at hn
      · next he => omega
      · exact h.start_le n rs hn r hr
    · exact h.start_le n rs hn r hr
  no_gap n hn := by
    rw [Log.flat_opened]
    cases mem_opened hn with
    | inl h0 => omega
    | inr hn => exact h.no_gap n hn

/-- `open` starts a session above everything on disk and below the watermark. -/
theorem sessionSound_open {kept : List Record} {dir' : Dir} {wal : Wal} {log : Log}
    {floor : Nat} (h : Sound kept floor log) (htr : Tracks dir' wal log.opened)
    (hnew : ∀ n ∈ log, n ≤ wal.active.startLsn) {fromLsn : Nat} (hf : floor ≤ fromLsn) :
    SessionSound dir' wal (max (maxLsnOf log.flat) fromLsn + 1) fromLsn log.opened where
  tracks := htr
  newest n hn := by
    cases mem_opened hn with
    | inl h0 => omega
    | inr hn => exact hnew n hn
  lt_next r hr := by
    rw [Log.flat_opened] at hr
    have := le_maxLsnOf hr
    omega
  start_le_next n hn := by
    cases mem_opened hn with
    | inl h0 => omega
    | inr hn =>
        have := h.no_gap n hn
        omega
  next_le := by rw [Log.flat_opened]

/-! ### appending -/

section
variable {kept : List Record} {dir : Dir} {wal : Wal} {next floor : Nat} {log : Log}

/-- The next LSN is a free name: records under it would lie above it. -/
theorem free_next (h : Sound kept floor log) (hs : SessionSound dir wal next floor log) :
    log.Free next := by
  intro rs hrs
  rw [List.eq_nil_iff_forall_not_mem]
  intro r hr
  have hle := h.start_le next rs hrs r hr
  have hlt := hs.lt_next r (Log.mem_flat.mpr ⟨next, rs, hrs, hr⟩)
  omega

/-- The segment a batch lands in is the newest, and named at most `next`. -/
theorem landing_bounds (hs : SessionSound dir wal next floor log) :
    (∀ n ∈ log, n ≤ wal.landing next) ∧ wal.landing next ≤ next := by
  rw [Wal.landing]
  split
  · exact ⟨hs.start_le_next, Nat.le_refl _⟩
  · obtain ⟨rs, hrs, -⟩ := hs.tracks.active_mem
    exact ⟨hs.newest, hs.start_le_next _ (OrdMap.mem_of_getElem? hrs)⟩

/-- Records from `next` on, added to the newest segment. -/
theorem Sound.extend (h : Sound kept floor log) (hs : SessionSound dir wal next floor log)
    {recs : List Record} (hge : ∀ r ∈ recs, next ≤ r.lsn) :
    Sound (kept ++ recs) floor (log.extend (wal.landing next) recs) := by
  obtain ⟨hall, hle⟩ := landing_bounds hs
  refine ⟨?_, fun n rs hn r hr => ?_, fun n hn => ?_⟩
  · rw [Log.flat_extend hall, List.filter_append, List.filter_append, h.kept_eq]
  · rw [Log.extend, OrdMap.getElem?_insert] at hn
    split at hn
    · next he =>
        subst he
        rw [← Option.some.inj hn, List.mem_append] at hr
        cases hr with
        | inl hr =>
            cases hl : log[wal.landing next]? with
            | none => rw [hl] at hr; exact absurd hr List.not_mem_nil
            | some ss => rw [hl] at hr; exact h.start_le _ ss hl r hr
        | inr hr => exact Nat.le_trans hle (hge r hr)
    · exact h.start_le n rs hn r hr
  · rw [Log.flat_extend hall, maxLsnOf_append]
    rw [Log.extend, OrdMap.mem_insert] at hn
    have := hs.next_le
    cases hn with
    | inl he => omega
    | inr hn =>
        have := h.no_gap n hn
        omega

theorem active_append (batch : List Record) (first : Record) (rest : List Record)
    (hb : batch = first :: rest) :
    (wal.append dir batch).2.active.startLsn = wal.landing first.lsn := by
  subst hb
  simp only [Wal.append, Wal.makeRoom, Wal.landing]
  split <;> rfl

/-- LSNs of a consecutive batch. -/
theorem lsn_bounds {batch : List Record}
    (h : batch.map Record.lsn = List.range' next batch.length) :
    ∀ r ∈ batch, next ≤ r.lsn ∧ r.lsn < next + batch.length := by
  intro r hr
  have hmem := List.mem_map_of_mem (f := Record.lsn) hr
  rw [h, List.mem_range'_1] at hmem
  exact hmem

theorem sessionSound_append (hs : SessionSound dir wal next floor log)
    {first : Record} {rest : List Record} (hfirst : first.lsn = next)
    (htr : Tracks (wal.append dir (first :: rest)).1 (wal.append dir (first :: rest)).2
      (log.extend (wal.landing next) (first :: rest)))
    (hlsn : (first :: rest).map Record.lsn = List.range' next (first :: rest).length) :
    SessionSound (wal.append dir (first :: rest)).1 (wal.append dir (first :: rest)).2
      (next + (first :: rest).length) floor (log.extend (wal.landing next) (first :: rest)) := by
  obtain ⟨hall, hle⟩ := landing_bounds hs
  have hmem : ∀ n ∈ log.extend (wal.landing next) (first :: rest), n ≤ wal.landing next := by
    intro n hn
    rw [Log.extend, OrdMap.mem_insert] at hn
    cases hn with
    | inl he => exact Nat.le_of_eq he.symm
    | inr hn => exact hall n hn
  refine ⟨htr, fun n hn => ?_, fun r hr => ?_, fun n hn => ?_, ?_⟩
  · rw [active_append _ first rest rfl, hfirst]
    exact hmem n hn
  · rw [Log.flat_extend hall, List.mem_append] at hr
    cases hr with
    | inl hr =>
        have := hs.lt_next r hr
        omega
    | inr hr => exact (lsn_bounds hlsn r hr).2
  · have := hmem n hn
    omega
  · -- The last LSN of the batch is one below the new `next`.
    have hlast : next + rest.length ∈ (first :: rest).map Record.lsn := by
      rw [hlsn, List.mem_range'_1, List.length_cons]
      omega
    obtain ⟨r, hr, he⟩ := List.mem_map.mp hlast
    have := le_maxLsnOf hr
    rw [Log.flat_extend hall, maxLsnOf_append, List.length_cons]
    omega

end

/-! ### truncating -/

section
variable {kept : List Record} {dir dir' : Dir} {wal : Wal} {next floor : Nat} {log : Log}

/-- A covered segment has no record above the watermark. -/
theorem le_of_coveredStarts (h : Tracks dir wal log) {w i n : Nat}
    (hn : n ∈ Tracks.coveredStarts wal w i) {rs : List Record} (hrs : log[n]? = some rs) :
    ∀ r ∈ rs, r.lsn ≤ w := by
  obtain ⟨t, ht, rfl⟩ := List.mem_map.mp hn
  obtain ⟨-, -, ss, hss, hle⟩ := h.covered_mem (List.mem_of_mem_take ht)
  rw [hrs] at hss
  rw [Option.some.inj hss]
  exact hle

theorem Sound.truncate (h : Sound kept floor log) (htr : Tracks dir wal log) (w i : Nat) :
    Sound kept (max floor w) (log.eraseAll (Tracks.coveredStarts wal w i)) ∧
      max (maxLsnOf log.flat) floor ≤
        max (maxLsnOf (log.eraseAll (Tracks.coveredStarts wal w i)).flat) (max floor w) := by
  have hcov : ∀ n ∈ Tracks.coveredStarts wal w i, ∀ rs, log[n]? = some rs →
      ∀ r ∈ rs, r.lsn ≤ max floor w := by
    intro n hn rs hrs r hr
    exact Nat.le_trans (le_of_coveredStarts htr hn hrs r hr) (Nat.le_max_right floor w)
  have hfilter := Log.filter_flat_eraseAll hcov
  have htop : maxLsnOf log.flat ≤
      max (maxLsnOf (log.eraseAll (Tracks.coveredStarts wal w i)).flat) (max floor w) := by
    refine maxLsnOf_le fun r hr => ?_
    by_cases hw : max floor w < r.lsn
    · have hmem : r ∈ log.flat.filter fun r => max floor w < r.lsn :=
        List.mem_filter.mpr ⟨hr, decide_eq_true hw⟩
      rw [← hfilter, List.mem_filter] at hmem
      have := le_maxLsnOf hmem.1
      omega
    · omega
  refine ⟨⟨?_, fun n rs hn => ?_, fun n hn => ?_⟩, by omega⟩
  · rw [hfilter]
    exact filter_above_floor h.kept_eq (Nat.le_max_left _ _)
  · rw [Log.getElem?_eraseAll] at hn
    split at hn
    · contradiction
    · exact h.start_le n rs hn
  · obtain ⟨rs, hrs⟩ := OrdMap.mem_iff_exists.mp hn
    rw [Log.getElem?_eraseAll] at hrs
    split at hrs
    · contradiction
    · have := h.no_gap n (OrdMap.mem_of_getElem? hrs)
      omega

theorem sessionSound_truncate (h : Sound kept floor log)
    (hs : SessionSound dir wal next floor log) {w i : Nat}
    (htr : Tracks dir' (wal.dropCovered w) (log.eraseAll (Tracks.coveredStarts wal w i))) :
    SessionSound dir' (wal.dropCovered w) next (max floor w)
      (log.eraseAll (Tracks.coveredStarts wal w i)) := by
  have hmem : ∀ n ∈ log.eraseAll (Tracks.coveredStarts wal w i), n ∈ log := by
    intro n hn
    obtain ⟨rs, hrs⟩ := OrdMap.mem_iff_exists.mp hn
    rw [Log.getElem?_eraseAll] at hrs
    split at hrs
    · contradiction
    · exact OrdMap.mem_of_getElem? hrs
  have htop := (h.truncate hs.tracks w i).2
  refine ⟨htr, fun n hn => hs.newest n (hmem n hn), fun r hr => ?_,
    fun n hn => hs.start_le_next n (hmem n hn), ?_⟩
  · exact hs.lt_next r (Log.mem_flat.mpr (Tracks.holds_of_eraseAll (Log.mem_flat.mp hr)))
  · have := hs.next_le
    omega

end

/-- A truncation that stops early leaves a session in order. -/
theorem inv_truncate {kept : List Record} {dir dir' : Dir} {wal : Wal} {next floor w i : Nat}
    (h : Inv ⟨dir, some (wal, next), kept, floor⟩)
    (hr : Wal.removeAll ((wal.covered w).take i) dir = .ok dir') :
    Inv ⟨dir', some (wal.dropCovered w, next), kept, max floor w⟩ := by
  obtain ⟨log, hsound, hlive⟩ := h
  obtain ⟨dir'', hrem, htr⟩ := hlive.tracks.truncate w i
  rw [hr, Except.ok.injEq] at hrem
  subst hrem
  exact ⟨_, (hsound.truncate hlive.tracks w i).1, sessionSound_truncate hsound hlive htr⟩

/-! ### every step -/

theorem inv_step (s : LogSys) (a : Action) (s' : LogSys) (hinv : s.Inv) (hg : s.Allowed a)
    (hstep : s.step a = some s') : s'.Inv := by
  obtain ⟨dir, session, kept, floor⟩ := s
  obtain ⟨log, hsound, hlive⟩ := hinv
  dsimp only at hsound hlive
  cases session with
  | none =>
      dsimp only at hlive
      cases a with
      | «open» segmentMaxBytes fromLsn =>
          obtain ⟨dir', wal, hopen, htr, hnew⟩ := open_tracks hlive segmentMaxBytes fromLsn
          simp only [step, hopen, Option.some.injEq] at hstep
          subst hstep
          have hf : floor ≤ fromLsn := hg
          exact ⟨log.opened, (hsound.raise hf).opened, sessionSound_open hsound htr hnew hf⟩
      | crashInOpen fromLsn i =>
          obtain ⟨dir', hrec, hmir, -⟩ := recoverSegments_take hlive fromLsn i
          simp only [step, hrec, Option.some.injEq] at hstep
          subst hstep
          exact ⟨log, hsound.raise hg, hmir⟩
      | append | truncateThrough | crash | crashInAppend | crashInTruncate =>
          simp [step] at hstep
  | some p =>
      obtain ⟨wal, next⟩ := p
      dsimp only at hlive
      cases a with
      | «open» | crashInOpen => simp [step] at hstep
      | append batch =>
          obtain ⟨hne, hfit, hlsn⟩ := hg
          have hlsn := hlsn (wal, next) rfl
          obtain ⟨first, rest, rfl⟩ := List.exists_cons_of_ne_nil hne
          have hfirst : first.lsn = next := (List.cons.inj hlsn).1
          simp only [step, Option.map_some, Option.some.injEq] at hstep
          subst hstep
          have htr := hlive.tracks.append hfit fun _ => hfirst ▸ free_next hsound hlive
          rw [hfirst] at htr
          exact ⟨_, hsound.extend hlive fun r hr => (lsn_bounds hlsn r hr).1,
            sessionSound_append hlive hfirst htr hlsn⟩
      | crashInAppend batch n =>
          obtain ⟨hne, hfit, hlsn⟩ := hg
          have hlsn := hlsn (wal, next) rfl
          obtain ⟨first, rest, rfl⟩ := List.exists_cons_of_ne_nil hne
          have hfirst : first.lsn = next := (List.cons.inj hlsn).1
          simp only [step, Option.map_some, Option.some.injEq] at hstep
          subst hstep
          have hmir := hlive.tracks.appendTorn hfit (fun _ => hfirst ▸ free_next hsound hlive) n
          rw [hfirst] at hmir
          refine ⟨_, hsound.extend hlive fun r hr => ?_, hmir⟩
          exact (lsn_bounds hlsn r ((prefix_survivors _ n).subset hr)).1
      | truncateThrough w =>
          obtain ⟨dir', hrem, -⟩ := hlive.tracks.truncate w (wal.covered w).length
          have hinv := inv_truncate ⟨log, hsound, hlive⟩ hrem
          rw [List.take_length] at hrem
          simp only [step, Wal.truncateThrough, hrem, Option.some.injEq] at hstep
          subst hstep
          exact hinv
      | crashInTruncate w i =>
          obtain ⟨dir', hrem, htr⟩ := hlive.tracks.truncate w i
          simp only [step, hrem, Option.some.injEq] at hstep
          subst hstep
          exact ⟨_, (hsound.truncate hlive.tracks w i).1, htr.mirrors.weaken torn_nil⟩
      | crash =>
          simp only [step, Option.map_some, Option.some.injEq] at hstep
          subst hstep
          exact ⟨log, hsound, hlive.tracks.mirrors.weaken torn_nil⟩

/-- **The log refines its kept records.**  After any history, the next open
succeeds; it returns, in append order, exactly the kept records above its
watermark; and its `max_lsn` is the highest LSN of the whole frames `log` that
are left on disk. -/
theorem open_replays_kept {s : LogSys} (h : Reaches step Allowed init s)
    (hclosed : s.session = none) (segmentMaxBytes : Nat) {fromLsn : Nat}
    (hfrom : s.floor ≤ fromLsn) :
    ∃ dir wal replay log, Wal.open s.dir segmentMaxBytes fromLsn = .ok (dir, wal, replay) ∧
      replay.records = (s.kept.filter fun r => fromLsn < r.lsn) ∧
      Mirrors Torn s.dir log ∧ replay.maxLsn = maxLsnOf log.flat := by
  obtain ⟨log, hsound, hlive⟩ := h.invariant Inv inv_init inv_step
  rw [hclosed] at hlive
  obtain ⟨dir', wal, hopen, -⟩ := open_tracks hlive segmentMaxBytes fromLsn
  exact ⟨dir', wal, _, log, hopen, (filter_above_floor hsound.kept_eq hfrom).symm, hlive, rfl⟩

/-- One record per segment, the third append torn inside its frame. -/
def tornHistory : List Action :=
  [.open 0 0, .append [.put [1] 1 [7]], .append [.delete [1] 2], .truncateThrough 1,
    .crashInAppend [.put [2] 3 [8]] 12]

theorem open_replays_kept_torn : ∃ s, Reaches step Allowed init s ∧ s.session = none ∧
    ∃ dir wal replay log, Wal.open s.dir 0 1 = .ok (dir, wal, replay) ∧
      replay.records = [.delete [1] 2] ∧ Mirrors Torn s.dir log ∧
      replay.maxLsn = maxLsnOf log.flat := by
  have hrun : (attempt step Allowed init tornHistory).isSome = true := by decide +kernel
  have hend : ∀ s ∈ attempt step Allowed init tornHistory, s.session = none ∧ s.floor ≤ 1 ∧
      (s.kept.filter fun r => 1 < r.lsn) = [.delete [1] 2] := by decide +kernel
  obtain ⟨s, hs⟩ := Option.isSome_iff_exists.mp hrun
  obtain ⟨hclosed, hfloor, hkept⟩ := hend s hs
  have hreach := reaches_of_attempt hs
  obtain ⟨dir, wal, replay, log, hopen, hrecs, hrest⟩ := open_replays_kept hreach hclosed 0 hfloor
  exact ⟨s, hreach, hclosed, dir, wal, replay, log, hopen, hrecs.trans hkept, hrest⟩

end LogSys

end HolyGrail
