import HolyGrail.Wal.Log

/-!
# HolyGrail.Wal.Tracks

The bookkeeping of an open log.  `Tracks dir wal log` says that the active
segment and every sealed segment with records are where `wal` believes they
are, with the highest LSN `wal` believes they have.

A sealed segment with `maxLsn = 0` is exempt: rotating onto an empty file of
the same name (which an LSN reissued after a crash can do) leaves such an
entry behind, and truncation never touches it.
-/

namespace HolyGrail

open Std (ExtTreeMap)

structure Tracks (dir : Dir) (wal : Wal) (log : Log) : Prop where
  mirrors : Mirrors Clean dir log
  active_path : wal.active.path = segmentName wal.active.startLsn
  active_mem : ∃ rs, log[wal.active.startLsn]? = some rs ∧ wal.active.maxLsn = maxLsnOf rs ∧
    wal.activeBytes = (frames rs).length
  sealed_mem : ∀ s ∈ wal.sealed, 0 < s.maxLsn →
    s.startLsn ≠ wal.active.startLsn ∧ s.path = segmentName s.startLsn ∧
      ∃ rs, log[s.startLsn]? = some rs ∧ s.maxLsn = maxLsnOf rs
  sealed_nodup : ((wal.sealed.filter (0 < ·.maxLsn)).map Segment.startLsn).Nodup

/-- The segment a batch starting at `lsn` lands in. -/
def Wal.landing (wal : Wal) (lsn : Nat) : Nat :=
  if wal.activeBytes ≥ wal.segmentMaxBytes then lsn else wal.active.startLsn

/-- The name `lsn` is free for a rotation: no segment has it, or an empty one. -/
def Log.Free (log : Log) (lsn : Nat) : Prop := ∀ rs, log[lsn]? = some rs → rs = []

namespace Tracks

variable {dir : Dir} {wal : Wal} {log : Log}

/-- A segment with a positive `maxLsn` has records. -/
theorem ne_of_free {s : Segment} {l : Nat} {rs : List Record} (hfree : log.Free l)
    (hmax : s.maxLsn = maxLsnOf rs) (hpos : 0 < s.maxLsn) (hrs : log[s.startLsn]? = some rs) :
    s.startLsn ≠ l := by
  rintro rfl
  rw [hmax, hfree rs hrs, maxLsnOf_nil] at hpos
  exact Nat.lt_irrefl 0 hpos

/-- A segment file with nothing in it has no records. -/
theorem free_of_empty (h : Tracks dir wal log)
    (he : dir[segmentName l]?.getD [] = []) : log.Free l := by
  intro rs hrs
  obtain ⟨tail, ht, hd⟩ := h.mirrors.framed l rs hrs
  rw [hd, Option.getD_some] at he
  cases rs with
  | nil => rfl
  | cons r rs =>
      have hlen := congrArg List.length he
      rw [frames_cons] at hlen
      simp [frame] at hlen

theorem empty_of_free (h : Tracks dir wal log) (hlt : l < 2 ^ 64) (hfree : log.Free l) :
    dir[segmentName l]?.getD [] = [] := by
  by_cases hl : l ∈ log
  · obtain ⟨rs, hrs⟩ := OrdMap.mem_iff_exists.mp hl
    obtain ⟨tail, ht, hd⟩ := h.mirrors.framed l rs hrs
    rw [hd, hfree rs hrs, ht]
    rfl
  · rw [OrdMap.getElem?_eq_none_iff.mpr (h.mirrors.not_mem_dir hlt hl)]
    rfl

theorem rotate (h : Tracks dir wal log) (hlt : l < 2 ^ 64) (hfree : log.Free l) :
    Tracks (wal.rotate dir l).1 (wal.rotate dir l).2 (log.insert l []) := by
  have hopen : l ∉ log ∨ dir[segmentName l]? = some [] := by
    by_cases hl : l ∈ log
    · obtain ⟨rs, hrs⟩ := OrdMap.mem_iff_exists.mp hl
      obtain ⟨tail, ht, hd⟩ := h.mirrors.framed l rs hrs
      rw [hfree rs hrs, ht] at hd
      exact .inr hd
    · exact .inl hl
  obtain ⟨rs, hrs, hmax, -⟩ := h.active_mem
  -- Every segment that counts has records, so none of them has the free name.
  have hact : 0 < wal.active.maxLsn → wal.active.startLsn ≠ l :=
    fun hpos => ne_of_free hfree hmax hpos hrs
  refine ⟨h.mirrors.create clean_nil hlt hopen, rfl,
    ⟨[], ExtTreeMap.getElem?_insert_self, rfl, rfl⟩,
    fun s hs hpos => ?_, ?_⟩
  · simp only [Wal.rotate, List.mem_append, List.mem_singleton] at hs ⊢
    cases hs with
    | inl hs =>
        obtain ⟨-, hpath, ss, hss, hsmax⟩ := h.sealed_mem s hs hpos
        have hne := ne_of_free hfree hsmax hpos hss
        exact ⟨hne, hpath, ss, by rw [OrdMap.getElem?_insert_ne _ hne.symm]; exact hss, hsmax⟩
    | inr hs =>
        subst hs
        have hne := hact hpos
        exact ⟨hne, h.active_path, rs,
          by rw [OrdMap.getElem?_insert_ne _ hne.symm]; exact hrs, hmax⟩
  · simp only [Wal.rotate, List.filter_append, List.map_append]
    refine h.sealed_nodup.append ?_ ?_
    · by_cases hpos : 0 < wal.active.maxLsn <;> simp [hpos]
    · intro m hm hm'
      by_cases hpos : 0 < wal.active.maxLsn
      · simp only [List.filter_cons, decide_eq_true_eq, hpos, if_true, List.filter_nil,
          List.map_cons, List.map_nil, List.mem_singleton] at hm'
        obtain ⟨s, hs, rfl⟩ := List.mem_map.mp hm
        rw [List.mem_filter, decide_eq_true_eq] at hs
        exact (h.sealed_mem s hs.1 hs.2).1 hm'
      · simp [hpos] at hm'

theorem makeRoom (h : Tracks dir wal log) (hlt : l < 2 ^ 64)
    (hfree : wal.activeBytes ≥ wal.segmentMaxBytes → log.Free l) :
    Tracks (wal.makeRoom dir l).1 (wal.makeRoom dir l).2 (log.extend (wal.landing l) []) ∧
      (wal.makeRoom dir l).2.active.startLsn = wal.landing l := by
  by_cases hfull : wal.activeBytes ≥ wal.segmentMaxBytes
  · have hfree := hfree hfull
    have hempty : log[l]?.getD [] = [] := by
      cases hl : log[l]? with
      | none => rfl
      | some rs => exact hfree rs hl
    simp only [Wal.makeRoom, Wal.landing, if_pos hfull, Log.extend, hempty, List.append_nil]
    exact ⟨h.rotate hlt hfree, rfl⟩
  · obtain ⟨rs, hrs, -⟩ := h.active_mem
    have hsame : log.extend wal.active.startLsn [] = log := by
      refine ExtTreeMap.ext_getElem? fun m => ?_
      rw [Log.extend, OrdMap.getElem?_insert]
      split
      · next he => rw [← he, hrs]; simp
      · rfl
    simp only [Wal.makeRoom, Wal.landing, if_neg hfull, hsame]
    exact ⟨h, trivial⟩

theorem extend_extend (log : Log) (n : Nat) (ss : List Record) :
    (log.extend n []).extend n ss = log.extend n ss := by
  refine ExtTreeMap.ext_getElem? fun m => ?_
  simp only [Log.extend, OrdMap.getElem?_insert, ExtTreeMap.getElem?_insert_self]
  split <;> simp

/-- **A returned append** adds its batch to one segment. -/
theorem append (h : Tracks dir wal log) {first : Record} {rest : List Record}
    (hfit : ∀ r ∈ first :: rest, Fits r)
    (hfree : wal.activeBytes ≥ wal.segmentMaxBytes → log.Free first.lsn) :
    Tracks (wal.append dir (first :: rest)).1 (wal.append dir (first :: rest)).2
      (log.extend (wal.landing first.lsn) (first :: rest)) := by
  obtain ⟨hroom, hstart⟩ := h.makeRoom (hfit first List.mem_cons_self).lsn_lt hfree
  rw [← extend_extend]
  rw [Wal.append]
  generalize wal.makeRoom dir first.lsn = room at hroom hstart
  generalize log.extend (wal.landing first.lsn) [] = log at hroom
  obtain ⟨dir, wal'⟩ := room
  dsimp only at hroom hstart ⊢
  rw [← hstart]
  obtain ⟨rs, hrs, hmax, hbytes⟩ := hroom.active_mem
  have happ := hroom.mirrors.append hrs hfit clean_nil clean_nil
  rw [List.append_nil] at happ
  refine ⟨?_, hroom.active_path, ⟨rs ++ (first :: rest), ?_, ?_, ?_⟩, fun s hs hpos => ?_,
    hroom.sealed_nodup⟩
  · rw [hroom.active_path, Log.extend, hrs]
    exact happ
  · rw [Log.extend, hrs]
    exact ExtTreeMap.getElem?_insert_self
  · rw [maxLsnOf_append, hmax]
  · rw [frames_append, List.length_append, hbytes]
  · obtain ⟨hne, hpath, ss, hss, hsmax⟩ := hroom.sealed_mem s hs hpos
    exact ⟨hne, hpath, ss,
      by rw [Log.extend, OrdMap.getElem?_insert_ne _ hne.symm]; exact hss, hsmax⟩

/-- **A torn append** adds the whole frames that survived, and a torn tail. -/
theorem appendTorn (h : Tracks dir wal log) {first : Record} {rest : List Record}
    (hfit : ∀ r ∈ first :: rest, Fits r)
    (hfree : wal.activeBytes ≥ wal.segmentMaxBytes → log.Free first.lsn) (n : Nat) :
    Mirrors Torn (wal.appendTorn dir (first :: rest) n)
      (log.extend (wal.landing first.lsn) (survivors (first :: rest) n)) := by
  obtain ⟨hroom, hstart⟩ := h.makeRoom (hfit first List.mem_cons_self).lsn_lt hfree
  obtain ⟨tail, htake, htorn⟩ := take_frames hfit n
  rw [← extend_extend]
  rw [Wal.appendTorn]
  generalize wal.makeRoom dir first.lsn = room at hroom hstart
  generalize log.extend (wal.landing first.lsn) [] = log at hroom
  obtain ⟨dir, wal'⟩ := room
  dsimp only at hroom hstart ⊢
  obtain ⟨rs, hrs, -⟩ := hroom.active_mem
  rw [← hstart, htake, hroom.active_path, Log.extend, hrs]
  refine hroom.mirrors.append hrs (fun r hr => hfit r ?_) htorn torn_nil
  exact (prefix_survivors (first :: rest) n).subset hr

/-! ## truncation -/

theorem removeAll_mirrors {Tail : Bytes → Prop} {segs : List Segment} {dir : Dir} {log : Log}
    (h : Mirrors Tail dir log)
    (hmem : ∀ s ∈ segs, s.path = segmentName s.startLsn ∧ s.startLsn ∈ log)
    (hnd : (segs.map Segment.startLsn).Nodup) :
    ∃ dir', Wal.removeAll segs dir = .ok dir' ∧
      Mirrors Tail dir' (log.eraseAll (segs.map Segment.startLsn)) := by
  induction segs generalizing dir log with
  | nil => exact ⟨dir, rfl, h⟩
  | cons s segs ih =>
      obtain ⟨hpath, hs⟩ := hmem s List.mem_cons_self
      obtain ⟨dir₁, hrem, h₁⟩ := h.remove hs
      rw [List.map_cons, List.nodup_cons] at hnd
      have hmem₁ : ∀ t ∈ segs, t.path = segmentName t.startLsn ∧
          t.startLsn ∈ log.erase s.startLsn := by
        intro t ht
        obtain ⟨htpath, ht'⟩ := hmem t (List.mem_cons_of_mem s ht)
        refine ⟨htpath, OrdMap.mem_erase.mpr ⟨?_, ht'⟩⟩
        intro he
        exact hnd.1 (he ▸ List.mem_map_of_mem ht)
      obtain ⟨dir', hall, h'⟩ := ih h₁ hmem₁ hnd.2
      refine ⟨dir', ?_, h'⟩
      rw [Wal.removeAll, hpath, hrem]
      exact hall

/-- The start LSNs of the first `i` segments a truncation deletes. -/
def coveredStarts (wal : Wal) (w i : Nat) : List Nat :=
  ((wal.covered w).take i).map Segment.startLsn

/-- A covered segment is sealed and has records. -/
theorem covered_mem (h : Tracks dir wal log) (hs : s ∈ wal.covered w) :
    s.startLsn ≠ wal.active.startLsn ∧ s.path = segmentName s.startLsn ∧
      ∃ rs, log[s.startLsn]? = some rs ∧ ∀ r ∈ rs, r.lsn ≤ w := by
  simp only [Wal.covered, List.mem_filter, Bool.decide_and, Bool.and_eq_true,
    decide_eq_true_eq] at hs
  obtain ⟨hne, hpath, rs, hrs, hmax⟩ := h.sealed_mem s hs.1 hs.2.2
  refine ⟨hne, hpath, rs, hrs, fun r hr => ?_⟩
  have := le_maxLsnOf hr
  omega

/-- **Truncation, up to its `i`-th deletion.**  The bookkeeping forgets every
covered segment at once; the files go one by one. -/
theorem truncate (h : Tracks dir wal log) (w i : Nat) :
    ∃ dir', Wal.removeAll ((wal.covered w).take i) dir = .ok dir' ∧
      Tracks dir' (wal.dropCovered w) (log.eraseAll (coveredStarts wal w i)) := by
  have hsub : ((wal.covered w).take i).Sublist (wal.sealed.filter (0 < ·.maxLsn)) := by
    refine (List.take_sublist _ _).trans ?_
    refine List.monotone_filter_right _ fun s hs => ?_
    simp only [Bool.decide_and, Bool.and_eq_true, decide_eq_true_eq] at hs ⊢
    exact hs.2
  have hmem : ∀ s ∈ (wal.covered w).take i,
      s.path = segmentName s.startLsn ∧ s.startLsn ∈ log := by
    intro s hs
    obtain ⟨-, hpath, rs, hrs, -⟩ := h.covered_mem (List.mem_of_mem_take hs)
    exact ⟨hpath, OrdMap.mem_of_getElem? hrs⟩
  obtain ⟨dir', hrem, hmir⟩ := removeAll_mirrors h.mirrors hmem
    (h.sealed_nodup.sublist (hsub.map Segment.startLsn))
  -- What stays on the books keeps its file: only covered segments are erased.
  have hkeep : ∀ s ∈ wal.sealed, 0 < s.maxLsn → ¬ s.maxLsn ≤ w →
      s.startLsn ∉ coveredStarts wal w i := by
    intro s hs hpos hgt hc
    obtain ⟨t, ht, hts⟩ := List.mem_map.mp hc
    obtain ⟨-, -, rs, hrs, hle⟩ := h.covered_mem (List.mem_of_mem_take ht)
    obtain ⟨-, -, ss, hss, hsmax⟩ := h.sealed_mem s hs hpos
    rw [hts, hss] at hrs
    rw [← Option.some.inj hrs] at hle
    exact hgt (hsmax ▸ maxLsnOf_le hle)
  have hactive : wal.active.startLsn ∉ coveredStarts wal w i := by
    intro hc
    obtain ⟨t, ht, hts⟩ := List.mem_map.mp hc
    exact (h.covered_mem (List.mem_of_mem_take ht)).1 hts
  obtain ⟨rs, hrs, hmax, hbytes⟩ := h.active_mem
  refine ⟨dir', hrem, hmir, h.active_path, ⟨rs, ?_, hmax, hbytes⟩, fun s hs hpos => ?_, ?_⟩
  · rw [Log.getElem?_eraseAll]
    exact (if_neg hactive).trans hrs
  · simp only [Wal.dropCovered, List.mem_filter, decide_eq_true_eq] at hs
    obtain ⟨hne, hpath, ss, hss, hsmax⟩ := h.sealed_mem s hs.1 hpos
    refine ⟨hne, hpath, ss, ?_, hsmax⟩
    rw [Log.getElem?_eraseAll, if_neg (hkeep s hs.1 hpos (by omega))]
    exact hss
  · refine h.sealed_nodup.sublist (List.Sublist.map _ ?_)
    rw [Wal.dropCovered]
    exact List.filter_sublist.filter _

theorem truncateThrough (h : Tracks dir wal log) (w : Nat) :
    ∃ dir', wal.truncateThrough dir w = .ok (dir', wal.dropCovered w) ∧
      Tracks dir' (wal.dropCovered w)
        (log.eraseAll (coveredStarts wal w (wal.covered w).length)) := by
  obtain ⟨dir', hrem, htr⟩ := h.truncate w (wal.covered w).length
  rw [List.take_length] at hrem
  exact ⟨dir', by rw [Wal.truncateThrough, hrem], htr⟩

theorem holds_of_eraseAll {ns : List Nat} (h : (log.eraseAll ns).Holds r) : log.Holds r := by
  obtain ⟨n, rs, hn, hr⟩ := h
  rw [Log.getElem?_eraseAll] at hn
  split at hn
  · contradiction
  · exact ⟨n, rs, hn, hr⟩

/-- Truncation drops no record above the watermark. -/
theorem holds_eraseAll (h : Tracks dir wal log) (hr : log.Holds r) (hw : w < r.lsn) (i : Nat) :
    (log.eraseAll (coveredStarts wal w i)).Holds r := by
  obtain ⟨n, rs, hn, hmem⟩ := hr
  refine ⟨n, rs, ?_, hmem⟩
  rw [Log.getElem?_eraseAll, if_neg]
  · exact hn
  · intro hc
    obtain ⟨t, ht, hts⟩ := List.mem_map.mp hc
    obtain ⟨-, -, ss, hss, hle⟩ := h.covered_mem (List.mem_of_mem_take ht)
    rw [hts, hn] at hss
    rw [← Option.some.inj hss] at hle
    exact absurd (hle r hmem) (by omega)

end Tracks

end HolyGrail
