import HolyGrail.Wal.Recovery

/-!
# HolyGrail.Wal.Reopen

Recovery over arbitrary bytes.  `open` edits the files it reads, so that it can
be repeated, and interrupted and repeated, rests on two facts that hold
whatever the files contain: a file cut back to its last good frame replays as
the whole file did (`replayFrom_take`), and the segment loop looks at a
directory only through what its files replay as (`recoverSegments_congr`).
-/

namespace HolyGrail

open Std (ExtTreeMap)

/-! ## replay of a cut file -/

section
variable {seg : FileName} {buf : Bytes} {off m good : Nat} {rs : List Record}

theorem replayFrom_bounds (h : Wal.replayFrom seg buf off = .ok (rs, m, good)) :
    off ≤ good ∧ good ≤ off + buf.length := by
  induction h using replayFrom_induction with
  | torn => omega
  | frame hd hr ih =>
      obtain ⟨-, hn⟩ := decode_consumes hd
      rw [List.length_drop] at ih
      omega

/-- **A file cut back to its last good frame replays as the whole file did.** -/
theorem replayFrom_take (h : Wal.replayFrom seg buf off = .ok (rs, m, good)) :
    Wal.replayFrom seg (buf.take (good - off)) off = .ok (rs, m, good) := by
  induction h using replayFrom_induction with
  | torn => rw [Nat.sub_self, List.take_zero, replayFrom_of_none (torn_nil seg good)]
  | @frame buf off r n rs m hd hr ih =>
      obtain ⟨hlo, hhi⟩ := replayFrom_bounds hr
      obtain ⟨hn, hle⟩ := decode_length hd
      rw [List.length_drop] at hhi
      -- The frame lies inside the cut file, and what follows it is the cut rest.
      have hcut : decode (buf.take (good - off)) seg off = .ok (some (r, n)) := by
        rw [decode_take (by omega) (by omega), hd]
      rw [replayFrom_of_some hcut, List.drop_take, Nat.sub_sub, ih]
      rfl
end

/-! ## the segment loop -/

/-- The file at `path` replays as `out`, and `file` is what is left of it when
it is cut back. -/
def Dir.ReadsAs (dir : Dir) (path : FileName) (out : List Record × Nat × Nat)
    (file : Bytes) : Prop :=
  ∃ buf, dir[path]? = some buf ∧ Wal.replaySegment path buf = .ok out ∧ buf.take out.2.2 = file

namespace Dir.ReadsAs

variable {dir dir' : Dir} {path : FileName} {out out' : List Record × Nat × Nat}
  {file file' : Bytes}

theorem unique (h : dir.ReadsAs path out file) (h' : dir.ReadsAs path out' file') :
    out = out' ∧ file = file' := by
  obtain ⟨buf, hd, hr, rfl⟩ := h
  obtain ⟨buf', hd', hr', rfl⟩ := h'
  rw [hd, Option.some.injEq] at hd'
  subst hd'
  rw [hr, Except.ok.injEq] at hr'
  subst hr'
  exact ⟨rfl, rfl⟩

theorem congr (h : dir.ReadsAs path out file) (he : dir'[path]? = dir[path]?) :
    dir'.ReadsAs path out file := by
  obtain ⟨buf, hd, hr⟩ := h
  exact ⟨buf, he.trans hd, hr⟩

/-- The cut file reads as the whole one did. -/
theorem cut (h : dir.ReadsAs path out file) (he : dir'[path]? = some file) :
    dir'.ReadsAs path out file := by
  obtain ⟨buf, -, hr, rfl⟩ := h
  obtain ⟨rs, m, good⟩ := out
  refine ⟨buf.take good, he, replayFrom_take hr, ?_⟩
  rw [List.take_take, Nat.min_self]

end Dir.ReadsAs

/-- What the loop does to one file. -/
theorem getElem?_trim (dir : Dir) (path p : FileName) {buf : Bytes} (hd : dir[path]? = some buf)
    (good : Nat) :
    (if good < buf.length then dir.setLen path good else dir)[p]? =
      if path = p then some (buf.take good) else dir[p]? := by
  by_cases he : path = p
  · subst he
    rw [if_pos rfl]
    split
    · rw [Dir.setLen, OrdMap.getElem?_modify, if_pos rfl, hd, Option.map_some]
    · rw [hd, List.take_of_length_le (by omega)]
  · rw [if_neg he]
    split
    · rw [Dir.setLen, OrdMap.getElem?_modify, if_neg he]
    · rfl

section
variable {fromLsn : Nat} {seg : Segment} {segs segs' : List Segment} {dir dir' : Dir}
  {replay : Replay}

/-- The loop reads the first segment, cuts it back, and goes on. -/
theorem recoverSegments_cons
    (h : Wal.recoverSegments fromLsn (seg :: segs) dir = .ok (dir', segs', replay)) :
    ∃ out file dir₁ segs₁ replay₁, dir.ReadsAs seg.path out file ∧
      (∀ p, dir₁[p]? = if seg.path = p then some file else dir[p]?) ∧
      Wal.recoverSegments fromLsn segs dir₁ = .ok (dir', segs₁, replay₁) ∧
      segs' = { seg with maxLsn := out.2.1 } :: segs₁ ∧
      replay = { records := out.1.filter (fun r => fromLsn < r.lsn) ++ replay₁.records
                 maxLsn := max out.2.1 replay₁.maxLsn } := by
  rw [Wal.recoverSegments] at h
  cases hd : dir[seg.path]? with
  | none => simp [hd] at h
  | some buf =>
      cases hr : Wal.replaySegment seg.path buf with
      | error e => simp [hd, hr] at h
      | ok out =>
          simp only [hd, hr] at h
          generalize hdir : (if out.2.2 < buf.length then dir.setLen seg.path out.2.2 else dir) =
            dir₁ at h
          have hcut : ∀ p, dir₁[p]? =
              if seg.path = p then some (buf.take out.2.2) else dir[p]? := by
            intro p
            rw [← hdir, getElem?_trim dir seg.path p hd]
          split at h
          · contradiction
          · next dir₂ segs₁ replay₁ hrest =>
              simp only [Except.ok.injEq, Prod.mk.injEq] at h
              obtain ⟨rfl, rfl, rfl⟩ := h
              exact ⟨out, buf.take out.2.2, dir₁, segs₁, replay₁, ⟨buf, hd, hr, rfl⟩, hcut, hrest,
                rfl, rfl⟩

/-- The other way around. -/
theorem recoverSegments_of_readsAs {out : List Record × Nat × Nat} {file : Bytes}
    (h : dir.ReadsAs seg.path out file) {dir₁ : Dir}
    (h₁ : ∀ p, dir₁[p]? = if seg.path = p then some file else dir[p]?) :
    Wal.recoverSegments fromLsn (seg :: segs) dir =
      match Wal.recoverSegments fromLsn segs dir₁ with
      | .error e => .error e
      | .ok (dir, segs, replay) =>
          .ok (dir, { seg with maxLsn := out.2.1 } :: segs,
            { records := out.1.filter (fun r => fromLsn < r.lsn) ++ replay.records
              maxLsn := max out.2.1 replay.maxLsn }) := by
  obtain ⟨buf, hd, hr, rfl⟩ := h
  have hdir : (if out.2.2 < buf.length then dir.setLen seg.path out.2.2 else dir) = dir₁ := by
    refine ExtTreeMap.ext_getElem? fun p => ?_
    rw [h₁, getElem?_trim dir seg.path p hd]
  rw [Wal.recoverSegments]
  cases hrest : Wal.recoverSegments fromLsn segs dir₁ with
  | error e => simp only [hd, hr, hdir, hrest]
  | ok rest => simp only [hd, hr, hdir, hrest]

/-- **What the loop does**: every listed file is read and cut back, and nothing
else is touched. -/
theorem recoverSegments_reads (hnd : (segs.map Segment.path).Nodup)
    (h : Wal.recoverSegments fromLsn segs dir = .ok (dir', segs', replay)) :
    (∀ seg ∈ segs, ∃ out file, dir.ReadsAs seg.path out file ∧ dir'[seg.path]? = some file) ∧
      (∀ p ∉ segs.map Segment.path, dir'[p]? = dir[p]?) ∧
      segs'.map Segment.path = segs.map Segment.path := by
  induction segs generalizing dir segs' replay with
  | nil =>
      simp only [Wal.recoverSegments, Except.ok.injEq, Prod.mk.injEq] at h
      obtain ⟨rfl, rfl, -⟩ := h
      exact ⟨fun seg hs => absurd hs List.not_mem_nil, fun p _ => rfl, rfl⟩
  | cons seg segs ih =>
      obtain ⟨out, file, dir₁, segs₁, replay₁, hread, hdir, hrest, rfl, rfl⟩ :=
        recoverSegments_cons h
      rw [List.map_cons, List.nodup_cons] at hnd
      obtain ⟨hin, hout, hpaths⟩ := ih hnd.2 hrest
      have hother : ∀ s ∈ segs, seg.path ≠ s.path := fun s hs he =>
        hnd.1 (he ▸ List.mem_map_of_mem hs)
      refine ⟨fun s hs => ?_, fun p hp => ?_, ?_⟩
      · cases hs with
        | head =>
            refine ⟨out, file, hread, ?_⟩
            rw [hout _ hnd.1, hdir, if_pos rfl]
        | tail _ hs =>
            obtain ⟨out', file', hread', hd'⟩ := hin s hs
            exact ⟨out', file', hread'.congr (by rw [hdir, if_neg (hother s hs)]), hd'⟩
      · rw [List.map_cons, List.mem_cons, not_or] at hp
        rw [hout p hp.2, hdir, if_neg fun he => hp.1 he.symm]
      · rw [List.map_cons, List.map_cons, hpaths]

/-- **The loop sees only what the files read as.** -/
theorem recoverSegments_congr (hnd : (segs.map Segment.path).Nodup)
    (h : Wal.recoverSegments fromLsn segs dir = .ok (dir', segs', replay)) {dir₂ : Dir}
    (hsame : ∀ seg ∈ segs, ∀ out file, dir.ReadsAs seg.path out file →
      dir₂.ReadsAs seg.path out file) :
    ∃ dir₂', Wal.recoverSegments fromLsn segs dir₂ = .ok (dir₂', segs', replay) := by
  induction segs generalizing dir dir₂ segs' replay with
  | nil =>
      simp only [Wal.recoverSegments, Except.ok.injEq, Prod.mk.injEq] at h
      obtain ⟨-, rfl, rfl⟩ := h
      exact ⟨dir₂, rfl⟩
  | cons seg segs ih =>
      obtain ⟨out, file, dir₁, segs₁, replay₁, hread, hdir, hrest, rfl, rfl⟩ :=
        recoverSegments_cons h
      rw [List.map_cons, List.nodup_cons] at hnd
      have hread₂ := hsame seg List.mem_cons_self out file hread
      have hother : ∀ s ∈ segs, seg.path ≠ s.path := fun s hs he =>
        hnd.1 (he ▸ List.mem_map_of_mem hs)
      have hdir₂ : ∀ p, (dir₂.insert seg.path file)[p]? =
          if seg.path = p then some file else dir₂[p]? := fun p => OrdMap.getElem?_insert _
      have hsame₂ : ∀ s ∈ segs, ∀ out file', dir₁.ReadsAs s.path out file' →
          Dir.ReadsAs (dir₂.insert seg.path file) s.path out file' := by
        intro s hs out' file' hread'
        have hread₁ : dir.ReadsAs s.path out' file' :=
          hread'.congr (by rw [hdir, if_neg (hother s hs)])
        exact (hsame s (List.mem_cons_of_mem _ hs) out' file' hread₁).congr
          (by rw [hdir₂, if_neg (hother s hs)])
      obtain ⟨dir₂', hrest₂⟩ := ih hnd.2 hrest hsame₂
      refine ⟨dir₂', ?_⟩
      rw [recoverSegments_of_readsAs hread₂ hdir₂, hrest₂]
end

/-! ## opening again -/

/-- Every file is named by `segment_name`. -/
def Dir.Named (dir : Dir) : Prop := ∀ p ∈ dir, ∃ n < 2 ^ 64, p = segmentName n

theorem mem_listSegments {dir : Dir} {seg : Segment} :
    seg ∈ Wal.listSegments dir ↔ ∃ p ∈ dir, ∃ n, startLsnOf p = some n ∧
      seg = { path := p, startLsn := n, maxLsn := 0 } := by
  simp only [Wal.listSegments, List.mem_insertionSort, List.mem_filterMap, Option.map_eq_some_iff,
    ExtTreeMap.mem_keys, eq_comm (a := seg)]

theorem nodup_listSegments (dir : Dir) : ((Wal.listSegments dir).map Segment.path).Nodup := by
  have hperm := List.perm_insertionSort (fun a b : Segment => a.startLsn ≤ b.startLsn)
    (dir.keys.filterMap fun name => (startLsnOf name).map fun start =>
      ({ path := name, startLsn := start, maxLsn := 0 } : Segment))
  refine (hperm.map Segment.path).nodup_iff.mpr ?_
  rw [List.map_filterMap]
  refine ExtTreeMap.nodup_keys.filterMap ?_
  intro a b c ha hb
  simp only [Option.map_map, Option.mem_def, Option.map_eq_some_iff, Function.comp_apply] at ha hb
  obtain ⟨m, -, rfl⟩ := ha
  obtain ⟨n, -, he⟩ := hb
  exact he.symm

theorem listSegments_congr {dir dir' : Dir} (h : ∀ p, p ∈ dir ↔ p ∈ dir') :
    Wal.listSegments dir = Wal.listSegments dir' := by
  rw [Wal.listSegments, Wal.listSegments, OrdMap.keys_congr h]

/-- A directory that has been cut back in part: it has the same files, and each
is as it was or as recovery leaves it. -/
def Dir.PartlyCut (dir dir' : Dir) : Prop :=
  ∀ p, dir'[p]? = dir[p]? ∨
    ∃ n out file, startLsnOf p = some n ∧ dir.ReadsAs p out file ∧ dir'[p]? = some file

namespace Dir.PartlyCut

variable {dir dir' : Dir}

theorem mem_iff (h : dir.PartlyCut dir') (p : FileName) : p ∈ dir ↔ p ∈ dir' := by
  rw [OrdMap.mem_iff_exists, OrdMap.mem_iff_exists]
  rcases h p with he | ⟨n, out, file, -, ⟨buf, hd, -⟩, hd'⟩
  · rw [he]
  · simp [hd, hd']

theorem readsAs (h : dir.PartlyCut dir') {p : FileName} {out : List Record × Nat × Nat}
    {file : Bytes} (hr : dir.ReadsAs p out file) : dir'.ReadsAs p out file := by
  rcases h p with he | ⟨n, out', file', -, hr', hd'⟩
  · exact hr.congr he
  · obtain ⟨rfl, rfl⟩ := hr.unique hr'
    exact hr.cut hd'

/-- **The loop over a partly cut directory ends where the loop over the whole
one does.** -/
theorem recoverSegments_eq (h : dir.PartlyCut dir') {fromLsn : Nat} {done : Dir}
    {segs : List Segment} {replay : Replay}
    (hrec : Wal.recoverSegments fromLsn (Wal.listSegments dir) dir = .ok (done, segs, replay)) :
    Wal.recoverSegments fromLsn (Wal.listSegments dir') dir' = .ok (done, segs, replay) := by
  have hnd := nodup_listSegments dir
  rw [← listSegments_congr h.mem_iff]
  obtain ⟨done', hrec'⟩ := recoverSegments_congr hnd hrec fun seg _ out file => h.readsAs
  obtain ⟨hin, hout, -⟩ := recoverSegments_reads hnd hrec
  obtain ⟨hin', hout', -⟩ := recoverSegments_reads hnd hrec'
  have hsame : done' = done := by
    refine ExtTreeMap.ext_getElem? fun p => ?_
    by_cases hp : p ∈ (Wal.listSegments dir).map Segment.path
    · obtain ⟨seg, hseg, rfl⟩ := List.mem_map.mp hp
      obtain ⟨out, file, hread, hd⟩ := hin seg hseg
      obtain ⟨out', file', hread', hd'⟩ := hin' seg hseg
      rw [hd, hd', ((h.readsAs hread).unique hread').2]
    · rw [hout p hp, hout' p hp]
      rcases h p with he | ⟨n, out, file, hn, ⟨buf, hd, -⟩, -⟩
      · exact he
      · -- A file that was cut is a segment.
        have hmem := mem_listSegments.mpr ⟨p, OrdMap.mem_of_getElem? hd, n, hn, rfl⟩
        exact absurd (List.mem_map_of_mem (f := Segment.path) hmem) hp
  rw [hrec', hsame]

theorem open_eq (h : dir.PartlyCut dir') {segmentMaxBytes fromLsn : Nat}
    {out : Dir × Wal × Replay} (hopen : Wal.open dir segmentMaxBytes fromLsn = .ok out) :
    Wal.open dir' segmentMaxBytes fromLsn = .ok out := by
  rw [Wal.open] at hopen ⊢
  cases hrec : Wal.recoverSegments fromLsn (Wal.listSegments dir) dir with
  | error e => simp [hrec] at hopen
  | ok x =>
      obtain ⟨done, segs, replay⟩ := x
      rw [hrec] at hopen
      rw [h.recoverSegments_eq hrec]
      exact hopen

end Dir.PartlyCut

/-- An interrupted loop leaves a partly cut directory. -/
theorem partlyCut_take {dir dir' : Dir} {fromLsn i : Nat} {rest : List Segment × Replay}
    (h : Wal.recoverSegments fromLsn ((Wal.listSegments dir).take i) dir = .ok (dir', rest)) :
    dir.PartlyCut dir' := by
  have hsub : ((Wal.listSegments dir).take i).Sublist (Wal.listSegments dir) :=
    List.take_sublist i _
  obtain ⟨hin, hout, -⟩ := recoverSegments_reads
    ((nodup_listSegments dir).sublist (hsub.map Segment.path)) h
  intro p
  by_cases hp : p ∈ ((Wal.listSegments dir).take i).map Segment.path
  · obtain ⟨seg, hseg, rfl⟩ := List.mem_map.mp hp
    obtain ⟨out, file, hread, hd⟩ := hin seg hseg
    obtain ⟨q, -, n, hn, rfl⟩ := mem_listSegments.mp (hsub.subset hseg)
    exact .inr ⟨n, out, file, hn, hread, hd⟩
  · exact .inl (hout p hp)

/-- The loop over some of the segments succeeds when the loop over all does. -/
theorem recoverSegments_take_ok {fromLsn : Nat} {segs segs' : List Segment} {dir dir' : Dir}
    {replay : Replay} (h : Wal.recoverSegments fromLsn segs dir = .ok (dir', segs', replay))
    (i : Nat) : ∃ out, Wal.recoverSegments fromLsn (segs.take i) dir = .ok out := by
  induction segs generalizing dir segs' replay i with
  | nil => exact ⟨_, by rw [List.take_nil, Wal.recoverSegments]⟩
  | cons seg segs ih =>
      cases i with
      | zero => exact ⟨_, by rw [List.take_zero, Wal.recoverSegments]⟩
      | succ i =>
          obtain ⟨out, file, dir₁, segs₁, replay₁, hread, hdir, hrest, -⟩ :=
            recoverSegments_cons h
          obtain ⟨⟨dir₂, segs₂, replay₂⟩, hsome⟩ := ih hrest i
          rw [List.take_succ_cons, recoverSegments_of_readsAs hread hdir, hsome]
          exact ⟨_, rfl⟩

theorem listSegments_first :
    Wal.listSegments (Dir.create ∅ (segmentName 0)) = [⟨segmentName 0, 0, 0⟩] := by
  decide +kernel

/-- What `open` makes of an empty directory. -/
def Wal.first (segmentMaxBytes : Nat) : Dir × Wal × Replay :=
  (Dir.create ∅ (segmentName 0),
    { segmentMaxBytes, active := ⟨segmentName 0, 0, 0⟩, activeBytes := 0, sealed := [] },
    { records := [], maxLsn := 0 })

theorem open_empty (segmentMaxBytes fromLsn : Nat) :
    Wal.open ∅ segmentMaxBytes fromLsn = .ok (Wal.first segmentMaxBytes) := by
  have hlist : Wal.listSegments ∅ = [] := by decide +kernel
  rw [Wal.open, hlist]
  rfl

/-- It opens again as it stands. -/
theorem open_first (segmentMaxBytes fromLsn : Nat) :
    Wal.open (Wal.first segmentMaxBytes).1 segmentMaxBytes fromLsn =
      .ok (Wal.first segmentMaxBytes) := by
  change Wal.open (Dir.create ∅ (segmentName 0)) segmentMaxBytes fromLsn = _
  have hfile : (Dir.create ∅ (segmentName 0))[segmentName 0]? = some [] := by
    simp [Dir.create]
  have hread : (Dir.create ∅ (segmentName 0)).ReadsAs (Segment.path ⟨segmentName 0, 0, 0⟩)
      ([], 0, 0) [] :=
    ⟨[], hfile, replayFrom_of_none (torn_nil _ 0), rfl⟩
  have hsame : ∀ p, (Dir.create ∅ (segmentName 0))[p]? =
      if segmentName 0 = p then some [] else (Dir.create ∅ (segmentName 0))[p]? := by
    intro p
    split
    · next he => rw [← he, hfile]
    · rfl
  rw [Wal.open, listSegments_first]
  rw [recoverSegments_of_readsAs hread hsame]
  simp only [Wal.recoverSegments, List.getLast?_singleton, List.dropLast_singleton, hfile,
    Option.getD_some, List.length_nil, List.filter_nil, List.nil_append, Nat.max_self]
  rw [Wal.first, Dir.create, if_pos (OrdMap.mem_of_getElem? hfile)]

theorem getElem?_create {dir : Dir} {p q : FileName} (hp : p ∈ dir) :
    (dir.create q)[p]? = dir[p]? := by
  rw [Dir.create]
  split
  · rfl
  · next hq =>
      have hne : q ≠ p := fun he => hq (he ▸ hp)
      rw [OrdMap.getElem?_insert_ne _ hne]

/-- An `open` that succeeded: the loop did, and the log is open on the last
segment, or on a first one. -/
theorem open_inv {dir dir' : Dir} {segmentMaxBytes fromLsn : Nat} {wal : Wal} {replay : Replay}
    (h : Wal.open dir segmentMaxBytes fromLsn = .ok (dir', wal, replay)) :
    ∃ done segs,
      Wal.recoverSegments fromLsn (Wal.listSegments dir) dir = .ok (done, segs, replay) ∧
      dir' = done.create wal.active.path ∧
      ((segs = [] ∧ wal.sealed = [] ∧ wal.active.path = segmentName 0) ∨
        segs = wal.sealed ++ [wal.active]) := by
  rw [Wal.open] at h
  cases hrec : Wal.recoverSegments fromLsn (Wal.listSegments dir) dir with
  | error e => simp [hrec] at h
  | ok x =>
      obtain ⟨done, segs, replay'⟩ := x
      rw [hrec] at h
      simp only [Except.ok.injEq, Prod.mk.injEq] at h
      obtain ⟨rfl, rfl, rfl⟩ := h
      refine ⟨done, segs, rfl, rfl, ?_⟩
      cases hlast : segs.getLast? with
      | some last =>
          exact .inr (List.dropLast_append_getLast? last hlast).symm
      | none => exact .inl ⟨List.getLast?_eq_none_iff.mp hlast, rfl, rfl⟩

/-- The files `open` leaves are cut back or fresh. -/
theorem open_cases {dir dir' : Dir} {segmentMaxBytes fromLsn : Nat} {wal : Wal} {replay : Replay}
    (hnames : dir.Named) (h : Wal.open dir segmentMaxBytes fromLsn = .ok (dir', wal, replay)) :
    dir.PartlyCut dir' ∨ dir = ∅ := by
  obtain ⟨done, segs, hrec, rfl, hsegs⟩ := open_inv h
  obtain ⟨hin, -, hpaths⟩ := recoverSegments_reads (nodup_listSegments dir) hrec
  rcases hsegs with ⟨hnil, -, -⟩ | hsegs
  · right
    rw [hnil, List.map_nil, eq_comm, List.map_eq_nil_iff] at hpaths
    refine OrdMap.eq_empty_of_forall_not_mem fun p hp => ?_
    obtain ⟨n, hn, rfl⟩ := hnames p hp
    have hmem := mem_listSegments.mpr ⟨_, hp, n, startLsnOf_segmentName hn, rfl⟩
    rw [hpaths] at hmem
    exact List.not_mem_nil hmem
  · -- The active segment is one of the files.
    left
    have hmem : wal.active.path ∈ segs.map Segment.path := by simp [hsegs]
    rw [hpaths] at hmem
    obtain ⟨seg, hseg, he⟩ := List.mem_map.mp hmem
    obtain ⟨out, file, -, hd⟩ := hin seg hseg
    rw [Dir.create, ← he, if_pos (OrdMap.mem_of_getElem? hd)]
    exact partlyCut_take (i := (Wal.listSegments dir).length)
      (by rw [List.take_length]; exact hrec)

/-- **Recovery is idempotent and restartable.**  Whatever the segment files
contain, an `open` that succeeded leaves a directory that opens again with no
change to any file and to the same log and replay; and an `open` that was
interrupted after it had cut back any number of segments, and is run again,
ends with the same files, log and replay. -/
theorem open_idempotent {dir dir' : Dir} (hnames : dir.Named) {segmentMaxBytes fromLsn : Nat}
    {wal : Wal} {replay : Replay}
    (h : Wal.open dir segmentMaxBytes fromLsn = .ok (dir', wal, replay)) :
    Wal.open dir' segmentMaxBytes fromLsn = .ok (dir', wal, replay) ∧
      ∀ i, ∃ dirᵢ rest, Wal.recoverSegments fromLsn ((Wal.listSegments dir).take i) dir =
          .ok (dirᵢ, rest) ∧
        Wal.open dirᵢ segmentMaxBytes fromLsn = .ok (dir', wal, replay) := by
  constructor
  · rcases open_cases hnames h with hcut | rfl
    · exact hcut.open_eq h
    · rw [open_empty, Except.ok.injEq] at h
      have hfirst := open_first segmentMaxBytes fromLsn
      rw [h] at hfirst
      exact hfirst
  · intro i
    obtain ⟨done, segs, hrec, -⟩ := open_inv h
    obtain ⟨⟨dirᵢ, rest⟩, htake⟩ := recoverSegments_take_ok hrec i
    exact ⟨dirᵢ, rest, htake, (partlyCut_take htake).open_eq h⟩

/-- Two segments, one with garbage behind its frame and one of garbage only. -/
def mangled : Dir :=
  (ExtTreeMap.empty.insert (segmentName 0) (frame (.put [1] 1 [7]) ++ [1, 2, 3])).insert
    (segmentName 2) [9, 9, 9, 9, 9, 9, 9, 9, 9]

theorem named_mangled : mangled.Named := by
  intro p hp
  rw [mangled, OrdMap.mem_insert, OrdMap.mem_insert] at hp
  rcases hp with rfl | rfl | hp
  · exact ⟨2, by decide, rfl⟩
  · exact ⟨0, by decide, rfl⟩
  · exact absurd hp ExtTreeMap.not_mem_empty

theorem open_idempotent_mangled : ∃ dir wal replay,
    Wal.open mangled 64 0 = .ok (dir, wal, replay) ∧ replay.records = [.put [1] 1 [7]] ∧
      Wal.open dir 64 0 = .ok (dir, wal, replay) ∧
      ∀ i, ∃ dirᵢ rest, Wal.recoverSegments 0 ((Wal.listSegments mangled).take i) mangled =
          .ok (dirᵢ, rest) ∧
        Wal.open dirᵢ 64 0 = .ok (dir, wal, replay) := by
  have hrun : (Wal.open mangled 64 0).toOption.any
      (fun out => out.2.2.records = [.put [1] 1 [7]]) = true := by decide +kernel
  cases hopen : Wal.open mangled 64 0 with
  | error e => simp [hopen, Except.toOption] at hrun
  | ok out =>
      obtain ⟨dir, wal, replay⟩ := out
      obtain ⟨hagain, hcut⟩ := open_idempotent named_mangled hopen
      simp only [hopen, Except.toOption, Option.any_some, decide_eq_true_eq] at hrun
      exact ⟨dir, wal, replay, rfl, hrun, hagain, hcut⟩

end HolyGrail
