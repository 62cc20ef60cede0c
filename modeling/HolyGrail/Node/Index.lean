import HolyGrail.Node.Moves

/-!
# HolyGrail.Node.Index

The in-memory file index under overlapping flushes.

`publish_index` queries the catalog and then stores the result, with an await
in between.  Live files are only ever added, so a query returns the index of a
prefix of the lake, and two indexes are compared by how many files they list.

Which of two queries lists more files is a matter of the order of the steps, and
`Dated` says it of the index each flush holds, of the lake and of the installed
index.  A flush has been overtaken when another file was published since its
query and a flush that queried after that has installed (`Overtaken`).  While no
overtaken flush installs, the index only grows and a retired memtable's file
stays in it (`index_never_older`); one that does install leaves fewer files in
the index (`Current.loses`).
-/

namespace HolyGrail

open Std (ExtTreeMap)
open scoped List

/-! ## snapshots of the catalog -/

theorem FileIndex.loadEntries_ok {files : List DataFile} {entries : List FileEntry}
    (h : loadEntries files = .ok entries) : entries = files.map DataFile.entry := by
  induction files generalizing entries with
  | nil => exact (Except.ok.inj h).symm
  | cons f rest ih =>
      rw [loadEntries] at h
      split at h
      · contradiction
      · split at h
        · contradiction
        · next es hes =>
            rw [← Except.ok.inj h, List.map_cons, ih hes]
            rfl

theorem FileIndex.load_perm {files : List DataFile} {index : FileIndex}
    (h : load files = .ok index) : index.entries.Perm (files.map DataFile.entry) := by
  rw [load] at h
  split at h
  · contradiction
  · next es hes =>
      rw [← Except.ok.inj h, ← loadEntries_ok hes]
      exact List.perm_insertionSort _ es

/-- The index of the first files of the lake. -/
def Snapshot (lake : List DataFile) (index : FileIndex) : Prop :=
  ∃ files, files <+: lake ∧ FileIndex.load files = .ok index

theorem Snapshot.append {lake : List DataFile} {index : FileIndex} (h : Snapshot lake index)
    (files : List DataFile) : Snapshot (lake ++ files) index := by
  obtain ⟨fs, hpre, hload⟩ := h
  exact ⟨fs, hpre.trans (List.prefix_append _ _), hload⟩

theorem Snapshot.length_le {lake : List DataFile} {index : FileIndex} (h : Snapshot lake index) :
    index.entries.length ≤ lake.length := by
  obtain ⟨files, hpre, hload⟩ := h
  rw [(FileIndex.load_perm hload).length_eq, List.length_map]
  exact hpre.length_le

/-- Of two snapshots, the one with more files has all entries of the other. -/
theorem Snapshot.subperm {lake : List DataFile} {i j : FileIndex} (hi : Snapshot lake i)
    (hj : Snapshot lake j) (hle : i.entries.length ≤ j.entries.length) :
    i.entries <+~ j.entries := by
  obtain ⟨fs, hfs, hi⟩ := hi
  obtain ⟨gs, hgs, hj⟩ := hj
  have hi := FileIndex.load_perm hi
  have hj := FileIndex.load_perm hj
  rw [hi.length_eq, hj.length_eq, List.length_map, List.length_map] at hle
  have hpre := List.prefix_of_prefix_length_le hfs hgs hle
  have hmap : fs.map DataFile.entry <+~ gs.map DataFile.entry := (hpre.sublist.map _).subperm
  exact hi.subperm.trans (hmap.trans hj.symm.subperm)

/-! ## the invariant -/

namespace Node

/-- What a flush knows about the index at each stage. -/
def StageIndexed (lake : List DataFile) (index : FileIndex) : FlushStage → Prop
  | .published _ f => f ∈ lake
  | .queried _ f idx => Snapshot lake idx ∧ f.entry ∈ idx.entries
  | .covered _ file | .truncated _ file => ∀ f ∈ file, f.entry ∈ index.entries
  | .frozen | .read _ | .planned _ | .staged _ _ => True

theorem StageIndexed.append {lake : List DataFile} {index : FileIndex} {stage : FlushStage}
    (h : StageIndexed lake index stage) (files : List DataFile) :
    StageIndexed (lake ++ files) index stage := by
  cases stage with
  | published w f => exact List.mem_append_left _ h
  | queried w f idx => exact ⟨h.1.append files, h.2⟩
  | covered result file | truncated result file => exact h
  | frozen | read w | planned w | staged w bs => trivial

theorem StageIndexed.grow {lake : List DataFile} {i j : FileIndex} {stage : FlushStage}
    (h : StageIndexed lake i stage) (hsub : i.entries ⊆ j.entries) :
    StageIndexed lake j stage := by
  cases stage with
  | published w f | queried w f idx => exact h
  | covered result file | truncated result file => exact fun f hf => hsub (h f hf)
  | frozen | read w | planned w | staged w bs => trivial

structure Indexed (n : Node) : Prop where
  snapshot : Snapshot n.store.lake n.engine.index
  calls : ∀ (p : Nat) (call : FlushCall), n.flushes[p]? = some call →
    StageIndexed n.store.lake n.engine.index call.stage
  retired : ∀ f ∈ n.trail.retired, f.entry ∈ n.engine.index.entries

/-- A file was published since the query of flush `p`. -/
def Outdated (order : List (IndexStep × Nat)) (p : Nat) : Prop :=
  ∃ r, [(.query, p), (.publish, r)] <+ order

/-- A file was published since the query of flush `p`, and flush `q` queried after
that. -/
def Older (order : List (IndexStep × Nat)) (p q : Nat) : Prop :=
  ∃ r, [(.query, p), (.publish, r), (.query, q)] <+ order

/-- Flush `p` has been overtaken: since its query a file was published, and a
flush that queried after that has installed. -/
def Overtaken (order : List (IndexStep × Nat)) (p : Nat) : Prop :=
  ∃ r q, [(.query, p), (.publish, r), (.query, q), (.install, q)] <+ order

/-- No flush installs once it has been overtaken. -/
def InstallInOrder (n : Node) : Act → Prop
  | .install p => ¬ Overtaken n.trail.order p
  | _ => True

instance (order : List (IndexStep × Nat)) (p : Nat) : Decidable (Overtaken order p) :=
  decidable_of_iff (∃ r ∈ order.map Prod.snd, ∃ q ∈ order.map Prod.snd,
      [(.query, p), (.publish, r), (.query, q), (.install, q)] <+ order) <| by
    constructor
    · rintro ⟨r, -, q, -, h⟩
      exact ⟨r, q, h⟩
    · rintro ⟨r, q, h⟩
      have hr : (.publish, r) ∈ order := h.subset (by simp)
      have hq : (.query, q) ∈ order := h.subset (by simp)
      exact ⟨r, List.mem_map_of_mem hr, q, List.mem_map_of_mem hq, h⟩

instance (n : Node) (a : Act) : Decidable (n.InstallInOrder a) := by
  unfold InstallInOrder
  split <;> infer_instance

/-- A flush stores an index that lists at least as many files as the one
installed, as it does when it has not been overtaken. -/
def InstallNotOlder (n : Node) : Act → Prop
  | .install p =>
      match n.flushes[p]? with
      | some ⟨_, .queried _ _ index⟩ => n.engine.index.entries.length ≤ index.entries.length
      | _ => True
  | _ => True

namespace Indexed

variable {n n' : Node} (h : n.Indexed)
include h

/-- A flush moves to a stage it has earned; the index and the lake stay. -/
theorem insert {p : Nat} {call : FlushCall}
    (hs : StageIndexed n.store.lake n.engine.index call.stage) (q : Nat) (c : FlushCall)
    (hq : (n.flushes.insert p call)[q]? = some c) :
    StageIndexed n.store.lake n.engine.index c.stage := by
  rw [OrdMap.getElem?_insert] at hq
  split at hq
  · rw [← Option.some.inj hq]
    exact hs
  · exact h.calls q c hq

theorem erase {p : Nat} (q : Nat) (c : FlushCall) (hq : (n.flushes.erase p)[q]? = some c) :
    StageIndexed n.store.lake n.engine.index c.stage := by
  rw [OrdMap.getElem?_erase] at hq
  split at hq
  · contradiction
  · exact h.calls q c hq

theorem publish {p w : Nat} {mt : Arc Memtable} (f : DataFile) (trail : Trail)
    (hret : trail.retired = n.trail.retired) :
    Indexed { n with
      store := { n.store with lake := n.store.lake ++ [f] }
      flushes := n.flushes.insert p ⟨mt, .published w f⟩
      trail } where
  snapshot := h.snapshot.append [f]
  calls q c hq := by
    rw [OrdMap.getElem?_insert] at hq
    split at hq
    · rw [← Option.some.inj hq]
      exact List.mem_append_right _ List.mem_cons_self
    · exact (h.calls q c hq).append [f]
  retired := by
    intro g hg
    rw [hret] at hg
    exact h.retired g hg

theorem install {p w : Nat} {mt : Arc Memtable} {f : DataFile} {index : FileIndex}
    (hc : n.flushes[p]? = some ⟨mt, .queried w f index⟩)
    (hle : n.engine.index.entries.length ≤ index.entries.length) (q : Nat) (trail : Trail)
    (hret : trail.retired = n.trail.retired) :
    Indexed { n with
      engine := { n.engine with index }
      flushes := n.flushes.insert q ⟨mt, .covered (.committed w 1) (some f)⟩
      trail } := by
  obtain ⟨hsnap, hf⟩ := h.calls p _ hc
  have hsub := (h.snapshot.subperm hsnap hle).subset
  refine ⟨hsnap, fun q' c hq => ?_, fun g hg => hsub (h.retired g (hret ▸ hg))⟩
  rw [OrdMap.getElem?_insert] at hq
  split at hq
  · rw [← Option.some.inj hq]
    intro g hg
    rw [← Option.some.inj hg]
    exact hf
  · exact (h.calls q' c hq).grow hsub

end Indexed

/-- **The index is kept**, and only grows. -/
theorem Indexed.step {db : DuckDb} {n n' : Node} {a : Act} (h : n.Indexed)
    (hg : n.InstallNotOlder a) (hs : n.step db a = some n') :
    n'.Indexed ∧ n.engine.index.entries <+~ n'.engine.index.entries := by
  have hself : n.engine.index.entries <+~ n.engine.index.entries := .refl _
  cases move_of_step hs with
  | alloc m hlt => exact ⟨{ h with }, hself⟩
  | log hc => exact ⟨{ h with }, hself⟩
  | insert hc => exact ⟨{ h with }, hself⟩
  | ack hc => exact ⟨{ h with }, hself⟩
  | freeze hroom hne => exact ⟨{ h with calls := h.insert trivial }, hself⟩
  | readWatermark hc => exact ⟨{ h with calls := h.insert trivial }, hself⟩
  | planEmpty hc he => exact ⟨{ h with calls := h.erase }, hself⟩
  | planCovered hc hle =>
      exact ⟨{ h with calls := h.insert fun f hf => absurd hf (Option.not_mem_none f) }, hself⟩
  | planWrite hc hlt => exact ⟨{ h with calls := h.insert trivial }, hself⟩
  | stage hc => exact ⟨{ h with calls := h.insert trivial }, hself⟩
  | publish hc => exact ⟨h.publish _ _ rfl, hself⟩
  | query hc hload =>
      have hsnap : Snapshot n.store.lake _ := ⟨n.store.lake, List.prefix_rfl, hload⟩
      have hentry := (FileIndex.load_perm hload).mem_iff.mpr
        (List.mem_map_of_mem (h.calls _ _ hc))
      exact ⟨{ h with calls := h.insert ⟨hsnap, hentry⟩ }, hself⟩
  | install hc =>
      rw [InstallNotOlder, hc] at hg
      exact ⟨h.install hc hg _ _ rfl, h.snapshot.subperm (h.calls _ _ hc).1 hg⟩
  | truncate hc hw ht =>
      have hfile := h.calls _ _ hc
      exact ⟨{ h with calls := h.insert hfile }, hself⟩
  | @retire p mt result file hc =>
      refine ⟨{ h with calls := h.erase, retired := ?_ }, hself⟩
      intro f hf
      simp only [endFlush, List.mem_append, Option.mem_toList] at hf
      rcases hf with hf | hf
      · exact h.retired f hf
      · exact h.calls _ _ hc f hf
  | fail hc => exact ⟨{ h with calls := h.erase }, hself⟩
  | failTruncate hc hw hr => exact ⟨{ h with calls := h.erase }, hself⟩
  | begin key hr => exact ⟨{ h with }, hself⟩
  | miss hc hs hm => exact ⟨{ h with }, hself⟩
  | hit hc hs hm => exact ⟨{ h with }, hself⟩
  | snapshot hc hs => exact ⟨{ h with }, hself⟩
  | scan hc hs => exact ⟨{ h with }, hself⟩

/-! ## the order of the steps -/

section

theorem sublist_note (t : Trail) (step : IndexStep) (r : Nat) (l : List (IndexStep × Nat))
    (x : IndexStep × Nat) : l ++ [x] <+ (t.note step r).order ↔
      l ++ [x] <+ t.order ∨ x = (step, r) ∧ l <+ t.order := by
  rw [Trail.note, ← List.reverse_sublist, List.reverse_concat, List.reverse_concat,
    List.cons_sublist_cons', ← List.reverse_concat, List.reverse_sublist, List.reverse_sublist]

variable {t : Trail} {step : IndexStep} {p q r : Nat}

theorem outdated_note : Outdated (t.note step r).order p ↔
    Outdated t.order p ∨ step = .publish ∧ (.query, p) ∈ t.order := by
  have hadd := fun r' => sublist_note t step r [(.query, p)] (.publish, r')
  simp only [List.cons_append, List.nil_append, List.singleton_sublist, Prod.mk.injEq] at hadd
  simp only [Outdated, hadd, exists_or]
  grind

theorem older_note : Older (t.note step r).order p q ↔
    Older t.order p q ∨ (step = .query ∧ r = q) ∧ Outdated t.order p := by
  have hadd := fun r' => sublist_note t step r [(.query, p), (.publish, r')] (.query, q)
  simp only [List.cons_append, List.nil_append, Prod.mk.injEq] at hadd
  simp only [Older, Outdated, hadd, exists_or, exists_and_left]
  grind

theorem overtaken_note : Overtaken (t.note step r).order p ↔
    Overtaken t.order p ∨ step = .install ∧ Older t.order p r := by
  have hadd := fun r' q =>
    sublist_note t step r [(.query, p), (.publish, r'), (.query, q)] (.install, q)
  simp only [List.cons_append, List.nil_append, Prod.mk.injEq] at hadd
  simp only [Overtaken, Older, hadd, exists_or]
  grind

end

/-- Where the query of flush `p` stands, at each stage of the flush. -/
def AskedAt (order : List (IndexStep × Nat)) (p : Nat) : FlushStage → Prop
  | .frozen | .read _ | .planned _ | .staged _ _ | .published _ _ => (.query, p) ∉ order
  | .queried _ _ _ => (.query, p) ∈ order
  | .covered _ _ | .truncated _ _ => True

theorem askedAt_congr {order order' : List (IndexStep × Nat)} {p : Nat}
    (h : (.query, p) ∈ order ↔ (.query, p) ∈ order') (stage : FlushStage) :
    AskedAt order p stage ↔ AskedAt order' p stage := by
  cases stage <;> simp [AskedAt, h]

/-- Every flush has queried once or not at all. -/
structure Asked (n : Node) : Prop where
  noted : ∀ x ∈ n.trail.order, x.2 < n.engine.memtables.active.ptr
  keyed : ∀ (p : Nat) (call : FlushCall), n.flushes[p]? = some call →
    call.memtable.ptr = p ∧ p < n.engine.memtables.active.ptr
  calls : ∀ (p : Nat) (call : FlushCall), n.flushes[p]? = some call →
    AskedAt n.trail.order p call.stage

namespace Asked

variable {db : DuckDb} {n n' : Node} {a : Act} (h : n.Asked)
include h

/-- A flush moves on, and may note a step. -/
theorem insert {p : Nat} {call : FlushCall} {stage : FlushStage}
    (hc : n.flushes[p]? = some call)
    (hptr : n'.engine.memtables.active.ptr = n.engine.memtables.active.ptr)
    (hflushes : n'.flushes = n.flushes.insert call.memtable.ptr ⟨call.memtable, stage⟩)
    (horder : n'.trail.order = n.trail.order ∨
      ∃ step, n'.trail.order = (n.trail.note step call.memtable.ptr).order)
    (hs : AskedAt n'.trail.order call.memtable.ptr stage) : n'.Asked := by
  obtain ⟨rfl, hlt⟩ := h.keyed p call hc
  refine ⟨fun x hx => ?_, fun q c hq => ?_, fun q c hq => ?_⟩
  · rw [hptr]
    obtain hsame | ⟨step, hnote⟩ := horder
    · exact h.noted x (hsame ▸ hx)
    · rw [hnote, Trail.note, List.mem_append, List.mem_singleton] at hx
      rcases hx with hx | rfl
      · exact h.noted x hx
      · exact hlt
  · rw [hflushes, OrdMap.getElem?_insert] at hq
    rw [hptr]
    split at hq
    · next he =>
        rw [← Option.some.inj hq]
        exact ⟨he, he ▸ hlt⟩
    · exact h.keyed q c hq
  · rw [hflushes, OrdMap.getElem?_insert] at hq
    split at hq
    · next he =>
        rw [← Option.some.inj hq]
        exact he ▸ hs
    · next hne =>
        -- What was noted is about another flush.
        have hother : (.query, q) ∈ n'.trail.order ↔ (.query, q) ∈ n.trail.order := by
          obtain hsame | ⟨step, hnote⟩ := horder
          · rw [hsame]
          · simp [hnote, Trail.note, Ne.symm hne]
        exact (askedAt_congr hother c.stage).mpr (h.calls q c hq)

theorem erase {p : Nat} (hptr : n'.engine.memtables.active.ptr = n.engine.memtables.active.ptr)
    (hflushes : n'.flushes = n.flushes.erase p) (horder : n'.trail.order = n.trail.order) :
    n'.Asked := by
  refine ⟨by rw [hptr, horder]; exact h.noted, fun q c hq => ?_, fun q c hq => ?_⟩ <;>
    rw [hflushes] at hq <;> have hold := OrdMap.of_getElem?_erase hq
  · rw [hptr]
    exact h.keyed q c hold
  · rw [horder]
    exact h.calls q c hold

/-- **Step.** -/
theorem step (hs : n.step db a = some n') : n'.Asked := by
  cases move_of_step hs with
  | freeze hroom hne =>
      -- The frozen memtable is younger than all that was noted.
      refine ⟨fun x hx => Nat.lt_succ_of_lt (h.noted x hx), fun q c hq => ?_, fun q c hq => ?_⟩ <;>
        rw [OrdMap.getElem?_insert] at hq <;> split at hq
      · next he => exact Option.some.inj hq ▸ ⟨he, he ▸ Nat.lt_succ_self _⟩
      · exact ⟨(h.keyed q c hq).1, Nat.lt_succ_of_lt (h.keyed q c hq).2⟩
      · next he =>
          rw [← Option.some.inj hq, ← he]
          exact fun hmem => Nat.lt_irrefl _ (h.noted _ hmem)
      · exact h.calls q c hq
  | readWatermark hc | planWrite hc | stage hc =>
      exact h.insert hc rfl rfl (.inl rfl) ((h.keyed _ _ hc).1 ▸ h.calls _ _ hc)
  | planCovered hc | truncate hc => exact h.insert hc rfl rfl (.inl rfl) trivial
  | publish hc =>
      refine h.insert hc rfl rfl (.inr ⟨_, rfl⟩) ?_
      have hcall := (h.keyed _ _ hc).1 ▸ h.calls _ _ hc
      simpa [AskedAt, moveFlush, Trail.note] using hcall
  | query hc =>
      exact h.insert hc rfl rfl (.inr ⟨_, rfl⟩) (by simp [AskedAt, moveFlush, Trail.note])
  | install hc => exact h.insert hc rfl rfl (.inr ⟨_, rfl⟩) trivial
  | planEmpty | retire | fail | failTruncate => exact h.erase rfl rfl rfl
  | _ => exact { h with }

omit h in
/-- Nothing is under way when a process comes up. -/
theorem boot {store : Store} {engine : Engine} {history : History} :
    (Node.boot store engine history).Asked :=
  ⟨by simp [Node.boot], by simp [Node.boot], by simp [Node.boot]⟩

end Asked

/-- Flush `p` has this index from its query, to install it. -/
def HasQueried (n : Node) (p : Nat) (index : FileIndex) : Prop :=
  ∃ mt w f, n.flushes[p]? = some ⟨mt, .queried w f index⟩

/-- The order of the steps says which of the lake, the index that is installed and
the indexes on their way lists more files. -/
structure Dated (n : Node) : Prop where
  lake : ∀ p i, n.HasQueried p i →
    (i.entries.length < n.store.lake.length ↔ Outdated n.trail.order p)
  others : ∀ p i q j, n.HasQueried p i → n.HasQueried q j →
    (i.entries.length < j.entries.length ↔ Older n.trail.order p q)
  installed : ∀ p i, n.HasQueried p i →
    (i.entries.length < n.engine.index.entries.length ↔ Overtaken n.trail.order p)

namespace Dated

variable {db : DuckDb} {n n' : Node} {a : Act} (h : n.Dated)
include h

/-- A flush that is not overtaken installs an index that is not older. -/
theorem installNotOlder (hg : n.InstallInOrder a) : n.InstallNotOlder a := by
  cases a with
  | install p =>
      rw [InstallNotOlder]
      split
      · next mt w f index hc =>
          exact Nat.not_lt.mp fun hlt => hg ((h.installed p index ⟨mt, w, f, hc⟩).mp hlt)
      · trivial
  | _ => trivial

/-- A step that is not noted. -/
theorem same (hheld : ∀ p i, n'.HasQueried p i → n.HasQueried p i)
    (horder : n'.trail.order = n.trail.order) (hlake : n'.store.lake = n.store.lake)
    (hindex : n'.engine.index = n.engine.index) : n'.Dated := by
  refine ⟨fun p i hp => ?_, fun p i q j hp hq => ?_, fun p i hp => ?_⟩
  · rw [horder, hlake]
    exact h.lake p i (hheld p i hp)
  · rw [horder]
    exact h.others p i q j (hheld p i hp) (hheld q j hq)
  · rw [horder, hindex]
    exact h.installed p i (hheld p i hp)

theorem publish (hix : n.Indexed) (hask : n.Asked) {f : DataFile} {r : Nat}
    (hheld : ∀ p i, n'.HasQueried p i → n.HasQueried p i)
    (horder : n'.trail.order = (n.trail.note .publish r).order)
    (hlake : n'.store.lake = n.store.lake ++ [f])
    (hindex : n'.engine.index = n.engine.index) : n'.Dated := by
  refine ⟨fun p i hp => ?_, fun p i q j hp hq => ?_, fun p i hp => ?_⟩
  · -- Whatever a flush has queried before, the file is newer.
    obtain ⟨mt, w, f', hc⟩ := hheld p i hp
    have hle := (hix.calls p _ hc).1.length_le
    have hmem : (.query, p) ∈ n.trail.order := hask.calls p _ hc
    rw [horder, outdated_note, hlake, List.length_append, List.length_singleton]
    exact ⟨fun _ => .inr ⟨rfl, hmem⟩, fun _ => Nat.lt_succ_of_le hle⟩
  · rw [horder, older_note, h.others p i q j (hheld p i hp) (hheld q j hq)]
    simp
  · rw [horder, overtaken_note, hindex, h.installed p i (hheld p i hp)]
    simp

/-- A query lists the lake as it is. -/
theorem query (hix : n.Indexed) {r : Nat} {index : FileIndex}
    (hask : (.query, r) ∉ n.trail.order) (hload : FileIndex.load n.store.lake = .ok index)
    (hheld : ∀ p i, n'.HasQueried p i → p = r ∧ i = index ∨ p ≠ r ∧ n.HasQueried p i)
    (horder : n'.trail.order = (n.trail.note .query r).order)
    (hlake : n'.store.lake = n.store.lake) (hindex : n'.engine.index = n.engine.index) :
    n'.Dated := by
  have hlen : index.entries.length = n.store.lake.length := by
    rw [(FileIndex.load_perm hload).length_eq, List.length_map]
  have hle : ∀ p i, n.HasQueried p i → i.entries.length ≤ n.store.lake.length := by
    rintro p i ⟨mt, w, f, hc⟩
    exact (hix.calls p _ hc).1.length_le
  -- No step is noted after the query of `r`, for there was none.
  have hnone : ∀ l x, ¬ (.query, r) :: x :: l <+ n.trail.order := fun l x hsub =>
    hask (hsub.subset List.mem_cons_self)
  have hout : ¬ Outdated n.trail.order r := fun ⟨_, hsub⟩ => hnone _ _ hsub
  have hold : ∀ q, ¬ Older n.trail.order r q := fun q ⟨_, hsub⟩ => hnone _ _ hsub
  have hold' : ∀ p, ¬ Older n.trail.order p r := fun p ⟨_, hsub⟩ => hask (hsub.subset (by simp))
  have hover : ¬ Overtaken n.trail.order r := fun ⟨_, _, hsub⟩ => hnone _ _ hsub
  refine ⟨fun p i hp => ?_, fun p i q j hp hq => ?_, fun p i hp => ?_⟩
  · rw [horder, hlake, outdated_note]
    obtain ⟨rfl, rfl⟩ | ⟨-, hp⟩ := hheld p i hp
    · simp [hlen, hout]
    · simp [h.lake p i hp]
  · rw [horder, older_note]
    obtain ⟨rfl, rfl⟩ | ⟨hne, hp⟩ := hheld p i hp <;> obtain ⟨rfl, rfl⟩ | ⟨hne', hq⟩ := hheld q j hq
    · simp [hold, hout]
    · simp [hold, hout, hlen, hle q j hq]
    · simp [hold', hlen, h.lake p i hp]
    · simp [h.others p i q j hp hq, Ne.symm hne']
  · rw [horder, hindex, overtaken_note]
    obtain ⟨rfl, rfl⟩ | ⟨hne, hp⟩ := hheld p i hp
    · simp [hover, hlen, hix.snapshot.length_le]
    · simp [h.installed p i hp]

/-- What is installed is what flush `r` had queried. -/
theorem install {r : Nat} (hr : n.HasQueried r n'.engine.index)
    (hle : n.engine.index.entries.length ≤ n'.engine.index.entries.length)
    (hheld : ∀ p i, n'.HasQueried p i → n.HasQueried p i)
    (horder : n'.trail.order = (n.trail.note .install r).order)
    (hlake : n'.store.lake = n.store.lake) : n'.Dated := by
  refine ⟨fun p i hp => ?_, fun p i q j hp hq => ?_, fun p i hp => ?_⟩
  · rw [horder, outdated_note, hlake, h.lake p i (hheld p i hp)]
    simp
  · rw [horder, older_note, h.others p i q j (hheld p i hp) (hheld q j hq)]
    simp
  · have hp := hheld p i hp
    rw [horder, overtaken_note, ← h.others p i r _ hp hr, ← h.installed p i hp]
    exact ⟨fun hlt => .inr ⟨rfl, hlt⟩,
      fun hor => hor.elim (fun hlt => Nat.lt_of_lt_of_le hlt hle) And.right⟩

omit h in
/-- A flush moves on, to a stage without an index. -/
theorem held_insert {mt : Arc Memtable} {stage : FlushStage}
    (hs : ∀ w f i, stage ≠ .queried w f i)
    (hflushes : n'.flushes = n.flushes.insert mt.ptr ⟨mt, stage⟩) (p : Nat) (i : FileIndex)
    (hp : n'.HasQueried p i) : n.HasQueried p i := by
  obtain ⟨mt', w, f, hc⟩ := hp
  rw [hflushes] at hc
  cases OrdMap.of_getElem?_insert hc with
  | inl hnew => exact absurd (congrArg FlushCall.stage hnew).symm (hs w f i)
  | inr hold => exact ⟨mt', w, f, hold⟩

omit h in
theorem held_erase {r : Nat} (hflushes : n'.flushes = n.flushes.erase r) (p : Nat)
    (i : FileIndex) (hp : n'.HasQueried p i) : n.HasQueried p i := by
  obtain ⟨mt, w, f, hc⟩ := hp
  exact ⟨mt, w, f, OrdMap.of_getElem?_erase (hflushes ▸ hc)⟩

/-- **Step**: what the order says of the indexes stays true. -/
theorem step (hix : n.Indexed) (hask : n.Asked) (hg : n.InstallNotOlder a)
    (hs : n.step db a = some n') : n'.Dated := by
  cases move_of_step hs with
  | freeze | readWatermark | planCovered | planWrite | stage | truncate =>
      exact h.same (held_insert (by simp) rfl) rfl rfl rfl
  | publish hc => exact h.publish hix hask (held_insert (by simp) rfl) rfl rfl rfl
  | @query p w mt f index hc hload =>
      obtain rfl : mt.ptr = p := (hask.keyed p _ hc).1
      refine h.query hix (hask.calls mt.ptr _ hc) hload (fun q j hq => ?_) rfl rfl rfl
      obtain ⟨mt', w', f', hq⟩ := hq
      rw [moveFlush, OrdMap.getElem?_insert] at hq
      split at hq
      · next he =>
          rw [Option.some.injEq, FlushCall.mk.injEq, FlushStage.queried.injEq] at hq
          exact .inl ⟨he.symm, hq.2.2.2.symm⟩
      · next hne => exact .inr ⟨Ne.symm hne, mt', w', f', hq⟩
  | @install p w mt f index hc =>
      obtain rfl : mt.ptr = p := (hask.keyed p _ hc).1
      rw [InstallNotOlder, hc] at hg
      exact h.install ⟨mt, w, f, hc⟩ hg (held_insert (by simp) rfl) rfl rfl
  | planEmpty | retire | fail | failTruncate => exact h.same (held_erase rfl) rfl rfl rfl
  | _ => exact h.same (fun _ _ hp => hp) rfl rfl rfl

omit h in
/-- No flush is under way. -/
theorem of_no_flush (hempty : n.flushes = ∅) : n.Dated := by
  have hnone : ∀ p i, ¬ n.HasQueried p i := by
    rintro p i ⟨mt, w, f, hc⟩
    simp [hempty] at hc
  exact ⟨fun p i hp => absurd hp (hnone p i), fun p i _ _ hp => absurd hp (hnone p i),
    fun p i hp => absurd hp (hnone p i)⟩

end Dated

/-- What the runs that never install an older index keep. -/
def Current (n : Node) : Prop := n.Indexed ∧ n.Asked ∧ n.Dated

theorem current_start {cfg : Config} {store : Store} {history : History} {n : Node}
    (h : start cfg store history = some n) : n.Current := by
  rw [start, Engine.open] at h
  cases hload : FileIndex.load store.lake with
  | error e => rw [hload] at h; contradiction
  | ok index =>
      rw [hload] at h
      simp only at h
      cases hrec : Engine.recover cfg store.dir (publishedWatermark store.lake) index with
      | error e => rw [hrec] at h; contradiction
      | ok r =>
          obtain ⟨dir, engine⟩ := r
          rw [hrec] at h
          rw [← Option.some.inj h]
          refine ⟨⟨⟨store.lake, List.prefix_rfl, Engine.index_recover hrec ▸ hload⟩,
            fun p call hp => ?_, fun f hf => ?_⟩, .boot, .of_no_flush rfl⟩
          · simp [boot] at hp
          · simp [boot] at hf

/-- **Step**: an index that is not overtaken keeps every file. -/
theorem Current.step {db : DuckDb} {n n' : Node} {a : Act} (h : n.Current)
    (hg : n.InstallInOrder a) (hs : n.step db a = some n') :
    n'.Current ∧ n.engine.index.entries <+~ n'.engine.index.entries := by
  obtain ⟨hix, hask, hdated⟩ := h
  have hnot := hdated.installNotOlder hg
  obtain ⟨hix', hkept⟩ := hix.step hnot hs
  exact ⟨⟨hix', hask.step hs, hdated.step hix hask hnot hs⟩, hkept⟩

/-- An overtaken flush installs an index with fewer files. -/
theorem Current.loses {db : DuckDb} {n n' : Node} {a : Act} (h : n.Current)
    (hg : ¬ n.InstallInOrder a) (hs : n.step db a = some n') :
    n'.engine.index.entries.length < n.engine.index.entries.length := by
  obtain ⟨-, -, hdated⟩ := h
  cases move_of_step hs with
  | install hc => exact (hdated.installed _ _ ⟨_, _, _, hc⟩).mpr (not_not.mp hg)
  | _ => exact absurd trivial hg

/-- **The index is never replaced by an older one.**  In every run in which no
overtaken flush installs, a file that is in the index stays in it, and the file
of every memtable that was retired after its commit is in it.  The next step of such
a run keeps all files of the index if and only if it is no install of an overtaken
flush. -/
theorem index_never_older {db : DuckDb} {cfg : Config} {store : Store} {history : History}
    {n₀ n n' : Node} (hstart : start cfg store history = some n₀)
    (hn : Reaches (step db) InstallInOrder n₀ n) (hn' : Reaches (step db) InstallInOrder n n') :
    n.engine.index.entries ⊆ n'.engine.index.entries ∧
      (∀ f ∈ n'.trail.retired, f.entry ∈ n'.engine.index.entries) ∧
      ∀ a n'', n'.step db a = some n'' →
        (n'.engine.index.entries <+~ n''.engine.index.entries ↔ n'.InstallInOrder a) := by
  have hcur : n.Current := hn.invariant Current (current_start hstart)
    fun _ _ _ h hg hs => (h.step hg hs).1
  obtain ⟨hcur', hsub⟩ := hn'.invariant
    (fun m => m.Current ∧ n.engine.index.entries ⊆ m.engine.index.entries)
    ⟨hcur, List.Subset.refl _⟩ fun m a m' h hg hs => by
      obtain ⟨hm, hgrown⟩ := h
      obtain ⟨hm', hgrow⟩ := hm.step hg hs
      exact ⟨hm', List.Subset.trans hgrown hgrow.subset⟩
  refine ⟨hsub, hcur'.1.retired, fun a n'' hs => ⟨fun hkept => ?_, fun hg => (hcur'.step hg hs).2⟩⟩
  exact by_contra fun hg => Nat.not_lt.mpr hkept.length_le (hcur'.loses hg hs)

/-- One write of a key, from its LSN to its acknowledgement. -/
def putSteps (key : Bytes) (value : Bytes) (lsn : Nat) : List Act :=
  [.alloc (.put key value), .log lsn, .insert lsn, .ack lsn]

/-- A flush from its freeze to its publish. -/
def publishSteps (p : Nat) : List Act :=
  [.readWatermark p, .plan p, .stage p, .publish p]

/-- Two flushes that overlap all the way: the later one publishes and queries
between the earlier one's query and install. -/
def overlappingFlushes : List Act :=
  putSteps [1] [7] 1 ++ [.freeze] ++ putSteps [2] [8] 2 ++ [.freeze] ++
    publishSteps 0 ++ [.query 0] ++ publishSteps 1 ++ [.query 1] ++
    [.install 0, .install 1, .truncate 1, .truncate 0, .retire 0, .retire 1]

theorem index_never_older_overlapping :
    ∃ n₀ n, start smallConfig emptyStore noHistory = some n₀ ∧
      Reaches (step DuckDb.plain) InstallInOrder n₀ n ∧ n.trail.retired.length = 2 ∧
      n₀.engine.index.entries ⊆ n.engine.index.entries ∧
      ∀ f ∈ n.trail.retired, f.entry ∈ n.engine.index.entries := by
  obtain ⟨n₀, n, hstart, hrun, hlen⟩ :
      ∃ n₀ n, start smallConfig emptyStore noHistory = some n₀ ∧
        Reaches (step DuckDb.plain) InstallInOrder n₀ n ∧ n.trail.retired.length = 2 :=
    exists_run_of_attempt _ _ (fun n => n.trail.retired.length = 2) overlappingFlushes
      (by decide +kernel)
  obtain ⟨hkept, hretired, -⟩ := index_never_older hstart (.refl n₀) hrun
  exact ⟨n₀, n, hstart, hrun, hlen, hkept, hretired⟩

/-- Two flushes whose queries and stores cross: the first to query is the last
to store. -/
def crossedFlushes : List Act :=
  putSteps [1] [7] 1 ++ [.freeze] ++ putSteps [2] [8] 2 ++ [.freeze] ++
    publishSteps 0 ++ [.query 0] ++ publishSteps 1 ++
    [.query 1, .install 1, .truncate 1, .retire 1] ++
    [.install 0]

/-- The second flush's file is in the index, and is lost when the first flush
stores what it had queried before. -/
theorem index_loses_file :
    ∃ n₀ n, start smallConfig emptyStore noHistory = some n₀ ∧
      Reaches (step DuckDb.plain) (fun _ a => NoFailure a) n₀ n ∧
      ∃ f ∈ n.trail.retired, f.entry ∉ n.engine.index.entries :=
  exists_run_of_attempt _ _ (fun n => ∃ f ∈ n.trail.retired, f.entry ∉ n.engine.index.entries)
    crossedFlushes (by decide +kernel)

end Node

end HolyGrail
