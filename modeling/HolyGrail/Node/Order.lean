import HolyGrail.Node.Moves

/-!
# HolyGrail.Node.Order

How memtables and files are ordered by LSN while one process runs.

`Order` is about the chunks that no write can reach any more, the memtables
frozen in this process life and the live files.  They are layered, they lie
below the active memtable, and they lie below every LSN that is still to reach
a memtable.  The last part is what a freeze can break: it needs that no LSN at
or below the memtable's maximum is still on its way.
-/

namespace HolyGrail

open Std (ExtTreeMap)

/-! ## live files -/

/-- Every live file is the file of a memtable, under the number of its insert. -/
def Files (db : DuckDb) (lake : List DataFile) : Prop :=
  ∀ (i : Nat) (f : DataFile), lake[i]? = some f →
    ∃ mt : Memtable, mt.isEmpty = false ∧ mt.LsnFits ∧ f = db.file i mt

namespace Files

variable {db : DuckDb} {lake : List DataFile} (h : Files db lake)
include h

theorem exists_memtable {f : DataFile} (hf : f ∈ lake) :
    ∃ (i : Nat) (mt : Memtable), mt.isEmpty = false ∧ mt.LsnFits ∧ f = db.file i mt := by
  obtain ⟨i, hi⟩ := List.mem_iff_getElem?.mp hf
  obtain ⟨mt, hmt⟩ := h i f hi
  exact ⟨i, mt, hmt⟩

theorem readable {f : DataFile} (hf : f ∈ lake) : f.Readable := by
  obtain ⟨i, mt, hne, hfit, rfl⟩ := h.exists_memtable hf
  exact db.readable_file i hne hfit

theorem stamped {f : DataFile} (hf : f ∈ lake) : f.Stamped := by
  obtain ⟨i, mt, hne, hfit, rfl⟩ := h.exists_memtable hf
  rw [DataFile.Stamped, db.lsnMax_file i hne hfit]
  exact ⟨Int.natCast_nonneg _, by have := hfit; rw [Memtable.LsnFits] at this; omega⟩

theorem tight {f : DataFile} (hf : f ∈ lake) : f.chunk.Tight := by
  obtain ⟨i, mt, hne, hfit, rfl⟩ := h.exists_memtable hf
  rw [db.chunk_file i hne hfit]
  exact Memtable.tight hne

theorem chunk_find {f : DataFile} (hf : f ∈ lake) : f.chunk.find = f.find := by
  obtain ⟨i, mt, hne, hfit, rfl⟩ := h.exists_memtable hf
  rw [db.chunk_file i hne hfit, db.find_file i hfit]
  rfl

theorem nodup_location : (lake.map DataFile.location).Nodup := by
  rw [List.nodup_iff_getElem?_ne_getElem?]
  intro i j hij hj
  rw [List.length_map] at hj
  simp only [List.getElem?_map, List.getElem?_eq_getElem (Nat.lt_trans hij hj),
    List.getElem?_eq_getElem hj, Option.map_some, ne_eq, Option.some.injEq]
  obtain ⟨m, -, -, hm⟩ := h i _ (List.getElem?_eq_getElem (Nat.lt_trans hij hj))
  obtain ⟨m', -, -, hm'⟩ := h j _ (List.getElem?_eq_getElem hj)
  rw [hm, hm']
  intro he
  have := db.location_inj i j _ _ he
  omega

theorem eq_of_location {f g : DataFile} (hf : f ∈ lake) (hg : g ∈ lake)
    (he : f.location = g.location) : f = g :=
  List.inj_on_of_nodup_map h.nodup_location hf hg he

theorem watermark_lt : publishedWatermark lake < lsnLimit := by
  refine publishedWatermark_lt (fun _ hf => h.stamped hf) (Nat.two_pow_pos 63) fun f hf => ?_
  obtain ⟨h0, hlt⟩ := h.stamped hf
  rw [DataFile.watermark, lsnLimit]
  omega

theorem append {mt : Memtable} (hne : mt.isEmpty = false) (hfit : mt.LsnFits) :
    Files db (lake ++ [db.file lake.length mt]) := by
  intro i f hf
  rw [List.getElem?_append] at hf
  split at hf
  · exact h i f hf
  · next hge =>
      rw [List.getElem?_singleton] at hf
      split at hf
      · next hi =>
          have hi : i = lake.length := by omega
          exact ⟨mt, hne, hfit, by rw [hi]; exact (Option.some.inj hf).symm⟩
      · contradiction

end Files

/-! ## the order -/

/-- The chunks no write can reach any more. -/
def closedChunks (lake : List DataFile) (closed : List (Arc Memtable)) : Set (Chunk Bytes Bytes) :=
  {c | (∃ m ∈ closed, c = m.val.chunk) ∨ ∃ f ∈ lake, c = f.chunk}

theorem closed_mem_chunks {lake : List DataFile} {closed : List (Arc Memtable)} {m : Arc Memtable}
    (h : m ∈ closed) : m.val.chunk ∈ closedChunks lake closed := .inl ⟨m, h, rfl⟩

theorem lake_mem_chunks {lake : List DataFile} {closed : List (Arc Memtable)} {f : DataFile}
    (h : f ∈ lake) : f.chunk ∈ closedChunks lake closed := .inr ⟨f, h, rfl⟩

structure Order (db : DuckDb) (set : MemtableSet) (lake : List DataFile)
    (closed published : List (Arc Memtable)) (upcoming : Nat → Prop) : Prop where
  files : Files db lake
  layered : Layered (closedChunks lake closed)
  below_active : ∀ c ∈ closedChunks lake closed, c.Below set.active.val.chunk
  below_upcoming : ∀ c ∈ closedChunks lake closed, ∀ l, upcoming l → c.top < l
  active_fits : set.active.val.LsnFits
  active_pos : ∀ k v, set.active.val.find k = some v → 0 < v.lsn
  closed_ok : ∀ m ∈ closed, m.val.isEmpty = false ∧ m.val.LsnFits ∧ m.ptr < set.active.ptr
  closed_pos : ∀ m ∈ closed, 0 < m.val.maxLsn
  /-- Oldest first. -/
  closed_order : closed.Pairwise fun a b => a.ptr < b.ptr ∧ a.val.chunk.Below b.val.chunk
  frozen_sub : set.frozen.Sublist closed
  /-- A live file was published from a memtable of this process life, or it
  is older than all of them. -/
  origin : ∀ f ∈ lake, (∃ m ∈ published, f.chunk = m.val.chunk) ∨
    ∀ m ∈ closed, f.chunk.Below m.val.chunk
  published_mem : ∀ m ∈ published, m ∈ closed ∧ ∃ f ∈ lake, f.chunk = m.val.chunk

namespace Order

variable {db : DuckDb} {set : MemtableSet} {lake : List DataFile}
  {closed published : List (Arc Memtable)} {up up' : Nat → Prop}
  (h : Order db set lake closed published up)
include h

/-- Memtables are frozen in LSN order. -/
theorem trichotomy {m m' : Arc Memtable} (hm : m ∈ closed) (hm' : m' ∈ closed) :
    m = m' ∨ (m.ptr < m'.ptr ∧ m.val.chunk.Below m'.val.chunk) ∨
      (m'.ptr < m.ptr ∧ m'.val.chunk.Below m.val.chunk) := by
  have hall := List.Pairwise.forall_of_forall_of_flip (l := closed)
    (R := fun a b => a = b ∨ (a.ptr < b.ptr ∧ a.val.chunk.Below b.val.chunk) ∨
      (b.ptr < a.ptr ∧ b.val.chunk.Below a.val.chunk)) (fun _ _ => .inl rfl)
    (h.closed_order.imp fun hab => .inr (.inl hab))
    (h.closed_order.imp fun hab => .inr (.inr hab))
  exact hall hm hm'

theorem eq_of_ptr {m m' : Arc Memtable} (hm : m ∈ closed) (hm' : m' ∈ closed)
    (hp : m.ptr = m'.ptr) : m = m' := by
  rcases h.trichotomy hm hm' with he | hlt | hlt
  · exact he
  · omega
  · omega

theorem below_of_ptr {m m' : Arc Memtable} (hm : m ∈ closed) (hm' : m' ∈ closed)
    (hp : m.ptr < m'.ptr) : m.val.chunk.Below m'.val.chunk := by
  rcases h.trichotomy hm hm' with rfl | hlt | hlt
  · omega
  · exact hlt.2
  · omega

theorem mem_closed {m : Arc Memtable} (hm : m ∈ set.frozen) : m ∈ closed := h.frozen_sub.subset hm

/-- The published watermark lies below every LSN still on its way. -/
theorem watermark_lt {l : Nat} (hl : up l) (hpos : 0 < l) : publishedWatermark lake < l :=
  publishedWatermark_lt (fun _ hf => h.files.stamped hf) hpos fun _ hf =>
    h.below_upcoming _ (lake_mem_chunks hf) l hl

/-! ### what the steps do to it -/

theorem weaken (hup : ∀ l, up' l → up l) : Order db set lake closed published up' :=
  { h with below_upcoming := fun c hc l hl => h.below_upcoming c hc l (hup l hl) }

theorem insert {rec : Record} (hup : up rec.lsn) (hpos : 0 < rec.lsn) (hfit : rec.lsn < 2 ^ 63) :
    Order db (set.insert rec) lake closed published up :=
  { h with
    below_active := by
      intro c hc k v hv
      rcases Memtable.find_insert_cases hv with hv | ⟨-, rfl⟩
      · exact h.below_active c hc k v hv
      · exact h.below_upcoming c hc rec.lsn hup
    active_fits := Nat.max_lt.mpr ⟨h.active_fits, hfit⟩
    active_pos := by
      intro k v hv
      rcases Memtable.find_insert_cases hv with hv | ⟨-, rfl⟩
      · exact h.active_pos k v hv
      · exact hpos }

/-- Freezing, when every LSN on its way lies above the active memtable. -/
theorem freeze (hne : set.active.val.isEmpty = false)
    (hclean : ∀ l, up l → set.active.val.maxLsn < l) :
    Order db
      { set with
        active := { ptr := set.active.ptr + 1, val := Memtable.new }
        frozen := set.frozen ++ [set.active] }
      lake (closed ++ [set.active]) published up := by
  have hmem : ∀ c ∈ closedChunks lake (closed ++ [set.active]),
      c ∈ closedChunks lake closed ∨ c = set.active.val.chunk := by
    rintro c (⟨m, hm, rfl⟩ | ⟨f, hf, rfl⟩)
    · rw [List.mem_append, List.mem_singleton] at hm
      rcases hm with hm | rfl
      · exact .inl (closed_mem_chunks hm)
      · exact .inr rfl
    · exact .inl (lake_mem_chunks hf)
  refine
    { files := h.files, layered := h.layered.grow h.below_active hmem, below_active := ?_
      below_upcoming := ?_, active_fits := ?_
      active_pos := ?_, closed_ok := ?_, closed_pos := ?_, closed_order := ?_
      frozen_sub := h.frozen_sub.append (.refl _)
      origin := ?_, published_mem := ?_ }
  · intro c _ k v hv
    simp at hv
  · intro c hc l hl
    rcases hmem c hc with hc | rfl
    · exact h.below_upcoming c hc l hl
    · exact hclean l hl
  · exact Nat.two_pow_pos 63
  · intro k v hv
    simp at hv
  · intro m hm
    rw [List.mem_append, List.mem_singleton] at hm
    rcases hm with hm | rfl
    · have := h.closed_ok m hm
      exact ⟨this.1, this.2.1, Nat.lt_succ_of_lt this.2.2⟩
    · exact ⟨hne, h.active_fits, Nat.lt_succ_self _⟩
  · intro m hm
    rw [List.mem_append, List.mem_singleton] at hm
    rcases hm with hm | rfl
    · exact h.closed_pos m hm
    · obtain ⟨k, v, hv, he⟩ := Memtable.tight hne
      have hpos := h.active_pos k v hv
      rw [he] at hpos
      exact hpos
  · rw [List.pairwise_append]
    refine ⟨h.closed_order, List.pairwise_singleton _ _, ?_⟩
    intro m hm m' hm'
    rw [List.mem_singleton] at hm'
    subst hm'
    exact ⟨(h.closed_ok m hm).2.2, h.below_active _ (closed_mem_chunks hm)⟩
  · intro f hf
    rcases h.origin f hf with hpub | hold
    · exact .inl hpub
    · refine .inr fun m hm => ?_
      rw [List.mem_append, List.mem_singleton] at hm
      rcases hm with hm | rfl
      · exact hold m hm
      · exact h.below_active _ (lake_mem_chunks hf)
  · intro m hm
    obtain ⟨hmem, hfile⟩ := h.published_mem m hm
    exact ⟨List.mem_append_left _ hmem, hfile⟩

theorem publish {m : Arc Memtable} (hm : m ∈ closed) :
    Order db set (lake ++ [db.file lake.length m.val]) closed (published ++ [m]) up := by
  obtain ⟨hne, hfit, -⟩ := h.closed_ok m hm
  have hchunk := db.chunk_file lake.length hne hfit
  -- The new file is a copy of a closed memtable: no new chunk.
  have hsub : closedChunks (lake ++ [db.file lake.length m.val]) closed ⊆
      closedChunks lake closed := by
    rintro c (hc | ⟨f, hf, rfl⟩)
    · exact .inl hc
    · rw [List.mem_append, List.mem_singleton] at hf
      rcases hf with hf | rfl
      · exact lake_mem_chunks hf
      · rw [hchunk]
        exact closed_mem_chunks hm
  refine
    { h with
      files := h.files.append hne hfit
      layered := h.layered.subset hsub
      below_active := fun c hc => h.below_active c (hsub hc)
      below_upcoming := fun c hc => h.below_upcoming c (hsub hc)
      origin := ?_
      published_mem := ?_ }
  · intro f hf
    rw [List.mem_append, List.mem_singleton] at hf
    rcases hf with hf | rfl
    · rcases h.origin f hf with ⟨m', hm', he⟩ | hold
      · exact .inl ⟨m', List.mem_append_left _ hm', he⟩
      · exact .inr hold
    · exact .inl ⟨m, by simp, hchunk⟩
  · intro m' hm'
    rw [List.mem_append, List.mem_singleton] at hm'
    rcases hm' with hm' | rfl
    · obtain ⟨hmem, f, hf, he⟩ := h.published_mem m' hm'
      exact ⟨hmem, f, List.mem_append_left _ hf, he⟩
    · exact ⟨hm, _, by simp, hchunk⟩

theorem retire (m : Arc Memtable) : Order db (set.retire m) lake closed published up :=
  { h with frozen_sub := List.filter_sublist.trans h.frozen_sub }

end Order

end HolyGrail
