import Mathlib.Data.List.Basic
import Mathlib.Data.Set.Basic

/-!
# HolyGrail.Tier

Versioned key/value data kept in several places at once.

A *tier* answers a key with at most one version; versions of a key are ordered
by their sequence number.  A *chunk* is a tier with a bound `top` on its
sequence numbers.  Chunks are *layered* when any two are either the same or
separated: every version of the one lies above the `top` of the other.

A read walks tiers and takes the first hit.  Two facts carry it: the first hit
of a walk whose tiers shadow each other in order is the newest version met
(`lsn_le_of_firstHit`), and it stays the newest when whatever lies behind the
walk is a copy or older (`lsn_le_of_fresh_hit`).

Everything here is about arbitrary keys and values.
-/

namespace HolyGrail

/-- A version of a key: its sequence number, and its value or `none` for a
deletion. -/
structure Version (ν : Type v) where
  lsn : Nat
  value : Option ν
  deriving DecidableEq, Repr

/-- One write: a key and the version it makes. -/
structure Write (κ : Type u) (ν : Type v) where
  key : κ
  version : Version ν

/-- A place that holds at most one version of each key. -/
abbrev Tier (κ : Type u) (ν : Type v) := κ → Option (Version ν)

variable {κ : Type u} {ν : Type v}

/-- The first tier with an opinion about the key decides. -/
def firstHit : List (Tier κ ν) → Tier κ ν
  | [], _ => none
  | t :: ts, k => (t k).or (firstHit ts k)

theorem firstHit_append (ts us : List (Tier κ ν)) (k : κ) :
    firstHit (ts ++ us) k = (firstHit ts k).or (firstHit us k) := by
  induction ts with
  | nil => rfl
  | cons t ts ih => rw [List.cons_append, firstHit, ih, firstHit, Option.or_assoc]

theorem firstHit_eq_none {ts : List (Tier κ ν)} {k : κ} :
    firstHit ts k = none ↔ ∀ t ∈ ts, t k = none := by
  induction ts with
  | nil => simp [firstHit]
  | cons t ts ih => simp [firstHit, Option.or_eq_none_iff, ih]

theorem mem_of_firstHit {ts : List (Tier κ ν)} {k : κ} {v : Version ν}
    (h : firstHit ts k = some v) : ∃ t ∈ ts, t k = some v := by
  induction ts with
  | nil => contradiction
  | cons t ts ih =>
      rw [firstHit, Option.or_eq_some_iff] at h
      cases h with
      | inl h => exact ⟨t, List.mem_cons_self, h⟩
      | inr h =>
          obtain ⟨u, hu, hv⟩ := ih h.2
          exact ⟨u, List.mem_cons_of_mem t hu, hv⟩

/-- The versions of a key that a walk meets, in order. -/
def versions (ts : List (Tier κ ν)) (k : κ) : List (Version ν) := ts.filterMap fun t => t k

theorem firstHit_eq_head? (ts : List (Tier κ ν)) (k : κ) :
    firstHit ts k = (versions ts k).head? := by
  induction ts with
  | nil => rfl
  | cons t ts ih =>
      rw [firstHit, ih, versions, versions, List.filterMap_cons]
      cases t k with
      | none => rfl
      | some v => rfl

theorem versions_append (ts us : List (Tier κ ν)) (k : κ) :
    versions (ts ++ us) k = versions ts k ++ versions us k := List.filterMap_append

theorem mem_versions {ts : List (Tier κ ν)} {k : κ} {v : Version ν} :
    v ∈ versions ts k ↔ ∃ t ∈ ts, t k = some v := List.mem_filterMap

/-- Tiers that pairwise relate their versions meet related versions. -/
theorem pairwise_versions {R : Version ν → Version ν → Prop} {ts : List (Tier κ ν)}
    (h : ts.Pairwise fun t u => ∀ k v w, t k = some v → u k = some w → R v w) (k : κ) :
    (versions ts k).Pairwise R := by
  rw [versions, List.pairwise_filterMap]
  exact h.imp fun htu v hv w hw => htu k v w hv hw

/-- Wherever both answer, the first is at least as new. -/
def Shadows (t u : Tier κ ν) : Prop :=
  ∀ k v w, t k = some v → u k = some w → w.lsn ≤ v.lsn

/-- The first hit of an ordered walk is the newest version met. -/
theorem lsn_le_of_firstHit {ts : List (Tier κ ν)} (hts : ts.Pairwise Shadows) {k : κ}
    {v : Version ν} (h : firstHit ts k = some v) : ∀ t ∈ ts, ∀ u, t k = some u → u.lsn ≤ v.lsn := by
  induction ts with
  | nil => contradiction
  | cons t ts ih =>
      rw [List.pairwise_cons] at hts
      rw [firstHit, Option.or_eq_some_iff] at h
      intro t' ht' u hu
      rw [List.mem_cons] at ht'
      rcases h with h | ⟨hnone, h⟩
      · rcases ht' with rfl | ht'
        · rw [h] at hu
          exact Nat.le_of_eq (congrArg Version.lsn (Option.some.inj hu).symm)
        · exact hts.1 t' ht' k v u h hu
      · rcases ht' with rfl | ht'
        · rw [hnone] at hu
          contradiction
        · exact ih hts.2 h t' ht' u hu

/-- The tier answers the key of a write with its version or a newer one. -/
def Absorbs (t : Tier κ ν) (w : Write κ ν) : Prop :=
  ∃ v, t w.key = some v ∧ w.version.lsn ≤ v.lsn

/-- A tier behind a walk has nothing newer to say about a key: a tier of the
walk says the same, or all of them shadow it. -/
def Behind (fresh : List (Tier κ ν)) (t : Tier κ ν) : Prop :=
  ∀ k, (∃ f ∈ fresh, f k = t k) ∨ ∀ f ∈ fresh, ∀ v w, f k = some v → t k = some w → w.lsn ≤ v.lsn

/-- **A hit is final.**  When the walk hits, whatever lies behind it is a copy
or older. -/
theorem lsn_le_of_fresh_hit {fresh behind : List (Tier κ ν)} (hf : fresh.Pairwise Shadows)
    (hb : ∀ t ∈ behind, Behind fresh t) {k : κ} {v : Version ν}
    (h : firstHit fresh k = some v) :
    ∀ t ∈ fresh ++ behind, ∀ u, t k = some u → u.lsn ≤ v.lsn := by
  have hmax := lsn_le_of_firstHit hf h
  intro t ht u hu
  rw [List.mem_append] at ht
  rcases ht with ht | ht
  · exact hmax t ht u hu
  · rcases hb t ht k with ⟨f, hfm, he⟩ | hall
    · exact hmax f hfm u (he.trans hu)
    · obtain ⟨f, hfm, hv⟩ := mem_of_firstHit h
      exact hall f hfm v u hv hu

/-- The newest of a set of writes to a key. -/
def Newest (ws : Set (Write κ ν)) (k : κ) : Option (Version ν) → Prop
  | none => ∀ w ∈ ws, w.key ≠ k
  | some v => ⟨k, v⟩ ∈ ws ∧ ∀ w ∈ ws, w.key = k → w.version.lsn ≤ v.lsn

/-- When sequence numbers tell writes apart, one version is the newest. -/
theorem Newest.unique {ws : Set (Write κ ν)} {k : κ} {a b : Option (Version ν)}
    (hws : ∀ u ∈ ws, ∀ w ∈ ws, u.version.lsn = w.version.lsn → u = w) (ha : Newest ws k a)
    (hb : Newest ws k b) : a = b := by
  cases a with
  | none =>
      cases b with
      | none => rfl
      | some v => exact absurd rfl (ha _ hb.1)
  | some v =>
      cases b with
      | none => exact absurd rfl (hb _ ha.1)
      | some u =>
          have hle : v.lsn ≤ u.lsn := hb.2 _ ha.1 rfl
          have hge : u.lsn ≤ v.lsn := ha.2 _ hb.1 rfl
          have he := hws _ ha.1 _ hb.1 (Nat.le_antisymm hle hge)
          rw [Write.mk.injEq] at he
          rw [he.2]

/-- **Newest by position.**  Fresh tiers newest first, then the ones behind
them newest first: the first hit is the newest of all writes, if each is
absorbed by a tier of the walk and the tiers hold nothing else. -/
theorem newest_of_walk {ws : Set (Write κ ν)} {fresh behind : List (Tier κ ν)}
    (hf : fresh.Pairwise Shadows) (hb : behind.Pairwise Shadows)
    (hbehind : ∀ t ∈ behind, Behind fresh t)
    (hsound : ∀ t ∈ fresh ++ behind, ∀ k v, t k = some v → ⟨k, v⟩ ∈ ws)
    (habs : ∀ w ∈ ws, ∃ t ∈ fresh ++ behind, Absorbs t w) (k : κ) :
    Newest ws k (firstHit (fresh ++ behind) k) := by
  -- Any version the walk settles on bounds every version in the walk.
  have hmax : ∀ v, firstHit (fresh ++ behind) k = some v →
      ∀ t ∈ fresh ++ behind, ∀ u, t k = some u → u.lsn ≤ v.lsn := by
    intro v hv
    rw [firstHit_append, Option.or_eq_some_iff] at hv
    rcases hv with hv | ⟨hnone, hv⟩
    · exact lsn_le_of_fresh_hit hf hbehind hv
    · intro t ht u hu
      rw [List.mem_append] at ht
      rcases ht with ht | ht
      · rw [firstHit_eq_none.mp hnone t ht] at hu
        contradiction
      · exact lsn_le_of_firstHit hb hv t ht u hu
  cases hres : firstHit (fresh ++ behind) k with
  | none =>
      rintro w hw rfl
      obtain ⟨t, ht, v, hv, -⟩ := habs w hw
      rw [firstHit_eq_none.mp hres t ht] at hv
      contradiction
  | some v =>
      obtain ⟨t, ht, hv⟩ := mem_of_firstHit hres
      refine ⟨hsound t ht k v hv, ?_⟩
      rintro w hw rfl
      obtain ⟨u, hu, x, hx, hle⟩ := habs w hw
      exact Nat.le_trans hle (hmax v hres u hu x hx)

/-! ## chunks -/

/-- A tier with a bound on its sequence numbers. -/
@[ext] structure Chunk (κ : Type u) (ν : Type v) where
  top : Nat
  find : Tier κ ν
  le_top : ∀ k v, find k = some v → v.lsn ≤ top

/-- Every version of the second chunk lies above the first. -/
def Chunk.Below (c d : Chunk κ ν) : Prop := ∀ k v, d.find k = some v → c.top < v.lsn

/-- A chunk with a version at its `top`. -/
def Chunk.Tight (c : Chunk κ ν) : Prop := ∃ k v, c.find k = some v ∧ v.lsn = c.top

theorem Chunk.Below.top_lt {c d : Chunk κ ν} (h : c.Below d) (hd : d.Tight) : c.top < d.top := by
  obtain ⟨k, v, hv, he⟩ := hd
  exact he ▸ h k v hv

theorem Chunk.Below.lsn_lt {c d : Chunk κ ν} (h : c.Below d) {k : κ} {v w : Version ν}
    (hv : d.find k = some v) (hw : c.find k = some w) : w.lsn < v.lsn :=
  Nat.lt_of_le_of_lt (c.le_top k w hw) (h k v hv)

theorem Chunk.Below.shadows {c d : Chunk κ ν} (h : c.Below d) : Shadows d.find c.find :=
  fun _ _ _ hv hw => Nat.le_of_lt (h.lsn_lt hv hw)

/-- Any two chunks are the same or separated. -/
def Layered (cs : Set (Chunk κ ν)) : Prop :=
  ∀ c ∈ cs, ∀ d ∈ cs, c = d ∨ c.Below d ∨ d.Below c

theorem Layered.subset {cs ds : Set (Chunk κ ν)} (h : Layered ds) (hsub : cs ⊆ ds) : Layered cs :=
  fun c hc d hd => h c (hsub hc) d (hsub hd)

/-- A chunk above all others joins them. -/
theorem Layered.grow {cs ds : Set (Chunk κ ν)} (h : Layered cs) {d : Chunk κ ν}
    (hd : ∀ c ∈ cs, c.Below d) (hds : ∀ c ∈ ds, c ∈ cs ∨ c = d) : Layered ds := by
  intro a ha b hb
  rcases hds a ha with ha | rfl
  · rcases hds b hb with hb | rfl
    · exact h a ha b hb
    · exact .inr (.inl (hd a ha))
  · rcases hds b hb with hb | rfl
    · exact .inr (.inr (hd b hb))
    · exact .inl rfl

/-- Of two layered chunks, the one with the lower top is below. -/
theorem Layered.below {cs : Set (Chunk κ ν)} (h : Layered cs) {c d : Chunk κ ν} (hc : c ∈ cs)
    (hd : d ∈ cs) (hct : c.Tight) (hlt : c.top < d.top) : c.Below d := by
  rcases h c hc d hd with rfl | hb | hb
  · omega
  · exact hb
  · have := hb.top_lt hct
    omega

/-- Tight layered chunks with the same top are the same. -/
theorem Layered.eq_of_top {cs : Set (Chunk κ ν)} (h : Layered cs) {c d : Chunk κ ν} (hc : c ∈ cs)
    (hd : d ∈ cs) (hct : c.Tight) (hdt : d.Tight) (ht : c.top = d.top) : c = d := by
  rcases h c hc d hd with he | hb | hb
  · exact he
  · have := hb.top_lt hdt
    omega
  · have := hb.top_lt hct
    omega

/-- Among layered chunks a higher one shadows a lower one. -/
theorem Layered.shadows {cs : Set (Chunk κ ν)} (h : Layered cs) {c d : Chunk κ ν} (hc : c ∈ cs)
    (hd : d ∈ cs) (hct : c.Tight) (hdt : d.Tight) (hle : d.top ≤ c.top) :
    Shadows c.find d.find := by
  cases Nat.lt_or_eq_of_le hle with
  | inl hlt => exact (h.below hd hc hdt hlt).shadows
  | inr he =>
      rw [h.eq_of_top hc hd hct hdt he.symm]
      intro k v w hv hw
      rw [hv] at hw
      exact Nat.le_of_eq (congrArg Version.lsn (Option.some.inj hw).symm)

/-! ## writes in key order -/

section
variable [Ord κ]

/-- Of two writes, the later one has the higher key. -/
def Rising (ws : Set (Write κ ν)) : Prop :=
  ∀ u ∈ ws, ∀ w ∈ ws, u.version.lsn < w.version.lsn → compare u.key w.key = .lt

/-- Chunks of rising writes that are separated in LSN are separated in key. -/
theorem Rising.key_lt {ws : Set (Write κ ν)} (h : Rising ws) {c d : Chunk κ ν}
    (hc : ∀ k v, c.find k = some v → ⟨k, v⟩ ∈ ws) (hd : ∀ k v, d.find k = some v → ⟨k, v⟩ ∈ ws)
    (hb : c.Below d) {k l : κ} {v w : Version ν} (hv : c.find k = some v)
    (hw : d.find l = some w) : compare k l = .lt :=
  h _ (hc k v hv) _ (hd l w hw) (Nat.lt_of_le_of_lt (c.le_top k v hv) (hb l w hw))

end

end HolyGrail
