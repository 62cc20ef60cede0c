import HolyGrail.Node.Visible

/-!
# HolyGrail.Node.Guards

Kinds of runs, from what the callers do to what the invariants need.

Callers may keep to one write at a time (`OneWriter`), to one flush at a time
(`OneFlush`), or only to the LSN order of their inserts (`InLsnOrder`).  From
each follows, by an invariant of its own, that the steps stay in the order the
main invariants ask for:

* one writer inserts in LSN order, and then every freeze is clean
  (`Sole`, `Arrivals`);
* one flush at a time, with no failure, reads, publishes, installs and retires
  in order (`Alone`).
-/

namespace HolyGrail

open Std (ExtTreeMap)

namespace Node

/-! ## writers -/

/-- A write begins only when no other is under way. -/
def OneWriter (n : Node) : Act → Prop
  | .alloc _ => n.writes.isEmpty = true
  | _ => True

/-- A record is inserted before every record with a higher LSN. -/
def InLsnOrder (n : Node) : Act → Prop
  | .insert l => ∀ item ∈ n.writes.toList, item.2.stage ≠ .inserted → l ≤ item.1
  | _ => True

/-- The record's payload length fits its four-byte field. -/
def PayloadFits (n : Node) : Act → Prop
  | .alloc m => (payload (m.record n.engine.nextLsn)).length < 2 ^ 32
  | _ => True

/-- An append that starts at `l` stays in the active segment, or opens a
segment file with nothing in it. -/
def NameFree (n : Node) (l : Nat) : Prop :=
  n.engine.wal.activeBytes < n.engine.wal.segmentMaxBytes ∨
    n.store.dir[segmentName l]?.getD [] = []

/-- No append reopens a segment file that has records. -/
def RotateFresh (n : Node) : Act → Prop
  | .log l => n.NameFree l
  | _ => True

instance (n : Node) (a : Act) : Decidable (n.OneWriter a) := by
  unfold OneWriter
  split <;> infer_instance

instance (n : Node) (a : Act) : Decidable (n.InLsnOrder a) := by
  unfold InLsnOrder
  split <;> infer_instance

instance (n : Node) (a : Act) : Decidable (n.PayloadFits a) := by
  unfold PayloadFits
  split <;> infer_instance

instance (n : Node) (l : Nat) : Decidable (n.NameFree l) := inferInstanceAs (Decidable (_ ∨ _))

instance (n : Node) (a : Act) : Decidable (n.RotateFresh a) := by
  unfold RotateFresh
  split <;> infer_instance

/-- The write under way, if any, has the last LSN given out. -/
def Sole (n : Node) : Prop :=
  ∀ (l : Nat) (call : WriteCall), n.writes[l]? = some call → l + 1 = n.engine.nextLsn

/-- Every LSN on its way lies above the active memtable. -/
def Arrivals (n : Node) : Prop :=
  ∀ (l : Nat) (call : WriteCall), n.writes[l]? = some call → call.stage ≠ .inserted →
    n.engine.memtables.active.val.maxLsn < l

variable {db : DuckDb} {n n' : Node} {a : Act}

theorem Sole.inLsnOrder (h : n.Sole) (hs : n.step db a = some n') : n.InLsnOrder a := by
  cases move_of_step hs with
  | @insert l rec hc =>
      rintro ⟨l', c⟩ hi -
      have := h l _ hc
      have := h l' c (OrdMap.mem_toList.mp hi)
      change l ≤ l'
      omega
  | _ => trivial

theorem Sole.step (h : n.Sole) (hsh : n.Shape db) (hg : n.OneWriter a)
    (hs : n.step db a = some n') : n'.Sole := by
  cases move_of_step hs with
  | alloc m hlt =>
      have hempty : n.writes = ∅ := ExtTreeMap.isEmpty_iff.mp hg
      intro l call hc
      simp only [hempty] at hc
      rw [OrdMap.getElem?_insert] at hc
      split at hc
      · next he => exact congrArg (· + 1) he.symm
      · simp at hc
  | @log l rec hc | @insert l rec hc =>
      obtain ⟨hl, -⟩ := hsh.writes_ok l _ hc
      intro l' call hl'
      rw [moveWrite, OrdMap.getElem?_insert] at hl'
      split at hl'
      · next he => rw [← he, hl]; exact h l _ hc
      · exact h l' call hl'
  | ack hc =>
      intro l' call hl'
      rw [OrdMap.getElem?_erase] at hl'
      split at hl'
      · contradiction
      · exact h l' call hl'
  | _ => exact h

theorem Arrivals.freezeClean (h : n.Arrivals) (a : Act) : n.FreezeClean a := by
  cases a with
  | freeze => exact fun item hi hst => h item.1 item.2 (OrdMap.mem_toList.mp hi) hst
  | _ => trivial

theorem Arrivals.step (h : n.Arrivals) (hsh : n.Shape db) (hg : n.InLsnOrder a)
    (hs : n.step db a = some n') : n'.Arrivals := by
  cases move_of_step hs with
  | alloc m hlt =>
      intro l call hc hst
      rw [OrdMap.getElem?_insert] at hc
      split at hc
      · next he => exact he ▸ hsh.active_lt
      · exact h l call hc hst
  | @log l rec hc =>
      obtain ⟨hl, -⟩ := hsh.writes_ok l _ hc
      intro l' call hl' hst
      rw [moveWrite, OrdMap.getElem?_insert] at hl'
      split at hl'
      · next he => rw [← he, hl]; exact h l _ hc (by simp)
      · exact h l' call hl' hst
  | @insert l rec hc =>
      obtain ⟨rfl, -⟩ := hsh.writes_ok l _ hc
      intro l' call hl' hst
      rw [moveWrite, OrdMap.getElem?_insert] at hl'
      split at hl'
      · rw [← Option.some.inj hl'] at hst
        contradiction
      · next hne =>
          have hle : rec.lsn ≤ l' := hg (l', call) (OrdMap.mem_toList.mpr hl') hst
          exact Nat.max_lt.mpr ⟨h l' call hl' hst, Nat.lt_of_le_of_ne hle hne⟩
  | ack hc =>
      intro l' call hl' hst
      rw [OrdMap.getElem?_erase] at hl'
      split at hl'
      · contradiction
      · exact h l' call hl' hst
  | freeze hroom hne => exact fun l call hc _ => (hsh.writes_ok l call hc).2.1
  | _ => exact h

/-! ## flushes -/

/-- A flush freezes only when no other is under way. -/
def OneFlush (n : Node) : Act → Prop
  | .freeze => n.flushes.isEmpty = true
  | _ => True

/-- When a memtable is published, the watermark already covers every older one
that still waits. -/
def PublishInOrder (n : Node) : Act → Prop
  | .publish p => ∀ m ∈ n.engine.memtables.frozen, m.ptr < p →
      m.val.maxLsn ≤ publishedWatermark n.store.lake
  | _ => True

instance (n : Node) (a : Act) : Decidable (n.OneFlush a) := by
  unfold OneFlush
  split <;> infer_instance

instance (n : Node) (a : Act) : Decidable (n.PublishInOrder a) := by
  unfold PublishInOrder
  split <;> infer_instance

/-- The flush under way, if any, is the only one, is of the last memtable
frozen, and has the only frozen memtable. -/
structure Alone (n : Node) : Prop where
  one : ∀ p ∈ n.flushes, ∀ q ∈ n.flushes, p = q
  last : ∀ p ∈ n.flushes, ∀ m ∈ n.trail.closed, m.ptr ≤ p
  queue : ∀ m ∈ n.engine.memtables.frozen, m.ptr ∈ n.flushes
  queried : ∀ (p w : Nat) (mt : Arc Memtable) (f : DataFile) (index : FileIndex),
    n.flushes[p]? = some ⟨mt, .queried w f index⟩ → FileIndex.load n.store.lake = .ok index

namespace Alone

theorem published_le (h : n.Alone) (hsh : n.Shape db) {p : Nat} (hp : p ∈ n.flushes) :
    ∀ m ∈ n.trail.published, m.ptr ≤ p := fun m hm =>
  h.last p hp m (hsh.order.published_mem m hm).1

theorem readInOrder (h : n.Alone) (hsh : n.Shape db) (hs : n.step db a = some n') :
    n.ReadInOrder a := by
  cases move_of_step hs with
  | readWatermark hc => exact h.published_le hsh (OrdMap.mem_of_getElem? hc)
  | _ => trivial

/-- No older memtable waits. -/
theorem no_older (h : n.Alone) {p : Nat} (hp : p ∈ n.flushes) {m : Arc Memtable}
    (hm : m ∈ n.engine.memtables.frozen) : ¬ m.ptr < p := by
  have := h.one p hp m.ptr (h.queue m hm)
  omega

theorem publishInOrder (h : n.Alone) (hs : n.step db a = some n') : n.PublishInOrder a := by
  cases move_of_step hs with
  | publish hc => exact fun m hm hlt => absurd hlt (h.no_older (OrdMap.mem_of_getElem? hc) hm)
  | _ => trivial

theorem retireInOrder (h : n.Alone) (hs : n.step db a = some n') : n.RetireInOrder a := by
  cases move_of_step hs with
  | retire hc =>
      exact fun _ _ m hm hlt => absurd hlt (h.no_older (OrdMap.mem_of_getElem? hc) hm)
  | _ => trivial

theorem installNotOlder (h : n.Alone) (hix : n.Indexed) (a : Act) : n.InstallNotOlder a := by
  cases a with
  | install p =>
      rw [InstallNotOlder]
      split
      · next mt w f index hc =>
          obtain ⟨files, hpre, hload⟩ := hix.snapshot
          have hold := (FileIndex.load_perm hload).length_eq
          have hnew := (FileIndex.load_perm (h.queried p w mt f index hc)).length_eq
          have := hpre.length_le
          rw [List.length_map] at hold hnew
          omega
      · trivial
  | _ => trivial

/-- A flush moves to another stage, and may add to the lake. -/
theorem move (h : n.Alone) {p : Nat} (hp : p ∈ n.flushes) (mt : Arc Memtable) (stage : FlushStage)
    (lake : List DataFile)
    (hq : ∀ w f index, stage = .queried w f index → FileIndex.load lake = .ok index)
    (trail : Trail) (hclosed : trail.closed = n.trail.closed) :
    Alone { n with
      flushes := n.flushes.insert p ⟨mt, stage⟩
      store := { n.store with lake }
      trail } := by
  have hmem : ∀ q, q ∈ n.flushes.insert p ⟨mt, stage⟩ ↔ q ∈ n.flushes := by
    intro q
    rw [OrdMap.mem_insert]
    exact ⟨fun hq => hq.elim (fun he => he ▸ hp) id, .inr⟩
  refine ⟨?_, ?_, ?_, ?_⟩
  · exact fun q hq q' hq' => h.one q ((hmem q).mp hq) q' ((hmem q').mp hq')
  · intro q hq m hm
    have hm : m ∈ trail.closed := hm
    rw [hclosed] at hm
    exact h.last q ((hmem q).mp hq) m hm
  · exact fun m hm => (hmem _).mpr (h.queue m hm)
  · intro q w mt' f index hc
    rw [OrdMap.getElem?_insert] at hc
    split at hc
    · have he := Option.some.inj hc
      rw [FlushCall.mk.injEq] at he
      exact hq w f index he.2
    · next hne => exact absurd (h.one p hp q (OrdMap.mem_of_getElem? hc)) hne

/-- A flush is over; its memtable has left the queue. -/
theorem finish (h : n.Alone) {p : Nat} (hp : p ∈ n.flushes) {mt : Arc Memtable} (hptr : mt.ptr = p)
    (trail : Trail) :
    Alone { n with
      engine := n.engine.retire mt
      flushes := n.flushes.erase mt.ptr
      trail } := by
  have hmem : ∀ q, q ∉ n.flushes.erase mt.ptr := by
    intro q hq
    obtain ⟨hne, hq⟩ := OrdMap.mem_erase.mp hq
    exact hne (hptr.trans (h.one p hp q hq))
  refine ⟨fun q hq => absurd hq (hmem q), fun q hq => absurd hq (hmem q), fun m hm => ?_,
    fun q w mt' f index hc => absurd (OrdMap.mem_of_getElem? hc) (hmem q)⟩
  obtain ⟨hm, hne⟩ := List.mem_filter.mp hm
  have := h.one p hp m.ptr (h.queue m hm)
  rw [decide_eq_true_eq] at hne
  omega

/-- **One flush at a time stays one flush at a time.** -/
theorem step (h : n.Alone) (hsh : n.Shape db) (hone : n.OneFlush a) (hok : NoFailure a)
    (hs : n.step db a = some n') : n'.Alone := by
  cases move_of_step hs with
  | freeze hroom hne =>
      have hempty : n.flushes = ∅ := ExtTreeMap.isEmpty_iff.mp hone
      have hmem : ∀ q, q ∈ n.flushes.insert n.engine.memtables.active.ptr
          ⟨n.engine.memtables.active, .frozen⟩ ↔ q = n.engine.memtables.active.ptr := by
        intro q
        rw [OrdMap.mem_insert, hempty]
        simp [eq_comm]
      refine ⟨?_, ?_, ?_, ?_⟩
      · exact fun q hq q' hq' => ((hmem q).mp hq).trans ((hmem q').mp hq').symm
      · intro q hq m hm
        rw [(hmem q).mp hq]
        rw [List.mem_append, List.mem_singleton] at hm
        rcases hm with hm | rfl
        · exact Nat.le_of_lt (hsh.order.closed_ok m hm).2.2
        · exact Nat.le_refl _
      · intro m hm
        rw [List.mem_append, List.mem_singleton] at hm
        rcases hm with hm | rfl
        · have := h.queue m hm
          rw [hempty] at this
          exact absurd this ExtTreeMap.not_mem_empty
        · exact (hmem _).mpr rfl
      · intro q w mt f index hc
        rw [OrdMap.getElem?_insert, hempty] at hc
        split at hc
        · cases Option.some.inj hc
        · simp at hc
  | readWatermark hc | planCovered hc | planWrite hc | stage hc =>
      obtain ⟨rfl, -⟩ := hsh.flushes_ok _ _ hc
      exact h.move (OrdMap.mem_of_getElem? hc) _ _ _ (by simp) n.trail rfl
  | publish hc =>
      obtain ⟨rfl, -⟩ := hsh.flushes_ok _ _ hc
      exact h.move (OrdMap.mem_of_getElem? hc) _ (.published _ _) _ nofun _ rfl
  | query hc hload =>
      obtain ⟨rfl, -⟩ := hsh.flushes_ok _ _ hc
      refine h.move (OrdMap.mem_of_getElem? hc) _ _ _ ?_ _ rfl
      intro w f index he
      cases he
      exact hload
  | install hc | truncate hc =>
      obtain ⟨rfl, -⟩ := hsh.flushes_ok _ _ hc
      exact { h.move (OrdMap.mem_of_getElem? hc) _ _ _ (by simp) n.trail rfl with }
  | planEmpty hc he =>
      obtain ⟨hptr, -⟩ := hsh.flushes_ok _ _ hc
      exact h.finish (OrdMap.mem_of_getElem? hc) hptr n.trail
  | retire hc =>
      obtain ⟨hptr, -⟩ := hsh.flushes_ok _ _ hc
      exact h.finish (OrdMap.mem_of_getElem? hc) hptr _
  | fail | failTruncate => exact hok.elim
  | _ => exact { h with }

end Alone

end Node

end HolyGrail
