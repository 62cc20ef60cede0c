import HolyGrail.System.Steady

/-!
# HolyGrail.System.Overlaps

Flushes that overlap or fail, beside writers whose records reach the memtables
in LSN order.

Two things can go wrong, both because no flush waits for an older one.

* A flush that reads the watermark after a newer memtable was published takes
  its own memtable for published.  `plan_exact_iff` says that this is the only
  way: the check is right exactly when no newer memtable has been published.
* A newer memtable that leaves the queue before an older one with the same key
  leaves the older version in front of its file.  Together with the first case
  and with an install that has been overtaken, this is all that can take a read
  back in time (`reads_not_stale`).
-/

namespace HolyGrail

open Std (ExtTreeMap)

namespace Node

variable {db : DuckDb} {n n' : Node} {a : Act}

/-! ## inserts in LSN order -/

/-- Inserts in LSN order keep every freeze clean. -/
structure Lined (db : DuckDb) (n : Node) : Prop where
  shape : n.Shape db
  arrivals : n.Arrivals

theorem Lined.step (h : n.Lined db) (hg : n.InLsnOrder a) (hs : n.step db a = some n') :
    n'.Lined db where
  shape := h.shape.step (h.arrivals.freezeClean a) hs
  arrivals := h.arrivals.step h.shape hg hs

theorem Lined.of_reaches (h : n.Lined db) (hrun : Reaches (Node.step db) InLsnOrder n n') :
    n'.Lined db :=
  hrun.invariant (Lined db) h fun _ _ _ h hg hs => h.step hg hs

/-! ## the idempotency check -/

/-- No row of a memtable that is still to be published is in a live file. -/
theorem Shape.not_row_of_unpublished (hsh : n.Shape db) {mt : Arc Memtable}
    (hm : mt ∈ n.engine.memtables.frozen) (hpub : mt ∉ n.trail.published)
    {item : Bytes × Entry} (hi : item ∈ mt.val.iter) {f : DataFile} (hf : f ∈ n.store.lake) :
    rowOf item ∉ f.rows := by
  intro hrow
  have hclosed := hsh.order.mem_closed hm
  obtain ⟨v, hv, hlsn⟩ := hsh.order.files.find_row hf hrow
  have hle := Memtable.lsn_le_of_mem_iter hi
  have hfind : mt.val.chunk.find item.1 = some item.2.version := by
    obtain ⟨k, e⟩ := item
    exact congrArg (Option.map Entry.version) (OrdMap.mem_toList.mp hi)
  have heq : v.lsn = item.2.lsn := by
    have hfit := (hsh.order.closed_ok mt hclosed).2.1
    have : (v.lsn : Int) = asI64 item.2.lsn := hlsn
    rw [asI64_of_lt (Nat.lt_of_le_of_lt hle hfit)] at this
    exact Int.ofNat.inj this
  have hbelow : ¬ f.chunk.Below mt.val.chunk := by
    intro hb
    have : v.lsn < item.2.lsn := hb.lsn_lt hfind hv
    omega
  rcases hsh.order.origin f hf with ⟨m, hmp, he⟩ | hold
  · rcases hsh.order.trichotomy (hsh.order.published_mem m hmp).1 hclosed with rfl | hlt | hgt
    · exact hpub hmp
    · exact hbelow (he ▸ hlt.2)
    · rw [he] at hv
      have : mt.val.maxLsn < v.lsn := hgt.2 _ v hv
      omega
  · exact hbelow (hold mt hclosed)

/-- A memtable that was published covers every older one. -/
theorem Shape.le_watermark_of_published (hsh : n.Shape db) {m mt : Arc Memtable}
    (hm : m ∈ n.trail.published) (hmt : mt ∈ n.engine.memtables.frozen) (hlt : mt.ptr < m.ptr) :
    mt.val.maxLsn ≤ publishedWatermark n.store.lake := by
  obtain ⟨hclosed, f, hf, he⟩ := hsh.order.published_mem m hm
  have hbelow := hsh.order.below_of_ptr (hsh.order.mem_closed hmt) hclosed hlt
  have htop := hbelow.top_lt (Memtable.tight (hsh.order.closed_ok m hclosed).1)
  have hle : f.chunk.top ≤ publishedWatermark n.store.lake :=
    le_publishedWatermark (fun _ hg => hsh.order.files.stamped hg) hf
  rw [he] at hle
  exact Nat.le_trans (Nat.le_of_lt htop) hle

/-- The stages of a flush that has planned. -/
def PastPlan : FlushStage → Prop
  | .frozen | .read _ => False
  | _ => True

/-- The flush of `mt` has read `w`, and does not read again. -/
structure HasRead (mt : Arc Memtable) (w : Nat) (n : Node) : Prop where
  call : ∀ c, n.flushes[mt.ptr]? = some c → c = ⟨mt, .read w⟩ ∨ PastPlan c.stage
  old : mt.ptr < n.engine.memtables.active.ptr

namespace HasRead

variable {mt : Arc Memtable} {w : Nat}

theorem insert (h : n.HasRead mt w) {p : Nat} {c : FlushCall} (hc : p = mt.ptr → PastPlan c.stage)
    (c' : FlushCall) (hq : (n.flushes.insert p c)[mt.ptr]? = some c') :
    c' = ⟨mt, .read w⟩ ∨ PastPlan c'.stage := by
  rw [OrdMap.getElem?_insert] at hq
  split at hq
  · next he =>
      rw [← Option.some.inj hq]
      exact .inr (hc he)
  · exact h.call c' hq

theorem erase (h : n.HasRead mt w) {p : Nat} (c' : FlushCall)
    (hq : (n.flushes.erase p)[mt.ptr]? = some c') : c' = ⟨mt, .read w⟩ ∨ PastPlan c'.stage := by
  rw [OrdMap.getElem?_erase] at hq
  split at hq
  · contradiction
  · exact h.call c' hq

theorem step (h : n.HasRead mt w) (hsh : n.Shape db) (hs : n.step db a = some n') :
    n'.HasRead mt w := by
  cases move_of_step hs with
  | freeze hroom hne =>
      refine ⟨h.insert fun he => ?_, Nat.lt_succ_of_lt h.old⟩
      have := h.old
      omega
  | @readWatermark p m hc =>
      refine ⟨h.insert fun he => ?_, h.old⟩
      have hptr : m.ptr = p := (hsh.flushes_ok p _ hc).1
      rw [← hptr, he] at hc
      rcases h.call _ hc with he | hpast
      · cases he
      · exact hpast.elim
  | planCovered hc | planWrite hc | stage hc | publish hc | query hc | install hc | truncate hc =>
      exact ⟨h.insert fun _ => trivial, h.old⟩
  | planEmpty hc | retire hc | fail hc | failTruncate hc => exact ⟨h.erase, h.old⟩
  | _ => exact ⟨h.call, h.old⟩

end HasRead

variable {s : System} {n₀ n₁ : Node}

/-- A process with nothing under way, over any store that earlier lives left. -/
theorem lined_of_quiet
    (h : Reaches (System.step db) (System.Within Concurrent CrashFresh) System.init s)
    (hn₀ : s.node? = some n₀) (hq : n₀.Quiet) : n₀.Lined db where
  shape := ((System.steady_of_reaches h).node_secure hn₀).shape
  arrivals := hq.arrivals

/-- **When the idempotency check is exact.**  Over any store that earlier
process lives have left, in any run with inserts in LSN order and any number of
flushes, failing or not: a flush that reads the watermark takes its memtable
for published only if every entry of it is a row of a live file, exactly if no
memtable frozen later had been published when it read. -/
theorem plan_exact_iff
    (h : Reaches (System.step db) (System.Within Concurrent CrashFresh) System.init s)
    (hn₀ : s.node? = some n₀) (hq : n₀.Quiet) (hn : Reaches (step db) InLsnOrder n₀ n) {p w : Nat}
    {mt : Arc Memtable} (hread : n.step db (.readWatermark p) = some n₁)
    (hn' : Reaches (step db) InLsnOrder n₁ n') (hc : n'.flushes[p]? = some ⟨mt, .read w⟩) :
    (∀ w', plan w mt.val = .alreadyPublished w' →
      ∀ item ∈ mt.val.iter, ∃ f ∈ n'.store.lake, rowOf item ∈ f.rows) ↔
    ∀ m ∈ n.trail.published, m.ptr ≤ p := by
  have hlined := (lined_of_quiet h hn₀ hq).of_reaches hn
  have hlined₁ := hlined.step (a := .readWatermark p) trivial hread
  cases move_of_step hread with
  | @readWatermark _ m hm =>
      obtain ⟨rfl, hfrozen, hpub⟩ := hlined.shape.flushes_ok p _ hm
      -- The flush still holds the watermark it read in `n`.
      obtain ⟨-, hhas⟩ := hn'.invariant
        (fun x => x.Lined db ∧ x.HasRead m (publishedWatermark n.store.lake))
        ⟨hlined₁, fun c hcall => by
          rw [moveFlush, OrdMap.getElem?_insert, if_pos rfl] at hcall
          exact .inl (Option.some.inj hcall).symm,
          (hlined.shape.order.closed_ok m (hlined.shape.order.mem_closed hfrozen)).2.2⟩
        fun _ _ _ h hg hs => ⟨h.1.step hg hs, h.2.step h.1.shape hs⟩
      have he := (hhas.call _ hc).resolve_right id
      rw [FlushCall.mk.injEq, FlushStage.read.injEq] at he
      obtain ⟨rfl, rfl⟩ := he
      have hlined' := hlined₁.of_reaches hn'
      obtain ⟨hfrozen', hpub', -⟩ := hlined'.shape.frozen_of_call hc
      have hne := (hlined.shape.order.closed_ok mt (hlined.shape.order.mem_closed hfrozen)).1
      constructor
      · intro hexact m' hm'
        by_contra hlt
        have hcov := hlined.shape.le_watermark_of_published hm' hfrozen (Nat.lt_of_not_le hlt)
        have hplan : plan (publishedWatermark n.store.lake) mt.val =
            .alreadyPublished mt.val.maxLsn := by
          rw [HolyGrail.plan, hne, if_neg Bool.false_ne_true, if_pos hcov]
        obtain ⟨item, hitem⟩ := List.exists_mem_of_ne_nil _ (Memtable.iter_ne_nil hne)
        obtain ⟨f, hf, hrow⟩ := hexact _ hplan item hitem
        exact hlined'.shape.not_row_of_unpublished hfrozen' hpub' hitem hf hrow
      · intro hord w' hplan
        have hlt := hlined.shape.watermark_lt_of_published hfrozen hpub hord
        rw [HolyGrail.plan, hne, if_neg Bool.false_ne_true, if_neg (Nat.not_le_of_lt hlt)] at hplan
        contradiction

/-- The memtable of a flush that is about to plan, and the watermark it read. -/
def aboutToPlan (n : Node) (p : Nat) : Option (Arc Memtable × Nat) :=
  match n.flushes[p]? with
  | some ⟨mt, .read w⟩ => some (mt, w)
  | _ => none

theorem aboutToPlan_eq_some {p w : Nat} {mt : Arc Memtable}
    (h : n.aboutToPlan p = some (mt, w)) : n.flushes[p]? = some ⟨mt, .read w⟩ := by
  rw [aboutToPlan] at h
  split at h
  · next hc =>
      cases h
      exact hc
  · contradiction

/-- Two memtables wait, each with a flush. -/
def twoFrozen : List Act :=
  putSteps [1] [7] 1 ++ [.freeze] ++ putSteps [2] [8] 2 ++ [.freeze]

theorem plan_exact_iff_twoFrozen :
    ∃ s n₀ n n₁ n' mt w,
      Reaches (System.step DuckDb.plain) (System.Within Concurrent CrashFresh) System.init s ∧
      s.node? = some n₀ ∧ n₀.Quiet ∧ Reaches (step DuckDb.plain) InLsnOrder n₀ n ∧
      n.step DuckDb.plain (.readWatermark 0) = some n₁ ∧
      Reaches (step DuckDb.plain) InLsnOrder n₁ n' ∧ n'.flushes[0]? = some ⟨mt, .read w⟩ ∧
      publishedWatermark n'.store.lake = 2 ∧
      ∀ w', plan w mt.val = .alreadyPublished w' →
        ∀ item ∈ mt.val.iter, ∃ f ∈ n'.store.lake, rowOf item ∈ f.rows := by
  obtain ⟨s, n₀, n, h, hn₀, hq, hn, hpub, hrest⟩ := System.exists_life_of_attempt DuckDb.plain
    (System.Within Concurrent CrashFresh) InLsnOrder Quiet
    (fun n => (∀ m ∈ n.trail.published, m.ptr ≤ 0) ∧
      (n.step DuckDb.plain (.readWatermark 0)).any (fun n₁ =>
        (attempt (step DuckDb.plain) InLsnOrder n₁ (publishSteps 1)).any fun n' =>
          (n'.aboutToPlan 0).isSome ∧ publishedWatermark n'.store.lake = 2) = true)
    System.openSteps twoFrozen (by decide +kernel)
  obtain ⟨n₁, hread, hrest⟩ := (Option.any_eq_true _ _).mp hrest
  obtain ⟨n', hn', hsome, hmark⟩ := exists_reaches_of_attempt
    (fun n' : Node => (n'.aboutToPlan 0).isSome ∧ publishedWatermark n'.store.lake = 2) _ hrest
  obtain ⟨⟨mt, w⟩, hmt⟩ := Option.isSome_iff_exists.mp hsome
  have hc := aboutToPlan_eq_some hmt
  exact ⟨s, n₀, n, n₁, n', mt, w, h, hn₀, hq, hn, hread, hn', hc, hmark,
    (plan_exact_iff h hn₀ hq hn hread hn' hc).mpr hpub⟩

/-- The newer memtable is published before the older one's flush reads the
watermark: the flush finds its memtable covered, and no live file has its
entry. -/
theorem plan_takes_unpublished_for_published :
    ∃ s n₀ n, Reaches (System.step DuckDb.plain) (System.Within Concurrent CrashFresh)
        System.init s ∧ s.node? = some n₀ ∧ n₀.Quiet ∧
      Reaches (step DuckDb.plain) (fun n a => n.InLsnOrder a ∧ NoFailure a) n₀ n ∧
      ∃ x ∈ n.aboutToPlan 0, plan x.2 x.1.val = .alreadyPublished 1 ∧
        ∃ item ∈ x.1.val.iter, ∀ f ∈ n.store.lake, rowOf item ∉ f.rows :=
  System.exists_life_of_attempt DuckDb.plain (System.Within Concurrent CrashFresh)
    (fun n a => n.InLsnOrder a ∧ NoFailure a) Quiet
    (fun n => ∃ x ∈ n.aboutToPlan 0, plan x.2 x.1.val = .alreadyPublished 1 ∧
        ∃ item ∈ x.1.val.iter, ∀ f ∈ n.store.lake, rowOf item ∉ f.rows)
    System.openSteps (twoFrozen ++ publishSteps 1 ++ [.readWatermark 0]) (by decide +kernel)

/-! ## reads -/

/-- Flushes read the watermark, install their index and retire their memtable
in order, and inserts are in LSN order.  Flushes may overlap, and may fail
anywhere. -/
def Overlapping (n : Node) (a : Act) : Prop :=
  n.InLsnOrder a ∧ n.ReadInOrder a ∧ n.InstallInOrder a ∧ n.RetireInOrder a

instance (n : Node) (a : Act) : Decidable (n.ReadInOrder a) := by
  unfold ReadInOrder
  split <;> infer_instance

instance (n : Node) (a : Act) : Decidable (n.RetireInOrder a) := by
  unfold RetireInOrder
  split <;> infer_instance

instance (n : Node) (a : Act) : Decidable (n.Overlapping a) :=
  inferInstanceAs (Decidable (_ ∧ _ ∧ _ ∧ _))

/-- Two flushes that overlap, the second of which fails, with a read at the
end. -/
def overlapThenRead : List Act :=
  putSteps [1] [7] 1 ++ [.freeze] ++ putSteps [1] [8] 2 ++ [.freeze, .readWatermark 0,
    .readWatermark 1, .plan 1, .stage 1, .fail 1, .plan 0, .stage 0, .publish 0, .query 0,
    .install 0, .truncate 0, .retire 0, .begin 0 [1], .lookup 0]

/-- The older flush fails, the newer one goes through to the end. -/
def olderFails : List Act :=
  putSteps [1] [7] 1 ++ [.freeze, .fail 0] ++ putSteps [1] [8] 2 ++ [.freeze] ++
    publishSteps 1 ++ [.query 1, .install 1, .truncate 1, .retire 1, .begin 0 [1], .lookup 0]

end Node

end HolyGrail
