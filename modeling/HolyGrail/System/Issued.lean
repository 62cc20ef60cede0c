import HolyGrail.Node.Issued
import HolyGrail.System

/-!
# HolyGrail.System.Issued

An LSN names one mutation, over all process lives.

LSNs are given again after a crash, when the record that had one did not reach
the disk.  `open` starts above the highest LSN it finds in the log and the
published watermark, so what is left of the ledger of the dead process lies
below (`Store.Backed.reopen`).

The records of the log are those its frames decode to.  A payload of 2 ^ 32
bytes or more does not fit the length field of its frame, and a frame cut short
by its own header can decode to a record nobody wrote
(`oversized_value_forges_record`).
-/

namespace HolyGrail

open Std (ExtTreeMap)

namespace Store.Backed

variable {db : DuckDb} {store : Store} {ledger : Ledger Record.lsn}

/-- Every row lies at or below the published watermark. -/
theorem row_le_watermark (h : store.Backed db Torn ledger.items) {f : DataFile}
    (hf : f ∈ store.lake) {row : Row} (hrow : row ∈ f.rows) :
    row.lsn ≤ publishedWatermark store.lake := by
  obtain ⟨v, hv, hlsn⟩ := h.files.find_row hf hrow
  have htop : v.lsn ≤ f.watermark := f.chunk.le_top _ v hv
  have hle := le_publishedWatermark (fun _ hg => h.files.stamped hg) hf
  omega

/-- **The process `open` brings up starts above everything on disk.** -/
theorem reopen (h : store.Backed db Torn ledger.items) (hlim : ledger.next ≤ lsnLimit)
    {cfg : Config} {history : History} {index : FileIndex} {n : Node}
    (hr : Node.recovered cfg store history (publishedWatermark store.lake) index = some n) :
    ∃ ledger', n.Issued db ledger' := by
  obtain ⟨log, hmir, hlog⟩ := h.log
  obtain ⟨dir, wal, -, htr, -, hrec⟩ :=
    StoreOk.recovered_of_mirrors hmir cfg history index
  rw [hr, Option.some.injEq] at hrec
  have hlt : ∀ r ∈ ledger.items, r.lsn < lsnLimit := fun r hr =>
    Nat.lt_of_lt_of_le (ledger.lt_next r hr) hlim
  -- What is left of the ledger is what is on disk.
  let kept : Set Record := {r | log.Holds r ∨ ∃ f ∈ store.lake, r.row ∈ f.rows}
  have hnext : ∀ r ∈ ledger.items ∩ kept,
      r.lsn < max (maxLsnOf log.flat) (publishedWatermark store.lake) + 1 := by
    rintro r ⟨hmem, hr | ⟨f, hf, hrow⟩⟩
    · have := le_maxLsnOf (Log.mem_flat.mpr hr)
      omega
    · have := h.row_le_watermark hf hrow
      rw [Record.row_lsn (hlt r hmem)] at this
      omega
  have hlogged : ∀ r, log.Holds r → r ∈ ledger.items ∩ kept := fun r hr => ⟨hlog r hr, .inl hr⟩
  refine ⟨ledger.restart kept _ hnext, ?_⟩
  rw [hrec]
  obtain ⟨rs, hrs, -⟩ := htr.active_mem
  refine ⟨rfl, ?_, ?_, ?_, ?_, ?_, ?_⟩
  · have hle : maxLsnOf log.flat ≤ lsnLimit - 1 :=
      maxLsnOf_le fun r hr => Nat.le_sub_one_of_lt (hlt r (hlog r (Log.mem_flat.mp hr)))
    have := h.files.watermark_lt
    change max (maxLsnOf log.flat) (publishedWatermark store.lake) + 1 ≤ lsnLimit
    omega
  · refine ⟨⟨log.opened, htr.mirrors, fun r hr => hlogged r (Log.holds_opened.mp hr)⟩, h.files,
      fun f hf row hrow => ?_⟩
    obtain ⟨r, hr, rfl⟩ := h.rows f hf row hrow
    exact ⟨r, ⟨hr, .inr ⟨f, hf, hrow⟩⟩, rfl⟩
  · exact ⟨_, htr.mirrors.start_lt _ (OrdMap.mem_of_getElem? hrs), htr.active_path⟩
  · intro l call hc
    simp [StoreOk.process, Node.boot] at hc
  · exact Memtable.From.new.insertAll fun r hr => hlogged r (StoreOk.mem_replayed.mp hr).1
  · intro p call hc
    simp [StoreOk.process, Node.boot] at hc

/-! ### what is on disk -/

theorem mem_of_decodes (h : store.Backed db Torn ledger.items) {r : Record}
    (hr : store.dir.Decodes r) : r ∈ ledger.items := by
  obtain ⟨log, hmir, hlog⟩ := h.log
  exact hlog r (hmir.holds_of_decodes hr)

end Store.Backed

/-- An LSN names one mutation on disk: two records of the log, a record and a
row, or two rows with one LSN are the same. -/
structure Store.NoLsnTwice (store : Store) : Prop where
  log : ∀ r s, store.dir.Decodes r → store.dir.Decodes s → r.lsn = s.lsn → r = s
  log_lake : ∀ r, store.dir.Decodes r → ∀ f ∈ store.lake, ∀ row ∈ f.rows, row.lsn = r.lsn →
    row = r.row
  lake : ∀ f ∈ store.lake, ∀ g ∈ store.lake, ∀ row ∈ f.rows, ∀ row' ∈ g.rows,
    row.lsn = row'.lsn → row = row'

/-- Every LSN on disk lies below `next`. -/
structure Store.Below (store : Store) (next : Nat) : Prop where
  log : ∀ r, store.dir.Decodes r → r.lsn < next
  lake : ∀ f ∈ store.lake, ∀ row ∈ f.rows, row.lsn < next

namespace Store.Backed

variable {db : DuckDb} {store : Store} {ledger : Ledger Record.lsn}

theorem below (h : store.Backed db Torn ledger.items) (hlim : ledger.next ≤ lsnLimit) :
    store.Below ledger.next where
  log r hr := ledger.lt_next r (h.mem_of_decodes hr)
  lake f hf row hrow := by
    obtain ⟨r, hr, rfl⟩ := h.rows f hf row hrow
    have hlt := ledger.lt_next r hr
    rw [Record.row_lsn (Nat.lt_of_lt_of_le hlt hlim)]
    exact_mod_cast hlt

theorem noLsnTwice (h : store.Backed db Torn ledger.items) (hlim : ledger.next ≤ lsnLimit) :
    store.NoLsnTwice := by
  have hlsn : ∀ r ∈ ledger.items, r.row.lsn = r.lsn := fun r hr =>
    Record.row_lsn (Nat.lt_of_lt_of_le (ledger.lt_next r hr) hlim)
  refine ⟨fun r s hr hs he => ?_, fun r hr f hf row hrow he => ?_,
    fun f hf g hg row hrow row' hrow' he => ?_⟩
  · exact ledger.unique (h.mem_of_decodes hr) (h.mem_of_decodes hs) he
  · obtain ⟨s, hs, rfl⟩ := h.rows f hf row hrow
    rw [hlsn s hs] at he
    rw [ledger.unique hs (h.mem_of_decodes hr) (by exact_mod_cast he)]
  · obtain ⟨r, hr, rfl⟩ := h.rows f hf row hrow
    obtain ⟨s, hs, rfl⟩ := h.rows g hg row' hrow'
    rw [hlsn r hr, hlsn s hs] at he
    rw [ledger.unique hr hs (by exact_mod_cast he)]

end Store.Backed

/-! ## over crashes and opens -/

namespace System

/-- The ledger of the process, or the one the last process left. -/
def Issued (db : DuckDb) (s : System) : Prop :=
  s.Opening ∧
    match s.phase with
    | .up p => ∃ ledger, (s.node p).Issued db ledger
    | _ => ∃ ledger : Ledger Record.lsn, ledger.next ≤ lsnLimit ∧
        s.store.Backed db Torn ledger.items

variable {db : DuckDb} {s s' : System} {e : Event}

theorem issued_init (db : DuckDb) : init.Issued db := by
  refine ⟨trivial, Ledger.empty, Nat.zero_le _, ⟨∅, .empty, ?_⟩, ?_, ?_⟩
  · rintro r ⟨n, rs, hn, -⟩
    simp at hn
  · intro i f hf
    simp [init, Node.emptyStore] at hf
  · exact fun f hf => absurd hf List.not_mem_nil

theorem issued_step (h : s.Issued db) (hg : Within Node.PayloadFits AnyCrash s e)
    (hs : s.step db e = some s') : s'.Issued db := by
  obtain ⟨hopen, h⟩ := h
  cases move_of_step hs with
  | node hp hn =>
      rw [hp] at h
      obtain ⟨ledger, h⟩ := h
      exact ⟨trivial, h.step (hg _ (node?_up hp)) hn⟩
  | crash hp hc =>
      rw [hp] at h
      obtain ⟨ledger, h⟩ := h
      exact ⟨trivial, ledger, h.next_le, h.crash hc⟩
  | readWatermark hp =>
      rw [hp] at h
      exact ⟨rfl, h⟩
  | loadIndex hp hload =>
      rw [Opening, hp] at hopen
      rw [hp] at h
      exact ⟨⟨hopen, hload⟩, h⟩
  | replay hp hr =>
      rw [Opening, hp] at hopen
      rw [hp] at h
      obtain ⟨ledger, hlim, h⟩ := h
      rw [hopen.1] at hr
      exact ⟨trivial, h.reopen hlim hr⟩
  | crashEarly hp =>
      rw [hp] at h
      exact ⟨trivial, h⟩
  | crashOpening hp hr =>
      rw [hp] at h
      obtain ⟨ledger, hlim, h⟩ := h
      obtain ⟨log, hmir, hlog⟩ := h.log
      obtain ⟨dir', hrec, hmir', -⟩ := recoverSegments_take hmir _ _
      rw [hr, Except.ok.injEq, Prod.mk.injEq] at hrec
      obtain ⟨rfl, -⟩ := hrec
      exact ⟨trivial, ledger, hlim, h.withDir hmir' hlog⟩
  | land hc => exact hg.elim

/-- **An LSN names one mutation**, in every run with any number of writers,
flushes in any order, failures, crashes and opens, as long as payloads fit the
length field of their frame: the LSN that the next `put` or `delete` takes is
above every record that can be decoded from the log and every row of a live
file, and no LSN is on disk for two different mutations. -/
theorem lsn_names_one_mutation
    (h : Reaches (step db) (Within Node.PayloadFits AnyCrash) init s) :
    (∀ n ∈ s.node?, s.store.Below n.engine.nextLsn) ∧ s.store.NoLsnTwice := by
  have hiss := (h.invariant (Issued db) (issued_init db)
    fun _ _ _ h hg hs => issued_step h hg hs).2
  split at hiss
  · next p hp =>
      obtain ⟨ledger, hiss⟩ := hiss
      refine ⟨fun n hn => ?_, hiss.backed.torn.noLsnTwice hiss.next_le⟩
      rw [Option.mem_def, node?_up hp, Option.some.injEq] at hn
      rw [← hn, ← hiss.next]
      exact hiss.backed.torn.below hiss.next_le
  · next hp =>
      obtain ⟨ledger, hlim, hback⟩ := hiss
      refine ⟨fun n hn => ?_, hback.noLsnTwice hlim⟩
      obtain ⟨p, hup, -⟩ := node?_eq_some hn
      exact absurd hup (hp p)

/-- A process dies inside an append; the next one gives the LSN again. -/
def tornThenReissued : List Event :=
  openSteps ++ nodeSteps (Node.putSteps [1] [7] 1 ++ [.alloc (.put [2] [8])]) ++
    [.crash (.inAppend 2 9)] ++ openSteps ++ nodeSteps (Node.putSteps [3] [9] 2)

theorem lsn_names_one_mutation_reissued :
    ∃ s, Reaches (step DuckDb.plain) (Within Node.PayloadFits AnyCrash) init s ∧
      s.history.acked = [.put [1] 1 [7], .put [3] 2 [9]] ∧ s.store.NoLsnTwice := by
  obtain ⟨s, h, hs⟩ := exists_run_of_attempt DuckDb.plain (Within Node.PayloadFits AnyCrash)
    (fun s => s.history.acked = [.put [1] 1 [7], .put [3] 2 [9]]) tornThenReissued
    (by decide +kernel)
  exact ⟨s, h, hs, (lsn_names_one_mutation h).2⟩

/-! ## a frame cut short by its own header -/

/-- The checksum's register after the fixed header of LSN 1, `put`, and a key of
four bytes.  A register fed its own bytes is zero, and stays zero over zeros. -/
def headRegister : UInt32 := (leBytes 8 1 ++ [0] ++ leBytes 4 4).foldl crcByte 0xFFFFFFFF

def zeroingKey : Bytes := leBytes 4 headRegister.toNat

/-- What the first frame decodes to. -/
def shortened : Record := .put zeroingKey 1 []

/-- The record nobody wrote. -/
def forged : Record := .put [2] 1 [9]

/-- The register after the forged frame. -/
def forgedRegister : UInt32 := (frame forged).foldl crcByte 0

/-- Bytes that no replay reads on from. -/
def stopper (n : Nat) : Bytes :=
  leBytes 4 forgedRegister.toNat ++ ([0, 0, 0, 0] ++ List.replicate n 0)

/-- A value that holds a frame. -/
def smuggling (n : Nat) : Bytes := frame forged ++ stopper n

theorem length_smuggling (n : Nat) : (smuggling n).length = 35 + n := by
  simp [smuggling, stopper, forged, Record.put]
  omega

theorem foldl_crcByte_smuggling (n : Nat) : (smuggling n).foldl crcByte 0 = 0 := by
  have hstop :
      (leBytes 4 forgedRegister.toNat ++ [0, 0, 0, 0]).foldl crcByte forgedRegister = 0 := by
    decide +kernel
  have hforged : (frame forged).foldl crcByte 0 = forgedRegister := by rw [forgedRegister]
  rw [smuggling, stopper, ← List.append_assoc (leBytes 4 _), List.foldl_append, hforged,
    List.foldl_append, hstop, foldl_crcByte_zeros]

theorem torn_stopper (n : Nat) : Torn (stopper n) := by
  have hlen : slice (stopper n) 4 8 = [0, 0, 0, 0] :=
    slice_eq_of_append (leBytes 4 forgedRegister.toNat) rfl (by simp) (by simp)
  have hcrc : slice (stopper n) 0 4 = leBytes 4 forgedRegister.toNat :=
    slice_eq_of_append [] rfl rfl (by simp)
  have hne : (crc32 []).toNat ≠ leNat (leBytes 4 forgedRegister.toNat) := by decide +kernel
  rw [torn_iff]
  intro hc
  have hcheck := hc.crc
  rw [hlen, hcrc, slice] at hcheck
  simp only [leNat, Nat.add_sub_cancel_left] at hcheck
  exact hne hcheck

/-- A payload of 2 ^ 32 bytes and 21 more has a header for the 21. -/
theorem frame_smuggling {n : Nat} (hn : 35 + n = 2 ^ 32) :
    frame (.put zeroingKey 1 (smuggling n)) = frames [shortened, forged] ++ stopper n := by
  have hpay : payload (.put zeroingKey 1 (smuggling n)) = payload shortened ++ smuggling n := by
    simp only [payload, Record.put, shortened, length_smuggling, hn, List.append_assoc,
      List.append_nil]
    rfl
  have hcrc : crc32 (payload shortened ++ smuggling n) = crc32 (payload shortened) := by
    have hzero : (payload shortened).foldl crcByte 0xFFFFFFFF = 0 := by decide +kernel
    rw [crc32, List.foldl_append, hzero, foldl_crcByte_smuggling, crc32, hzero]
  have hlen : leBytes 4 (payload shortened ++ smuggling n).length =
      leBytes 4 (payload shortened).length := by
    rw [List.length_append, length_smuggling, hn]
    rfl
  rw [frame, hpay, hcrc, hlen, frames_cons, frames_cons, frames_nil, List.append_nil, frame,
    smuggling]
  simp only [List.append_assoc]

theorem reaches_node {guard : System → Event → Prop} {s₀ : System} {n n' : Node} {a : Act}
    (h : Reaches (step db) guard s₀ s) (hn : s.node? = some n)
    (hs : n.step db a = some n') (hg : guard s (.node a)) :
    Reaches (step db) guard s₀ (s.withNode n') := by
  refine h.tail (.node a) hg ?_
  simp only [step, hn, Option.bind_some, hs, Option.map_some]

/-- A write takes its LSN and reaches the active segment. -/
theorem exists_logged {n : Node} (h : Reaches (step db) (Within (fun _ a => Node.NoFailure a)
      AnyCrash) init s) (hn : s.node? = some n) (m : Mutation)
    (hlt : n.engine.nextLsn < lsnLimit)
    (hroom : n.engine.wal.activeBytes < n.engine.wal.segmentMaxBytes) :
    ∃ s', Reaches (step db) (Within (fun _ a => Node.NoFailure a) AnyCrash) init s' ∧
      s'.store.dir = n.store.dir.append n.engine.wal.active.path
        (frame (m.record n.engine.nextLsn)) := by
  have h₁ := reaches_node h hn (Node.step_of_move (.alloc m hlt)) fun _ _ => trivial
  have h₂ := reaches_node h₁ rfl
    (Node.step_of_move (.log ExtTreeMap.getElem?_insert_self)) fun _ _ => trivial
  refine ⟨_, h₂, ?_⟩
  have hmake : n.engine.wal.makeRoom n.store.dir (m.record n.engine.nextLsn).lsn =
      (n.store.dir, n.engine.wal) := if_neg (Nat.not_le_of_lt hroom)
  change (n.engine.wal.append n.store.dir [m.record n.engine.nextLsn]).1 = _
  rw [Wal.append, hmake]
  simp only [frames_cons, frames_nil, List.append_nil]

theorem oversized_value_forges_record :
    ∃ s, Reaches (step DuckDb.plain) (Within (fun _ a => Node.NoFailure a) AnyCrash) init s ∧
      ¬ s.store.NoLsnTwice := by
  obtain ⟨s, h, hs⟩ := exists_run_of_attempt DuckDb.plain
    (Within (fun _ a => Node.NoFailure a) AnyCrash)
    (fun s => s.node?.any (fun n => n.engine.nextLsn = 1 ∧
      n.engine.wal.active.path = segmentName 0 ∧
      n.engine.wal.activeBytes < n.engine.wal.segmentMaxBytes ∧
      n.store.dir[segmentName 0]? = some []) = true) openSteps (by decide +kernel)
  obtain ⟨n, hn, hs⟩ := (Option.any_eq_true _ _).mp hs
  obtain ⟨hnext, hpath, hroom, hfile⟩ := of_decide_eq_true hs
  obtain ⟨k, hk⟩ : ∃ k, 35 + k = 2 ^ 32 := ⟨2 ^ 32 - 35, rfl⟩
  obtain ⟨s', h', hdir⟩ := exists_logged h hn (.put zeroingKey (smuggling k))
    (by rw [hnext]; exact Nat.one_lt_two_pow (by decide)) hroom
  refine ⟨s', h', fun hone => ?_⟩
  have hbuf : s'.store.dir[segmentName 0]? =
      some (frames [shortened, forged] ++ stopper k) := by
    rw [hdir, hpath, hnext, Mutation.record, frame_smuggling hk, Dir.append,
      OrdMap.getElem?_modify, if_pos rfl, hfile, Option.map_some, List.nil_append]
  have hfit : ∀ r ∈ [shortened, forged], Fits r := by decide +kernel
  have hreads := replayFrom_frames hfit (torn_stopper k) (segmentName 0) 0
  have hdec : ∀ r ∈ [shortened, forged], s'.store.dir.Decodes r := fun r hr =>
    ⟨segmentName 0, _, _, ⟨_, hbuf, hreads, rfl⟩, hr⟩
  have heq := hone.log shortened forged (hdec _ List.mem_cons_self)
    (hdec _ (List.mem_cons_of_mem _ List.mem_cons_self)) (by decide +kernel)
  exact absurd heq (by decide +kernel)

end System

end HolyGrail
