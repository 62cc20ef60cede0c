import HolyGrail.Wal.Names
import HolyGrail.OrdMap

/-!
# HolyGrail.Wal.Log

The log as records.  A `Log` maps each segment's start LSN to the records of
its whole frames; `Mirrors` ties it to the bytes of a directory, and `Tracks`
ties both to the bookkeeping of an open `Wal`.  Each operation of the log has
one lemma here that says what it does to the `Log`; nothing above this module
looks at a byte again.

* `append_tracks` — a returned append adds its batch to one segment;
* `appendTorn_mirrors` — a torn append adds the whole frames that survived;
* `truncateThrough_tracks` — truncation drops whole covered segments;
* `open_tracks` — recovery returns the records above the watermark.
-/

namespace HolyGrail

open Std (ExtTreeMap)

/-! ## frames of a batch -/

theorem foldl_encode (recs : List Record) (out : Bytes) :
    recs.foldl (fun out r => encode r out) out = out ++ recs.flatMap frame := by
  induction recs generalizing out with
  | nil => simp
  | cons r rs ih => rw [List.foldl_cons, ih, encode, List.flatMap_cons, List.append_assoc]

theorem frames_eq_flatMap (recs : List Record) : frames recs = recs.flatMap frame := by
  rw [frames, foldl_encode, List.nil_append]

@[simp] theorem frames_nil : frames [] = [] := rfl

theorem frames_cons (r : Record) (rs : List Record) : frames (r :: rs) = frame r ++ frames rs := by
  simp [frames_eq_flatMap]

theorem frames_append (rs ss : List Record) : frames (rs ++ ss) = frames rs ++ frames ss := by
  simp [frames_eq_flatMap]

@[simp] theorem maxLsnOf_nil : maxLsnOf [] = 0 := rfl

theorem maxLsnOf_append (rs ss : List Record) :
    maxLsnOf (rs ++ ss) = max (maxLsnOf rs) (maxLsnOf ss) := by
  induction rs with
  | nil => simp [maxLsnOf]
  | cons r rs ih =>
      simp only [maxLsnOf, List.cons_append, List.foldr_cons] at ih ⊢
      rw [ih, Nat.max_assoc]

theorem le_maxLsnOf {r : Record} {rs : List Record} (h : r ∈ rs) : r.lsn ≤ maxLsnOf rs := by
  obtain ⟨ss, ts, rfl⟩ := List.append_of_mem h
  rw [maxLsnOf_append, maxLsnOf, maxLsnOf, List.foldr_cons]
  omega

theorem maxLsnOf_le {rs : List Record} {n : Nat} (h : ∀ r ∈ rs, r.lsn ≤ n) : maxLsnOf rs ≤ n := by
  induction rs with
  | nil => exact Nat.zero_le n
  | cons r rs ih =>
      have hr := h r List.mem_cons_self
      have hrs := ih fun s hs => h s (List.mem_cons_of_mem r hs)
      simp only [maxLsnOf, List.foldr_cons] at hrs ⊢
      omega

/-! ## torn tails -/

/-- Bytes at the end of a segment that replay stops at without an error. -/
def Torn (tail : Bytes) : Prop := ∀ seg off, decode tail seg off = .ok none

theorem torn_nil : Torn [] := fun _ _ => rfl

/-- The records of a batch whose frames lie whole in its first `n` bytes. -/
def survivors : List Record → Nat → List Record
  | [], _ => []
  | r :: rs, n =>
      if (frame r).length ≤ n then r :: survivors rs (n - (frame r).length) else []

theorem prefix_survivors (rs : List Record) (n : Nat) : survivors rs n <+: rs := by
  induction rs generalizing n with
  | nil => exact List.prefix_rfl
  | cons r rs ih =>
      rw [survivors]
      split
      · exact (List.cons_prefix_cons).mpr ⟨rfl, ih _⟩
      · exact List.nil_prefix

/-- A batch cut at any byte is the frames of its survivors and a torn tail. -/
theorem take_frames {rs : List Record} (h : ∀ r ∈ rs, Fits r) (n : Nat) :
    ∃ tail, (frames rs).take n = frames (survivors rs n) ++ tail ∧ Torn tail := by
  induction rs generalizing n with
  | nil => exact ⟨[], by simp [survivors], torn_nil⟩
  | cons r rs ih =>
      have hr := h r List.mem_cons_self
      rw [survivors]
      split
      · next hle =>
          obtain ⟨tail, ht, htorn⟩ := ih (fun s hs => h s (List.mem_cons_of_mem r hs))
            (n - (frame r).length)
          refine ⟨tail, ?_, htorn⟩
          rw [frames_cons, frames_cons, List.take_append, List.take_of_length_le hle, ht,
            List.append_assoc]
      · next hlt =>
          refine ⟨(frame r).take n, ?_, fun seg off => decode_cut_frame hr (by omega) seg off⟩
          rw [frames_cons, List.take_append, Nat.sub_eq_zero_of_le (by omega)]
          simp

theorem torn_iff {tail : Bytes} : Torn tail ↔ ¬ Checks tail :=
  ⟨fun h => decode_eq_none_iff.mp (h [] 0), fun h _ _ => decode_eq_none_iff.mpr h⟩

/-! ## replay, frame by frame -/

section
variable {seg : FileName} {buf : Bytes} {off : Nat}

theorem replayFrom_of_none (h : decode buf seg off = .ok none) :
    Wal.replayFrom seg buf off = .ok ([], 0, off) := by
  rw [Wal.replayFrom]
  split
  · next he => rw [h] at he; contradiction
  · rfl
  · next he => rw [h] at he; simp at he

theorem replayFrom_of_error {e : Error} (h : decode buf seg off = .error e) :
    Wal.replayFrom seg buf off = .error e := by
  rw [Wal.replayFrom]
  split
  · next he => rw [h] at he; rw [Except.error.inj he]
  · next he => rw [h] at he; contradiction
  · next he => rw [h] at he; contradiction

theorem replayFrom_of_some {r : Record} {n : Nat} (h : decode buf seg off = .ok (some (r, n))) :
    Wal.replayFrom seg buf off = (Wal.replayFrom seg (buf.drop n) (off + n)).map
      fun x => (r :: x.1, max r.lsn x.2.1, x.2.2) := by
  rw [Wal.replayFrom]
  split
  · next he => rw [h] at he; contradiction
  · next he => rw [h] at he; simp at he
  · next r' n' he =>
      rw [h] at he
      simp only [Except.ok.injEq, Option.some.injEq, Prod.mk.injEq] at he
      obtain ⟨rfl, rfl⟩ := he
      cases Wal.replayFrom seg (buf.drop n) (off + n) <;> rfl

variable {m good : Nat} {rs : List Record}

/-- Replay stops where it stands, or reads a frame and goes on behind it. -/
theorem replayFrom_cases (h : Wal.replayFrom seg buf off = .ok (rs, m, good)) :
    (decode buf seg off = .ok none ∧ rs = [] ∧ m = 0 ∧ good = off) ∨
      ∃ r n rs' m', decode buf seg off = .ok (some (r, n)) ∧
        Wal.replayFrom seg (buf.drop n) (off + n) = .ok (rs', m', good) ∧
        rs = r :: rs' ∧ m = max r.lsn m' := by
  cases hd : decode buf seg off with
  | error e =>
      rw [replayFrom_of_error hd] at h
      contradiction
  | ok o =>
      cases o with
      | none =>
          rw [replayFrom_of_none hd] at h
          simp only [Except.ok.injEq, Prod.mk.injEq] at h
          exact .inl ⟨rfl, h.1.symm, h.2.1.symm, h.2.2.symm⟩
      | some p =>
          obtain ⟨r, n⟩ := p
          rw [replayFrom_of_some hd] at h
          cases hr : Wal.replayFrom seg (buf.drop n) (off + n) with
          | error e =>
              rw [hr] at h
              contradiction
          | ok x =>
              obtain ⟨rs', m', good'⟩ := x
              rw [hr] at h
              simp only [Except.map, Except.ok.injEq, Prod.mk.injEq] at h
              obtain ⟨rfl, rfl, rfl⟩ := h
              exact .inr ⟨r, n, rs', m', rfl, hr, rfl, rfl⟩

/-- **Induction over a replay that returns.** -/
theorem replayFrom_induction
    {motive : ∀ buf off m rs, Wal.replayFrom seg buf off = .ok (rs, m, good) → Prop}
    (torn : ∀ {buf} (hd : decode buf seg good = .ok none),
      motive buf good 0 [] (replayFrom_of_none hd))
    (frame : ∀ {buf off r n rs m} (hd : decode buf seg off = .ok (some (r, n)))
      (hr : Wal.replayFrom seg (buf.drop n) (off + n) = .ok (rs, m, good)),
      motive (buf.drop n) (off + n) m rs hr →
        motive buf off (max r.lsn m) (r :: rs) (by rw [replayFrom_of_some hd, hr]; rfl))
    (h : Wal.replayFrom seg buf off = .ok (rs, m, good)) : motive buf off m rs h := by
  induction rs generalizing buf off m with
  | nil =>
      rcases replayFrom_cases h with ⟨hd, -, rfl, rfl⟩ | ⟨r, n, rs', m', -, -, hrs, -⟩
      · exact torn hd
      · contradiction
  | cons r rs ih =>
      rcases replayFrom_cases h with ⟨-, hrs, -⟩ | ⟨r', n, rs', m', hd, hr, hrs, rfl⟩
      · contradiction
      · obtain ⟨rfl, rfl⟩ := List.cons.inj hrs
        exact frame hd hr (ih hr)
end

/-- Replay reads back every whole frame, whatever follows them. -/
theorem replayFrom_frames_append {rs : List Record} (h : ∀ r ∈ rs, Fits r) (tail : Bytes)
    (seg : FileName) (off : Nat) :
    Wal.replayFrom seg (frames rs ++ tail) off =
      (Wal.replayFrom seg tail (off + (frames rs).length)).map
        fun x => (rs ++ x.1, max (maxLsnOf rs) x.2.1, x.2.2) := by
  induction rs generalizing off with
  | nil => cases hr : Wal.replayFrom seg tail off <;> simp [hr, Except.map]
  | cons r rs ih =>
      have hr := h r List.mem_cons_self
      have hrs := ih (fun s hs => h s (List.mem_cons_of_mem r hs)) (off + (frame r).length)
      rw [frames_cons, List.append_assoc,
        replayFrom_of_some (decode_frame_append hr (frames rs ++ tail) seg off), List.drop_left,
        hrs, List.length_append, Nat.add_assoc]
      cases Wal.replayFrom seg tail (off + ((frame r).length + (frames rs).length)) with
      | error e => rfl
      | ok x => simp only [Except.map, maxLsnOf, List.foldr_cons, List.cons_append, Nat.max_assoc]

/-- Replay reads back every whole frame and stops at the torn tail. -/
theorem replayFrom_frames {rs : List Record} (h : ∀ r ∈ rs, Fits r) {tail : Bytes}
    (ht : Torn tail) (seg : FileName) (off : Nat) :
    Wal.replayFrom seg (frames rs ++ tail) off =
      .ok (rs, maxLsnOf rs, off + (frames rs).length) := by
  rw [replayFrom_frames_append h, replayFrom_of_none (ht seg _)]
  simp [Except.map]

/-! ## the log of a directory -/

/-- The records of each segment, by start LSN. -/
abbrev Log := ExtTreeMap Nat (List Record)

namespace Log

/-- The record is in some segment. -/
def Holds (log : Log) (r : Record) : Prop :=
  ∃ (n : Nat) (rs : List Record), log[n]? = some rs ∧ r ∈ rs

/-- Add records at the end of a segment. -/
def extend (log : Log) (n : Nat) (recs : List Record) : Log :=
  log.insert n (log[n]?.getD [] ++ recs)

/-- Drop segments. -/
def eraseAll (log : Log) (ns : List Nat) : Log := ns.foldl (fun log n => log.erase n) log

/-- All records, in the order replay visits them. -/
def flat (log : Log) : List Record := log.toList.flatMap Prod.snd

theorem mem_flat {log : Log} {r : Record} : r ∈ log.flat ↔ log.Holds r := by
  simp only [flat, List.mem_flatMap, Holds, Prod.exists, OrdMap.mem_toList]

theorem holds_extend {log : Log} {n : Nat} {recs : List Record} {r : Record} :
    (log.extend n recs).Holds r ↔ log.Holds r ∨ r ∈ recs := by
  constructor
  · rintro ⟨m, rs, hm, hr⟩
    rw [extend, OrdMap.getElem?_insert] at hm
    split at hm
    · rw [← Option.some.inj hm, List.mem_append] at hr
      cases hr with
      | inl hr =>
          cases hn : log[n]? with
          | none => rw [hn] at hr; simp at hr
          | some ss => rw [hn] at hr; exact .inl ⟨n, ss, hn, hr⟩
      | inr hr => exact .inr hr
    · exact .inl ⟨m, rs, hm, hr⟩
  · rintro (⟨m, rs, hm, hr⟩ | hr)
    · by_cases he : n = m
      · subst he
        exact ⟨n, _, ExtTreeMap.getElem?_insert_self, by simp [hm, hr]⟩
      · exact ⟨m, rs, by rw [extend, OrdMap.getElem?_insert_ne _ he]; exact hm, hr⟩
    · exact ⟨n, _, ExtTreeMap.getElem?_insert_self, by simp [hr]⟩

theorem getElem?_eraseAll (log : Log) (ns : List Nat) (m : Nat) :
    (log.eraseAll ns)[m]? = if m ∈ ns then none else log[m]? := by
  induction ns generalizing log with
  | nil => simp [eraseAll]
  | cons n ns ih =>
      rw [eraseAll, List.foldl_cons]
      refine (ih (log.erase n)).trans ?_
      rw [OrdMap.getElem?_erase]
      by_cases hm : m ∈ ns <;> by_cases hn : m = n <;> simp [hm, hn, eq_comm]

end Log

/-- The directory holds exactly the segments of `log`, each with the frames of
its records and a tail of the kind `Tail`: none while the log is open, a torn
one after a crash. -/
structure Mirrors (Tail : Bytes → Prop) (dir : Dir) (log : Log) : Prop where
  start_lt : ∀ n ∈ log, n < 2 ^ 64
  named : ∀ p ∈ dir, ∃ n ∈ log, p = segmentName n
  framed : ∀ (n : Nat) (rs : List Record), log[n]? = some rs →
    ∃ tail, Tail tail ∧ dir[segmentName n]? = some (frames rs ++ tail)
  fits : ∀ (n : Nat) (rs : List Record), log[n]? = some rs → ∀ r ∈ rs, Fits r

/-- No tail. -/
def Clean (tail : Bytes) : Prop := tail = []

theorem clean_nil : Clean [] := rfl

namespace Mirrors

variable {Tail : Bytes → Prop} {dir : Dir} {log : Log} {n : Nat} {rs ss : List Record}
  {tail : Bytes}

/-- An empty directory has an empty log. -/
theorem empty : Mirrors Tail ∅ ∅ where
  start_lt n h := absurd h ExtTreeMap.not_mem_empty
  named p h := absurd h ExtTreeMap.not_mem_empty
  framed n rs h := by simp at h
  fits n rs h := by simp at h

theorem weaken (h : Mirrors Clean dir log) (h0 : Tail []) : Mirrors Tail dir log where
  start_lt := h.start_lt
  named := h.named
  fits := h.fits
  framed n rs hn := by
    obtain ⟨tail, ht, hd⟩ := h.framed n rs hn
    rw [ht] at hd
    exact ⟨[], h0, hd⟩

theorem mem_dir (h : Mirrors Tail dir log) (hn : n ∈ log) : segmentName n ∈ dir := by
  obtain ⟨rs, hrs⟩ := OrdMap.mem_iff_exists.mp hn
  obtain ⟨tail, -, hd⟩ := h.framed n rs hrs
  exact OrdMap.mem_of_getElem? hd

theorem not_mem_dir (h : Mirrors Tail dir log) (hlt : n < 2 ^ 64) (hn : n ∉ log) :
    segmentName n ∉ dir := by
  intro hd
  obtain ⟨m, hm, he⟩ := h.named _ hd
  rw [segmentName_inj hlt (h.start_lt m hm)] at he
  exact hn (he ▸ hm)

/-- Binding a segment's file to `frames rs ++ tail` binds its records to `rs`. -/
theorem insert (h : Mirrors Tail dir log) (hlt : n < 2 ^ 64) (hfit : ∀ r ∈ rs, Fits r)
    (ht : Tail tail) {dir' : Dir}
    (hdir : ∀ p, dir'[p]? = if segmentName n = p then some (frames rs ++ tail) else dir[p]?) :
    Mirrors Tail dir' (log.insert n rs) where
  start_lt m hm := by
    rw [OrdMap.mem_insert] at hm
    cases hm with
    | inl he => exact he ▸ hlt
    | inr hm => exact h.start_lt m hm
  named p hp := by
    obtain ⟨v, hv⟩ := OrdMap.mem_iff_exists.mp hp
    rw [hdir] at hv
    split at hv
    · next he => exact ⟨n, (OrdMap.mem_insert _).mpr (.inl rfl), he.symm⟩
    · obtain ⟨m, hm, he⟩ := h.named p (OrdMap.mem_of_getElem? hv)
      exact ⟨m, (OrdMap.mem_insert _).mpr (.inr hm), he⟩
  framed m ss hm := by
    rw [OrdMap.getElem?_insert] at hm
    rw [hdir]
    split at hm
    · next he =>
        rw [← he, if_pos rfl]
        exact ⟨tail, ht, by rw [Option.some.inj hm]⟩
    · next hne =>
        rw [if_neg]
        · exact h.framed m ss hm
        · rw [segmentName_inj hlt (h.start_lt m (OrdMap.mem_of_getElem? hm))]
          exact hne
  fits m ss hm := by
    rw [OrdMap.getElem?_insert] at hm
    split at hm
    · rw [← Option.some.inj hm]; exact hfit
    · exact h.fits m ss hm

/-- Opening an empty or absent segment for appending. -/
theorem create (h : Mirrors Tail dir log) (h0 : Tail []) (hlt : n < 2 ^ 64)
    (hfresh : n ∉ log ∨ dir[segmentName n]? = some []) :
    Mirrors Tail (dir.create (segmentName n)) (log.insert n []) := by
  refine h.insert hlt (by simp) h0 fun p => ?_
  rw [Dir.create, frames_nil, List.nil_append]
  cases hfresh with
  | inl hn => rw [if_neg (h.not_mem_dir hlt hn), OrdMap.getElem?_insert]
  | inr he =>
      rw [if_pos (OrdMap.mem_of_getElem? he)]
      split
      · next hp => rw [← hp, he]
      · rfl

/-- Bytes appended to a clean segment: whole frames, then a tail. -/
theorem append (h : Mirrors Clean dir log) (hn : log[n]? = some rs) (hfit : ∀ r ∈ ss, Fits r)
    (ht : Tail tail) (h0 : Tail []) :
    Mirrors Tail (dir.append (segmentName n) (frames ss ++ tail)) (log.insert n (rs ++ ss)) := by
  have hlt := h.start_lt n (OrdMap.mem_of_getElem? hn)
  have hall : ∀ r ∈ rs ++ ss, Fits r := by
    intro r hr
    rw [List.mem_append] at hr
    cases hr with
    | inl hr => exact h.fits n rs hn r hr
    | inr hr => exact hfit r hr
  refine (h.weaken h0).insert hlt hall ht fun p => ?_
  rw [Dir.append, OrdMap.getElem?_modify]
  split
  · next he =>
      obtain ⟨t, hc, hd⟩ := h.framed n rs hn
      rw [hc, List.append_nil] at hd
      rw [← he, hd, Option.map_some, frames_append, List.append_assoc]
  · rfl

/-- Deleting a segment's file. -/
theorem remove (h : Mirrors Tail dir log) (hn : n ∈ log) :
    ∃ dir', dir.remove (segmentName n) = .ok dir' ∧ Mirrors Tail dir' (log.erase n) := by
  have hlt := h.start_lt n hn
  refine ⟨dir.erase (segmentName n), by rw [Dir.remove, if_pos (h.mem_dir hn)], ?_⟩
  refine ⟨fun m hm => ?_, fun p hp => ?_, fun m rs hm => ?_, fun m rs hm => ?_⟩
  · exact h.start_lt m (OrdMap.mem_erase.mp hm).2
  · obtain ⟨hne, hp⟩ := OrdMap.mem_erase.mp hp
    obtain ⟨m, hm, he⟩ := h.named p hp
    refine ⟨m, OrdMap.mem_erase.mpr ⟨?_, hm⟩, he⟩
    rintro rfl
    exact hne he.symm
  · rw [OrdMap.getElem?_erase] at hm
    split at hm
    · contradiction
    · next hne =>
        rw [OrdMap.getElem?_erase, if_neg]
        · exact h.framed m rs hm
        · rw [segmentName_inj hlt (h.start_lt m (OrdMap.mem_of_getElem? hm))]
          exact hne
  · rw [OrdMap.getElem?_erase] at hm
    split at hm
    · contradiction
    · exact h.fits m rs hm

end Mirrors

end HolyGrail
