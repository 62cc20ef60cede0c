import HolyGrail.Cache.Fetch
import HolyGrail.Program

/-!
# HolyGrail.Cache.Reader

`CachedReader`: the byte cache and the footers behind the Parquet reader, as a
service of concurrent reads.

A reader asks for byte ranges of a file (`get_byte_ranges`), which are fetched at
once and joined, or for a footer, which is memoized per file.  Each lookup, store
read and insert is a step of its own, and the steps of different readers come in
any order.

What the Parquet library does with the bytes is not under this code.  A
`FileProgram` is any program that asks for ranges of one file; `readerService` is
sound for all of them (`readerService_sound`).
-/

namespace HolyGrail.Cache

open Std (ExtTreeMap)

/-! ## the service -/

/-- Parsed Parquet footers, memoized per file. -/
structure MetadataCache (M : Type) where
  inner : ExtTreeMap FileName M

namespace MetadataCache

variable {M : Type}

def new : MetadataCache M := ⟨∅⟩

def get (metadata : MetadataCache M) (path : FileName) : Option M := metadata.inner[path]?

def insert (metadata : MetadataCache M) (path : FileName) (footer : M) : MetadataCache M :=
  ⟨metadata.inner.insert path footer⟩

end MetadataCache

/-- What a reader waits for. -/
inductive Request (M : Type) where
  | byteRanges (path : FileName) (ranges : List (Nat × Nat))
  | getMetadata (path : FileName)
  | insertMetadata (path : FileName) (footer : M)

/-- What it gets. -/
def Request.Answer {M : Type} : Request M → Type
  | .byteRanges .. => Except ParquetError (List Bytes)
  | .getMetadata _ => Option M
  | .insertMetadata .. => Unit

/-- The file it is about. -/
def Request.path {M : Type} : Request M → FileName
  | .byteRanges path _ | .getMetadata path | .insertMetadata path _ => path

/-- How far a request has come. -/
inductive RequestWork (M : Type) where
  | fetches (fetches : List RangeFetch)
  | get (path : FileName)
  | got (hit : Option M)
  | insert (path : FileName) (footer : M)
  | inserted

/-- A step of one of the fetches of a request, or of the footers. -/
inductive RequestAct where
  | fetch (act : FetchAct)
  | metadata

/-- What the readers share. -/
structure Shared (M : Type) where
  cache : ByteCache
  metadata : MetadataCache M

/-- `try_join_all`: the bytes of all fetches, or the error of one. -/
def tryJoinAll : List RangeFetch → Option (Except ParquetError (List Bytes))
  | [] => some (.ok [])
  | f :: rest => match f.stage, tryJoinAll rest with
      | .returned (.error e), _ => some (.error e)
      | _, some (.error e) => some (.error e)
      | .returned (.ok bytes), some (.ok bs) => some (.ok (bytes :: bs))
      | _, _ => none

/-- The fetches of the ranges of one object. -/
def fetchesOf (path : FileName) (ranges : List (Nat × Nat)) : List RangeFetch :=
  ranges.map fun r => { key := { path, start := r.1, end_ := r.2 }, stage := .called }

section
variable (objects : FileName → Bytes) {M : Type}

def RequestWork.step (s : Shared M) :
    RequestWork M → RequestAct → Option (Shared M × RequestWork M)
  | .fetches fs, .fetch act => match act with
      | .lookup i | .getRange i _ | .insert i =>
          (Fetches.carryOn objects ⟨s.cache, fs⟩ i act).map fun t =>
            ({ s with cache := t.cache }, .fetches t.fetches)
      | .call .. | .drop _ => none
  | .get path, .metadata => some (s, .got (s.metadata.get path))
  | .insert path footer, .metadata =>
      some ({ s with metadata := s.metadata.insert path footer }, .inserted)
  | _, _ => none

def readerService : Service (Shared M) (Request M) Request.Answer (RequestWork M) RequestAct where
  start
    | .byteRanges path ranges => .fetches (fetchesOf path ranges)
    | .getMetadata path => .get path
    | .insertMetadata path footer => .insert path footer
  step := RequestWork.step objects
  answer
    | .byteRanges .., .fetches fs => tryJoinAll fs
    | .getMetadata _, .got hit => some hit
    | .insertMetadata .., .inserted => some ()
    | _, _ => none

end

/-! ## one file -/

/-- A program of the Parquet library, which asks for ranges of one file. -/
abbrev FileProgram (α : Type) :=
  Program (List (Nat × Nat)) (fun _ => List Bytes) (Except ParquetError α)

/-- What the program returns on a file. -/
def FileProgram.run {α : Type} (file : Bytes) (p : FileProgram α) : Except ParquetError α :=
  p.eval fun ranges => ranges.map fun r => slice file r.1 r.2

/-- A program over the cached reader. -/
abbrev ReadProgram (M : Type) (α : Type) :=
  Program (Request M) Request.Answer (Except ParquetError α)

namespace CachedReader

variable {M : Type}

def getByteRanges (path : FileName) (ranges : List (Nat × Nat)) : ReadProgram M (List Bytes) :=
  .ask (.byteRanges path ranges) .done

/-- A program of the Parquet library over the reader of a file. -/
def onFile {α : Type} (path : FileName) (p : FileProgram α) : ReadProgram M α :=
  p.via (getByteRanges path)

/-- The footer of a file: memoized, or loaded by `load`. -/
def getMetadata (path : FileName) (load : FileProgram M) : ReadProgram M M :=
  .ask (.getMetadata path) fun
    | some hit => .done (.ok hit)
    | none => (onFile path load).andThen fun footer =>
        .ask (.insertMetadata path footer) fun _ => .done (.ok footer)

end CachedReader

/-! ## what holds of the service -/

section
variable (objects : FileName → Bytes) {M : Type} (isFooter : FileName → M → Prop)

/-- The bytes of ranges of an object. -/
def objectRanges (path : FileName) (ranges : List (Nat × Nat)) : List Bytes :=
  ranges.map fun r => slice (objects path) r.1 r.2

/-- Only footers of files are inserted. -/
def Request.Allowed : Request M → Prop
  | .insertMetadata path footer => isFooter path footer
  | _ => True

/-- The cache mirrors the store, and what is memoized are footers. -/
structure Shared.Sound (s : Shared M) : Prop where
  mirrors : Mirrors objects s.cache
  footers : ∀ path footer, s.metadata.get path = some footer → isFooter path footer

/-- A fetch that waits or has returned the bytes of its range. -/
def RangeFetch.Good (f : RangeFetch) : Prop :=
  f.Holds objects ∧ (f.stage.Waiting ∨ ∃ bytes, f.stage = .returned (.ok bytes))

theorem FetchStage.ne_error {stage : FetchStage}
    (h : stage.Waiting ∨ ∃ bytes, stage = .returned (.ok bytes)) (e : ParquetError) :
    stage ≠ .returned (.error e) := by
  rintro rfl
  simp [Waiting] at h

/-- The work on a request that waits. -/
def RequestWork.Good : Request M → RequestWork M → Prop
  | .byteRanges path ranges, .fetches fs =>
      fs.map RangeFetch.key = (fetchesOf path ranges).map RangeFetch.key ∧
        ∀ f ∈ fs, f.Good objects
  | .getMetadata path, .get path' => path' = path
  | .insertMetadata path footer, .insert path' footer' => path' = path ∧ footer' = footer
  | _, _ => False

/-- The answer without an error. -/
def Request.Good : (q : Request M) → q.Answer → Prop
  | .byteRanges path ranges, r => r = .ok (objectRanges objects path ranges)
  | .getMetadata path, hit => ∀ footer, hit = some footer → isFooter path footer
  | .insertMetadata .., _ => True

/-- An error. -/
def Request.Bad : (q : Request M) → q.Answer → Prop
  | .byteRanges .., r => ∃ e, r = .error e
  | _, _ => False

end

section
variable {objects : FileName → Bytes} {M : Type} {isFooter : FileName → M → Prop}

/-! ### joined fetches -/

/-- Fetches that are true to their ranges join to the bytes of the ranges, or to an
error that one of them has returned. -/
theorem tryJoinAll_cases {fetches : List RangeFetch} (h : ∀ f ∈ fetches, f.Holds objects)
    {r : Except ParquetError (List Bytes)} (hr : tryJoinAll fetches = some r) :
    r = .ok (fetches.map fun f => objectRange objects f.key) ∨
      ∃ f ∈ fetches, ∃ e, f.stage = .returned (.error e) ∧ r = .error e := by
  induction fetches generalizing r with
  | nil =>
      rw [tryJoinAll, Option.some.injEq] at hr
      exact .inl hr.symm
  | cons f rest ih =>
      have ih := fun r hr => ih (fun g hg => h g (List.mem_cons_of_mem f hg)) (r := r) hr
      rw [tryJoinAll] at hr
      split at hr
      · next e heq =>
          rw [Option.some.injEq] at hr
          exact .inr ⟨f, List.mem_cons_self, e, heq, hr.symm⟩
      · next e hrest _ =>
          rw [Option.some.injEq] at hr
          rcases ih _ hrest with hok | ⟨g, hg, e', he', heq⟩
          · contradiction
          · exact .inr ⟨g, List.mem_cons_of_mem f hg, e', he', hr.symm.trans heq⟩
      · next bytes bs hstage hrest =>
          rw [Option.some.injEq] at hr
          rcases ih _ hrest with hok | ⟨g, hg, e', he', heq⟩
          · rw [Except.ok.injEq] at hok
            have hbytes := h f List.mem_cons_self bytes (.inr hstage)
            rw [← hr, hok, hbytes]
            exact .inl rfl
          · contradiction
      · contradiction

/-- Fetches without an error that have not joined: one of them waits. -/
theorem exists_waiting_of_tryJoinAll {fetches : List RangeFetch}
    (h : ∀ f ∈ fetches, f.Good objects) (hr : tryJoinAll fetches = none) :
    ∃ (i : Nat) (f : RangeFetch), fetches[i]? = some f ∧ f.stage.Waiting := by
  induction fetches with
  | nil => contradiction
  | cons f rest ih =>
      rcases (h f List.mem_cons_self).2 with hwait | ⟨bytes, hbytes⟩
      · exact ⟨0, f, rfl, hwait⟩
      · have hrest : tryJoinAll rest = none := by
          rw [tryJoinAll, hbytes] at hr
          cases hj : tryJoinAll rest with
          | none => rfl
          | some r => cases r <;> simp [hj] at hr
        obtain ⟨i, g, hi, hg⟩ := ih (fun g hg => h g (List.mem_cons_of_mem f hg)) hrest
        exact ⟨i + 1, g, hi, hg⟩

/-- A failed fetch fails them all. -/
theorem tryJoinAll_of_failed {fetches : List RangeFetch} {f : RangeFetch} (hf : f ∈ fetches)
    {e : ParquetError} (he : f.stage = .returned (.error e)) :
    ∃ e', tryJoinAll fetches = some (.error e') := by
  induction fetches with
  | nil => contradiction
  | cons g rest ih =>
      rw [tryJoinAll]
      rcases List.mem_cons.mp hf with rfl | hf
      · rw [he]
        exact ⟨e, rfl⟩
      · obtain ⟨e', he'⟩ := ih hf
        rw [he']
        split
        · next e'' _ => exact ⟨e'', rfl⟩
        · next e'' _ _ => exact ⟨e'', rfl⟩
        · next heq => simp at heq
        · next hne _ => exact absurd rfl (hne e')

/-! ### one step -/

/-- A fetch that is not dropped waits or has returned. -/
theorem RangeFetch.step_stage {cache cache' : ByteCache} {f f' : RangeFetch} {act : FetchAct}
    (h : f.step objects cache act = some (cache', f')) (hact : ∀ i, act ≠ .drop i) :
    f'.stage.Waiting ∨ ∃ r, f'.stage = .returned r := by
  unfold step at h
  grind [FetchStage.Waiting]

/-- How many steps a fetch still has to take. -/
def FetchStage.rank : FetchStage → Nat
  | .called => 3
  | .missed => 2
  | .read _ => 1
  | .returned _ | .dropped => 0

/-- A fetch that waits has a next step, which does not fail. -/
theorem RangeFetch.next_step (objects : FileName → Bytes) (cache : ByteCache) {f : RangeFetch}
    (hw : f.stage.Waiting)
    (i : Nat) : ∃ act cache' f', act ∈ [.lookup i, .getRange i false, .insert i] ∧
      f.step objects cache act = some (cache', f') ∧ f'.stage.rank < f.stage.rank ∧
      (f'.stage.Waiting ∨ ∃ bytes, f'.stage = .returned (.ok bytes)) := by
  obtain ⟨key, stage⟩ := f
  cases stage with
  | called =>
      cases hget : cache.get key with
      | mk hit cache' =>
          cases hit with
          | some hit =>
              exact ⟨.lookup i, cache', ⟨key, .returned (.ok hit)⟩, by simp,
                by simp only [step, hget], by simp [FetchStage.rank], .inr ⟨hit, rfl⟩⟩
          | none =>
              exact ⟨.lookup i, cache'.countMiss, ⟨key, .missed⟩, by simp,
                by simp only [step, hget], by simp [FetchStage.rank], .inl trivial⟩
  | missed => exact ⟨.getRange i false, _, _, by simp, rfl, by simp [FetchStage.rank], .inl trivial⟩
  | read bytes =>
      exact ⟨.insert i, _, _, by simp, rfl, by simp [FetchStage.rank], .inr ⟨bytes, rfl⟩⟩
  | returned r => exact hw.elim
  | dropped => exact hw.elim

/-- The fetches of a request after a step of one of them. -/
theorem RequestWork.Good.set {path : FileName} {ranges : List (Nat × Nat)}
    {fs : List RangeFetch} {i : Nat} {f f' : RangeFetch}
    (hgood : RequestWork.Good objects (.byteRanges path ranges : Request M) (.fetches fs))
    (hi : fs[i]? = some f) (hkey : f'.key = f.key) (hholds : f'.Holds objects)
    (hstage : f'.stage.Waiting ∨ ∃ r, f'.stage = .returned r) :
    (fs.set i f').map RangeFetch.key = (fetchesOf path ranges).map RangeFetch.key ∧
      (∀ g ∈ fs.set i f', g.Holds objects) ∧
      (tryJoinAll (fs.set i f') = none → ∀ g ∈ fs.set i f', g.Good objects) := by
  obtain ⟨hkeys, hall⟩ := hgood
  have hmem : ∀ g ∈ fs.set i f', g ∈ fs ∨ g = f' := fun g hg => List.mem_or_eq_of_mem_set hg
  refine ⟨?_, fun g hg => ?_, fun hnone g hg => ?_⟩
  · obtain ⟨hlt, hf⟩ := List.getElem?_eq_some_iff.mp hi
    rw [List.map_set, hkey, ← hf, ← List.getElem_map RangeFetch.key (h := by simpa using hlt),
      List.set_getElem_self, hkeys]
  · rcases hmem g hg with hg | rfl
    · exact (hall g hg).1
    · exact hholds
  · rcases hmem g hg with hg' | rfl
    · exact hall g hg'
    · refine ⟨hholds, ?_⟩
      rcases hstage with hwait | ⟨r, hr⟩
      · exact .inl hwait
      · cases r with
        | ok bytes => exact .inr ⟨bytes, hr⟩
        | error e =>
            obtain ⟨e', he'⟩ := tryJoinAll_of_failed hg hr
            rw [he'] at hnone
            contradiction

/-- The joined bytes are those of the ranges. -/
theorem map_objectRange_eq {path : FileName} {ranges : List (Nat × Nat)} {fs : List RangeFetch}
    (h : fs.map RangeFetch.key = (fetchesOf path ranges).map RangeFetch.key) :
    (fs.map fun f => objectRange objects f.key) = objectRanges objects path ranges := by
  have hmap := congrArg (List.map (objectRange objects)) h
  rw [List.map_map, List.map_map, fetchesOf, List.map_map] at hmap
  exact hmap

/-- **Step of the byte ranges.** -/
theorem fetches_step {s s' : Shared M} {path : FileName} {ranges : List (Nat × Nat)}
    {fs : List RangeFetch} {w' : RequestWork M} {act : RequestAct}
    (hs : s.Sound objects isFooter)
    (hgood : RequestWork.Good objects (.byteRanges path ranges : Request M) (.fetches fs))
    (hstep : RequestWork.step objects s (.fetches fs) act = some (s', w')) :
    s'.Sound objects isFooter ∧ ∃ fs', w' = .fetches fs' ∧
      fs'.map RangeFetch.key = (fetchesOf path ranges).map RangeFetch.key ∧
      (∀ g ∈ fs', g.Holds objects) ∧
      (tryJoinAll fs' = none → ∀ g ∈ fs', g.Good objects) := by
  have hcarry : ∃ i fact, (∀ i, fact ≠ FetchAct.drop i) ∧
      (Fetches.carryOn objects ⟨s.cache, fs⟩ i fact).map (fun t =>
        (({ s with cache := t.cache } : Shared M), RequestWork.fetches t.fetches)) =
          some (s', w') := by
    unfold RequestWork.step at hstep
    grind
  obtain ⟨i, fact, hact, hcarry⟩ := hcarry
  obtain ⟨t, ht, heq⟩ := Option.map_eq_some_iff.mp hcarry
  obtain ⟨rfl, rfl⟩ := Prod.mk.inj heq
  obtain ⟨f, r, hi, hr, rfl⟩ := Fetches.carryOn_eq_some.mp ht
  obtain ⟨cache', f'⟩ := r
  obtain ⟨hm, hholds, -⟩ :=
    RangeFetch.step_mirrors hr hs.mirrors (hgood.2 f (List.mem_of_getElem? hi)).1
  have hset := RequestWork.Good.set hgood hi (RangeFetch.step_key hr) hholds
    (RangeFetch.step_stage hr hact)
  exact ⟨⟨hm, hs.footers⟩, _, rfl, hset⟩

theorem MetadataCache.get_insert (metadata : MetadataCache M) (path path' : FileName)
    (footer : M) : (metadata.insert path footer).get path' =
      if path = path' then some footer else metadata.get path' := by
  rw [insert, get, get, OrdMap.getElem?_insert]

theorem Shared.Sound.insert {s : Shared M} (h : s.Sound objects isFooter) {path : FileName}
    {footer : M} (hfooter : isFooter path footer) :
    Shared.Sound objects isFooter { s with metadata := s.metadata.insert path footer } := by
  refine ⟨h.mirrors, fun path' footer' hget => ?_⟩
  rw [MetadataCache.get_insert] at hget
  split at hget
  · next heq =>
      rw [Option.some.injEq] at hget
      rw [← heq, ← hget]
      exact hfooter
  · exact h.footers path' footer' hget

/-- **Every step of the service** keeps the cache a mirror of the store and what is
memoized a footer, and each answer is the right one or an error of the store. -/
theorem readerService_sound (objects : FileName → Bytes) (isFooter : FileName → M → Prop) :
    (readerService objects (M := M)).Sound (Request.Allowed isFooter)
      (Shared.Sound objects isFooter) (RequestWork.Good objects)
      (Request.Good objects isFooter) Request.Bad where
  start q hq hnone := by
    cases q with
    | byteRanges path ranges =>
        refine ⟨rfl, fun f hf => ?_⟩
        obtain ⟨r, -, rfl⟩ := List.mem_map.mp hf
        exact ⟨by simp [RangeFetch.Holds], .inl trivial⟩
    | getMetadata path => rfl
    | insertMetadata path footer => exact ⟨rfl, rfl⟩
  start_answer q a ha := by
    cases q with
    | byteRanges path ranges =>
        have hholds : ∀ f ∈ fetchesOf path ranges, f.Holds objects := by
          intro f hf
          obtain ⟨r, -, rfl⟩ := List.mem_map.mp hf
          simp [RangeFetch.Holds]
        rcases tryJoinAll_cases hholds ha with hok | ⟨f, hf, e, he, -⟩
        · exact hok.trans (congrArg Except.ok (map_objectRange_eq rfl))
        · obtain ⟨r, -, rfl⟩ := List.mem_map.mp hf
          contradiction
    | getMetadata path => contradiction
    | insertMetadata path footer => contradiction
  step {s q w act s' w'} hs hq hgood _ hstep := by
    cases q with
    | byteRanges path ranges =>
        cases w with
        | fetches fs =>
            obtain ⟨hs', fs', rfl, hkeys, hholds, hnone⟩ := fetches_step hs hgood hstep
            refine ⟨hs', fun h => ⟨hkeys, hnone h⟩, fun a ha => ?_⟩
            rcases tryJoinAll_cases hholds ha with hok | ⟨f, -, e, -, he⟩
            · exact .inl (hok.trans (congrArg Except.ok (map_objectRange_eq hkeys)))
            · exact .inr ⟨e, he⟩
        | _ => exact hgood.elim
    | getMetadata path =>
        cases w with
        | get path' =>
            cases act with
            | fetch act => contradiction
            | metadata =>
                obtain rfl : path' = path := hgood
                simp only [readerService, RequestWork.step, Option.some.injEq,
                  Prod.mk.injEq] at hstep
                obtain ⟨rfl, rfl⟩ := hstep
                exact ⟨hs, fun h => by contradiction, fun a ha => .inl fun footer hfooter =>
                  hs.footers path' footer ((Option.some.inj ha).trans hfooter)⟩
        | _ => exact hgood.elim
    | insertMetadata path footer =>
        cases w with
        | insert path' footer' =>
            cases act with
            | fetch act => contradiction
            | metadata =>
                obtain ⟨rfl, rfl⟩ : path' = path ∧ footer' = footer := hgood
                simp only [readerService, RequestWork.step, Option.some.injEq,
                  Prod.mk.injEq] at hstep
                obtain ⟨rfl, rfl⟩ := hstep
                exact ⟨hs.insert hq, fun h => by contradiction, fun a ha => .inl trivial⟩
        | _ => exact hgood.elim

/-! ### requests that go on -/

/-- How many steps a request still has to take. -/
def RequestWork.rank : RequestWork M → Nat
  | .fetches fs => (fs.map fun f => f.stage.rank).sum
  | .get _ | .insert .. => 1
  | .got _ | .inserted => 0

theorem sum_rank_set_lt {fs : List RangeFetch} {i : Nat} {f f' : RangeFetch}
    (hi : fs[i]? = some f) (h : f'.stage.rank < f.stage.rank) :
    ((fs.set i f').map fun f => f.stage.rank).sum < (fs.map fun f => f.stage.rank).sum := by
  induction fs generalizing i with
  | nil => simp at hi
  | cons g fs ih =>
      cases i with
      | zero =>
          rw [List.getElem?_cons_zero, Option.some.injEq] at hi
          subst hi
          simpa using h
      | succ i => simpa using ih hi

/-- **A request that waits has a step that brings its answer closer**, whatever the
other readers do. -/
theorem readerService_live (objects : FileName → Bytes) (isFooter : FileName → M → Prop) :
    (readerService objects (M := M)).Live (Request.Allowed isFooter)
      (Shared.Sound objects isFooter) (RequestWork.Good objects)
      (Request.Good objects isFooter) RequestWork.rank := by
  intro s q w hs hq hgood hnone
  cases q with
  | byteRanges path ranges =>
      cases w with
      | fetches fs =>
          obtain ⟨i, f, hi, hwait⟩ := exists_waiting_of_tryJoinAll hgood.2 hnone
          obtain ⟨act, cache', f', hact, hr, hrank, hstage⟩ :=
            RangeFetch.next_step objects s.cache hwait i
          have hcarry : Fetches.carryOn objects ⟨s.cache, fs⟩ i act =
              some ⟨cache', fs.set i f'⟩ :=
            Fetches.carryOn_eq_some.mpr ⟨f, _, hi, hr, rfl⟩
          have hstep : RequestWork.step objects s (.fetches fs) (.fetch act) =
              some ({ s with cache := cache' }, .fetches (fs.set i f')) := by
            simp only [List.mem_cons, List.not_mem_nil, or_false] at hact
            rcases hact with rfl | rfl | rfl <;> simp only [RequestWork.step, hcarry] <;> rfl
          obtain ⟨-, fs', heq, hkeys, hholds, hgood'⟩ := fetches_step hs hgood hstep
          obtain rfl := RequestWork.fetches.inj heq
          refine ⟨.fetch act, _, _, hstep, fun a ha => ?_, fun _ => sum_rank_set_lt hi hrank⟩
          rcases tryJoinAll_cases hholds ha with hok | ⟨g, hg, e, he, -⟩
          · exact hok.trans (congrArg Except.ok (map_objectRange_eq hkeys))
          · refine absurd he ?_
            rcases List.mem_or_eq_of_mem_set hg with hg | rfl
            · exact FetchStage.ne_error (hgood.2 g hg).2 e
            · exact FetchStage.ne_error hstage e
      | _ => exact hgood.elim
  | getMetadata path =>
      cases w with
      | get path' =>
          obtain rfl : path' = path := hgood
          exact ⟨.metadata, _, _, rfl, fun a ha footer hfooter =>
            hs.footers path' footer ((Option.some.inj ha).trans hfooter), fun h => by contradiction⟩
      | _ => exact hgood.elim
  | insertMetadata path footer =>
      cases w with
      | insert path' footer' =>
          exact ⟨.metadata, _, _, rfl, fun _ _ => trivial, fun h => by contradiction⟩
      | _ => exact hgood.elim

/-! ### programs over the reader -/

namespace CachedReader

variable {asks : Request M → Prop} {path : FileName}

theorem returns_getByteRanges (hasks : ∀ ranges, asks (.byteRanges path ranges))
    (ranges : List (Nat × Nat)) :
    (getByteRanges path ranges).Returns asks (Request.Good objects isFooter) Request.Bad
      (.ok (objectRanges objects path ranges)) := by
  refine ⟨hasks ranges, fun r hr => hr, fun r hr => ?_⟩
  obtain ⟨e, rfl⟩ := hr
  exact ⟨e, rfl⟩

/-- A program of the Parquet library over the reader returns what it returns on the
object. -/
theorem returns_onFile (objects : FileName → Bytes) (isFooter : FileName → M → Prop) {α : Type}
    (hasks : ∀ ranges, asks (.byteRanges path ranges))
    (p : FileProgram α) :
    (onFile path p).Returns asks (Request.Good objects isFooter) Request.Bad
      (p.run (objects path)) :=
  Program.Returns.via (returns_getByteRanges hasks) p

/-- Memoized or loaded, the footer is that of the object. -/
theorem returns_getMetadata {load : FileProgram M} {footer : M}
    (hload : load.run (objects path) = .ok footer)
    (hfooter : ∀ footer', isFooter path footer' ↔ footer' = footer)
    (hranges : ∀ ranges, asks (.byteRanges path ranges)) (hget : asks (.getMetadata path))
    (hinsert : asks (.insertMetadata path footer)) :
    (getMetadata path load).Returns asks (Request.Good objects isFooter) Request.Bad
      (.ok footer) := by
  refine ⟨hget, fun hit hgood => ?_, fun _ hbad => hbad.elim⟩
  cases hit with
  | some footer' => exact congrArg Except.ok ((hfooter footer').mp (hgood footer' rfl))
  | none =>
      have honFile := returns_onFile objects isFooter hranges load
      rw [hload] at honFile
      exact honFile.andThen ⟨hinsert, fun _ _ => rfl, fun _ hbad => hbad.elim⟩

end CachedReader

end

end HolyGrail.Cache
