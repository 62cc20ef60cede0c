import HolyGrail.Node.Watermarks
import HolyGrail.System.Issued

/-!
# HolyGrail.Node.Transport

The staging files of the flushes, written and read step by step.

`Node` takes staging for one step whose batches the publish gets.  Here the batches
travel through a file, named after the watermark: `stage` creates it, writes the
batches one by one and closes it, DuckDB reads it when it publishes, and the flush
removes it at its end.  Other calls come in between, and the directory may hold any
files at the start, such as those of an engine that died.

* `staging_refines` — every run with staging files is a run of `Node`;
* `staged_file_exact` — a publish finds a closed file with the batches of the memtable
  it froze, so it inserts these;
* `staging_leaves_nothing` — flushes that do not fail leave no file behind.
-/

namespace HolyGrail

open Std (ExtTreeMap)

/-! ## names -/

/-- `hg-stage-` and the watermark in twenty digits, in the staging directory. -/
def stagingPath (watermark : Nat) : FileName :=
  ['h', 'g', '-', 's', 't', 'a', 'g', 'e', '-'] ++
    (decimal 20 watermark ++ ['.', 'p', 'a', 'r', 'q', 'u', 'e', 't'])

/-- Different watermarks, different names. -/
theorem stagingPath_inj {w w' : Nat} (hw : w < 2 ^ 64) (hw' : w' < 2 ^ 64)
    (h : stagingPath w = stagingPath w') : w = w' := by
  unfold stagingPath at h
  have hdecimal := List.append_cancel_right (List.append_cancel_left h)
  have hsegment : segmentName w = segmentName w' := by
    unfold segmentName
    rw [hdecimal]
  exact (segmentName_inj hw hw').mp hsegment

/-! ## the model -/

/-- A file of the staging directory: the batches written to it so far, and whether it
has its footer. -/
structure StagingFile where
  batches : List RecordBatch
  closed : Bool

/-- What a flush still has to do to its file. -/
inductive Transport where
  | writing (rest : List RecordBatch)
  | removing (watermark : Nat)

structure StagedNode where
  node : Node
  files : ExtTreeMap FileName StagingFile
  /-- By the pointer of the frozen memtable. -/
  transports : ExtTreeMap Nat Transport

/-- The actions of a node that touch the staging file. -/
def Act.touches : Act → Bool
  | .stage _ | .publish _ | .retire _ | .fail _ => true
  | _ => false

inductive StagingAct where
  /-- An action that touches no staging file. -/
  | node (a : Act)
  | create (p : Nat)
  | write (p : Nat)
  | close (p : Nat)
  | publish (p : Nat)
  | retire (p : Nat)
  /-- The error of `remove_file` is ignored. -/
  | remove (p : Nat) (fails : Bool)
  | fail (p : Nat)

/-- The action of the node that it shows as. -/
def StagingAct.act? : StagingAct → Option Act
  | .node a => some a
  | .close p => some (.stage p)
  | .publish p => some (.publish p)
  | .retire p => some (.retire p)
  | .fail p => some (.fail p)
  | .create _ | .write _ | .remove .. => none

namespace StagedNode

/-- A process that finds files in its staging directory. -/
def boot (node : Node) (files : ExtTreeMap FileName StagingFile) : StagedNode :=
  { node, files, transports := ∅ }

/-- A flush that has committed removes its file when its memtable is retired. -/
def toRemove (transports : ExtTreeMap Nat Transport) (p : Nat) :
    Flushed → ExtTreeMap Nat Transport
  | .committed w _ => transports.insert p (.removing w)
  | .alreadyPublished _ | .empty => transports

def step (db : DuckDb) (s : StagedNode) : StagingAct → Option StagedNode
  | .node a => if a.touches then none else (s.node.step db a).map fun node => { s with node }
  | .create p =>
      match s.node.flushes[p]?, s.transports[p]? with
      | some ⟨mt, .planned w⟩, none => some { s with
          files := s.files.insert (stagingPath w) { batches := [], closed := false }
          transports := s.transports.insert p (.writing (batches mt.val)) }
      | _, _ => none
  | .write p =>
      match s.node.flushes[p]?, s.transports[p]? with
      | some ⟨_, .planned w⟩, some (.writing (batch :: rest)) => some { s with
          files := s.files.modify (stagingPath w) fun file =>
            { file with batches := file.batches ++ [batch] }
          transports := s.transports.insert p (.writing rest) }
      | _, _ => none
  | .close p =>
      match s.node.flushes[p]?, s.transports[p]? with
      | some ⟨_, .planned w⟩, some (.writing []) => (s.node.step db (.stage p)).map fun node =>
          { node
            files := s.files.modify (stagingPath w) fun file => { file with closed := true }
            transports := s.transports.erase p }
      | _, _ => none
  | .publish p =>
      match s.node.flushes[p]? with
      | some ⟨mt, .staged w staged⟩ =>
          match s.files[stagingPath w]? with
          | some ⟨read, true⟩ =>
              (s.node.stepFlush db ⟨mt, .staged w read⟩ (.publish p)).map fun node =>
                { s with node }
          -- DuckDB finds no Parquet file, and the flush returns its error.
          | _ => some { s with node := s.node.endFlush ⟨mt, .staged w staged⟩ }
      | _ => none
  | .retire p =>
      match s.node.flushes[p]? with
      | some ⟨_, .truncated result _⟩ => (s.node.step db (.retire p)).map fun node =>
          { s with
            node
            transports := toRemove s.transports p result }
      | _ => none
  | .remove p fails =>
      match s.transports[p]? with
      | some (.removing w) => some { s with
          files := if fails then s.files else s.files.erase (stagingPath w)
          transports := s.transports.erase p }
      | _ => none
  | .fail p => (s.node.step db (.fail p)).map fun node =>
      { s with node, transports := s.transports.erase p }

/-- The runs whose actions on the node `g` allows. -/
def Allows (g : Node → Act → Prop) (s : StagedNode) (a : StagingAct) : Prop :=
  ∀ a' ∈ a.act?, g s.node a'

instance (g : Node → Act → Prop) [∀ n a, Decidable (g n a)] (s : StagedNode) (a : StagingAct) :
    Decidable (Allows g s a) := inferInstanceAs (Decidable (∀ a' ∈ a.act?, g s.node a'))

end StagedNode

namespace StagedNode

/-- What an action does. -/
inductive Move (db : DuckDb) (s : StagedNode) : StagingAct → StagedNode → Prop where
  | node {a : Act} {n : Node} (ha : a.touches = false) (hn : s.node.step db a = some n) :
      Move db s (.node a) { s with node := n }
  | create {p w : Nat} {mt : Arc Memtable} (hc : s.node.flushes[p]? = some ⟨mt, .planned w⟩)
      (hnone : s.transports[p]? = none) :
      Move db s (.create p)
        { s with
          files := s.files.insert (stagingPath w) { batches := [], closed := false }
          transports := s.transports.insert p (.writing (batches mt.val)) }
  | write {p w : Nat} {mt : Arc Memtable} {batch : RecordBatch} {rest : List RecordBatch}
      (hc : s.node.flushes[p]? = some ⟨mt, .planned w⟩)
      (hw : s.transports[p]? = some (.writing (batch :: rest))) :
      Move db s (.write p)
        { s with
          files := s.files.modify (stagingPath w) fun file =>
            { file with batches := file.batches ++ [batch] }
          transports := s.transports.insert p (.writing rest) }
  | close {p w : Nat} {mt : Arc Memtable} (hc : s.node.flushes[p]? = some ⟨mt, .planned w⟩)
      (hw : s.transports[p]? = some (.writing [])) :
      Move db s (.close p)
        { node := s.node.moveFlush ⟨mt, .planned w⟩ (.staged w (batches mt.val))
          files := s.files.modify (stagingPath w) fun file => { file with closed := true }
          transports := s.transports.erase p }
  | publish {p w : Nat} {mt : Arc Memtable} {staged read : List RecordBatch} {n : Node}
      (hc : s.node.flushes[p]? = some ⟨mt, .staged w staged⟩)
      (hread : s.files[stagingPath w]? = some ⟨read, true⟩)
      (hn : s.node.stepFlush db ⟨mt, .staged w read⟩ (.publish p) = some n) :
      Move db s (.publish p) { s with node := n }
  | refuse {p w : Nat} {mt : Arc Memtable} {staged : List RecordBatch}
      (hc : s.node.flushes[p]? = some ⟨mt, .staged w staged⟩)
      (hread : ∀ read, s.files[stagingPath w]? ≠ some ⟨read, true⟩) :
      Move db s (.publish p) { s with node := s.node.endFlush ⟨mt, .staged w staged⟩ }
  | retire {p : Nat} {mt : Arc Memtable} {result : Flushed} {file : Option DataFile} {n : Node}
      (hc : s.node.flushes[p]? = some ⟨mt, .truncated result file⟩)
      (hn : s.node.step db (.retire p) = some n) :
      Move db s (.retire p)
        { s with
          node := n
          transports := toRemove s.transports p result }
  | remove {p w : Nat} (hw : s.transports[p]? = some (.removing w)) (fails : Bool) :
      Move db s (.remove p fails)
        { s with
          files := if fails then s.files else s.files.erase (stagingPath w)
          transports := s.transports.erase p }
  | fail {p : Nat} {n : Node} (hn : s.node.step db (.fail p) = some n) :
      Move db s (.fail p) { s with node := n, transports := s.transports.erase p }

/-- **Inversion**: a step is one of the moves. -/
theorem move_of_step {db : DuckDb} {s s' : StagedNode} {a : StagingAct}
    (h : s.step db a = some s') : Move db s a s' := by
  cases a with
  | node a =>
      simp only [step] at h
      split at h
      · contradiction
      · next ha =>
          obtain ⟨n, hn, rfl⟩ := Option.map_eq_some_iff.mp h
          exact .node (by simpa using ha) hn
  | create p =>
      simp only [step] at h
      split at h
      · next hc hnone => rw [← Option.some.inj h]; exact .create hc hnone
      · contradiction
  | write p =>
      simp only [step] at h
      split at h
      · next hc hw => rw [← Option.some.inj h]; exact .write hc hw
      · contradiction
  | close p =>
      simp only [step] at h
      split at h
      · next mt w hc hw =>
          simp only [Node.step, hc, Option.bind_some, Node.stepFlush, Option.map_some] at h
          rw [← Option.some.inj h]
          exact .close hc hw
      · contradiction
  | publish p =>
      simp only [step] at h
      split at h
      · next hc =>
          split at h
          · next hread =>
              obtain ⟨n, hn, rfl⟩ := Option.map_eq_some_iff.mp h
              exact .publish hc hread hn
          · next hread => rw [← Option.some.inj h]; exact .refuse hc hread
      · contradiction
  | retire p =>
      simp only [step] at h
      split at h
      · next hc =>
          obtain ⟨n, hn, rfl⟩ := Option.map_eq_some_iff.mp h
          exact .retire hc hn
      · contradiction
  | remove p fails =>
      simp only [step] at h
      split at h
      · next hw => rw [← Option.some.inj h]; exact .remove hw fails
      · contradiction
  | fail p =>
      obtain ⟨n, hn, rfl⟩ := Option.map_eq_some_iff.mp h
      exact .fail hn

end StagedNode

/-! ## the other actions -/

/-- What an action that touches no staging file does to the flushes. -/
structure Spares (flushes flushes' : ExtTreeMap Nat FlushCall) : Prop where
  planned : ∀ (p : Nat) mt w, flushes[p]? = some ⟨mt, .planned w⟩ →
    flushes'[p]? = some ⟨mt, .planned w⟩
  staged : ∀ (p : Nat) mt w bs, flushes'[p]? = some ⟨mt, .staged w bs⟩ →
    flushes[p]? = some ⟨mt, .staged w bs⟩

namespace Spares

variable {flushes : ExtTreeMap Nat FlushCall} {p : Nat}

theorem refl : Spares flushes flushes := ⟨fun _ _ _ h => h, fun _ _ _ _ h => h⟩

/-- A flush moves on that does not write. -/
theorem insert (h0 : ∀ mt w, flushes[p]? ≠ some ⟨mt, .planned w⟩) {mt : Arc Memtable}
    {stage : FlushStage} (h1 : ∀ w bs, stage ≠ .staged w bs) :
    Spares flushes (flushes.insert p ⟨mt, stage⟩) := by
  refine ⟨fun q mt' w hq => ?_, fun q mt' w bs hq => ?_⟩
  all_goals by_cases hp : p = q
  · exact absurd (hp ▸ hq) (h0 mt' w)
  · rw [OrdMap.getElem?_insert_ne _ hp]
    exact hq
  · rw [OrdMap.getElem?_insert, if_pos hp, Option.some.injEq, FlushCall.mk.injEq] at hq
    exact absurd hq.2 (h1 w bs)
  · rwa [OrdMap.getElem?_insert_ne _ hp] at hq

/-- A flush ends that does not write. -/
theorem erase (h0 : ∀ mt w, flushes[p]? ≠ some ⟨mt, .planned w⟩) :
    Spares flushes (flushes.erase p) := by
  refine ⟨fun q mt' w hq => ?_, fun q mt' w bs hq => ?_⟩
  all_goals by_cases hp : p = q
  · exact absurd (hp ▸ hq) (h0 mt' w)
  · rw [OrdMap.getElem?_erase, if_neg hp]
    exact hq
  · rw [OrdMap.getElem?_erase, if_pos hp] at hq
    contradiction
  · rwa [OrdMap.getElem?_erase, if_neg hp] at hq

end Spares

/-- The flushes go on under the watermarks they have staged under. -/
def Keeps (flushes flushes' : ExtTreeMap Nat FlushCall) : Prop :=
  ∀ (p : Nat) (call : FlushCall) w, flushes[p]? = some call → call.stage.staging? = some w →
    ∃ call' : FlushCall, flushes'[p]? = some call' ∧ call'.stage.staging? = some w

namespace Keeps

variable {flushes : ExtTreeMap Nat FlushCall} {p : Nat}

theorem refl : Keeps flushes flushes := fun _ call _ hc hw => ⟨call, hc, hw⟩

theorem insert {mt : Arc Memtable} {stage : FlushStage} (hs : ∀ call, flushes[p]? = some call →
      ∀ w, call.stage.staging? = some w → stage.staging? = some w) :
    Keeps flushes (flushes.insert p ⟨mt, stage⟩) := by
  intro q call w hq hw
  by_cases hp : p = q
  · exact ⟨_, by rw [OrdMap.getElem?_insert, if_pos hp], hs call (hp ▸ hq) w hw⟩
  · exact ⟨call, by rw [OrdMap.getElem?_insert_ne _ hp]; exact hq, hw⟩

theorem erase (hs : ∀ call, flushes[p]? = some call → call.stage.staging? = none) :
    Keeps flushes (flushes.erase p) := by
  intro q call w hq hw
  by_cases hp : p = q
  · rw [hs call (hp ▸ hq)] at hw
    contradiction
  · exact ⟨call, by rw [OrdMap.getElem?_erase, if_neg hp]; exact hq, hw⟩

end Keeps

namespace Node

section
variable {db : DuckDb} {n n' : Node} {a : Act} (h : n.Marked)
include h

/-- A flush under way is found at the pointer of its memtable. -/
theorem Marked.at_ptr {p : Nat} {call : FlushCall} (hc : n.flushes[p]? = some call) :
    n.flushes[call.memtable.ptr]? = some call := by
  rw [(h.flushes_ok p call hc).2.1]
  exact hc

/-- A new memtable has no flush under way. -/
theorem Marked.fresh_ptr : n.flushes[n.engine.memtables.active.ptr]? = none := by
  cases hc : n.flushes[n.engine.memtables.active.ptr]? with
  | none => rfl
  | some call =>
      obtain ⟨hclosed, hptr, -⟩ := h.flushes_ok _ _ hc
      have := (h.closed_lt _ hclosed).1
      omega

theorem Marked.spares (ha : a.touches = false) (hs : n.step db a = some n') :
    Spares n.flushes n'.flushes ∧ n.trail.closed ⊆ n'.trail.closed := by
  cases move_of_step hs with
  | stage hc | publish hc | retire hc | fail hc => simp [Act.touches] at ha
  | freeze hroom hne =>
      exact ⟨.insert (by simp [h.fresh_ptr]) (by simp), List.subset_append_left _ _⟩
  | readWatermark hc | planCovered hc | planWrite hc | query hc | install hc | truncate hc =>
      exact ⟨.insert (by simp [h.at_ptr hc]) (by simp), List.Subset.refl _⟩
  | planEmpty hc | failTruncate hc =>
      exact ⟨.erase (by simp [h.at_ptr hc]), List.Subset.refl _⟩
  | _ => exact ⟨.refl, List.Subset.refl _⟩

/-- A flush that does not fail keeps its watermark until it retires. -/
theorem Marked.keeps (hno : NoFailure a) (ha : ∀ p, a ≠ .retire p)
    (hs : n.step db a = some n') : Keeps n.flushes n'.flushes := by
  cases move_of_step hs with
  | retire hc => exact absurd rfl (ha _)
  | fail hc | failTruncate hc => exact hno.elim
  | freeze hroom hne => exact .insert (by simp [h.fresh_ptr])
  | planEmpty hc => exact .erase (by simp [h.at_ptr hc, FlushStage.staging?])
  | truncate hc =>
      exact .insert (by simp [h.at_ptr hc, FlushStage.staging?_truncated])
  | readWatermark hc | planCovered hc | planWrite hc | stage hc | publish hc | query hc
  | install hc => exact .insert (by simp [h.at_ptr hc, FlushStage.staging?])
  | _ => exact .refl

end

section
variable {n : Node}

/-- A flush or a removal at `p` works under the watermark `w`. -/
def Owns (n : Node) (p w : Nat) : Prop :=
  ∃ m ∈ n.trail.closed, m.ptr = p ∧ m.val.maxLsn = w

theorem Marked.owns (h : n.Marked) {p w : Nat} {call : FlushCall} (hc : n.flushes[p]? = some call)
    (hw : call.stage.staging? = some w) : n.Owns p w := by
  obtain ⟨hclosed, hptr, hmark, -⟩ := h.flushes_ok p call hc
  exact ⟨call.memtable, hclosed, hptr, (hmark w hw).symm⟩

theorem Marked.owns_unique (h : n.Marked) {p w w' : Nat} (hp : n.Owns p w) (hp' : n.Owns p w') :
    w = w' := by
  obtain ⟨m, hm, hptr, rfl⟩ := hp
  obtain ⟨m', hm', hptr', rfl⟩ := hp'
  rw [h.closed_ptr m hm m' hm' (hptr.trans hptr'.symm)]

/-- **No two flushes stage to one name.** -/
theorem Marked.ptr_eq (h : n.Marked) {p q w w' : Nat} (hp : n.Owns p w) (hq : n.Owns q w')
    (hpath : stagingPath w = stagingPath w') : p = q := by
  obtain ⟨m, hm, rfl, rfl⟩ := hp
  obtain ⟨m', hm', rfl, rfl⟩ := hq
  have hlt : ∀ m ∈ n.trail.closed, m.val.maxLsn < 2 ^ 64 := by
    intro m hm
    have hnext := h.next_le
    have hclosed := (h.closed_lt m hm).2
    unfold lsnLimit at hnext
    omega
  have hlsn := stagingPath_inj (hlt m hm) (hlt m' hm') hpath
  rw [h.closed_lsn m hm m' hm' hlsn]
end

end Node

namespace StagedNode

variable {db : DuckDb} {s s' : StagedNode} {a : StagingAct} {g : Node → Act → Prop}

/-- What the files hold. -/
structure Carries (s : StagedNode) : Prop where
  marked : s.node.Marked
  writing : ∀ (p : Nat) rest, s.transports[p]? = some (.writing rest) →
    ∃ mt w, s.node.flushes[p]? = some ⟨mt, .planned w⟩ ∧
      ∃ done, s.files[stagingPath w]? = some ⟨done, false⟩ ∧ done ++ rest = batches mt.val
  staged : ∀ (p : Nat) mt w bs, s.node.flushes[p]? = some ⟨mt, .staged w bs⟩ →
    s.transports[p]? = none ∧ s.files[stagingPath w]? = some ⟨bs, true⟩
  removing : ∀ (p w : Nat), s.transports[p]? = some (.removing w) → s.node.Owns p w

namespace Carries

variable (h : s.Carries)
include h

/-- The names of the others. -/
theorem other {p q w w' : Nat} (hp : s.node.Owns p w) (hq : s.node.Owns q w') (hne : p ≠ q) :
    stagingPath w ≠ stagingPath w' := fun hpath => hne (h.marked.ptr_eq hp hq hpath)

/-- **An action that touches no staging file.** -/
theorem node {a : Act} (ha : a.touches = false) {n : Node} (hs : s.node.step db a = some n) :
    Carries { s with node := n } := by
  obtain ⟨hspares, hclosed⟩ := h.marked.spares ha hs
  refine ⟨h.marked.step hs, fun p rest hp => ?_, fun p mt w bs hp => ?_, fun p w hp => ?_⟩
  · obtain ⟨mt, w, hc, hdone⟩ := h.writing p rest hp
    exact ⟨mt, w, hspares.planned p mt w hc, hdone⟩
  · exact h.staged p mt w bs (hspares.staged p mt w bs hp)
  · obtain ⟨m, hm, hrest⟩ := h.removing p w hp
    exact ⟨m, hclosed hm, hrest⟩

/-- **One batch more, or none yet**: the file of one flush changes. -/
theorem change {p w : Nat} {mt : Arc Memtable} (hc : s.node.flushes[p]? = some ⟨mt, .planned w⟩)
    {files : ExtTreeMap FileName StagingFile} (hfiles : ∀ name, name ≠ stagingPath w →
      files[name]? = s.files[name]?) {done rest : List RecordBatch}
    (hdone : files[stagingPath w]? = some (StagingFile.mk done false))
    (hrest : done ++ rest = batches mt.val) :
    Carries { s with files, transports := s.transports.insert p (.writing rest) } := by
  have howns := h.marked.owns hc rfl
  refine ⟨h.marked, fun q rest' hq => ?_, fun q mt' w' bs hq => ?_, fun q w' hq => ?_⟩
  · rw [OrdMap.getElem?_insert] at hq
    by_cases hp : p = q
    · rw [if_pos hp, Option.some.injEq, Transport.writing.injEq] at hq
      subst hp hq
      exact ⟨mt, w, hc, done, hdone, hrest⟩
    · rw [if_neg hp] at hq
      obtain ⟨mt', w', hc', done', hdone', hrest'⟩ := h.writing q rest' hq
      refine ⟨mt', w', hc', done', ?_, hrest'⟩
      rw [hfiles _ (h.other (h.marked.owns hc' rfl) howns (Ne.symm hp))]
      exact hdone'
  · have hne : p ≠ q := by
      intro he
      rw [← he, hc] at hq
      simp at hq
    obtain ⟨hnone, hfile⟩ := h.staged q mt' w' bs hq
    show (s.transports.insert p (.writing rest))[q]? = none ∧ files[stagingPath w']? = _
    rw [OrdMap.getElem?_insert_ne _ hne,
      hfiles _ (h.other (h.marked.owns hq rfl) howns (Ne.symm hne))]
    exact ⟨hnone, hfile⟩
  · rw [OrdMap.getElem?_insert] at hq
    by_cases hp : p = q
    · rw [if_pos hp] at hq
      simp at hq
    · rw [if_neg hp] at hq
      exact h.removing q w' hq

/-- **The last batch is written**: the file is closed. -/
theorem close {p w : Nat} {mt : Arc Memtable} (hc : s.node.flushes[p]? = some ⟨mt, .planned w⟩)
    (hw : s.transports[p]? = some (.writing [])) :
    Carries
      { node := s.node.moveFlush ⟨mt, .planned w⟩ (.staged w (batches mt.val))
        files := s.files.modify (stagingPath w) fun file => { file with closed := true }
        transports := s.transports.erase p } := by
  have howns := h.marked.owns hc rfl
  obtain ⟨-, hptr, hmark, -⟩ := h.marked.flushes_ok p _ hc
  have hptr : mt.ptr = p := hptr
  obtain ⟨mt', w', hc', done, hdone, hall⟩ := h.writing p [] hw
  rw [hc, Option.some.injEq, FlushCall.mk.injEq, FlushStage.planned.injEq] at hc'
  obtain ⟨rfl, rfl⟩ := hc'
  rw [List.append_nil] at hall
  have hmarked : (s.node.moveFlush ⟨mt, .planned w⟩ (.staged w (batches mt.val))).Marked := by
    refine h.marked.moveFlush hc _ ⟨hmark, fun w' bs he => ?_⟩
    rw [FlushStage.staged.injEq] at he
    exact he.2.symm
  refine ⟨hmarked, fun q rest hq => ?_, fun q mt' w' bs hq => ?_, fun q w' hq => ?_⟩
  · rw [OrdMap.getElem?_erase] at hq
    by_cases hp : p = q
    · rw [if_pos hp] at hq
      contradiction
    · rw [if_neg hp] at hq
      obtain ⟨mt', w', hc', done', hdone', hrest'⟩ := h.writing q rest hq
      have hname := h.other howns (h.marked.owns hc' rfl) hp
      refine ⟨mt', w', ?_, done', ?_, hrest'⟩
      · rw [Node.moveFlush, OrdMap.getElem?_insert_ne _ (by rw [hptr]; exact hp)]
        exact hc'
      · rw [OrdMap.getElem?_modify, if_neg hname]
        exact hdone'
  · show (s.transports.erase p)[q]? = none ∧ (s.files.modify _ _)[stagingPath w']? = _
    rw [Node.moveFlush, OrdMap.getElem?_insert] at hq
    rw [OrdMap.getElem?_erase, OrdMap.getElem?_modify]
    by_cases hp : p = q
    · rw [if_pos (hptr.trans hp), Option.some.injEq, FlushCall.mk.injEq,
        FlushStage.staged.injEq] at hq
      obtain ⟨-, rfl, rfl⟩ := hq
      rw [if_pos hp, if_pos rfl, hdone, ← hall]
      exact ⟨rfl, rfl⟩
    · rw [hptr, if_neg hp] at hq
      rw [if_neg hp, if_neg (h.other howns (h.marked.owns hq rfl) hp)]
      exact h.staged q mt' w' bs hq
  · rw [OrdMap.getElem?_erase] at hq
    by_cases hp : p = q
    · rw [if_pos hp] at hq
      contradiction
    · rw [if_neg hp] at hq
      exact h.removing q w' hq

/-- A flush goes on that has nothing to write. -/
theorem leave {p : Nat} (hw : ∀ rest, s.transports[p]? ≠ some (.writing rest)) {n : Node}
    (hn : n.Marked) (hclosed : n.trail.closed = s.node.trail.closed)
    (hothers : ∀ q, p ≠ q → n.flushes[q]? = s.node.flushes[q]?)
    (hp : ∀ mt w bs, n.flushes[p]? ≠ some ⟨mt, .staged w bs⟩) :
    Carries { s with node := n } := by
  have hne : ∀ q, (∃ rest, s.transports[q]? = some (.writing rest)) → p ≠ q := by
    intro q hq he
    obtain ⟨rest, hq⟩ := hq
    exact hw rest (he ▸ hq)
  refine ⟨hn, fun q rest hq => ?_, fun q mt w bs hq => ?_, fun q w hq => ?_⟩
  · obtain ⟨mt, w, hc, hdone⟩ := h.writing q rest hq
    exact ⟨mt, w, (hothers q (hne q ⟨rest, hq⟩)).trans hc, hdone⟩
  · have hpq : p ≠ q := fun he => hp mt w bs (he ▸ hq)
    exact h.staged q mt w bs ((hothers q hpq).symm.trans hq)
  · obtain ⟨m, hm, hrest⟩ := h.removing q w hq
    exact ⟨m, hclosed ▸ hm, hrest⟩

/-- A flush has no work left on its file. -/
theorem forget (p : Nat) : Carries { s with transports := s.transports.erase p } := by
  have hkept : ∀ (q : Nat) (t : Transport), (s.transports.erase p)[q]? = some t →
      s.transports[q]? = some t := by
    intro q t hq
    rw [OrdMap.getElem?_erase] at hq
    by_cases hp : p = q
    · rw [if_pos hp] at hq
      contradiction
    · rwa [if_neg hp] at hq
  refine ⟨h.marked, fun q rest hq => h.writing q rest (hkept q _ hq), fun q mt w bs hq => ?_,
    fun q w hq => h.removing q w (hkept q _ hq)⟩
  obtain ⟨hnone, hfile⟩ := h.staged q mt w bs hq
  refine ⟨?_, hfile⟩
  show (s.transports.erase p)[q]? = none
  rw [OrdMap.getElem?_erase, hnone, ite_self]

/-- A flush that has retired has its file left to remove. -/
theorem remember {p w : Nat} (hw : s.node.Owns p w)
    (hp : ∀ mt w bs, s.node.flushes[p]? ≠ some ⟨mt, .staged w bs⟩) :
    Carries { s with transports := s.transports.insert p (.removing w) } := by
  refine ⟨h.marked, fun q rest hq => ?_, fun q mt w' bs hq => ?_, fun q w' hq => ?_⟩
  · rw [OrdMap.getElem?_insert] at hq
    by_cases he : p = q
    · rw [if_pos he] at hq
      simp at hq
    · rw [if_neg he] at hq
      exact h.writing q rest hq
  · have hne : p ≠ q := fun he => hp mt w' bs (he ▸ hq)
    show (s.transports.insert p (.removing w))[q]? = none ∧ _
    rw [OrdMap.getElem?_insert_ne _ hne]
    exact h.staged q mt w' bs hq
  · rw [OrdMap.getElem?_insert] at hq
    by_cases he : p = q
    · rw [if_pos he, Option.some.injEq, Transport.removing.injEq] at hq
      exact he ▸ hq ▸ hw
    · rw [if_neg he] at hq
      exact h.removing q w' hq

/-- **The file is removed.** -/
theorem remove {p w : Nat} (hw : s.transports[p]? = some (.removing w)) :
    Carries { s with
      files := s.files.erase (stagingPath w), transports := s.transports.erase p } := by
  have howns := h.removing p w hw
  have hforget := h.forget p
  refine ⟨h.marked, fun q rest hq => ?_, fun q mt w' bs hq => ?_, hforget.removing⟩
  · obtain ⟨mt, w', hc, done, hdone, hrest⟩ := hforget.writing q rest hq
    have hne : p ≠ q := by
      intro he
      rw [OrdMap.getElem?_erase, if_pos he] at hq
      contradiction
    refine ⟨mt, w', hc, done, ?_, hrest⟩
    show (s.files.erase (stagingPath w))[stagingPath w']? = _
    rw [OrdMap.getElem?_erase, if_neg (h.other howns (h.marked.owns hc rfl) hne)]
    exact hdone
  · have hne : p ≠ q := by
      intro he
      have := (h.staged q mt w' bs hq).1
      rw [← he, hw] at this
      contradiction
    refine ⟨(hforget.staged q mt w' bs hq).1, ?_⟩
    show (s.files.erase (stagingPath w))[stagingPath w']? = _
    rw [OrdMap.getElem?_erase, if_neg (h.other howns (h.marked.owns hq rfl) hne)]
    exact (h.staged q mt w' bs hq).2

/-- Only a planned flush writes. -/
theorem not_writing {p : Nat} {call : FlushCall} (hc : s.node.flushes[p]? = some call)
    (hs : ∀ w, call.stage ≠ .planned w) (rest : List RecordBatch) :
    s.transports[p]? ≠ some (.writing rest) := by
  intro hw
  obtain ⟨mt, w, hc', -⟩ := h.writing p rest hw
  rw [hc, Option.some.injEq] at hc'
  exact hs w (congrArg FlushCall.stage hc')

/-- A flush is over. -/
theorem endFlush {p : Nat} {call : FlushCall} (hc : s.node.flushes[p]? = some call)
    (hw : ∀ rest, s.transports[p]? ≠ some (.writing rest)) {n : Node} (hn : n.Marked)
    (hclosed : n.trail.closed = s.node.trail.closed)
    (hflushes : n.flushes = s.node.flushes.erase call.memtable.ptr) :
    Carries { s with node := n } ∧ n.flushes[p]? = none := by
  have hptr := (h.marked.flushes_ok p call hc).2.1
  have hnone : n.flushes[p]? = none := by
    rw [hflushes, OrdMap.getElem?_erase, if_pos hptr]
  refine ⟨h.leave hw hn hclosed (fun q hq => ?_) fun mt w bs hp => ?_, hnone⟩
  · rw [hflushes, OrdMap.getElem?_erase, hptr, if_neg hq]
  · rw [hnone] at hp
    contradiction

/-- **Step**: it keeps the files right, and shows as a step of the node or not at all. -/
theorem step (hg : Allows g s a) (hs : s.step db a = some s') :
    s'.Carries ∧
      (s'.node = s.node ∨ ∃ b, g s.node b ∧ s.node.step db b = some s'.node) := by
  cases move_of_step hs with
  | node ha hn => exact ⟨h.node ha hn, .inr ⟨_, hg _ rfl, hn⟩⟩
  | create hc hnone =>
      exact ⟨h.change hc (fun name hname => OrdMap.getElem?_insert_ne _ (Ne.symm hname))
        (by rw [OrdMap.getElem?_insert, if_pos rfl]) (List.nil_append _), .inl rfl⟩
  | write hc hw =>
      obtain ⟨mt', w', hc', done, hdone, hrest⟩ := h.writing _ _ hw
      rw [hc, Option.some.injEq, FlushCall.mk.injEq, FlushStage.planned.injEq] at hc'
      obtain ⟨rfl, rfl⟩ := hc'
      refine ⟨h.change hc (fun name hname => ?_) ?_ ((List.append_assoc _ [_] _).trans hrest),
        .inl rfl⟩
      · rw [OrdMap.getElem?_modify, if_neg (Ne.symm hname)]
      · rw [OrdMap.getElem?_modify, if_pos rfl, hdone, Option.map_some]
  | @close p w mt hc hw =>
      have hstage : s.node.step db (.stage p) =
          some (s.node.moveFlush ⟨mt, .planned w⟩ (.staged w (batches mt.val))) := by
        simp only [Node.step, hc, Option.bind_some, Node.stepFlush]
      exact ⟨h.close hc hw, .inr ⟨_, hg _ rfl, hstage⟩⟩
  | @publish p w mt staged read n hc hread hn =>
      obtain ⟨hnone, hfile⟩ := h.staged p mt w staged hc
      rw [hfile, Option.some.injEq, StagingFile.mk.injEq] at hread
      obtain ⟨rfl, -⟩ := hread
      have hpublish : s.node.step db (.publish p) = some n := by
        simp only [Node.step, hc, Option.bind_some]
        exact hn
      have hptr : mt.ptr = p := (h.marked.flushes_ok p _ hc).2.1
      have hmarked := h.marked.step hpublish
      refine ⟨?_, .inr ⟨_, hg _ rfl, hpublish⟩⟩
      simp only [Node.stepFlush, Option.some.injEq] at hn
      subst hn
      refine h.leave (p := p) (by simp [hnone]) hmarked rfl (fun q hq => ?_) fun mt' w' bs hp => ?_
      · rw [Node.moveFlush, OrdMap.getElem?_insert_ne _ (by rw [hptr]; exact hq)]
      · rw [Node.moveFlush, OrdMap.getElem?_insert, if_pos hptr] at hp
        simp at hp
  | refuse hc hread => exact absurd (h.staged _ _ _ _ hc).2 (hread _)
  | @retire p mt result file n hc hn =>
      have hmarked := h.marked.step hn
      refine ⟨?_, .inr ⟨_, hg _ rfl, hn⟩⟩
      simp only [Node.step, hc, Option.bind_some, Node.stepFlush, Option.some.injEq] at hn
      subst hn
      obtain ⟨hleft, hgone⟩ := h.endFlush hc (h.not_writing hc (by simp)) hmarked rfl rfl
      cases result with
      | committed w files => exact hleft.remember (h.marked.owns hc rfl) (by simp [hgone])
      | alreadyPublished w => exact hleft
      | empty => exact hleft
  | remove hw fails =>
      cases fails with
      | true => exact ⟨h.forget _, .inl rfl⟩
      | false => exact ⟨h.remove hw, .inl rfl⟩
  | @fail p n hn =>
      have hmarked := h.marked.step hn
      refine ⟨?_, .inr ⟨_, hg _ rfl, hn⟩⟩
      obtain ⟨call, hc, hn⟩ := Option.bind_eq_some_iff.mp hn
      simp only [Node.stepFlush, Option.some.injEq] at hn
      subst hn
      exact ((h.forget p).endFlush hc (by simp) hmarked rfl rfl).1

/-- **Run**, and what it shows as. -/
theorem of_reaches {t : StagedNode} (ht : Reaches (StagedNode.step db) (Allows g) s t) :
    t.Carries ∧ Reaches (Node.step db) g s.node t.node :=
  ht.simulates StagedNode.node Carries h fun _ _ _ hc hg hs => hc.step hg hs

end Carries

/-- Whatever was in the directory. -/
theorem boot_carries {n : Node} (h : n.Marked) (hf : n.flushes = ∅)
    (files : ExtTreeMap FileName StagingFile) : (boot n files).Carries where
  marked := h
  writing := by simp [boot]
  staged := by simp [boot, hf]
  removing := by simp [boot]

end StagedNode

/-- The process that comes up at the end of `open`. -/
theorem System.marked_of_replay {db : DuckDb} {s s' : System} {cfg : Config} {n : Node}
    (h : Reaches (step db) (Within Node.PayloadFits AnyCrash) init s)
    (hs : s.step db (.replay cfg) = some s') (hn : s'.node? = some n) :
    n.Marked ∧ n.flushes = ∅ := by
  have hissued := h.invariant (Issued db) (issued_init db)
    fun _ _ _ hi hg hs => issued_step hi hg hs
  have hany : Within Node.PayloadFits AnyCrash s (.replay cfg) := trivial
  have hissued' := issued_step hissued hany hs
  cases System.move_of_step hs with
  | replay hp hr =>
      obtain ⟨-, hissued'⟩ := hissued'
      obtain rfl := Option.some.inj hn
      obtain ⟨ledger, hledger⟩ := hissued'
      unfold Node.recovered at hr
      split at hr
      · next dir engine _ hrecover =>
          rw [Option.some.injEq] at hr
          subst hr
          unfold Engine.recover at hrecover
          split at hrecover
          · contradiction
          · rw [Except.ok.injEq, Prod.mk.injEq] at hrecover
            obtain ⟨rfl, rfl⟩ := hrecover
            exact ⟨hledger.marked (Nat.succ_pos _) rfl rfl rfl, rfl⟩
      · contradiction

namespace StagedNode

variable {db : DuckDb} {g : Node → Act → Prop} {s s' : System} {cfg : Config} {n : Node}
  {t : StagedNode}

/-- A run from a process that comes up, by trying a list of actions. -/
theorem exists_run_of_attempt (db : DuckDb) (files : ExtTreeMap FileName StagingFile)
    (guard : StagedNode → StagingAct → Prop) [∀ s a, Decidable (guard s a)]
    (P : StagedNode → Prop) [DecidablePred P] (as : List StagingAct)
    (h : (attempt (System.step db) (System.Within Node.PayloadFits System.AnyCrash) System.init
        [.readWatermark, .loadIndex]).any (fun s =>
      (s.step db (.replay Node.smallConfig)).any fun s' => s'.node?.any fun n =>
        (attempt (step db) guard (boot n files) as).any fun t => P t) = true) :
    ∃ s s' n t, Reaches (System.step db) (System.Within Node.PayloadFits System.AnyCrash)
        System.init s ∧ s.step db (.replay Node.smallConfig) = some s' ∧ s'.node? = some n ∧
      Reaches (step db) guard (boot n files) t ∧ P t := by
  obtain ⟨s, hs, h⟩ := (Option.any_eq_true _ _).mp h
  obtain ⟨s', hs', h⟩ := (Option.any_eq_true _ _).mp h
  obtain ⟨n, hn, h⟩ := (Option.any_eq_true _ _).mp h
  obtain ⟨t, ht, hP⟩ := exists_reaches_of_attempt P as h
  exact ⟨s, s', n, t, reaches_of_attempt hs, hs', hn, ht, hP⟩

/-- What an engine that died has left: half a file, under the name of the first flush. -/
def leftover : ExtTreeMap FileName StagingFile :=
  (∅ : ExtTreeMap FileName StagingFile).insert (stagingPath 1)
    ⟨[⟨[[9]], [1], [0], [some [9]]⟩], false⟩

/-- Actions of the node. -/
def nodeActs (as : List Act) : List StagingAct := as.map .node

/-- Two memtables are staged side by side. -/
def stageTwo : List StagingAct :=
  nodeActs (Node.putSteps [1] [7] 1 ++ [.freeze] ++ Node.putSteps [2] [8] 2 ++
    [.freeze, .readWatermark 0, .readWatermark 1, .plan 0, .plan 1]) ++
    [.create 0, .create 1, .write 1, .write 0, .close 1, .close 0]

/-- They are published, and their files removed. -/
def publishTwo : List StagingAct :=
  [.publish 1, .publish 0] ++ nodeActs [.query 1, .install 1, .query 0, .install 0, .truncate 0,
    .truncate 1] ++ [.retire 0, .retire 1, .remove 1 false, .remove 0 false]

/-! ## transport only -/

/-- **Staging files are transport only.**  From any process that `open` brings up in a
run of the system, with any files left in the staging directory: whatever the process
does with its files in between, what shows is a run of the process that stages in one
step. -/
theorem staging_refines (h : Reaches (System.step db) (System.Within Node.PayloadFits
      System.AnyCrash) System.init s) (hs : s.step db (.replay cfg) = some s')
    (hn : s'.node? = some n) (files : ExtTreeMap FileName StagingFile)
    (ht : Reaches (step db) (Allows g) (boot n files) t) :
    Reaches (Node.step db) g n t.node := by
  obtain ⟨hmarked, hflushes⟩ := System.marked_of_replay h hs hn
  exact ((boot_carries hmarked hflushes files).of_reaches ht).2

/-- Two flushes side by side. -/
theorem staging_refines_two : ∃ n t, Reaches (step DuckDb.plain) (Allows fun _ _ => True)
    (boot n leftover) t ∧ t.node.store.lake.length = 2 ∧
      Reaches (Node.step DuckDb.plain) (fun _ _ => True) n t.node := by
  obtain ⟨s, s', n, t, h, hs, hn, ht, hlake⟩ := exists_run_of_attempt DuckDb.plain leftover
    (Allows fun _ _ => True) (fun t => t.node.store.lake.length = 2) (stageTwo ++ publishTwo)
    (by decide +kernel)
  exact ⟨n, t, ht, hlake, staging_refines h hs hn leftover ht⟩

/-- **What is published is what was frozen.**  With any number of flushes at once and
whatever was in the directory, a flush that has staged its memtable finds a closed file
with the batches of that memtable, and its publish inserts them. -/
theorem staged_file_exact (h : Reaches (System.step db) (System.Within Node.PayloadFits
      System.AnyCrash) System.init s) (hs : s.step db (.replay cfg) = some s')
    (hn : s'.node? = some n) (files : ExtTreeMap FileName StagingFile)
    (ht : Reaches (step db) (Allows g) (boot n files) t) {p w : Nat} {mt : Arc Memtable}
    {bs : List RecordBatch} (hc : t.node.flushes[p]? = some ⟨mt, .staged w bs⟩) :
    t.files[stagingPath w]? = some ⟨batches mt.val, true⟩ ∧
      ∃ t', t.step db (.publish p) = some t' ∧
        t'.node.store.lake = HolyGrail.publish db t.node.store.lake (batches mt.val) := by
  obtain ⟨hmarked, hflushes⟩ := System.marked_of_replay h hs hn
  have hcarries := ((boot_carries hmarked hflushes files).of_reaches ht).1
  obtain ⟨-, hfile⟩ := hcarries.staged p mt w bs hc
  obtain ⟨-, -, -, hmark⟩ := hcarries.marked.flushes_ok p _ hc
  have hbs : bs = batches mt.val := hmark w bs rfl
  subst hbs
  refine ⟨hfile, ?_⟩
  simp only [step, hc, hfile, Node.stepFlush, Option.map_some, Option.some.injEq,
    exists_eq_left']
  rfl

/-- The flush has staged its memtable. -/
def stagedAt (p : Nat) (t : StagedNode) : Bool :=
  match t.node.flushes[p]? with
  | some ⟨_, .staged ..⟩ => true
  | _ => false

/-- The first of them, over the half file. -/
theorem staged_file_exact_two : ∃ n t, Reaches (step DuckDb.plain) (Allows fun _ _ => True)
    (boot n leftover) t ∧ ∃ mt w bs, t.node.flushes[0]? = some ⟨mt, .staged w bs⟩ ∧
      t.files[stagingPath w]? = some ⟨batches mt.val, true⟩ := by
  obtain ⟨s, s', n, t, h, hs, hn, ht, hstaged⟩ := exists_run_of_attempt DuckDb.plain leftover
    (Allows fun _ _ => True) (stagedAt 0 · = true) stageTwo (by decide +kernel)
  unfold stagedAt at hstaged
  split at hstaged
  · next mt w bs hc =>
      exact ⟨n, t, ht, mt, w, bs, hc, (staged_file_exact h hs hn leftover ht hc).1⟩
  · contradiction

/-! ## nothing is left -/

/-- Nothing fails, and files that should be removed are. -/
def NoFailure : StagingAct → Prop
  | .node a => Node.NoFailure a
  | .remove _ fails => fails = false
  | .fail _ => False
  | _ => True

instance (act : StagingAct) : Decidable (NoFailure act) := by
  unfold NoFailure
  split <;> infer_instance

/-- A flush under way works with the file, or is about to remove it. -/
def Uses (t : StagedNode) (name : FileName) : Prop :=
  (∃ (p : Nat) (call : FlushCall) (w : Nat), t.node.flushes[p]? = some call ∧
    call.stage.staging? = some w ∧ name = stagingPath w) ∨
  ∃ p w : Nat, t.transports[p]? = some (.removing w) ∧ name = stagingPath w

theorem Uses.mono {s s' : StagedNode} {name : FileName} (h : s.Uses name)
    (hk : Keeps s.node.flushes s'.node.flushes)
    (ht : ∀ p w : Nat, s.transports[p]? = some (.removing w) →
      s'.transports[p]? = some (.removing w)) : s'.Uses name := by
  cases h with
  | inl h =>
      obtain ⟨p, call, w, hc, hw, rfl⟩ := h
      obtain ⟨call', hc', hw'⟩ := hk p call w hc hw
      exact .inl ⟨p, call', w, hc', hw', rfl⟩
  | inr h =>
      obtain ⟨p, w, hp, rfl⟩ := h
      exact .inr ⟨p, w, ht p w hp, rfl⟩

/-- The removals of the others. -/
theorem removing_insert {transports : ExtTreeMap Nat Transport} {p : Nat} {t : Transport}
    (hp : ∀ w, transports[p]? ≠ some (Transport.removing w)) (q w : Nat)
    (hq : transports[q]? = some (Transport.removing w)) :
    (transports.insert p t)[q]? = some (Transport.removing w) := by
  rw [OrdMap.getElem?_insert_ne _ fun he : p = q => hp w (he ▸ hq)]
  exact hq

theorem removing_erase {transports : ExtTreeMap Nat Transport} {p : Nat}
    (hp : ∀ w, transports[p]? ≠ some (Transport.removing w)) (q w : Nat)
    (hq : transports[q]? = some (Transport.removing w)) :
    (transports.erase p)[q]? = some (Transport.removing w) := by
  rw [OrdMap.getElem?_erase, if_neg fun he : p = q => hp w (he ▸ hq)]
  exact hq

/-- Every file was there before or is in use. -/
def Tidy (files : ExtTreeMap FileName StagingFile) (s : StagedNode) : Prop :=
  ∀ name ∈ s.files, name ∈ files ∨ s.Uses name

/-- A flush that retires hands its file over to the removal. -/
theorem Uses.retire {s : StagedNode} (hcar : s.Carries) {p : Nat} {mt : Arc Memtable}
    {result : Flushed} {file : Option DataFile}
    (hc : s.node.flushes[p]? = some ⟨mt, .truncated result file⟩) {n : Node}
    (hn : n.flushes = s.node.flushes.erase p) {name : FileName} (h : s.Uses name) :
    Uses { s with
      node := n
      transports := toRemove s.transports p result } name := by
  cases h with
  | inl h =>
      obtain ⟨q, call, w, hq, hw, rfl⟩ := h
      by_cases hp : p = q
      · subst hp
        rw [hc, Option.some.injEq] at hq
        subst hq
        cases result with
        | committed w' files =>
            obtain rfl := Option.some.inj hw
            exact .inr ⟨p, w', by simp [toRemove], rfl⟩
        | alreadyPublished w' => contradiction
        | empty => contradiction
      · refine .inl ⟨q, call, w, ?_, hw, rfl⟩
        show n.flushes[q]? = some call
        rw [hn, OrdMap.getElem?_erase, if_neg hp]
        exact hq
  | inr h =>
      obtain ⟨q, w, hq, rfl⟩ := h
      cases result with
      | committed w' files =>
          by_cases hp : p = q
          · subst hp
            have hsame := hcar.marked.owns_unique (hcar.removing p w hq)
              (hcar.marked.owns hc rfl)
            exact .inr ⟨p, w', by simp [toRemove], hsame ▸ rfl⟩
          · exact .inr ⟨q, w, by simpa [toRemove, OrdMap.getElem?_insert_ne _ hp] using hq, rfl⟩
      | alreadyPublished w' => exact .inr ⟨q, w, hq, rfl⟩
      | empty => exact .inr ⟨q, w, hq, rfl⟩

/-- **Step**: no file is left. -/
theorem Tidy.step {files : ExtTreeMap FileName StagingFile} {s s' : StagedNode} {a : StagingAct}
    (h : Tidy files s) (hcar : s.Carries) (hno : NoFailure a) (hs : s.step db a = some s') :
    Tidy files s' := by
  intro name hmem
  cases move_of_step hs with
  | node ha hn =>
      have hkeeps := hcar.marked.keeps hno (by rintro p rfl; simp [Act.touches] at ha) hn
      refine (h name hmem).imp_right fun huse => ?_
      exact huse.mono hkeeps fun _ _ hp => hp
  | create hc hnone =>
      cases (OrdMap.mem_insert _).mp hmem with
      | inl hname => exact .inr (.inl ⟨_, _, _, hc, rfl, hname.symm⟩)
      | inr hmem =>
          refine (h name hmem).imp_right fun huse => ?_
          exact huse.mono .refl (removing_insert (by simp [hnone]))
  | write hc hw =>
      refine (h name (OrdMap.mem_modify.mp hmem)).imp_right fun huse => ?_
      exact huse.mono .refl (removing_insert (by simp [hw]))
  | @close p w mt hc hw =>
      have hkeeps : Keeps s.node.flushes
          (s.node.flushes.insert mt.ptr ⟨mt, .staged w (batches mt.val)⟩) :=
        .insert (by simp [hcar.marked.at_ptr hc, FlushStage.staging?])
      refine (h name (OrdMap.mem_modify.mp hmem)).imp_right fun huse => ?_
      exact huse.mono hkeeps (removing_erase (by simp [hw]))
  | @publish p w mt staged read n hc hread hn =>
      rw [(hcar.staged p mt w staged hc).2, Option.some.injEq, StagingFile.mk.injEq] at hread
      obtain ⟨rfl, -⟩ := hread
      have hpublish : s.node.step db (.publish p) = some n := by
        simp only [Node.step, hc, Option.bind_some]
        exact hn
      have hno : Node.NoFailure (.publish p) := trivial
      have hkeeps := hcar.marked.keeps hno (by simp) hpublish
      refine (h name hmem).imp_right fun huse => ?_
      exact huse.mono hkeeps fun _ _ hp => hp
  | refuse hc hread => exact absurd (hcar.staged _ _ _ _ hc).2 (hread _)
  | @retire p mt result file n hc hn =>
      have hptr : mt.ptr = p := (hcar.marked.flushes_ok p _ hc).2.1
      simp only [Node.step, hc, Option.bind_some, Node.stepFlush, Option.some.injEq] at hn
      subst hn
      refine (h name hmem).imp_right fun huse => ?_
      exact huse.retire hcar hc (congrArg s.node.flushes.erase hptr)
  | @remove p w hw fails =>
      obtain rfl : fails = false := hno
      obtain ⟨hne, hmem⟩ := OrdMap.mem_erase.mp hmem
      refine (h name hmem).imp_right fun huse => ?_
      cases huse with
      | inl huse => exact .inl huse
      | inr huse =>
          obtain ⟨q, w', hq, rfl⟩ := huse
          have hp : p ≠ q := by
            rintro rfl
            rw [hw, Option.some.injEq, Transport.removing.injEq] at hq
            exact hne (congrArg stagingPath hq)
          exact .inr ⟨q, w', by simpa [OrdMap.getElem?_erase, hp] using hq, rfl⟩
  | fail hn => exact hno.elim

/-- **No file is left behind.**  As long as nothing fails, every file of the staging
directory was there when the process came up, or a flush under way works with it. -/
theorem staging_leaves_nothing (h : Reaches (System.step db) (System.Within Node.PayloadFits
      System.AnyCrash) System.init s) (hs : s.step db (.replay cfg) = some s')
    (hn : s'.node? = some n) (files : ExtTreeMap FileName StagingFile)
    (ht : Reaches (step db) (fun _ a => NoFailure a) (boot n files) t) :
    ∀ name ∈ t.files, name ∈ files ∨ t.Uses name := by
  obtain ⟨hmarked, hflushes⟩ := System.marked_of_replay h hs hn
  have hinv := ht.invariant (fun t => t.Carries ∧ Tidy files t)
    ⟨boot_carries hmarked hflushes files, fun name hname => .inl hname⟩ ?_
  · exact hinv.2
  · intro t a t' hinv hno hstep
    obtain ⟨hcar, htidy⟩ := hinv
    have hany : Allows (fun _ _ => True) t a := fun _ _ => trivial
    exact ⟨(hcar.step hany hstep).1, htidy.step hcar hno hstep⟩

/-- Both files are gone, and the half file with them. -/
theorem staging_leaves_nothing_two : ∃ n t,
    Reaches (step DuckDb.plain) (fun _ a => NoFailure a) (boot n leftover) t ∧
      t.node.store.lake.length = 2 ∧ t.files.size = 0 ∧
      ∀ name ∈ t.files, name ∈ leftover ∨ t.Uses name := by
  obtain ⟨s, s', n, t, h, hs, hn, ht, hlake, hsize⟩ := exists_run_of_attempt DuckDb.plain leftover
    (fun _ a => NoFailure a) (fun t => t.node.store.lake.length = 2 ∧ t.files.size = 0)
    (stageTwo ++ publishTwo) (by decide +kernel)
  exact ⟨n, t, ht, hlake, hsize, staging_leaves_nothing h hs hn leftover ht⟩

end StagedNode

end HolyGrail
