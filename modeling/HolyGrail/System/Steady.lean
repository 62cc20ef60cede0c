import HolyGrail.Node.Lake
import HolyGrail.System.Invariants

/-!
# HolyGrail.System.Steady

Two kinds of runs in which all invariants hold together, crashes included.

* `Steady`: any number of writers, one flush at a time, no failure, as long as
  no freeze separates a memtable from a lower LSN and no append reopens a
  segment file that has records;
* `Calm`: one writer and one flush at a time, no failure.  Nothing else has to
  be asked for.
-/

namespace HolyGrail

open Std (ExtTreeMap)

namespace Node

/-- One flush at a time and no failure, with clean freezes and fresh names. -/
def Concurrent (n : Node) (a : Act) : Prop :=
  n.FreezeClean a ∧ n.RotateFresh a ∧ n.OneFlush a ∧ NoFailure a ∧ n.PayloadFits a

/-- One write and one flush at a time, and no failure.  Reads are free. -/
def Sequential (n : Node) (a : Act) : Prop :=
  n.OneWriter a ∧ n.OneFlush a ∧ NoFailure a ∧ n.PayloadFits a

instance (n : Node) (a : Act) : Decidable (n.Concurrent a) :=
  inferInstanceAs (Decidable (_ ∧ _ ∧ _ ∧ _ ∧ _))

instance (n : Node) (a : Act) : Decidable (n.Sequential a) :=
  inferInstanceAs (Decidable (_ ∧ _ ∧ _ ∧ _))

/-- One flush at a time keeps reads right. -/
theorem Alone.orderly {db : DuckDb} {n n' : Node} {a : Act} (h : n.Alone) (hsh : n.Shape db)
    (hix : n.Indexed) (hs : n.step db a = some n') : n.Orderly a where
  read := h.readInOrder hsh hs
  install := h.installNotOlder hix a
  retire := h.retireInOrder hs

end Node

namespace System

variable {db : DuckDb} {s s' : System} {e : Event}

/-- What the invariant adds to a guard, for the process that takes the step or
dies. -/
theorem within_of_step {g g' : Node → Act → Prop} {c c' : Node → Crash → Prop}
    (hg : Within g c s e) (hs : s.step db e = some s')
    (hnode : ∀ n a n', s.node? = some n → n.step db a = some n' → g n a → g' n a)
    (hcrash : ∀ n k store, s.node? = some n → n.crashed k = some store → c n k → c' n k) :
    Within g' c' s e := by
  cases move_of_step hs with
  | node hp hn =>
      intro n hn'
      rw [Option.mem_def, node?_up hp, Option.some.injEq] at hn'
      subst hn'
      exact hnode _ _ _ (node?_up hp) hn (hg _ (node?_up hp))
  | crash hp hc =>
      intro n hn'
      rw [Option.mem_def, node?_up hp, Option.some.injEq] at hn'
      subst hn'
      exact hcrash _ _ _ (node?_up hp) hc (hg _ (node?_up hp))
  | land hc => exact hg.elim
  | readWatermark | loadIndex | replay | crashEarly | crashOpening => trivial

/-! ## any number of writers -/

structure Steady (db : DuckDb) (s : System) : Prop where
  secure : s.Secure db
  serving : s.Serving
  flush : s.SoleFlush

theorem steady_init (db : DuckDb) : init.Steady db :=
  ⟨secure_init db, serving_init, soleFlush_init⟩

namespace Steady

theorem node_secure {n : Node} (h : s.Steady db) (hn : s.node? = some n) : n.Secure db := by
  obtain ⟨p, hp, rfl⟩ := node?_eq_some hn
  exact secure_of_up h.secure hp

theorem node_serving {n : Node} (h : s.Steady db) (hn : s.node? = some n) : n.Serving := by
  obtain ⟨p, hp, rfl⟩ := node?_eq_some hn
  exact serving_of_up h.serving hp

theorem step (h : s.Steady db) (hg : Within Node.Concurrent Node.CrashFresh s e)
    (hs : s.step db e = some s') : s'.Steady db where
  secure := by
    refine secure_step h.secure (within_of_step hg hs ?_ fun _ _ _ _ _ hc => hc) hs
    rintro n a n' hn hs ⟨hclean, hfresh, -, -, hfit⟩
    exact ⟨hclean, (h.flush n hn).publishInOrder hs, hfit, hfresh⟩
  serving := by
    refine serving_step h.serving h.secure
      (within_of_step hg hs ?_ fun _ _ _ _ _ _ => trivial) hs
    intro n a n' hn hs _
    exact (h.flush n hn).orderly (h.node_secure hn).shape (h.node_serving hn).indexed hs
  flush := by
    refine soleFlush_step h.flush h.secure (within_of_step hg hs ?_ fun _ _ _ _ _ _ => trivial) hs
    rintro n a n' - - ⟨-, -, hone, hok, -⟩
    exact ⟨hone, hok⟩

/-- Each new live file lies above all others. -/
theorem ascending_step (h : s.Steady db) (hasc : Ascending s.store.lake) (hland : ∀ i, e ≠ .land i)
    (hs : s.step db e = some s') : Ascending s'.store.lake := by
  cases move_of_step hs with
  | node hp hn =>
      exact (h.flush _ (node?_up hp)).ascending_step (secure_of_up h.secure hp).shape hasc hn
  | crash hp hc =>
      have he : _ = s.store.lake := Node.lake_crashed hc
      simp only [he]
      exact hasc
  | replay hp hr =>
      obtain ⟨-, log, dir, wal, -, -, -, rfl⟩ := recovered_process h.secure hp hr
      exact hasc
  | land hc => exact absurd rfl (hland _)
  | readWatermark | loadIndex | crashEarly | crashOpening => exact hasc

end Steady

theorem steady_of_reaches (h : Reaches (step db) (Within Node.Concurrent Node.CrashFresh) init s) :
    s.Steady db :=
  h.invariant (Steady db) (steady_init db) fun _ _ _ h hg hs => h.step hg hs

theorem ascending_of_reaches
    (h : Reaches (step db) (Within Node.Concurrent Node.CrashFresh) init s) :
    Ascending s.store.lake := by
  refine (h.invariant (fun s => s.Steady db ∧ Ascending s.store.lake) ⟨steady_init db, .nil⟩ ?_).2
  rintro s e s' ⟨h, hasc⟩ hg hs
  refine ⟨h.step hg hs, h.ascending_step hasc ?_ hs⟩
  rintro i rfl
  exact hg

/-! ## one writer -/

structure Calm (db : DuckDb) (s : System) : Prop extends Steady db s where
  writer : s.SoleWriter

theorem calm_init (db : DuckDb) : init.Calm db := ⟨steady_init db, soleWriter_init⟩

/-- One writer asks for nothing else. -/
theorem Calm.concurrent (h : s.Calm db) (hg : Within Node.Sequential AnyCrash s e)
    (hs : s.step db e = some s') : Within Node.Concurrent Node.CrashFresh s e := by
  refine within_of_step hg hs ?_ fun _ _ _ hn hc _ => h.writer.crashFresh h.secure hn hc
  rintro n a n' hn hs ⟨-, hone, hok, hfit⟩
  exact ⟨h.writer.clean hn a, h.writer.rotateFresh h.secure hn hs, hone, hok, hfit⟩

theorem Calm.step (h : s.Calm db) (hg : Within Node.Sequential AnyCrash s e)
    (hs : s.step db e = some s') : s'.Calm db where
  toSteady := h.toSteady.step (h.concurrent hg hs) hs
  writer := soleWriter_step h.writer h.secure
    (within_of_step hg hs (fun _ _ _ _ _ hg => hg.1) fun _ _ _ _ _ hc => hc) hs

theorem calm_of_reaches (h : Reaches (step db) (Within Node.Sequential AnyCrash) init s) :
    s.Calm db :=
  h.invariant (Calm db) (calm_init db) fun _ _ _ h hg hs => h.step hg hs

end System

end HolyGrail
