import HolyGrail.Run

/-!
# HolyGrail.Program

Programs that ask a service and go on with its answers, and pools of them.

A `Program` is the tree of its questions: what it asks first, and how it goes on
with each answer.  `Returns` says what it returns if the answers are good, that a
bad answer ends it with an error, and which questions it asks on the way;
`Returns.andThen` and `Returns.via` are the rules for programs in sequence and for
programs whose questions are themselves answered by programs.

A `Pool` runs many programs against one `Service` at once.  The service answers a
question in steps, and the steps of different questions come in any order.
`Pool.Sound` reduces a fact about all runs of a pool to the steps of the service
(`Sound.of_reaches`), and `Sound.finishes` says that a program can always be
carried on to its end.
-/

namespace HolyGrail

/-- A program that asks questions of type `Q`; `A q` are the answers to `q`. -/
inductive Program (Q : Type u) (A : Q → Type v) (α : Type w) where
  | done (a : α)
  | ask (q : Q) (k : A q → Program Q A α)

namespace Program

variable {Q : Type u} {A : Q → Type v} {ε : Type x} {α : Type w} {β : Type w'}

/-- One program after another one that may fail. -/
def andThen (p : Program Q A (Except ε α)) (f : α → Program Q A (Except ε β)) :
    Program Q A (Except ε β) :=
  match p with
  | .done (.ok a) => f a
  | .done (.error e) => .done (.error e)
  | .ask q k => .ask q fun a => (k a).andThen f

/-- What the program returns if `oracle` answers. -/
def eval (oracle : (q : Q) → A q) : Program Q A α → α
  | .done a => a
  | .ask q k => (k (oracle q)).eval oracle

/-- Answer each question by a program, up to the first one that fails. -/
def via {Q' : Type u'} {A' : Q' → Type v'} (h : (q : Q) → Program Q' A' (Except ε (A q))) :
    Program Q A (Except ε α) → Program Q' A' (Except ε α)
  | .done r => .done r
  | .ask q k => (h q).andThen fun a => (k a).via h

/-- The program asks only the questions it may ask.  With good answers it returns
`x`, and a bad answer ends it with an error. -/
def Returns (asks : Q → Prop) (good bad : (q : Q) → A q → Prop) (x : Except ε α) :
    Program Q A (Except ε α) → Prop
  | .done r => r = x
  | .ask q k => asks q ∧ (∀ a, good q a → (k a).Returns asks good bad x) ∧
      ∀ a, bad q a → ∃ e, k a = .done (.error e)

section
variable {asks : Q → Prop} {good bad : (q : Q) → A q → Prop}

/-- **Sequencing rule.** -/
theorem Returns.andThen {p : Program Q A (Except ε α)} {f : α → Program Q A (Except ε β)}
    {a : α} {y : Except ε β} (hp : p.Returns asks good bad (.ok a))
    (hf : (f a).Returns asks good bad y) : (p.andThen f).Returns asks good bad y := by
  induction p with
  | done r =>
      rw [Returns] at hp
      rw [hp]
      exact hf
  | ask q k ih =>
      obtain ⟨hq, hgood, hbad⟩ := hp
      refine ⟨hq, fun b hb => ih b (hgood b hb), fun b hb => ?_⟩
      obtain ⟨e, he⟩ := hbad b hb
      exact ⟨e, by simp only [he, Program.andThen]⟩

/-- **Substitution rule**: programs that answer like the oracle make the program
return what it returns with the oracle. -/
theorem Returns.via {Q' : Type u'} {A' : Q' → Type v'} {asks' : Q' → Prop}
    {good' bad' : (q : Q') → A' q → Prop} {h : (q : Q) → Program Q' A' (Except ε (A q))}
    {oracle : (q : Q) → A q} (hh : ∀ q, (h q).Returns asks' good' bad' (.ok (oracle q)))
    (p : Program Q A (Except ε α)) : (p.via h).Returns asks' good' bad' (p.eval oracle) := by
  induction p with
  | done r => rfl
  | ask q k ih => exact (hh q).andThen (ih (oracle q))

end

end Program

/-! ## services -/

/-- A service with state `σ` that works on a question, in steps that others can
come in between, until it has an answer. -/
structure Service (σ : Type s) (Q : Type u) (A : Q → Type v) (W : Type w) (Act : Type t) where
  start : Q → W
  step : σ → W → Act → Option (σ × W)
  answer : (q : Q) → W → Option (A q)

namespace Service

variable {σ : Type s} {Q : Type u} {A : Q → Type v} {W : Type w} {Act : Type t}

/-- `Inv` holds of the state and `Good` of the work on a question that waits for
its answer, and each answer is good or bad. -/
structure Sound (S : Service σ Q A W Act) (allowed : Q → Prop) (Inv : σ → Prop)
    (Good : Q → W → Prop) (good bad : (q : Q) → A q → Prop) : Prop where
  start : ∀ q, allowed q → S.answer q (S.start q) = none → Good q (S.start q)
  start_answer : ∀ q a, S.answer q (S.start q) = some a → good q a
  step : ∀ {s q w act s' w'}, Inv s → allowed q → Good q w → S.answer q w = none →
    S.step s w act = some (s', w') →
    Inv s' ∧ (S.answer q w' = none → Good q w') ∧
      ∀ a, S.answer q w' = some a → good q a ∨ bad q a

/-- A question that waits has a step that brings a good answer closer. -/
def Live (S : Service σ Q A W Act) (allowed : Q → Prop) (Inv : σ → Prop) (Good : Q → W → Prop)
    (good : (q : Q) → A q → Prop) (rank : W → Nat) : Prop :=
  ∀ {s q w}, Inv s → allowed q → Good q w → S.answer q w = none →
    ∃ act s' w', S.step s w act = some (s', w') ∧ (∀ a, S.answer q w' = some a → good q a) ∧
      (S.answer q w' = none → rank w' < rank w)

end Service

/-! ## pools -/

/-- A program in a pool. -/
inductive Job (Q : Type u) (A : Q → Type v) (W : Type w) (α : Type x) where
  | waiting (q : Q) (work : W) (k : A q → Program Q A α)
  | returned (a : α)
  | dropped

/-- It has a question that is not answered yet. -/
def Job.waits : Job Q A W α → Bool
  | .waiting .. => true
  | .returned _ | .dropped => false

/-- Programs that run at once, each with what it was called for. -/
structure Pool (ι : Type i) (σ : Type s) (Q : Type u) (A : Q → Type v) (W : Type w)
    (α : Type x) where
  shared : σ
  jobs : List (ι × Job Q A W α)

/-- `carryOn` carries on the job with the given number. -/
inductive PoolAct (ι : Type i) (Act : Type t) where
  | call (i : ι)
  | carryOn (n : Nat) (act : Act)
  | drop (n : Nat)

section
variable {ι : Type i} {σ : Type s} {Q : Type u} {A : Q → Type v} {W : Type w} {Act : Type t}
  {α : Type x} (S : Service σ Q A W Act) (program : ι → Program Q A α)

/-- Run a program up to the first question whose answer takes a step. -/
def Program.launch : Program Q A α → Job Q A W α
  | .done a => .returned a
  | .ask q k => match S.answer q (S.start q) with
      | some a => (k a).launch
      | none => .waiting q (S.start q) k

/-- Go on if there is an answer. -/
def Job.resume (q : Q) (k : A q → Program Q A α) (work : W) : Job Q A W α :=
  match S.answer q work with
  | some a => (k a).launch S
  | none => .waiting q work k

/-- One step of the work on the question of a job. -/
def Job.step (s : σ) (act : Act) : Job Q A W α → Option (σ × Job Q A W α)
  | .waiting q work k => (S.step s work act).map fun r => (r.1, resume S q k r.2)
  | _ => none

/-- A job that has not returned is dropped. -/
def Job.drop : Job Q A W α → Option (Job Q A W α)
  | .waiting .. => some .dropped
  | _ => none

/-- A call, one step of one job, or a drop. -/
def Pool.step (p : Pool ι σ Q A W α) : PoolAct ι Act → Option (Pool ι σ Q A W α)
  | .call i => some { p with jobs := p.jobs ++ [(i, (program i).launch S)] }
  | .carryOn n act => p.jobs[n]?.bind fun job => (job.2.step S p.shared act).map fun r =>
      { shared := r.1, jobs := p.jobs.set n (job.1, r.2) }
  | .drop n => p.jobs[n]?.bind fun job => job.2.drop.map fun job' =>
      { p with jobs := p.jobs.set n (job.1, job') }

variable {S} in
/-- What a step of a waiting job does to the pool. -/
theorem Pool.step_waiting {p : Pool ι σ Q A W α} {n : Nat} {i : ι} {q : Q} {work work' : W}
    {k : A q → Program Q A α} {act : Act} {s' : σ}
    (hn : p.jobs[n]? = some (i, .waiting q work k))
    (hwork : S.step p.shared work act = some (s', work')) :
    p.step S program (.carryOn n act) =
      some ⟨s', p.jobs.set n (i, Job.resume S q k work')⟩ := by
  simp only [Pool.step, hn, Option.bind_some, Job.step, hwork, Option.map_some]

variable {S program} in
/-- A job stays the job of its call. -/
theorem Pool.label_of_step {p p' : Pool ι σ Q A W α} {act : PoolAct ι Act}
    (h : p.step S program act = some p') {n : Nat} {i : ι} {job : Job Q A W α}
    (hn : p.jobs[n]? = some (i, job)) : ∃ job', p'.jobs[n]? = some (i, job') := by
  have hset : ∀ {m : Nat} {old : ι × Job Q A W α} (new : Job Q A W α),
      p.jobs[m]? = some old → ∃ job', (p.jobs.set m (old.1, new))[n]? = some (i, job') := by
    intro m old new hm
    by_cases he : m = n
    · subst he
      rw [hm, Option.some.injEq] at hn
      rw [hn]
      exact ⟨new, List.getElem?_set_self (List.getElem?_eq_some_iff.mp hm).1⟩
    · exact ⟨job, by rw [List.getElem?_set_ne he]; exact hn⟩
  cases act with
  | call i' =>
      simp only [Pool.step, Option.some.injEq] at h
      rw [← h]
      exact ⟨job, by rw [List.getElem?_append_left (List.getElem?_eq_some_iff.mp hn).1]; exact hn⟩
  | carryOn m act =>
      simp only [Pool.step, Option.bind_eq_some_iff, Option.map_eq_some_iff] at h
      obtain ⟨old, hm, r, -, rfl⟩ := h
      exact hset r.2 hm
  | drop m =>
      simp only [Pool.step, Option.bind_eq_some_iff, Option.map_eq_some_iff] at h
      obtain ⟨old, hm, new, -, rfl⟩ := h
      exact hset new hm

end

/-! ## what holds of a job -/

section
variable {σ : Type s} {Q : Type u} {A : Q → Type v} {W : Type w} {Act : Type t} {ε : Type y}
  {α : Type x} {S : Service σ Q A W Act} {asks allowed : Q → Prop} {Inv : σ → Prop}
  {Good : Q → W → Prop} {good bad : (q : Q) → A q → Prop} {x : Except ε α}

/-- The job goes on to return `x`, or has returned it or an error. -/
def Job.Holds (asks : Q → Prop) (Good : Q → W → Prop) (good bad : (q : Q) → A q → Prop)
    (S : Service σ Q A W Act) (x : Except ε α) : Job Q A W (Except ε α) → Prop
  | .waiting q work k =>
      S.answer q work = none ∧ Good q work ∧ (Program.ask q k).Returns asks good bad x
  | .returned r => r = x ∨ ∃ e, r = .error e
  | .dropped => True

theorem Program.Returns.holds_launch (hS : S.Sound allowed Inv Good good bad)
    (hasks : ∀ q, asks q → allowed q) {p : Program Q A (Except ε α)}
    (hp : p.Returns asks good bad x) : (p.launch S).Holds asks Good good bad S x := by
  induction p with
  | done r => exact .inl hp
  | ask q k ih =>
      rw [launch]
      split
      · next a ha => exact ih a (hp.2.1 a (hS.start_answer q a ha))
      · next hnone => exact ⟨hnone, hS.start q (hasks q hp.1) hnone, hp⟩

/-- **Step** of a job. -/
theorem Job.Holds.step (hS : S.Sound allowed Inv Good good bad) (hasks : ∀ q, asks q → allowed q)
    {job job' : Job Q A W (Except ε α)} {s s' : σ} {act : Act}
    (h : job.Holds asks Good good bad S x) (hs : Inv s)
    (hstep : job.step S s act = some (s', job')) :
    Inv s' ∧ job'.Holds asks Good good bad S x := by
  cases job with
  | waiting q work k =>
      obtain ⟨hwait, hgood, hreturns⟩ := h
      rw [Job.step, Option.map_eq_some_iff] at hstep
      obtain ⟨⟨s'', work'⟩, hwork, heq⟩ := hstep
      obtain ⟨rfl, rfl⟩ := Prod.mk.inj heq
      obtain ⟨hs', hnone, hsome⟩ := hS.step hs (hasks q hreturns.1) hgood hwait hwork
      refine ⟨hs', ?_⟩
      simp only [Job.resume]
      split
      · next a ha =>
          rcases hsome a ha with hok | hfail
          · exact (hreturns.2.1 a hok).holds_launch hS hasks
          · obtain ⟨e, he⟩ := hreturns.2.2 a hfail
            rw [he]
            exact .inr ⟨e, rfl⟩
      · next hnew => exact ⟨hnew, hnone hnew, hreturns⟩
  | returned r => simp [Job.step] at hstep
  | dropped => simp [Job.step] at hstep

end

/-! ## every run of a pool -/

section
variable {ι : Type i} {σ : Type s} {Q : Type u} {A : Q → Type v} {W : Type w} {Act : Type t}
  {ε : Type y} {α : Type x} {S : Service σ Q A W Act}
  {program : ι → Program Q A (Except ε α)} {called : ι → Prop} {asks : ι → Q → Prop}
  {allowed : Q → Prop} {Inv : σ → Prop} {Good : Q → W → Prop} {good bad : (q : Q) → A q → Prop}
  {result : ι → Except ε α}

/-- The calls a run may make. -/
def Pool.guard (called : ι → Prop) (_ : Pool ι σ Q A W α) : PoolAct ι Act → Prop
  | .call i => called i
  | _ => True

instance (called : ι → Prop) [DecidablePred called] (p : Pool ι σ Q A W α)
    (act : PoolAct ι Act) : Decidable (Pool.guard called p act) := by
  unfold Pool.guard
  split <;> infer_instance

/-- The steps of one job. -/
def Pool.own (n : Nat) (_ : Pool ι σ Q A W α) : PoolAct ι Act → Prop
  | .carryOn m _ => m = n
  | .call _ | .drop _ => False

/-- A job makes no calls. -/
theorem Pool.guard_of_own {n : Nat} (p : Pool ι σ Q A W α) (act : PoolAct ι Act)
    (h : Pool.own n p act) : Pool.guard called p act := by
  cases act with
  | carryOn m act => trivial
  | call i | drop m => exact h.elim

/-- The service keeps its invariant, and each job does what it was called for. -/
structure Pool.Holds (S : Service σ Q A W Act) (called : ι → Prop) (asks : ι → Q → Prop)
    (Inv : σ → Prop) (Good : Q → W → Prop) (good bad : (q : Q) → A q → Prop)
    (result : ι → Except ε α) (p : Pool ι σ Q A W (Except ε α)) : Prop where
  shared : Inv p.shared
  jobs : ∀ job ∈ p.jobs,
    called job.1 ∧ job.2.Holds (asks job.1) Good good bad S (result job.1)

/-- What the rules below ask of the service and of the programs. -/
structure Pool.Sound (S : Service σ Q A W Act) (program : ι → Program Q A (Except ε α))
    (called : ι → Prop) (asks : ι → Q → Prop) (allowed : Q → Prop) (Inv : σ → Prop)
    (Good : Q → W → Prop) (good bad : (q : Q) → A q → Prop) (result : ι → Except ε α) :
    Prop where
  service : S.Sound allowed Inv Good good bad
  asks_allowed : ∀ i q, asks i q → allowed q
  programs : ∀ i, called i → (program i).Returns (asks i) good bad (result i)

namespace Pool.Sound

variable (h : Pool.Sound S program called asks allowed Inv Good good bad result)
include h

/-- **Step**: whichever job comes next, the pool holds. -/
theorem step {p p' : Pool ι σ Q A W (Except ε α)}
    (hp : p.Holds S called asks Inv Good good bad result) {act : PoolAct ι Act}
    (hg : Pool.guard called p act) (hstep : p.step S program act = some p') :
    p'.Holds S called asks Inv Good good bad result := by
  cases act with
  | call i =>
      simp only [Pool.step, Option.some.injEq] at hstep
      subst hstep
      refine ⟨hp.shared, fun job hjob => ?_⟩
      rw [List.mem_append, List.mem_singleton] at hjob
      rcases hjob with hjob | rfl
      · exact hp.jobs job hjob
      · exact ⟨hg, (h.programs i hg).holds_launch h.service (h.asks_allowed i)⟩
  | carryOn n act =>
      simp only [Pool.step, Option.bind_eq_some_iff, Option.map_eq_some_iff] at hstep
      obtain ⟨job, hn, ⟨s', job'⟩, hjob, rfl⟩ := hstep
      obtain ⟨hcalled, hholds⟩ := hp.jobs job (List.mem_of_getElem? hn)
      obtain ⟨hs', hholds'⟩ := hholds.step h.service (h.asks_allowed job.1) hp.shared hjob
      refine ⟨hs', fun other hother => ?_⟩
      rcases List.mem_or_eq_of_mem_set hother with hmem | rfl
      · exact hp.jobs other hmem
      · exact ⟨hcalled, hholds'⟩
  | drop n =>
      simp only [Pool.step, Option.bind_eq_some_iff, Option.map_eq_some_iff] at hstep
      obtain ⟨⟨i, job⟩, hn, job', hdrop, rfl⟩ := hstep
      refine ⟨hp.shared, fun other hother => ?_⟩
      rcases List.mem_or_eq_of_mem_set hother with hmem | rfl
      · exact hp.jobs other hmem
      · cases job with
        | waiting q work k =>
            rw [Job.drop, Option.some.injEq] at hdrop
            subst hdrop
            exact ⟨(hp.jobs _ (List.mem_of_getElem? hn)).1, trivial⟩
        | returned r => contradiction
        | dropped => contradiction

/-- **Run**: the pool holds in every state reached. -/
theorem of_reaches {p p' : Pool ι σ Q A W (Except ε α)}
    (hp : p.Holds S called asks Inv Good good bad result)
    (hr : Reaches (Pool.step S program) (Pool.guard called) p p') :
    p'.Holds S called asks Inv Good good bad result :=
  hr.invariant (Pool.Holds S called asks Inv Good good bad result) hp
    fun _ _ _ hp hg hstep => h.step hp hg hstep

/-- The question of a waiting job can be answered, by steps of its own. -/
theorem answered {rank : W → Nat} (hlive : S.Live allowed Inv Good good rank)
    {p : Pool ι σ Q A W (Except ε α)} (hp : p.Holds S called asks Inv Good good bad result)
    {n : Nat} {i : ι} {q : Q} {work : W} {k : A q → Program Q A (Except ε α)}
    (hn : p.jobs[n]? = some (i, .waiting q work k)) :
    ∃ a p', good q a ∧ Reaches (Pool.step S program) (Pool.own n) p p' ∧
      p'.jobs[n]? = some (i, (k a).launch S) := by
  induction hr : rank work using Nat.strongRecOn generalizing p work with
  | _ r ih =>
      obtain ⟨-, hwait, hgood, hreturns⟩ := hp.jobs _ (List.mem_of_getElem? hn)
      obtain ⟨act, s', work', hwork, hanswer, hrank⟩ :=
        hlive hp.shared (h.asks_allowed i q hreturns.1) hgood hwait
      have hlt := (List.getElem?_eq_some_iff.mp hn).1
      have hreach : Reaches (Pool.step S program) (Pool.own n) p
          ⟨s', p.jobs.set n (i, Job.resume S q k work')⟩ :=
        (Reaches.refl p).tail (.carryOn n act) rfl (Pool.step_waiting program hn hwork)
      cases ha : S.answer q work' with
      | some a =>
          rw [Job.resume, ha] at hreach
          exact ⟨a, _, hanswer a ha, hreach, List.getElem?_set_self hlt⟩
      | none =>
          rw [Job.resume, ha] at hreach
          obtain ⟨a, p', hgood, hrest, hlaunch⟩ := ih (rank work') (hr ▸ hrank ha)
            (h.of_reaches hp (hreach.mono Pool.guard_of_own)) (List.getElem?_set_self hlt) rfl
          exact ⟨a, p', hgood, hreach.trans hrest, hlaunch⟩

/-- **Progress**: whatever the others have done, a waiting job can be carried on to
its end by steps of its own, and returns its result. -/
theorem finishes {rank : W → Nat} (hlive : S.Live allowed Inv Good good rank)
    {p : Pool ι σ Q A W (Except ε α)} (hp : p.Holds S called asks Inv Good good bad result)
    {n : Nat} {i : ι} {q : Q} {work : W} {k : A q → Program Q A (Except ε α)}
    (hn : p.jobs[n]? = some (i, .waiting q work k)) :
    ∃ p', Reaches (Pool.step S program) (Pool.own n) p p' ∧
      p'.jobs[n]? = some (i, .returned (result i)) := by
  have hlaunched : ∀ (prog : Program Q A (Except ε α)) (p : Pool ι σ Q A W (Except ε α)),
      p.Holds S called asks Inv Good good bad result →
      prog.Returns (asks i) good bad (result i) → p.jobs[n]? = some (i, prog.launch S) →
      ∃ p', Reaches (Pool.step S program) (Pool.own n) p p' ∧
        p'.jobs[n]? = some (i, .returned (result i)) := by
    intro prog
    induction prog with
    | done r =>
        intro p hp hprog hn
        rw [Program.Returns] at hprog
        rw [hprog] at hn
        exact ⟨p, .refl p, hn⟩
    | ask q k ih =>
        intro p hp hprog hn
        rw [Program.launch] at hn
        split at hn
        · next a ha => exact ih a p hp (hprog.2.1 a (h.service.start_answer q a ha)) hn
        · obtain ⟨a, p', hgood, hreach, hn'⟩ := h.answered hlive hp hn
          obtain ⟨p'', hrest, hend⟩ :=
            ih a p' (h.of_reaches hp (hreach.mono Pool.guard_of_own)) (hprog.2.1 a hgood) hn'
          exact ⟨p'', hreach.trans hrest, hend⟩
  obtain ⟨-, -, -, hreturns⟩ := hp.jobs _ (List.mem_of_getElem? hn)
  obtain ⟨a, p', hgood, hreach, hn'⟩ := h.answered hlive hp hn
  obtain ⟨p'', hrest, hend⟩ :=
    hlaunched (k a) p' (h.of_reaches hp (hreach.mono Pool.guard_of_own)) (hreturns.2.1 a hgood) hn'
  exact ⟨p'', hreach.trans hrest, hend⟩

end Pool.Sound

end

end HolyGrail
