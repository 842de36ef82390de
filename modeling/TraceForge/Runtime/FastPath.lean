import TraceForge.Runtime.Scheduling

/-! The fast path of `maybe_yield` over whole runs. The driver whose `maybe_yield` always yields
reaches every state and phase the real driver reaches, and each of its runs is matched by one
of the real driver, up to the one step the fast path saves. -/
namespace TraceForge.Runtime

namespace Execution

open ExecutionState

variable {σ : Type} (S : Strategy σ)

/-- The driver with the plain path of `maybe_yield`. -/
def execPlain (a : Action) (e : Execution σ) : Option (Execution σ) :=
  match e.phase, a with
  | .running tid, .maybeYield =>
    some { e with state := (e.state.maybeYieldPlain S).2
                  phase := if (e.state.maybeYieldPlain S).1 then .idle else .running tid }
  | _, _ => e.exec S a

def runPlain : List Action → Execution σ → Option (Execution σ)
  | [], e => some e
  | a :: acts, e => (e.execPlain S a).bind (runPlain acts)

variable {S} {e e' p p' : Execution σ} {a : Action}

theorem runPlain_append (acts acts' : List Action) (e : Execution σ) :
    e.runPlain S (acts ++ acts') = (e.runPlain S acts).bind (runPlain S acts') := by
  induction acts generalizing e with
  | nil => rfl
  | cons a acts ih => simp [runPlain, ih, Option.bind_assoc]

theorem maybeYieldPlain_eq (s : ExecutionState σ) : s.maybeYieldPlain S = (true, s.scheduled S) := by
  simp [maybeYieldPlain, schedule_eq]

theorem exec_view (state : p.state = e.state) (phase : p.phase = e.phase) (a : Action) :
    (p.exec S a).map (fun x => (x.state, x.phase)) = (e.exec S a).map fun x => (x.state, x.phase) := by
  obtain ⟨s, ph, r⟩ := e
  obtain ⟨s', ph', r'⟩ := p
  dsimp only at state phase
  subst state phase
  cases ph' <;> cases a <;> simp only [exec, Option.map_map, Function.comp_def, Option.map_some']
  congr 1
  funext next
  cases next.1 <;> rfl

theorem execPlain_eq (plain : ∀ tid, p.phase = .running tid → a ≠ .maybeYield) :
    p.execPlain S a = p.exec S a := by
  unfold execPlain
  split
  · rename_i tid running
    exact absurd rfl (plain tid running)
  · rfl

/-- One action of the real driver is one action of the plain driver, or, for a fast path,
the plain yield and the `step` that resumes the same task. -/
theorem plain_simulates (inv : e.Invariant) (state : p.state = e.state) (phase : p.phase = e.phase)
    (h : e.exec S a = some e') :
    ∃ acts p', p.runPlain S acts = some p' ∧ p'.state = e'.state ∧ p'.phase = e'.phase := by
  by_cases yields : ∃ tid, e.phase = .running tid ∧ a = .maybeYield
  · obtain ⟨tid, running, rfl⟩ := yields
    obtain ⟨current, bound, -, -⟩ := inv.running running
    simp only [exec, running, maybeYield_eq, Option.some.injEq] at h
    subst h
    split
    · rename_i same
      refine ⟨[.maybeYield, .step], { p with state := (e.state.scheduled S).advanceToNextTask
                                             phase := .running tid
                                             resumed := p.resumed ++ [tid] }, ?_, rfl, rfl⟩
      simp [runPlain, execPlain, phase, running, state, maybeYieldPlain_eq, exec, stepChoose_eq,
        scheduled_of_pending scheduled_nextTask_ne_none, ← same, current, tryGet, bound, proceed]
    · refine ⟨[.maybeYield], { p with state := e.state.scheduled S, phase := .idle }, ?_, rfl, rfl⟩
      simp [runPlain, execPlain, phase, running, state, maybeYieldPlain_eq]
  · have view := exec_view (S := S) state phase a
    rw [h, Option.map_some'] at view
    obtain ⟨p', stepped, same⟩ := Option.map_eq_some'.mp view
    refine ⟨[a], p', ?_, (Prod.mk.inj same).1, (Prod.mk.inj same).2⟩
    rw [runPlain, execPlain_eq fun tid running same => yields ⟨tid, phase ▸ running, same⟩, stepped]
    rfl

theorem plain_simulates_run {acts : List Action} (inv : e.Invariant) (state : p.state = e.state)
    (phase : p.phase = e.phase) (h : e.run S acts = some e') :
    ∃ acts' p', p.runPlain S acts' = some p' ∧ p'.state = e'.state ∧ p'.phase = e'.phase := by
  induction acts generalizing e p with
  | nil => cases h; exact ⟨[], p, rfl, state, phase⟩
  | cons a acts ih =>
    obtain ⟨v, stepped, rest⟩ := Option.bind_eq_some.mp h
    obtain ⟨first, q, ran, state', phase'⟩ := plain_simulates inv state phase stepped
    obtain ⟨second, p', ran', same⟩ := ih (inv.exec stepped) state' phase' rest
    exact ⟨first ++ second, p', by rw [runPlain_append, ran]; exact ran', same⟩

/-- The fast path of `maybe_yield` refines the plain path over whole runs: for every
Strategy, every run of `Execution::run` is matched by a run of the driver whose
`maybe_yield` always yields, from the same start, reaching the same `ExecutionState` and
the same phase of the loop. -/
theorem fast_path_refines_plain {must : σ} {thread : String} {acts : List Action}
    (h : (start must thread).run S acts = some e) :
    ∃ acts' p, (start must thread).runPlain S acts' = some p ∧ p.state = e.state ∧
      p.phase = e.phase :=
  plain_simulates_run (invariant_start must thread) rfl rfl h

theorem fast_path_refines_plain_in_main : ∃ e,
    (start () "0").run lowestFirst [.step, .maybeYield] = some e ∧ e.phase = .running ⟨0⟩ ∧
    ∃ acts' p, (start () "0").runPlain lowestFirst acts' = some p ∧ p.state = e.state ∧
      p.phase = e.phase := by
  obtain ⟨e, run⟩ : ∃ e, (start () "0").run lowestFirst [.step, .maybeYield] = some e :=
    ⟨_, rfl⟩
  have running : ((start () "0").run lowestFirst [.step, .maybeYield]).map phase =
      some (.running ⟨0⟩) := rfl
  rw [run, Option.map_some'] at running
  exact ⟨e, run, Option.some.inj running, fast_path_refines_plain run⟩

/-- A state of the plain driver and one of the real driver that agree: the same state and
phase, or the plain driver yielded with the running task chosen again, and the real driver
already resumed it. -/
def Matched (p e : Execution σ) : Prop :=
  (p.state = e.state ∧ p.phase = e.phase) ∨
    (p.phase = .idle ∧ ∃ tid, e.phase = .running tid ∧ p.state.nextTask = .some tid ∧
      e.state = p.state.advanceToNextTask)

theorem matched_step (inv : e.Invariant) (matched : Matched p e) (h : p.execPlain S a = some p') :
    ∃ acts e', e.run S acts = some e' ∧ e'.Invariant ∧ Matched p' e' := by
  rcases matched with ⟨state, phase⟩ | ⟨idle, tid, running, pending, advanced⟩
  · by_cases yields : ∃ tid, e.phase = .running tid ∧ a = .maybeYield
    · obtain ⟨tid, running, rfl⟩ := yields
      have current := (inv.running running).1
      simp only [execPlain, phase, running, maybeYieldPlain_eq, Option.some.injEq, if_true] at h
      subst h
      by_cases same : e.state.currentTask = (e.state.scheduled S).nextTask
      · have stepped : e.exec S .maybeYield =
            some { e with state := (e.state.scheduled S).advanceToNextTask } := by
          simp [exec, running, maybeYield_eq, same]
        exact ⟨[.maybeYield], _, by simp [run, stepped], inv.exec stepped,
          .inr ⟨rfl, tid, running, by simp [state, ← same, current], by simp [state]⟩⟩
      · have stepped : e.exec S .maybeYield =
            some { e with state := e.state.scheduled S, phase := .idle } := by
          simp [exec, running, maybeYield_eq, same]
        exact ⟨[.maybeYield], _, by simp [run, stepped], inv.exec stepped, .inl ⟨by simp [state], rfl⟩⟩
    · rw [execPlain_eq fun tid running same => yields ⟨tid, phase ▸ running, same⟩] at h
      have view := exec_view (S := S) state phase a
      rw [h, Option.map_some'] at view
      obtain ⟨e', stepped, same⟩ := Option.map_eq_some'.mp view.symm
      exact ⟨[a], e', by simp [run, stepped], inv.exec stepped,
        .inl ⟨(Prod.mk.inj same).1.symm, (Prod.mk.inj same).2.symm⟩⟩
  · cases a
    case step =>
      simp [execPlain, idle, exec, stepChoose_eq, scheduled_of_pending (s := p.state) (by simp [pending]),
        pending, tryGet, proceed] at h
      obtain ⟨-, rfl⟩ := h
      exact ⟨[], e, rfl, inv, .inl ⟨advanced.symm, running.symm⟩⟩
    all_goals simp [execPlain, idle, exec] at h

theorem matched_run {acts : List Action} (inv : e.Invariant) (matched : Matched p e)
    (h : p.runPlain S acts = some p') : ∃ acts' e', e.run S acts' = some e' ∧ Matched p' e' := by
  induction acts generalizing e p with
  | nil => cases h; exact ⟨[], e, rfl, matched⟩
  | cons a acts ih =>
    obtain ⟨q, stepped, rest⟩ := Option.bind_eq_some.mp h
    obtain ⟨first, v, ran, inv', matched'⟩ := matched_step inv matched stepped
    obtain ⟨second, e', ran', same⟩ := ih inv' matched' rest
    exact ⟨first ++ second, e', by rw [run_append, ran]; exact ran', same⟩

/-- The fast path removes no behaviour either: every run of the driver whose `maybe_yield`
always yields is matched by a run of `Execution::run` from the same start that reaches the
same state and phase, or is one step ahead, having already resumed the task the plain driver
chose again and is about to resume. -/
theorem plain_path_matched_by_fast {must : σ} {thread : String} {acts : List Action}
    (h : (start must thread).runPlain S acts = some p) :
    ∃ acts' e, (start must thread).run S acts' = some e ∧ Matched p e :=
  matched_run (invariant_start must thread) (.inl ⟨rfl, rfl⟩) h

theorem plain_path_matched_in_main : ∃ p,
    (start () "0").runPlain lowestFirst [.step, .maybeYield] = some p ∧ p.phase = .idle ∧
    ∃ acts' e, (start () "0").run lowestFirst acts' = some e ∧ Matched p e := by
  obtain ⟨p, run⟩ : ∃ p, (start () "0").runPlain lowestFirst [.step, .maybeYield] = some p :=
    ⟨_, rfl⟩
  have idle : ((start () "0").runPlain lowestFirst [.step, .maybeYield]).map phase =
      some .idle := rfl
  rw [run, Option.map_some'] at idle
  exact ⟨p, run, Option.some.inj idle, plain_path_matched_by_fast run⟩

end Execution

end TraceForge.Runtime
