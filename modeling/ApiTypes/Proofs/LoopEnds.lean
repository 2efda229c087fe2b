import ApiTypes.Proofs.LoopTurns

/-!
# How a gathering on a loop ends

* `Loop.Comes` : what a loop comes to;
* `Loop.step_cases` : what a step of a task can do;
* `Loop.Failing`, `Loop.Winding` : what holds from the first failure until all tasks have ended;
  `Failing.tick` and `Winding.tick` are the steps, `Failing.comes` the run;
* `Loop.Going`, `Loop.Decided` : what holds before, and when all values are gathered or the first
  failure is known; `Going.next` is the step, `Loop.gathering_ends` the run;
* `gathered_in_turn` : how values are gathered on a loop, whatever the jobs.
-/

namespace ApiTypes.Schedule

variable {ε α : Type} {jobs : List (Job ε α)}

def Handle.isSettle : Handle → Bool
  | settle _ => true
  | step _ | report _ | wake => false

/-- Nobody counts the tasks that have ended. -/
def Stage.IsQuiet : Stage ε α → Prop
  | .gathering _ | .winding .. => False
  | .gathered _ | .failed _ | .wound _ | .done _ => True

namespace Loop

variable {l l' l'' : Loop ε α} {h : Handle} {rest : List Handle} {e : ε} {i p : Nat}

/-! ## What a loop comes to -/

def Comes (l l' : Loop ε α) : Prop := ∃ turns, tick^[turns] l = l'

theorem Comes.refl (l : Loop ε α) : Comes l l := ⟨0, rfl⟩

theorem Comes.tick (l : Loop ε α) : Comes l (tick l) := ⟨1, rfl⟩

theorem Comes.trans (h : Comes l l') (h' : Comes l' l'') : Comes l l'' := by
  obtain ⟨m, rfl⟩ := h
  obtain ⟨n, rfl⟩ := h'
  exact ⟨n + m, Function.iterate_add_apply ..⟩

theorem tick_eq (hl : l.ready = h :: rest) : tick l = run { l with ready := rest } h := by
  rw [tick, hl]

/-- A step of a task that has ended does nothing. Another task has its turn and is scheduled again,
or it runs no more. -/
theorem step_cases (l : Loop ε α) (i : Nat) :
    ((∀ t, l.tasks[i]? = some t → t.isRunning = false) ∧ l.step i = l) ∨
    (∃ left outcome, l.tasks[i]? = some (.running (left + 1) outcome false) ∧ l.step i =
      { l with
        tasks := l.tasks.set i (.running left outcome false)
        ready := l.ready ++ [.step i] }) ∨
    ∃ t task finished, l.tasks[i]? = some t ∧ t.isRunning = true ∧ task.isRunning = false ∧
      l.step i =
        { l with tasks := l.tasks.set i task, ready := l.ready ++ l.news i, finished } := by
  cases htask : l.tasks[i]? with
  | none => exact .inl ⟨by simp, by rw [step, htask]⟩
  | some t =>
    cases t with
    | ended outcome => exact .inl ⟨by simp [Task.isRunning], by rw [step, htask]⟩
    | stopped => exact .inl ⟨by simp [Task.isRunning], by rw [step, htask]⟩
    | running left outcome isStopping =>
      cases isStopping with
      | true => exact .inr (.inr ⟨_, .stopped, l.finished, rfl, rfl, rfl, by rw [step, htask]⟩)
      | false =>
        cases left with
        | zero => exact .inr (.inr ⟨_, .ended outcome, _, rfl, rfl, rfl, by rw [step, htask]⟩)
        | succ left => exact .inr (.inl ⟨left, outcome, rfl, by rw [step, htask]⟩)

/-! ## Every running task is scheduled -/

/-- Each task that runs has a step that is scheduled. -/
def Covered (l : Loop ε α) : Prop :=
  ∀ p t, l.tasks[p]? = some t → t.isRunning = true → .step p ∈ l.ready

theorem Covered.mono (hc : Covered l) (htasks : l'.tasks = l.tasks)
    (hready : ∀ p, .step p ∈ l.ready → .step p ∈ l'.ready) : Covered l' := by
  intro p t ht hrun
  rw [htasks] at ht
  exact hready p (hc p t ht hrun)

theorem Covered.step (hc : Covered l) (hl : l.ready = .step i :: rest) :
    Covered (({ l with ready := rest } : Loop ε α).step i) := by
  have hothers : ∀ p t, p ≠ i → l.tasks[p]? = some t → t.isRunning = true → .step p ∈ rest := by
    intro p t hne ht hrun
    have hmem := hc p t ht hrun
    rw [hl] at hmem
    rcases List.mem_cons.1 hmem with heq | hmem
    · exact absurd (Handle.step.inj heq) hne
    · exact hmem
  rcases step_cases ({ l with ready := rest } : Loop ε α) i with ⟨hended, hstep⟩ |
    ⟨left, outcome, -, hstep⟩ | ⟨t, task, finished, ht, -, htask, hstep⟩
  all_goals
    rw [hstep]
    intro p t' ht' hrun
    dsimp only at ht' ⊢
  · refine hothers p t' ?_ ht' hrun
    rintro rfl
    simp [hended t' ht'] at hrun
  · by_cases hp : p = i
    · subst hp
      exact List.mem_append_right _ (List.mem_singleton_self _)
    · rw [List.getElem?_set_ne (Ne.symm hp)] at ht'
      exact List.mem_append_left _ (hothers p t' hp ht' hrun)
  · by_cases hp : p = i
    · subst hp
      obtain ⟨hlt, -⟩ := List.getElem?_eq_some_iff.1 ht
      rw [List.getElem?_set_self hlt] at ht'
      cases ht'
      simp [htask] at hrun
    · rw [List.getElem?_set_ne (Ne.symm hp)] at ht'
      exact List.mem_append_left _ (hothers p t' hp ht' hrun)

/-! ## Until whoever waits goes on -/

theorem report_of_quiet (hquiet : l.stage.IsQuiet) : l.report i = l := by
  rw [report]
  cases hstage : l.stage with
  | gathering known =>
    rw [hstage] at hquiet
    exact hquiet.elim
  | _ => rfl

theorem settle_of_quiet (hquiet : l.stage.IsQuiet) : l.settle = l := by
  rw [settle]
  cases hstage : l.stage with
  | winding e known =>
    rw [hstage] at hquiet
    exact hquiet.elim
  | _ => rfl

theorem stage_step (l : Loop ε α) (i : Nat) : (l.step i).stage = l.stage := by
  rcases step_cases l i with ⟨-, hstep⟩ | ⟨left, outcome, -, hstep⟩ |
    ⟨t, task, finished, -, -, -, hstep⟩
  all_goals rw [hstep]

theorem length_tasks_step (l : Loop ε α) (i : Nat) : (l.step i).tasks.length = l.tasks.length := by
  rcases step_cases l i with ⟨-, hstep⟩ | ⟨left, outcome, -, hstep⟩ |
    ⟨t, task, finished, -, -, -, hstep⟩
  all_goals rw [hstep]
  · exact List.length_set ..
  · exact List.length_set ..

theorem exists_ready_step (l : Loop ε α) (i : Nat) : ∃ new, (l.step i).ready = l.ready ++ new := by
  rcases step_cases l i with ⟨-, hstep⟩ | ⟨left, outcome, -, hstep⟩ |
    ⟨t, task, finished, -, -, -, hstep⟩
  all_goals rw [hstep]
  · exact ⟨[], (List.append_nil _).symm⟩
  · exact ⟨_, rfl⟩
  · exact ⟨_, rfl⟩

/-- While nobody counts, the stage stays until whoever waits goes on, and what is scheduled stays in
its order. -/
theorem run_of_quiet (hquiet : l.stage.IsQuiet) (hh : h ≠ .wake) :
    (l.run h).stage = l.stage ∧ ∃ new, (l.run h).ready = l.ready ++ new := by
  have hnothing : ∃ new, l.ready = l.ready ++ new := ⟨[], (List.append_nil _).symm⟩
  cases h with
  | step i => exact ⟨stage_step l i, exists_ready_step l i⟩
  | report i =>
    rw [run, report_of_quiet hquiet]
    exact ⟨rfl, hnothing⟩
  | settle i =>
    rw [run, settle_of_quiet hquiet]
    exact ⟨rfl, hnothing⟩
  | wake => exact absurd rfl hh

/-- Whoever waits goes on in the end, when what holds is kept until then. -/
theorem comes_wake {P : Loop ε α → Prop} (hquiet : ∀ l, P l → l.stage.IsQuiet)
    (htick : ∀ l h rest, P l → l.ready = h :: rest → h ≠ .wake → P (tick l))
    (before after : List Handle) (l : Loop ε α) (hP : P l)
    (hl : l.ready = before ++ .wake :: after) :
    ∃ l' rest, Comes l l' ∧ P l' ∧ l'.ready = .wake :: rest := by
  induction before generalizing l after with
  | nil => exact ⟨l, after, .refl l, hP, hl⟩
  | cons h before ih =>
    rw [List.cons_append] at hl
    by_cases hh : h = .wake
    · subst hh
      exact ⟨l, _, .refl l, hP, hl⟩
    · obtain ⟨-, new, hnew⟩ := run_of_quiet (l := { l with ready := before ++ .wake :: after })
        (hquiet l hP) hh
      have hready : (Loop.tick l).ready = before ++ .wake :: (after ++ new) := by
        rw [tick_eq hl, hnew, List.append_assoc, List.cons_append]
      obtain ⟨l', rest, hcomes, hP', hrest⟩ := ih _ _ (htick l h _ hP hl hh) hready
      exact ⟨l', rest, (Comes.tick l).trans hcomes, hP', hrest⟩

/-! ## After the first failure -/

/-- The first failure is known, and whoever waits has not gone on yet. -/
structure Failing (e : ε) (l : Loop ε α) : Prop where
  stage : l.stage = .failed e
  covered : Covered l
  unsettled : ∀ h ∈ l.ready, h.isSettle = false
  exists_task : 0 < l.tasks.length

/-- The tasks that run are to stop, and whoever waits counts the others. -/
structure Winding (e : ε) (l : Loop ε α) : Prop where
  covered : Covered l
  stopping : ∀ left outcome, .running left outcome false ∉ l.tasks
  counted : ∃ known, l.stage = .winding e known ∧ known < l.tasks.length ∧
    known + l.ready.countP Handle.isSettle + l.tasks.countP Task.isRunning = l.tasks.length

theorem Failing.isQuiet (hf : Failing e l) : l.stage.IsQuiet := by
  rw [hf.stage]
  trivial

theorem Failing.tick (hf : Failing e l) (hl : l.ready = h :: rest) (hh : h ≠ .wake) :
    Failing e (tick l) := by
  have hrest : ∀ h' ∈ rest, h'.isSettle = false := by
    intro h' hmem
    exact hf.unsettled h' (hl ▸ List.mem_cons_of_mem _ hmem)
  rw [tick_eq hl]
  cases h with
  | wake => exact absurd rfl hh
  | settle i =>
    have := hf.unsettled (.settle i) (hl ▸ List.mem_cons_self ..)
    cases this
  | report i =>
    have hreport : ({ l with ready := rest } : Loop ε α).report i = { l with ready := rest } :=
      report_of_quiet hf.isQuiet
    rw [run, hreport]
    refine ⟨hf.stage, hf.covered.mono rfl ?_, hrest, hf.exists_task⟩
    intro p hp
    rw [hl] at hp
    exact (List.mem_cons.1 hp).resolve_left nofun
  | step i =>
    refine ⟨(stage_step _ i).trans hf.stage, hf.covered.step hl, ?_, ?_⟩
    · rw [run]
      rcases step_cases ({ l with ready := rest } : Loop ε α) i with ⟨-, hstep⟩ |
        ⟨left, outcome, -, hstep⟩ | ⟨t, task, finished, -, -, -, hstep⟩
      all_goals rw [hstep]
      · exact hrest
      · exact List.forall_mem_append.2 ⟨hrest, by simp [Handle.isSettle]⟩
      · exact List.forall_mem_append.2 ⟨hrest, by simp [news, hf.stage, Handle.isSettle]⟩
    · rw [run, length_tasks_step]
      exact hf.exists_task

theorem isRunning_stop (t : Task ε α) : t.stop.isRunning = t.isRunning := by
  cases t <;> rfl

theorem length_endedTasks (l : Loop ε α) :
    l.endedTasks.length + l.tasks.countP Task.isRunning = l.tasks.length := by
  have hcount : l.tasks.countP Task.isRunning = l.tasks.zipIdx.countP (·.1.isRunning) := by
    have h := List.countP_map (p := Task.isRunning) (f := Prod.fst) (l := l.tasks.zipIdx)
    rwa [List.zipIdx_map_fst] at h
  rw [endedTasks, List.length_map, ← List.countP_eq_length_filter, hcount, Nat.add_comm]
  have h := List.length_eq_countP_add_countP (l := l.tasks.zipIdx) fun t => t.1.isRunning
  rw [List.length_zipIdx] at h
  rw [h]
  congr 1
  refine List.countP_congr fun t _ => ?_
  simp

/-- Whoever waits stops the tasks, and asks for the news of those that have ended. -/
theorem Failing.wake (hf : Failing e l) (hl : l.ready = .wake :: rest) :
    Winding e (Loop.tick l) := by
  have htick : Loop.tick l =
      { l with
        tasks := l.tasks.map Task.stop
        ready := rest ++ l.endedTasks.map .settle
        stage := .winding e 0 } := by
    rw [tick_eq hl, run, Loop.wake]
    dsimp only
    rw [hf.stage]
    rfl
  rw [htick]
  constructor
  case covered =>
    intro p t' ht' hrun
    rw [List.getElem?_map] at ht'
    obtain ⟨t, ht, rfl⟩ := Option.map_eq_some_iff.1 ht'
    rw [isRunning_stop] at hrun
    have hmem := hf.covered p t ht hrun
    rw [hl] at hmem
    exact List.mem_append_left _ ((List.mem_cons.1 hmem).resolve_left nofun)
  case stopping =>
    intro left outcome hmem
    obtain ⟨t, -, ht⟩ := List.mem_map.1 hmem
    cases t <;> cases ht
  case counted =>
    refine ⟨0, rfl, ?_, ?_⟩
    · rw [List.length_map]
      exact hf.exists_task
    · have hrest : rest.countP Handle.isSettle = 0 := by
        refine List.countP_eq_zero.2 fun h hmem => ?_
        simp [hf.unsettled h (hl ▸ List.mem_cons_of_mem _ hmem)]
      have hsettle : (l.endedTasks.map Handle.settle).countP Handle.isSettle =
          l.endedTasks.length := by
        rw [List.countP_map]
        exact List.countP_eq_length.2 fun _ _ => rfl
      have hrunning : (l.tasks.map Task.stop).countP Task.isRunning =
          l.tasks.countP Task.isRunning := by
        rw [List.countP_map]
        exact List.countP_congr fun t _ => by rw [Function.comp_apply, isRunning_stop]
      rw [List.countP_append, hrest, hsettle, hrunning, List.length_map]
      have := length_endedTasks l
      omega

/-! ## Until all tasks have ended -/

/-- A bound of what can still run while tasks are stopped. -/
def work (l : Loop ε α) : Nat := 3 * l.tasks.countP Task.isRunning + l.ready.length

/-- What changes nothing can be left out. -/
theorem Winding.skip (hw : Winding e l) (hl : l.ready = h :: rest) (hsettle : h.isSettle = false)
    (hstep : ∀ p t, h = .step p → l.tasks[p]? = some t → t.isRunning = false) :
    Winding e { l with ready := rest } ∧ work { l with ready := rest } < work l := by
  refine ⟨⟨?_, hw.stopping, ?_⟩, ?_⟩
  · intro p t ht hrun
    have hmem := hw.covered p t ht hrun
    rw [hl] at hmem
    refine (List.mem_cons.1 hmem).resolve_left ?_
    rintro rfl
    simp [hstep p t rfl ht] at hrun
  · obtain ⟨known, hstage, hknown, hcount⟩ := hw.counted
    refine ⟨known, hstage, hknown, ?_⟩
    rw [hl, List.countP_cons, hsettle] at hcount
    exact hcount
  · rw [work, work, hl, List.length_cons]
    exact Nat.lt_succ_self _

/-- A task that is to stop does so. -/
theorem Winding.stop (hw : Winding e l) (hl : l.ready = .step i :: rest) {t task : Task ε α}
    {finished : List Nat} (ht : l.tasks[i]? = some t) (hrun : t.isRunning = true)
    (htask : task.isRunning = false)
    (htick : Loop.tick l =
      { l with tasks := l.tasks.set i task, ready := rest ++ l.news i, finished }) :
    Winding e (Loop.tick l) ∧ work (Loop.tick l) < work l := by
  obtain ⟨known, hstage, hknown, hcount⟩ := hw.counted
  have hcovered : Covered (Loop.tick l) := by
    rw [tick_eq hl]
    exact hw.covered.step hl
  obtain ⟨hlt, hget⟩ := List.getElem?_eq_some_iff.1 ht
  have hnews : l.news i = [.report i, .settle i] := by rw [news, hstage]
  have hpos : 0 < l.tasks.countP Task.isRunning :=
    List.countP_pos_iff.2 ⟨t, hget ▸ List.getElem_mem hlt, hrun⟩
  have hrunning : (l.tasks.set i task).countP Task.isRunning + 1 =
      l.tasks.countP Task.isRunning := by
    rw [List.countP_set hlt, hget, hrun, htask]
    simp only [if_true, Bool.false_eq_true, if_false]
    omega
  have hsettle : (rest ++ l.news i).countP Handle.isSettle =
      l.ready.countP Handle.isSettle + 1 := by
    rw [hnews, hl, List.countP_append, List.countP_cons]
    rfl
  rw [htick] at hcovered ⊢
  refine ⟨⟨hcovered, ?_, known, hstage, ?_, ?_⟩, ?_⟩
  · intro left outcome hmem
    rcases List.mem_or_eq_of_mem_set hmem with hmem | rfl
    · exact hw.stopping left outcome hmem
    · cases htask
  · rwa [List.length_set]
  · dsimp only
    rw [List.length_set, hsettle]
    omega
  · rw [work, work, hl, hnews, List.length_append, List.length_cons]
    dsimp only [List.length_cons, List.length_nil]
    omega

/-- One more task is known to have ended: the others are waited for, or it was the last. -/
theorem Winding.settle (hw : Winding e l) (hl : l.ready = .settle i :: rest) :
    (Winding e (tick l) ∧ work (tick l) < work l) ∨
      (tick l).stage = .wound e ∧ .wake ∈ (tick l).ready := by
  obtain ⟨known, hstage, hknown, hcount⟩ := hw.counted
  have hready : l.ready.countP Handle.isSettle = rest.countP Handle.isSettle + 1 := by
    rw [hl, List.countP_cons]
    rfl
  have hcovered : ∀ p, .step p ∈ l.ready → .step p ∈ rest := by
    intro p hp
    rw [hl] at hp
    exact (List.mem_cons.1 hp).resolve_left fun heq => Handle.noConfusion heq
  rw [tick_eq hl, run, Loop.settle]
  dsimp only
  rw [hstage]
  dsimp only
  by_cases hlast : known + 1 = l.tasks.length
  · rw [if_pos hlast]
    exact .inr ⟨rfl, List.mem_append_right _ (List.mem_singleton_self _)⟩
  · rw [if_neg hlast]
    refine .inl ⟨⟨hw.covered.mono rfl hcovered, hw.stopping, known + 1, rfl, ?_, ?_⟩, ?_⟩
    · dsimp only
      omega
    · dsimp only
      omega
    · rw [work, work, hl, List.length_cons]
      exact Nat.lt_succ_self _

/-- One more step on the way: there is less to do, or whoever waits is to go on. -/
theorem Winding.tick (hw : Winding e l) (hl : l.ready = h :: rest) :
    (Winding e (tick l) ∧ work (tick l) < work l) ∨
      (tick l).stage = .wound e ∧ .wake ∈ (tick l).ready := by
  obtain ⟨known, hstage, -, -⟩ := hw.counted
  cases h with
  | report i =>
    have htick : Loop.tick l = { l with ready := rest } := by
      rw [tick_eq hl, run, report]
      dsimp only
      rw [hstage]
    rw [htick]
    exact .inl (hw.skip hl rfl fun p t heq => Handle.noConfusion heq)
  | wake =>
    have htick : Loop.tick l = { l with ready := rest } := by
      rw [tick_eq hl, run, Loop.wake]
      dsimp only
      rw [hstage]
    rw [htick]
    exact .inl (hw.skip hl rfl fun p t heq => Handle.noConfusion heq)
  | step i =>
    rcases step_cases ({ l with ready := rest } : Loop ε α) i with ⟨hended, hstep⟩ |
      ⟨left, outcome, ht, -⟩ | ⟨t, task, finished, ht, hrun, htask, hstep⟩
    · rw [tick_eq hl, run, hstep]
      refine .inl (hw.skip hl rfl ?_)
      rintro p t ⟨⟩ ht
      exact hended t ht
    · exact absurd (List.mem_of_getElem? ht) (hw.stopping _ _)
    · have htick : Loop.tick l = { l with
          tasks := l.tasks.set i task
          ready := rest ++ l.news i
          finished } := by
        rw [tick_eq hl, run, hstep]
        rfl
      exact .inl (hw.stop hl ht hrun htask htick)
  | settle i => exact hw.settle hl

/-- As long as whoever waits counts, something is scheduled. -/
theorem Winding.exists_ready (hw : Winding e l) : ∃ h rest, l.ready = h :: rest := by
  refine List.exists_cons_of_ne_nil fun hnil => ?_
  obtain ⟨known, -, hknown, hcount⟩ := hw.counted
  have hnone : l.tasks.countP Task.isRunning = 0 := by
    refine List.countP_eq_zero.2 fun t ht hrun => ?_
    obtain ⟨p, hp⟩ := List.getElem?_of_mem ht
    have hmem := hw.covered p t hp hrun
    rw [hnil] at hmem
    cases hmem
  rw [hnil, hnone, List.countP_nil] at hcount
  omega

theorem Winding.comes (hw : Winding e l) :
    ∃ l', Comes l l' ∧ l'.stage = .wound e ∧ .wake ∈ l'.ready := by
  induction hn : work l using Nat.strong_induction_on generalizing l with
  | _ n ih =>
    subst hn
    obtain ⟨h, rest, hl⟩ := hw.exists_ready
    rcases hw.tick hl with ⟨hw', hlt⟩ | ⟨hstage, hwake⟩
    · obtain ⟨l', hcomes, hl'⟩ := ih _ hlt hw' rfl
      exact ⟨l', (Comes.tick l).trans hcomes, hl'⟩
    · exact ⟨Loop.tick l, .tick l, hstage, hwake⟩

/-- After the first failure, the gathering fails with it. -/
theorem Failing.comes (hf : Failing e l) (hwake : .wake ∈ l.ready) :
    ∃ l', Comes l l' ∧ l'.stage = .done (.error e) := by
  obtain ⟨before, after, hl⟩ := List.append_of_mem hwake
  obtain ⟨l₁, rest₁, hcomes₁, hf₁, hl₁⟩ := comes_wake (fun l => Failing.isQuiet (l := l))
    (fun l h rest hf hl hh => hf.tick hl hh) before after l hf hl
  obtain ⟨l₂, hcomes₂, hstage₂, hwake₂⟩ := (hf₁.wake hl₁).comes
  obtain ⟨before, after, hl₂⟩ := List.append_of_mem hwake₂
  have hquiet : ∀ l : Loop ε α, l.stage = .wound e → l.stage.IsQuiet := by
    intro l hl
    rw [hl]
    trivial
  have hkept : ∀ (l : Loop ε α) h rest, l.stage = .wound e → l.ready = h :: rest → h ≠ .wake →
      (Loop.tick l).stage = .wound e := by
    intro l h rest hstage hl hh
    rw [tick_eq hl]
    exact (run_of_quiet (l := { l with ready := rest }) (hquiet l hstage) hh).1.trans hstage
  obtain ⟨l₃, rest₃, hcomes₃, hstage₃, hl₃⟩ :=
    comes_wake hquiet hkept before after l₂ hstage₂ hl₂
  have hfirst := hcomes₁.trans (.tick l₁)
  have hlast := hcomes₃.trans (.tick l₃)
  refine ⟨Loop.tick l₃, hfirst.trans (hcomes₂.trans hlast), ?_⟩
  rw [tick_eq hl₃, run, Loop.wake]
  dsimp only
  rw [hstage₃]

/-! ## Until the first failure -/

/-- All values are gathered, or the first failure is known, and whoever waits is to go on. -/
inductive Decided (jobs : List (Job ε α)) (l : Loop ε α) : Prop where
  | all {values : List α} (hstage : l.stage = .gathered values)
      (hend : Gathered jobs (.ok (values, l.finished))) (hready : l.ready = [.wake])
  | failed {e : ε} (hfirst : FailsFirst jobs e) (hfailing : Failing e l) (hwake : .wake ∈ l.ready)

/-- No failure is known at a moment, and not yet that all jobs have ended. -/
structure Going (jobs : List (Job ε α)) (m : Nat) : Prop where
  comes : Comes (start jobs) (after jobs m)
  less : (passed jobs 1 m).length < jobs.length
  ok : ∀ p ∈ passed jobs 1 m, ∀ job, jobs[p]? = some job → ∃ a, job.outcome = .ok a

/-- A job that has not ended has another turn before its moment comes again. -/
theorem step_mem_later {job : Job ε α} {m : Nat} (hjob : jobs[p]? = some job)
    (hturns : turnsBy jobs.length m p ≤ job.delay) (hne : p ≠ m % jobs.length) :
    .step p ∈ later jobs m := by
  obtain ⟨hp, -⟩ := List.getElem?_eq_some_iff.1 hjob
  -- the next moment of the job, which is not over, and is less than a round away
  obtain ⟨k, hk⟩ : ∃ k, k = turnsBy jobs.length m p * jobs.length + p := ⟨_, rfl⟩
  have hle : m ≤ k := by
    have := (lt_turnsBy (m := m) hp).not.1 (Nat.lt_irrefl (turnsBy jobs.length m p))
    omega
  have hmk : m ≠ k := by
    intro h
    exact hne (by rw [h, hk, moment_mod hp])
  have hlt : k < m + jobs.length := by
    cases hcount : turnsBy jobs.length m p with
    | zero =>
      rw [hcount, Nat.zero_mul, Nat.zero_add] at hk
      omega
    | succ turns =>
      have hless := Nat.lt_of_lt_of_eq (Nat.lt_succ_self turns) hcount.symm
      have hbefore := (lt_turnsBy hp).1 hless
      rw [hcount, Nat.succ_mul] at hk
      omega
  refine List.mem_filterMap.2 ⟨k, List.mem_range'_1.2 (by omega), ?_⟩
  rw [hk, handleAt, moment_mod hp, moment_div hp, hjob, Option.bind_some, Job.handle?,
    if_pos hturns]

section

variable {job : Job ε α} {m : Nat} (hjob : jobs[m % jobs.length]? = some job)
  (hmoment : m / jobs.length = job.delay + 1)
  (hgoing : Going jobs m)

include hjob hmoment hgoing

/-- The news that the first job has failed. -/
theorem decided_failed (he : job.outcome = .error e) : Decided jobs (Loop.tick (after jobs m)) := by
  obtain ⟨hlt, -⟩ := List.getElem?_eq_some_iff.1 hjob
  have hm : m = (job.delay + 1) * jobs.length + m % jobs.length := hmoment ▸ eq_moment m jobs.length
  have hcovered : ∀ p t, (after jobs m).tasks[p]? = some t → t.isRunning = true →
      .step p ∈ later jobs m := by
    intro p t ht hrun
    change (List.mapIdx _ jobs)[p]? = some t at ht
    rw [List.getElem?_mapIdx] at ht
    obtain ⟨other, hother, rfl⟩ := Option.map_eq_some_iff.1 ht
    have hturns : turnsBy jobs.length m p ≤ other.delay := by
      by_contra hended
      rw [Job.task, if_neg hended] at hrun
      cases hrun
    refine step_mem_later hother hturns ?_
    rintro rfl
    obtain rfl : job = other := Option.some.inj (hjob.symm.trans hother)
    rw [turnsBy_mod] at hturns
    omega
  have hunsettled : ∀ h ∈ later jobs m ++ [.wake], h.isSettle = false := by
    refine List.forall_mem_append.2 ⟨fun h hmem => ?_, by simp [Handle.isSettle]⟩
    obtain ⟨k, -, hk⟩ := List.mem_filterMap.1 hmem
    obtain ⟨other, -, hhandle⟩ := Option.bind_eq_some_iff.1 hk
    unfold Job.handle? at hhandle
    split_ifs at hhandle <;> cases hhandle <;> rfl
  have hfirst : FailsFirst jobs e := by
    refine ⟨_, job, hjob, he, fun q other e' hother he' hne => ⟨job, other, hjob, hother, ?_⟩⟩
    obtain ⟨hq, -⟩ := List.getElem?_eq_some_iff.1 hother
    have hlate : ¬ (other.delay + 1) * jobs.length + q < m := by
      intro hbefore
      obtain ⟨a, ha⟩ := hgoing.ok q (mem_passed.2 ⟨other, hother, hbefore⟩) other hother
      simp [he'] at ha
    have := (moment_lt (t := other.delay + 1) (u := job.delay + 1) hq hlt).not.1 (hm ▸ hlate)
    omega
  rw [tick_failed hjob hmoment he]
  refine .failed hfirst ⟨rfl, ?_, hunsettled, ?_⟩ (List.mem_append_right _ List.mem_cons_self)
  · intro p t ht hrun
    exact List.mem_append_left _ (hcovered p t ht hrun)
  · rw [after, List.length_mapIdx]
    exact Nat.zero_lt_of_lt hlt

/-- The news that the last job has ended. -/
theorem decided_all {a : α} (ha : job.outcome = .ok a)
    (hlast : (passed jobs 1 m).length + 1 = jobs.length) :
    Decided jobs (Loop.tick (after jobs m)) := by
  have hpassed : passed jobs 1 (m + 1) = passed jobs 1 m ++ [m % jobs.length] := by
    rw [passed_succ, passedAt_eq hjob, if_pos hmoment]
    rfl
  have hmem : ∀ p job, jobs[p]? = some job → p ∈ passed jobs 1 (m + 1) := by
    intro p job hjob
    obtain ⟨hp, -⟩ := List.getElem?_eq_some_iff.1 hjob
    refine (perm_passed ?_).mem_iff.2 (List.mem_range.2 hp)
    rw [hpassed, List.length_append, List.length_singleton, hlast]
  have hall : ∀ p job, jobs[p]? = some job → (job.delay + 1) * jobs.length + p < m + 1 := by
    intro p other hother
    obtain ⟨other', hother', hlt⟩ := mem_passed.1 (hmem p other hother)
    rwa [Option.some.inj (hother.symm.trans hother')]
  have hvalues : ∀ other ∈ jobs, ∃ b, other.outcome = .ok b := by
    intro other hother
    obtain ⟨p, hp⟩ := List.getElem?_of_mem hother
    have hin := hmem p other hp
    rw [hpassed] at hin
    rcases List.mem_append.1 hin with hin | hin
    · exact hgoing.ok p hin other hp
    · obtain rfl := List.mem_singleton.1 hin
      exact ⟨a, Option.some.inj (hjob.symm.trans hp) ▸ ha⟩
  have htasks : (after jobs m).tasks.filterMap Task.value? = values jobs := by
    rw [tasks_after_of_all hall, List.filterMap_map]
    refine List.filterMap_congr fun other _ => ?_
    change Task.value? (.ended other.outcome) = _
    cases other.outcome <;> rfl
  rw [tick_last hjob hmoment ha hlast, htasks, later_eq_nil_of_all hall]
  exact .all rfl (.all (values_forall₂ hvalues) (perm_passed_of_all hall) (pairwise_passed 0 m)) rfl

end

/-- One moment after another, until all values are gathered or a failure is known. -/
theorem Going.next {m : Nat} (h : Going jobs m) :
    (∃ l, Comes (start jobs) l ∧ Decided jobs l) ∨ Going jobs (m + 1) := by
  have hpos := Nat.zero_lt_of_lt h.less
  have hnext := h.comes.trans (.tick _)
  obtain ⟨job, hjob⟩ : ∃ job, jobs[m % jobs.length]? = some job :=
    ⟨_, List.getElem?_eq_getElem (Nat.mod_lt m hpos)⟩
  by_cases hmoment : m / jobs.length = job.delay + 1
  · cases houtcome : job.outcome with
    | error e => exact .inl ⟨_, hnext, decided_failed hjob hmoment h houtcome⟩
    | ok a =>
      by_cases hlast : (passed jobs 1 m).length + 1 = jobs.length
      · exact .inl ⟨_, hnext, decided_all hjob hmoment h houtcome hlast⟩
      · have hpassed : passed jobs 1 (m + 1) = passed jobs 1 m ++ [m % jobs.length] := by
          rw [passed_succ, passedAt_eq hjob, if_pos hmoment]
          rfl
        have hless := h.less
        rw [tick_more hjob hmoment houtcome hlast] at hnext
        refine .inr ⟨hnext, ?_, ?_⟩
        · rw [hpassed, List.length_append, List.length_singleton]
          omega
        · rw [hpassed]
          refine List.forall_mem_append.2 ⟨h.ok, List.forall_mem_singleton.2 ?_⟩
          intro other hother
          exact ⟨a, Option.some.inj (hjob.symm.trans hother) ▸ houtcome⟩
  · have hpassed : passed jobs 1 (m + 1) = passed jobs 1 m := by
      rw [passed_succ, passedAt_eq hjob, if_neg hmoment]
      exact List.append_nil _
    have hcomes : Comes (start jobs) (after jobs (m + 1)) := by
      by_cases hturn : m / jobs.length ≤ job.delay
      · exact tick_step hjob hturn ▸ hnext
      · exact after_succ_of_late hjob (by omega) ▸ h.comes
    exact .inr ⟨hcomes, hpassed.symm ▸ h.less, hpassed.symm ▸ h.ok⟩

/-- After so many moments, all jobs are known to have ended. -/
theorem not_going : ¬ Going jobs ((turnsNeeded jobs + 1) * jobs.length) := by
  intro h
  have hpos := Nat.zero_lt_of_lt h.less
  have hall : List.range jobs.length ⊆
      passed jobs 1 ((turnsNeeded jobs + 1) * jobs.length) := by
    intro p hp
    have hp := List.mem_range.1 hp
    have hdelay := delay_lt_turnsNeeded (List.getElem_mem hp)
    refine mem_passed.2 ⟨_, List.getElem?_eq_getElem hp, ?_⟩
    have := (moment_lt (u := turnsNeeded jobs + 1) hp hpos).2 (.inl (Nat.succ_lt_succ hdelay))
    rwa [Nat.add_zero] at this
  have hle := (List.subperm_of_subset List.nodup_range hall).length_le
  rw [List.length_range] at hle
  exact absurd h.less (Nat.not_lt.2 hle)

theorem gathering_ends (h : jobs ≠ []) : ∃ l, Comes (start jobs) l ∧ Decided jobs l := by
  have hrun : ∀ m, (∃ l, Comes (start jobs) l ∧ Decided jobs l) ∨ Going jobs m := by
    intro m
    induction m with
    | zero => exact .inr ⟨start_eq h ▸ .refl _, List.length_pos_iff.2 h, by simp [passed]⟩
    | succ m ih =>
      rcases ih with hdone | hgoing
      · exact .inl hdone
      · exact hgoing.next
  exact (hrun _).resolve_right not_going

/-! ## The result -/

theorem stage_tick_of_done {result : Except ε (List α)} (hstage : l.stage = .done result) :
    (Loop.tick l).stage = .done result := by
  cases hl : l.ready with
  | nil => rwa [Loop.tick, hl]
  | cons h rest =>
    have hquiet : ({ l with ready := rest } : Loop ε α).stage.IsQuiet := by
      rw [hstage]
      trivial
    rw [tick_eq hl]
    by_cases hh : h = .wake
    · subst hh
      rw [run, Loop.wake]
      dsimp only
      rw [hstage]
    · exact (run_of_quiet hquiet hh).1.trans hstage

/-- The values are there for good. -/
theorem result_all {values : List α} (hstage : l.stage = .done (.ok values)) (hready : l.ready = [])
    (turns : Nat) : (tick^[turns] l).result? = some (.ok (values, l.finished)) := by
  have hsame : Loop.tick l = l := by rw [Loop.tick, hready]
  rw [Function.iterate_fixed hsame, result?, hstage]
  rfl

/-- The failure is there for good. -/
theorem result_failed (hstage : l.stage = .done (.error e)) (turns : Nat) :
    (tick^[turns] l).result? = some (.error e) := by
  have hkept : (tick^[turns] l).stage = .done (.error e) := by
    induction turns with
    | zero => exact hstage
    | succ turns ih =>
      rw [Function.iterate_succ_apply']
      exact stage_tick_of_done ih
  rw [result?, hkept]
  rfl

/-- A result that a loop comes to is there in so many turns and more. -/
theorem Comes.result {result : Except ε (List α × List Nat)} (h : Comes l l')
    (hkept : ∀ turns, (Loop.tick^[turns] l').result? = some result) :
    ∃ turns, ∀ m, turns ≤ m → (Loop.tick^[m] l).result? = some result := by
  obtain ⟨turns, rfl⟩ := h
  refine ⟨turns, fun m hm => ?_⟩
  obtain ⟨k, rfl⟩ := Nat.exists_eq_add_of_le hm
  rw [Nat.add_comm, Function.iterate_add_apply]
  exact hkept k

/-- A loop on which jobs have taken turns long enough has the result of the jobs. -/
theorem exists_result (jobs : List (Job ε α)) : ∃ result, Gathered jobs result ∧
    ∃ turns, ∀ m, turns ≤ m → (tick^[m] (start jobs)).result? = some result := by
  by_cases hjobs : jobs = []
  · subst hjobs
    refine ⟨.ok ([], []), .all .nil (.refl _) .nil, 0, fun m _ => ?_⟩
    exact result_all rfl rfl m
  obtain ⟨l, hcomes, hdecided⟩ := gathering_ends hjobs
  cases hdecided with
  | @all values hstage hend hready =>
    have htick : Loop.tick l = { l with ready := [], stage := .done (.ok values) } := by
      rw [tick_eq hready, run, Loop.wake]
      dsimp only
      rw [hstage]
    refine ⟨_, hend, (hcomes.trans (.tick l)).result fun turns => ?_⟩
    rw [htick]
    exact result_all rfl rfl turns
  | failed hfirst hfailing hwake =>
    obtain ⟨l', hcomes', hstage⟩ := hfailing.comes hwake
    exact ⟨_, .failed hfirst, (hcomes.trans hcomes').result (result_failed hstage)⟩

end Loop

/-- Values of jobs that take turns. Turns of all jobs, until each has ended or one has failed, give
all values in the order of the jobs, which end in the order of how often they let the others go
first, those that do so as often in their own order; or the failure of the job that is the first to
fail in that order. A loop on which the jobs are scheduled one by one comes to the same result, with
tasks that are stopped after the first failure, and so do computations that are started together. -/
theorem gathered_in_turn (jobs : List (Job ε α)) (xs : List (Timed ε α)) :
    Gathered jobs (together jobs) ∧
      (∃ turns, ∀ m, turns ≤ m →
        (Loop.tick^[m] (Loop.start jobs)).result? = some (together jobs)) ∧
      (Timed.all xs).outcome = (together (xs.map Timed.job)).map Prod.fst := by
  refine ⟨gathered_together jobs, ?_, Timed.all_eq_together xs⟩
  obtain ⟨result, hend, hloop⟩ := Loop.exists_result jobs
  rwa [hend.unique (gathered_together jobs)] at hloop

end ApiTypes.Schedule
