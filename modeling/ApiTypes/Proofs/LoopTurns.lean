import ApiTypes.Schedule.Loop
import ApiTypes.Proofs.Gathering
import Mathlib.Data.List.Perm.Subperm
import Mathlib.Logic.Function.Iterate
import Mathlib.Order.Nat

/-!
# Jobs that take turns on a loop

While values are gathered, what is scheduled on a loop of `n` jobs goes round: the turns that the
job at place `p` has, and then the news of it, come at the moments `p`, `n + p`, `2 * n + p` and so
on.

* `Schedule.turnsBy` : how many turns a job has had by a moment;
* `Schedule.passed` : the places whose jobs have ended by a moment, or are known to have;
* `Loop.after` : the loop at a moment, as long as no failure is known; `Loop.start_eq` is the first
  moment, `Loop.tick_step`, `Loop.tick_more` and `Loop.after_succ_of_late` go to the next;
* `Loop.tick_failed`, `Loop.tick_last` : the first failure is known, or that all jobs have ended;
* `Loop.perm_passed_of_all` : when all jobs have ended, they have done so in their order.
-/

namespace ApiTypes.Schedule

variable {ε α : Type} {jobs : List (Job ε α)} {job : Job ε α} {late m n p q t u : Nat}

/-! ## Moments -/

theorem moment_lt (hp : p < n) (hq : q < n) : t * n + p < u * n + q ↔ t < u ∨ t = u ∧ p < q := by
  rcases Nat.lt_trichotomy t u with htu | rfl | htu
  · have hle : (t + 1) * n ≤ u * n := Nat.mul_le_mul_right n htu
    rw [Nat.succ_mul] at hle
    omega
  · omega
  · have hle : (u + 1) * n ≤ t * n := Nat.mul_le_mul_right n htu
    rw [Nat.succ_mul] at hle
    omega

theorem moment_div (hp : p < n) : (t * n + p) / n = t := by
  rw [Nat.mul_comm, Nat.mul_add_div (Nat.zero_lt_of_lt hp), Nat.div_eq_of_lt hp, Nat.add_zero]

theorem moment_mod (hp : p < n) : (t * n + p) % n = p := by
  rw [Nat.mul_comm, Nat.mul_add_mod, Nat.mod_eq_of_lt hp]

theorem eq_moment (m n : Nat) : m = m / n * n + m % n := (Nat.div_add_mod' m n).symm

/-- The turns that the job at a place has had by a moment, on a loop of `n` jobs. -/
def turnsBy (n m p : Nat) : Nat := m / n + if p < m % n then 1 else 0

theorem lt_turnsBy (hp : p < n) : t < turnsBy n m p ↔ t * n + p < m := by
  have hm := eq_moment m n
  have hlt : t * n + p < m ↔ t < m / n ∨ t = m / n ∧ p < m % n := by
    have := moment_lt (t := t) (u := m / n) hp (Nat.mod_lt m (Nat.zero_lt_of_lt hp))
    rwa [← hm] at this
  rw [hlt, turnsBy]
  split <;> omega

theorem turnsBy_mod : turnsBy n m (m % n) = m / n := by
  rw [turnsBy, if_neg (Nat.lt_irrefl _), Nat.add_zero]

/-- From one moment to the next, only the job whose moment it is has one more turn. -/
theorem turnsBy_succ (hp : p < n) :
    turnsBy n (m + 1) p = if p = m % n then m / n + 1 else turnsBy n m p := by
  have hm := eq_moment m n
  refine eq_of_forall_lt_iff fun t => ?_
  rw [lt_turnsBy hp]
  have hmod := Nat.mod_lt m (Nat.zero_lt_of_lt hp)
  split
  · rename_i heq
    have := moment_lt (t := m / n) (u := t) hmod hp
    omega
  · rename_i hne
    rw [lt_turnsBy hp]
    have hother : t * n + p ≠ m := by
      intro h
      exact hne (by rw [← h, moment_mod hp])
    omega

/-! ## What happens at a moment -/

/-- A job that has had so many turns. -/
def Job.task (job : Job ε α) (turns : Nat) : Task ε α :=
  if turns ≤ job.delay then .running (job.delay - turns) job.outcome false else .ended job.outcome

/-- What is scheduled for the job at a place that has had so many turns: one more of them, or the
news that it has ended. -/
def Job.handle? (job : Job ε α) (place turns : Nat) : Option Handle :=
  if turns ≤ job.delay then some (.step place)
  else if turns = job.delay + 1 then some (.report place)
  else none

/-- What runs at a moment. -/
def handleAt (jobs : List (Job ε α)) (m : Nat) : Option Handle :=
  jobs[m % jobs.length]?.bind (·.handle? (m % jobs.length) (m / jobs.length))

/-- The place whose moment it is, if its job ends then, or did so many turns before. -/
def passedAt (jobs : List (Job ε α)) (late m : Nat) : Option Nat :=
  jobs[m % jobs.length]?.bind fun job =>
    if m / jobs.length = job.delay + late then some (m % jobs.length) else none

/-- The places whose jobs ended by a moment, that many turns before, in the order in which they
did. -/
def passed (jobs : List (Job ε α)) (late m : Nat) : List Nat :=
  (List.range m).filterMap (passedAt jobs late)

theorem passed_succ :
    passed jobs late (m + 1) = passed jobs late m ++ (passedAt jobs late m).toList := by
  rw [passed, List.range_succ, List.filterMap_append]
  cases h : passedAt jobs late m <;> simp [passed, h]

theorem passedAt_eq_some : passedAt jobs late m = some p ↔
    ∃ job, jobs[p]? = some job ∧ m = (job.delay + late) * jobs.length + p := by
  rw [passedAt, Option.bind_eq_some_iff]
  constructor
  · rintro ⟨job, hjob, h⟩
    split at h
    · rename_i hdelay
      cases h
      exact ⟨job, hjob, hdelay ▸ eq_moment m jobs.length⟩
    · cases h
  · rintro ⟨job, hjob, rfl⟩
    obtain ⟨hp, -⟩ := List.getElem?_eq_some_iff.1 hjob
    rw [moment_mod hp, moment_div hp]
    exact ⟨job, hjob, if_pos rfl⟩

theorem mem_passed : p ∈ passed jobs late m ↔
    ∃ job, jobs[p]? = some job ∧ (job.delay + late) * jobs.length + p < m := by
  rw [passed, List.mem_filterMap]
  constructor
  · rintro ⟨k, hk, hp⟩
    obtain ⟨job, hjob, rfl⟩ := passedAt_eq_some.1 hp
    exact ⟨job, hjob, List.mem_range.1 hk⟩
  · rintro ⟨job, hjob, hlt⟩
    exact ⟨_, List.mem_range.2 hlt, passedAt_eq_some.2 ⟨job, hjob, rfl⟩⟩

theorem pairwise_passed (late m : Nat) : (passed jobs late m).Pairwise (Before jobs) := by
  refine List.pairwise_filterMap.2 (List.pairwise_lt_range.imp ?_)
  intro i j hij p hp q hq
  obtain ⟨a, ha, rfl⟩ := passedAt_eq_some.1 hp
  obtain ⟨b, hb, rfl⟩ := passedAt_eq_some.1 hq
  obtain ⟨hplt, -⟩ := List.getElem?_eq_some_iff.1 ha
  obtain ⟨hqlt, -⟩ := List.getElem?_eq_some_iff.1 hb
  have := (moment_lt hplt hqlt).1 hij
  exact ⟨a, b, ha, hb, by omega⟩

/-- When as many places have passed as there are jobs, all have. -/
theorem perm_passed (h : jobs.length ≤ (passed jobs late m).length) :
    (passed jobs late m).Perm (List.range jobs.length) := by
  refine (List.subperm_of_subset ((pairwise_passed late m).imp Before.ne) ?_).perm_of_length_le ?_
  · intro p hp
    obtain ⟨job, hjob, -⟩ := mem_passed.1 hp
    exact List.mem_range.2 (List.getElem?_eq_some_iff.1 hjob).1
  · rwa [List.length_range]

namespace Loop

/-! ## News while values are gathered -/

section

variable {l : Loop ε α} {known : Nat} (hstage : l.stage = .gathering known)

include hstage

theorem report_failed {e : ε} (htask : l.tasks[p]? = some (.ended (.error e))) :
    l.report p = { l with stage := .failed e, ready := l.ready ++ [.wake] } := by
  rw [report, hstage]
  dsimp only
  rw [htask]

theorem report_last {a : α} (htask : l.tasks[p]? = some (.ended (.ok a)))
    (h : known + 1 = l.tasks.length) : l.report p =
      { l with
        stage := .gathered (l.tasks.filterMap Task.value?)
        ready := l.ready ++ [.wake] } := by
  rw [report, hstage]
  dsimp only
  rw [htask]
  exact if_pos h

theorem report_more {a : α} (htask : l.tasks[p]? = some (.ended (.ok a)))
    (h : known + 1 ≠ l.tasks.length) :
    l.report p = { l with stage := .gathering (known + 1) } := by
  rw [report, hstage]
  dsimp only
  rw [htask]
  exact if_neg h

end

/-! ## The loop at a moment -/

/-- The loop at a moment, as long as no failure is known. -/
def after (jobs : List (Job ε α)) (m : Nat) : Loop ε α where
  tasks := jobs.mapIdx fun p job => job.task (turnsBy jobs.length m p)
  ready := (List.range' m jobs.length).filterMap (handleAt jobs)
  stage := .gathering (passed jobs 1 m).length
  finished := passed jobs 0 m

/-- What else is scheduled at a moment. -/
def later (jobs : List (Job ε α)) (m : Nat) : List Handle :=
  (List.range' (m + 1) (jobs.length - 1)).filterMap (handleAt jobs)

theorem start_eq (h : jobs ≠ []) : start jobs = after jobs 0 := by
  have hzero : ∀ p, turnsBy jobs.length 0 p = 0 := by
    intro p
    rw [turnsBy, Nat.zero_div, Nat.zero_mod, if_neg (Nat.not_lt_zero p)]
  ext1
  case tasks =>
    refine List.ext_getElem? fun p => ?_
    simp [start, after, hzero, Job.task]
  case ready =>
    have hready : ∀ p ∈ List.range jobs.length, handleAt jobs p = some (.step p) := by
      intro p hp
      have hlt := List.mem_range.1 hp
      rw [handleAt, Nat.mod_eq_of_lt hlt, Nat.div_eq_of_lt hlt, List.getElem?_eq_getElem hlt]
      simp [Job.handle?]
    change (List.range jobs.length).map Handle.step = _
    rw [after, ← List.range_eq_range', List.filterMap_congr hready, List.filterMap_eq_map']
  case stage => simp [start, after, passed, h]
  case finished => rfl

section

variable (hjob : jobs[m % jobs.length]? = some job)

include hjob

theorem handleAt_eq : handleAt jobs m =
    job.handle? (m % jobs.length) (m / jobs.length) := by
  rw [handleAt, hjob, Option.bind_some]

theorem passedAt_eq : passedAt jobs late m =
    if m / jobs.length = job.delay + late then some (m % jobs.length) else none := by
  rw [passedAt, hjob, Option.bind_some]

theorem task_after : (after jobs m).tasks[m % jobs.length]? =
    some (job.task (m / jobs.length)) := by
  change (List.mapIdx _ jobs)[_]? = _
  rw [List.getElem?_mapIdx, hjob, Option.map_some, turnsBy_mod]

theorem tasks_after_succ : (after jobs (m + 1)).tasks =
    (after jobs m).tasks.set (m % jobs.length) (job.task (m / jobs.length + 1)) := by
  refine List.ext_getElem? fun p => ?_
  change (List.mapIdx _ jobs)[_]? = ((List.mapIdx _ jobs).set _ _)[_]?
  rw [List.getElem?_set, List.getElem?_mapIdx, List.getElem?_mapIdx, List.length_mapIdx]
  cases hp : jobs[p]? with
  | none =>
    obtain ⟨hlt, -⟩ := List.getElem?_eq_some_iff.1 hjob
    have hlen := List.getElem?_eq_none_iff.1 hp
    rw [if_neg (by omega)]
    rfl
  | some other =>
    obtain ⟨hlt, -⟩ := List.getElem?_eq_some_iff.1 hp
    rw [Option.map_some, Option.map_some, turnsBy_succ hlt]
    by_cases heq : p = m % jobs.length
    · rw [if_pos heq, if_pos heq.symm, if_pos (heq ▸ hlt)]
      subst heq
      rw [Option.some.inj (hp.symm.trans hjob)]
    · rw [if_neg heq, if_neg (Ne.symm heq)]

theorem ready_after : (after jobs m).ready =
    (job.handle? (m % jobs.length) (m / jobs.length)).toList ++ later jobs m := by
  obtain ⟨hlt, -⟩ := List.getElem?_eq_some_iff.1 hjob
  obtain ⟨k, hk⟩ := Nat.exists_eq_succ_of_ne_zero (Nat.ne_zero_of_lt hlt)
  have hrange : List.range' m jobs.length = m :: List.range' (m + 1) (jobs.length - 1) := by
    rw [hk, Nat.succ_sub_one, List.range'_succ]
  rw [after, hrange, List.filterMap_cons, handleAt_eq hjob]
  cases job.handle? (m % jobs.length) (m / jobs.length) <;> rfl

theorem ready_after_succ : (after jobs (m + 1)).ready =
    later jobs m ++ (job.handle? (m % jobs.length) (m / jobs.length + 1)).toList := by
  obtain ⟨hlt, -⟩ := List.getElem?_eq_some_iff.1 hjob
  have hpos := Nat.zero_lt_of_lt hlt
  have hrange : List.range' (m + 1) jobs.length =
      List.range' (m + 1) (jobs.length - 1) ++ [m + jobs.length] := by
    have h := List.range'_1_concat (s := m + 1) (n := jobs.length - 1)
    rw [Nat.sub_add_cancel hpos] at h
    rw [h]
    congr 2
    omega
  have hnext : handleAt jobs (m + jobs.length) =
      job.handle? (m % jobs.length) (m / jobs.length + 1) := by
    rw [handleAt, Nat.add_mod_right, Nat.add_div_right _ hpos, hjob, Option.bind_some]
  have hlast : [m + jobs.length].filterMap (handleAt jobs) =
      (handleAt jobs (m + jobs.length)).toList := by
    cases h : handleAt jobs (m + jobs.length) <;> simp [h]
  rw [after, hrange, List.filterMap_append, hlast, hnext]
  rfl

/-- A moment of a job that has ended changes no task. -/
theorem after_succ_of_ended (h : job.delay < m / jobs.length) : after jobs (m + 1) =
    { after jobs m with
      ready := later jobs m
      stage := .gathering (passed jobs 1 (m + 1)).length } := by
  ext1
  case tasks =>
    have hsame : job.task (m / jobs.length + 1) = job.task (m / jobs.length) := by
      rw [Job.task, Job.task, if_neg (by omega), if_neg (by omega)]
    obtain ⟨hlt, htask⟩ := List.getElem?_eq_some_iff.1 (task_after hjob)
    rw [tasks_after_succ hjob, hsame, ← htask, List.set_getElem_self]
  case ready =>
    rw [ready_after_succ hjob, Job.handle?, if_neg (by omega), if_neg (by omega)]
    exact List.append_nil _
  case stage => rfl
  case finished =>
    change passed jobs 0 (m + 1) = passed jobs 0 m
    rw [passed_succ, passedAt_eq hjob, if_neg (by omega)]
    exact List.append_nil _

/-- The next moment is no different when the job is known to have ended. -/
theorem after_succ_of_late (h : job.delay + 1 < m / jobs.length) :
    after jobs (m + 1) = after jobs m := by
  have hready : (after jobs m).ready = later jobs m := by
    rw [ready_after hjob, Job.handle?, if_neg (by omega), if_neg (by omega)]
    rfl
  have hpassed : passed jobs 1 (m + 1) = passed jobs 1 m := by
    rw [passed_succ, passedAt_eq hjob, if_neg (by omega)]
    exact List.append_nil _
  rw [after_succ_of_ended hjob (by omega), hpassed, ← hready]
  rfl

/-- A turn of a job that has not ended. -/
theorem tick_step (h : m / jobs.length ≤ job.delay) :
    tick (after jobs m) = after jobs (m + 1) := by
  have hready : (after jobs m).ready = .step (m % jobs.length) :: later jobs m := by
    rw [ready_after hjob, Job.handle?, if_pos h]
    rfl
  have htask : (after jobs m).tasks[m % jobs.length]? =
      some (.running (job.delay - m / jobs.length) job.outcome false) := by
    rw [task_after hjob, Job.task, if_pos h]
  have hstage : (after jobs (m + 1)).stage = (after jobs m).stage := by
    change Stage.gathering (passed jobs 1 (m + 1)).length = .gathering (passed jobs 1 m).length
    rw [passed_succ, passedAt_eq hjob, if_neg (by omega), Option.toList_none, List.append_nil]
  have hfinished : (after jobs (m + 1)).finished = (after jobs m).finished ++
      if m / jobs.length = job.delay then [m % jobs.length] else [] := by
    change passed jobs 0 (m + 1) = passed jobs 0 m ++ _
    rw [passed_succ, passedAt_eq hjob, Nat.add_zero]
    split <;> rfl
  have htick : tick (after jobs m) =
      ({ after jobs m with ready := later jobs m } : Loop ε α).step (m % jobs.length) := by
    rw [tick, hready]
    rfl
  rw [htick, step]
  dsimp only
  rw [htask]
  obtain hlast | ⟨left, hleft⟩ : m / jobs.length = job.delay ∨
      ∃ left, job.delay - m / jobs.length = left + 1 := by
    rcases Nat.eq_or_lt_of_le h with heq | hlt
    · exact .inl heq
    · exact .inr ⟨job.delay - m / jobs.length - 1, by omega⟩
  · rw [hlast, Nat.sub_self]
    dsimp only
    ext1
    case tasks =>
      rw [tasks_after_succ hjob, Job.task, if_neg (by omega)]
    case ready =>
      rw [ready_after_succ hjob, Job.handle?, if_neg (by omega), if_pos (by omega)]
      rfl
    case stage => exact hstage.symm
    case finished => rw [hfinished, if_pos hlast]
  · rw [hleft]
    dsimp only
    ext1
    case tasks =>
      have hnext : job.delay - (m / jobs.length + 1) = left := by omega
      rw [tasks_after_succ hjob, Job.task, if_pos (by omega), hnext]
    case ready =>
      rw [ready_after_succ hjob, Job.handle?, if_pos (by omega)]
      rfl
    case stage => exact hstage.symm
    case finished => rw [hfinished, if_neg (by omega), List.append_nil]

/-- The news that a job has ended. -/
theorem tick_report (h : m / jobs.length = job.delay + 1) : tick (after jobs m) =
    ({ after jobs m with ready := later jobs m } : Loop ε α).report (m % jobs.length) := by
  have hready : (after jobs m).ready = .report (m % jobs.length) :: later jobs m := by
    rw [ready_after hjob, Job.handle?, if_neg (by omega), if_pos h]
    rfl
  rw [tick, hready]
  rfl

theorem ended_after (h : job.delay < m / jobs.length) :
    (after jobs m).tasks[m % jobs.length]? = some (.ended job.outcome) := by
  rw [task_after hjob, Job.task, if_neg (by omega)]

theorem tick_failed {e : ε} (h : m / jobs.length = job.delay + 1) (he : job.outcome = .error e) :
    tick (after jobs m) =
      { after jobs m with ready := later jobs m ++ [.wake], stage := .failed e } := by
  rw [tick_report hjob h]
  refine report_failed rfl ?_
  rw [← he]
  exact ended_after hjob (by omega)

theorem tick_more {a : α} (h : m / jobs.length = job.delay + 1) (ha : job.outcome = .ok a)
    (hmore : (passed jobs 1 m).length + 1 ≠ jobs.length) :
    tick (after jobs m) = after jobs (m + 1) := by
  have hpassed : (passed jobs 1 (m + 1)).length = (passed jobs 1 m).length + 1 := by
    rw [passed_succ, passedAt_eq hjob, if_pos h, List.length_append]
    rfl
  rw [tick_report hjob h, after_succ_of_ended hjob (by omega), hpassed]
  refine report_more rfl (a := a) ?_ ?_
  · rw [← ha]
    exact ended_after hjob (by omega)
  · rwa [after, List.length_mapIdx]

theorem tick_last {a : α} (h : m / jobs.length = job.delay + 1) (ha : job.outcome = .ok a)
    (hlast : (passed jobs 1 m).length + 1 = jobs.length) :
    tick (after jobs m) =
      { after jobs m with
        ready := later jobs m ++ [.wake]
        stage := .gathered ((after jobs m).tasks.filterMap Task.value?) } := by
  rw [tick_report hjob h]
  refine report_last rfl (a := a) ?_ ?_
  · rw [← ha]
    exact ended_after hjob (by omega)
  · rwa [after, List.length_mapIdx]

end

/-! ## When all jobs have ended -/

section

variable (hall : ∀ p job, jobs[p]? = some job → (job.delay + 1) * jobs.length + p < m + 1)

include hall

theorem tasks_after_of_all : (after jobs m).tasks = jobs.map fun job => .ended job.outcome := by
  refine List.ext_getElem? fun p => ?_
  change (List.mapIdx _ jobs)[p]? = _
  rw [List.getElem?_mapIdx, List.getElem?_map]
  cases hp : jobs[p]? with
  | none => rfl
  | some job =>
    obtain ⟨hlt, -⟩ := List.getElem?_eq_some_iff.1 hp
    have hturns : job.delay < turnsBy jobs.length m p := by
      have := hall p job hp
      rw [lt_turnsBy hlt]
      rw [Nat.succ_mul] at this
      omega
    rw [Option.map_some, Option.map_some, Job.task, if_neg (by omega)]

theorem later_eq_nil_of_all : later jobs m = [] := by
  refine List.filterMap_eq_nil_iff.2 fun k hk => ?_
  obtain ⟨hle, -⟩ := List.mem_range'_1.1 hk
  rw [handleAt]
  cases hjob : jobs[k % jobs.length]? with
  | none => rfl
  | some job =>
    obtain ⟨hlt, -⟩ := List.getElem?_eq_some_iff.1 hjob
    have hlate : job.delay + 1 < k / jobs.length := by
      have hm := hall _ job hjob
      have hk := eq_moment k jobs.length
      have := (moment_lt hlt hlt).1 (Nat.lt_of_lt_of_le hm (hk ▸ hle))
      omega
    rw [Option.bind_some, Job.handle?, if_neg (by omega), if_neg (by omega)]

theorem perm_passed_of_all : (passed jobs 0 m).Perm (List.range jobs.length) := by
  refine perm_range (pairwise_passed 0 m) fun p => ?_
  constructor
  · intro hp
    obtain ⟨job, hjob, -⟩ := mem_passed.1 hp
    exact (List.getElem?_eq_some_iff.1 hjob).1
  · intro hp
    have hjob := List.getElem?_eq_getElem hp
    refine mem_passed.2 ⟨_, hjob, ?_⟩
    have := hall p _ hjob
    rw [Nat.succ_mul] at this
    rw [Nat.add_zero]
    omega

end

end Loop
end ApiTypes.Schedule
