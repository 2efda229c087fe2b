import ApiTypes.Schedule
import ApiTypes.Proofs.Outcome

/-!
# The values of jobs that take turns

* `Schedule.Before` : which of two jobs ends first;
* `Schedule.FailsFirst` : the failure of the job that fails first;
* `Schedule.Gathered` : how the gathering of values ends, in terms of the jobs alone: there is only
  one such end (`Gathered.unique`);
* `Schedule.turned`, `Schedule.run_waitingAt` : one turn of the jobs that wait, and many;
* `Schedule.gathered_together` : turns of all jobs end so;
* `Timed.IsFirst` : the computation that fails first among some (`Timed.firstFailure_isFirst`);
* `Timed.all_eq_together` : computations started together are jobs that take turns.
-/

namespace ApiTypes

namespace Schedule

variable {ε α : Type} {jobs : List (Job ε α)} {p q : Nat}

/-! ## Who is first -/

/-- One job ends before another: it lets the others go first less often, or as often, and stands
before the other. -/
def Before (jobs : List (Job ε α)) (p q : Nat) : Prop :=
  ∃ a b, jobs[p]? = some a ∧ jobs[q]? = some b ∧ (a.delay < b.delay ∨ a.delay = b.delay ∧ p < q)

theorem Before.asymm (h : Before jobs p q) : ¬ Before jobs q p := by
  rintro ⟨b, a, hb, ha, hba⟩
  obtain ⟨a', b', ha', hb', hab⟩ := h
  obtain rfl : a = a' := Option.some.inj (ha.symm.trans ha')
  obtain rfl : b = b' := Option.some.inj (hb.symm.trans hb')
  omega

theorem Before.ne (h : Before jobs p q) : p ≠ q := by
  rintro rfl
  exact h.asymm h

/-- The failure of a job before which no other one fails. -/
def FailsFirst (jobs : List (Job ε α)) (e : ε) : Prop :=
  ∃ p job, jobs[p]? = some job ∧ job.outcome = .error e ∧
    ∀ q other e', jobs[q]? = some other → other.outcome = .error e' → q ≠ p → Before jobs p q

/-- How the gathering of values ends: with the values in the order of the jobs, and the places of
the jobs in the order in which they end, if none fails; else with the first failure. -/
inductive Gathered (jobs : List (Job ε α)) : Except ε (List α × List Nat) → Prop where
  | all {values places} (hvalues : List.Forall₂ (fun job a => job.outcome = .ok a) jobs values)
      (hplaces : places.Perm (List.range jobs.length)) (horder : places.Pairwise (Before jobs)) :
      Gathered jobs (.ok (values, places))
  | failed {e} (hfirst : FailsFirst jobs e) : Gathered jobs (.error e)

theorem FailsFirst.unique {e e' : ε} (h : FailsFirst jobs e) (h' : FailsFirst jobs e') :
    e = e' := by
  obtain ⟨p, a, ha, hae, hfirst⟩ := h
  obtain ⟨q, b, hb, hbe, hfirst'⟩ := h'
  by_cases hpq : q = p
  · subst hpq
    obtain rfl : a = b := Option.some.inj (ha.symm.trans hb)
    exact Except.error.inj (hae.symm.trans hbe)
  · have hbefore := hfirst q b e' hb hbe hpq
    exact absurd (hfirst' p a e ha hae (Ne.symm hpq)) hbefore.asymm

theorem FailsFirst.not_forall₂ {e : ε} {values : List α} (h : FailsFirst jobs e) :
    ¬ List.Forall₂ (fun job a => job.outcome = .ok a) jobs values := by
  obtain ⟨p, job, hjob, he, -⟩ := h
  intro hvalues
  obtain ⟨a, -, ha⟩ := exists_right_of_forall₂ hvalues (List.mem_of_getElem? hjob)
  simp [he] at ha

theorem Gathered.unique {x y : Except ε (List α × List Nat)} (hx : Gathered jobs x)
    (hy : Gathered jobs y) : x = y := by
  cases hx with
  | all hvalues hplaces horder =>
    cases hy with
    | all hvalues' hplaces' horder' =>
      have hsame : Relator.RightUnique fun (job : Job ε α) (a : α) => job.outcome = .ok a :=
        fun job a b ha hb => Except.ok.inj (ha.symm.trans hb)
      rw [Relator.RightUnique.forall₂ hsame hvalues hvalues']
      rw [List.Perm.eq_of_pairwise (fun _ _ _ _ h h' => absurd h' h.asymm) horder horder'
        (hplaces.trans hplaces'.symm)]
    | failed hfirst => exact absurd hvalues hfirst.not_forall₂
  | failed hfirst =>
    cases hy with
    | all hvalues => exact absurd hvalues hfirst.not_forall₂
    | failed hfirst' => rw [hfirst.unique hfirst']

/-! ## One turn -/

/-- A job after so many turns, if it still waits. -/
def Waiting.after (turns : Nat) (w : Waiting ε α) : Option (Waiting ε α) :=
  if turns ≤ w.left then some { w with left := w.left - turns } else none

/-- What one turn of waiting jobs gives: those that have no turn left end, unless one of them fails;
then the turn fails as the first of these does. -/
inductive Turned (ws : List (Waiting ε α)) : Prop where
  | all (hok : ∀ w ∈ ws, w.left = 0 → ∃ a, w.outcome = .ok a)
      (hturn : turn ws =
        .ok ((ws.filter (·.left = 0)).map (·.place), ws.filterMap (·.after 1)))
  | failed {before rest : List (Waiting ε α)} {w : Waiting ε α} {e : ε}
      (hws : ws = before ++ w :: rest) (hleft : w.left = 0) (he : w.outcome = .error e)
      (hbefore : ∀ v ∈ before, v.left = 0 → ∃ a, v.outcome = .ok a) (hturn : turn ws = .error e)

/-- A job that does not fail in a turn leaves the turn to those after it. -/
theorem Turned.cons {w : Waiting ε α} {ws : List (Waiting ε α)} (h : Turned ws)
    (hw : w.left = 0 → ∃ a, w.outcome = .ok a) : Turned (w :: ws) := by
  have hturn : turn (w :: ws) = (turn ws).map fun r =>
      (if w.left = 0 then w.place :: r.1 else r.1, (w.after 1).toList ++ r.2) := by
    obtain ⟨place, left, outcome⟩ := w
    cases left with
    | succ left => cases h : turn ws <;> simp [turn, h, Waiting.after, Except.map]
    | zero =>
      obtain ⟨a, ha⟩ := hw rfl
      dsimp only at ha
      subst ha
      cases h : turn ws <;> simp [turn, h, Waiting.after, Except.map]
  cases h with
  | all hok hrest =>
    refine .all (List.forall_mem_cons.2 ⟨hw, hok⟩) ?_
    rw [hturn, hrest, List.filter_cons, List.filterMap_cons]
    refine congrArg Except.ok (Prod.ext ?_ ?_)
    · by_cases hleft : w.left = 0 <;> simp [hleft]
    · cases w.after 1 <;> rfl
  | failed hws hleft he hbefore hrest =>
    refine .failed (by rw [hws, List.cons_append]) hleft he
      (List.forall_mem_cons.2 ⟨hw, hbefore⟩) ?_
    rw [hturn, hrest]
    rfl

theorem turned (ws : List (Waiting ε α)) : Turned ws := by
  induction ws with
  | nil => exact .all (by simp) rfl
  | cons w ws ih =>
    cases hleft : w.left with
    | succ left =>
      exact ih.cons fun hzero => absurd (hleft.symm.trans hzero) (Nat.succ_ne_zero left)
    | zero =>
      cases houtcome : w.outcome with
      | ok a => exact ih.cons fun _ => ⟨a, houtcome⟩
      | error e =>
        have hturn : turn (w :: ws) = .error e := by
          rw [turn, hleft, houtcome]
        exact .failed (List.nil_append _).symm hleft houtcome (by simp) hturn

/-! ## Many turns -/

/-- The jobs that wait after so many turns. -/
def waitingAt (jobs : List (Job ε α)) (turns : Nat) : List (Waiting ε α) :=
  (waiting jobs).filterMap (·.after turns)

/-- The places of the jobs that end after so many turns of all. -/
def endedAt (jobs : List (Job ε α)) (turns : Nat) : List Nat :=
  ((waitingAt jobs turns).filter (·.left = 0)).map (·.place)

theorem waitingAt_zero : waitingAt jobs 0 = waiting jobs := by
  have h : (fun w : Waiting ε α => w.after 0) = some := by
    funext w
    simp [Waiting.after]
  rw [waitingAt, h, List.filterMap_some]

theorem waitingAt_succ {turns : Nat} :
    waitingAt jobs (turns + 1) = (waitingAt jobs turns).filterMap (·.after 1) := by
  rw [waitingAt, waitingAt, List.filterMap_filterMap]
  refine List.filterMap_congr fun w _ => ?_
  unfold Waiting.after
  by_cases h : turns + 1 ≤ w.left
  · rw [if_pos h, if_pos (by omega), Option.bind_some, if_pos (by dsimp only; omega)]
    rw [Nat.sub_sub]
  · rw [if_neg h]
    by_cases h' : turns ≤ w.left
    · rw [if_pos h', Option.bind_some, if_neg (by dsimp only; omega)]
    · rw [if_neg h', Option.bind_none]

theorem mem_waitingAt {turns : Nat} {w : Waiting ε α} :
    w ∈ waitingAt jobs turns ↔ jobs[w.place]? = some ⟨turns + w.left, w.outcome⟩ := by
  rw [waitingAt, List.mem_filterMap]
  constructor
  · rintro ⟨v, hv, hw⟩
    obtain ⟨p, hp, rfl⟩ := List.mem_mapIdx.1 hv
    unfold Waiting.after at hw
    split at hw
    · rename_i hle
      cases hw
      dsimp only at hle ⊢
      rw [List.getElem?_eq_getElem hp, Nat.add_sub_cancel' hle]
    · cases hw
  · intro h
    refine ⟨⟨w.place, turns + w.left, w.outcome⟩, ?_, ?_⟩
    · obtain ⟨hp, hjob⟩ := List.getElem?_eq_some_iff.1 h
      exact List.mem_mapIdx.2 ⟨w.place, hp, by rw [hjob]⟩
    · simp [Waiting.after]

/-- The jobs wait in their order. -/
theorem pairwise_waitingAt (turns : Nat) :
    (waitingAt jobs turns).Pairwise (·.place < ·.place) := by
  have hplaces : (waiting jobs).Pairwise (·.place < ·.place) := by
    refine List.pairwise_iff_getElem.2 fun i j hi hj hij => ?_
    simpa [waiting] using hij
  refine List.pairwise_filterMap.2 (hplaces.imp ?_)
  intro v w hvw v' hv w' hw
  unfold Waiting.after at hv hw
  split at hv <;> cases hv
  split at hw <;> cases hw
  exact hvw

theorem mem_endedAt {turns : Nat} :
    p ∈ endedAt jobs turns ↔ ∃ job, jobs[p]? = some job ∧ job.delay = turns := by
  rw [endedAt, List.mem_map]
  constructor
  · rintro ⟨w, hw, rfl⟩
    obtain ⟨hw, hleft⟩ := List.mem_filter.1 hw
    refine ⟨_, mem_waitingAt.1 hw, ?_⟩
    have hzero := of_decide_eq_true hleft
    dsimp only
    omega
  · rintro ⟨job, hjob, rfl⟩
    exact ⟨⟨p, 0, job.outcome⟩, List.mem_filter.2 ⟨mem_waitingAt.2 hjob, rfl⟩, rfl⟩

theorem pairwise_endedAt (turns : Nat) : (endedAt jobs turns).Pairwise (Before jobs) := by
  have hlt : (endedAt jobs turns).Pairwise (· < ·) :=
    List.pairwise_map.2 ((pairwise_waitingAt turns).filter _)
  refine hlt.imp_of_mem ?_
  intro p q hp hq hpq
  obtain ⟨a, ha, hdelay⟩ := mem_endedAt.1 hp
  obtain ⟨b, hb, hdelay'⟩ := mem_endedAt.1 hq
  exact ⟨a, b, ha, hb, .inr ⟨hdelay.trans hdelay'.symm, hpq⟩⟩

/-- When no job has failed, the first one that fails in a turn is the first to fail of all. -/
theorem failsFirst_of_waitingAt {turns : Nat} {before rest : List (Waiting ε α)} {w : Waiting ε α}
    {e : ε} (hok : ∀ job ∈ jobs, job.delay < turns → ∃ a, job.outcome = .ok a)
    (hws : waitingAt jobs turns = before ++ w :: rest) (hleft : w.left = 0)
    (he : w.outcome = .error e) (hbefore : ∀ v ∈ before, v.left = 0 → ∃ a, v.outcome = .ok a) :
    FailsFirst jobs e := by
  have hin : w ∈ waitingAt jobs turns := by
    rw [hws]
    exact List.mem_append_right _ (List.mem_cons_self ..)
  refine ⟨w.place, _, mem_waitingAt.1 hin, he, ?_⟩
  intro q other e' hother he' hne
  have hturns : turns ≤ other.delay := by
    by_contra hlt
    obtain ⟨a, ha⟩ := hok other (List.mem_of_getElem? hother) (by omega)
    simp [he'] at ha
  refine ⟨_, other, mem_waitingAt.1 hin, hother, ?_⟩
  rcases Nat.eq_or_lt_of_le hturns with heq | hlt
  · -- the other one would fail in this turn as well, so it does not come before
    have hmem : ⟨q, 0, other.outcome⟩ ∈ waitingAt jobs turns :=
      mem_waitingAt.2 (by rw [hother, Nat.add_zero, heq])
    have hsorted : (waitingAt jobs turns).Pairwise (·.place < ·.place) := pairwise_waitingAt turns
    rw [hws] at hmem hsorted
    obtain ⟨-, hrest, -⟩ := List.pairwise_append.1 hsorted
    rcases List.mem_append.1 hmem with hmem | hmem
    · obtain ⟨a, ha⟩ := hbefore _ hmem rfl
      simp [he'] at ha
    · rcases List.mem_cons.1 hmem with hmem | hmem
      · exact absurd (congrArg Waiting.place hmem) hne
      · refine .inr ⟨?_, (List.pairwise_cons.1 hrest).1 _ hmem⟩
        dsimp only
        omega
  · refine .inl ?_
    dsimp only
    omega

/-- What turns of the waiting jobs give when the others have not failed: the jobs in the order in
which they end, or the first failure. The induction is on the turns that follow. -/
theorem run_waitingAt : ∀ (more turns : Nat),
    (∀ job ∈ jobs, job.delay < turns + more) →
    (∀ job ∈ jobs, job.delay < turns → ∃ a, job.outcome = .ok a) →
    ((∀ job ∈ jobs, ∃ a, job.outcome = .ok a) ∧
      run more (waitingAt jobs turns) = .ok ((List.range' turns more).flatMap (endedAt jobs))) ∨
    ∃ e, FailsFirst jobs e ∧ run more (waitingAt jobs turns) = .error e
  | 0, turns, hlast, hok => .inl ⟨fun job hjob => hok job hjob (hlast job hjob), rfl⟩
  | more + 1, turns, hlast, hok => by
    obtain ⟨hall, hturn⟩ | @⟨before, rest, w, e, hws, hleft, he, hbefore, hturn⟩ :=
      turned (waitingAt jobs turns)
    · have hok' : ∀ job ∈ jobs, job.delay < turns + 1 → ∃ a, job.outcome = .ok a := by
        intro job hjob hdelay
        rcases Nat.lt_succ_iff_lt_or_eq.1 hdelay with hlt | rfl
        · exact hok job hjob hlt
        · obtain ⟨p, hp⟩ := List.getElem?_of_mem hjob
          exact hall ⟨p, 0, job.outcome⟩ (mem_waitingAt.2 hp) rfl
      have hrun : run (more + 1) (waitingAt jobs turns) = do
          let later ← run more (waitingAt jobs (turns + 1))
          return endedAt jobs turns ++ later := by
        rw [run, hturn, waitingAt_succ]
        rfl
      rw [hrun]
      rcases run_waitingAt more (turns + 1) (fun job hjob => by have := hlast job hjob; omega)
        hok' with ⟨hvalues, hlater⟩ | ⟨e, hfirst, hlater⟩
      · refine .inl ⟨hvalues, ?_⟩
        rw [hlater, List.range'_succ, List.flatMap_cons]
        rfl
      · refine .inr ⟨e, hfirst, ?_⟩
        rw [hlater]
        rfl
    · have hfirst : FailsFirst jobs e := failsFirst_of_waitingAt hok hws hleft he hbefore
      refine .inr ⟨e, hfirst, ?_⟩
      rw [run, hturn]
      rfl

theorem values_forall₂ (h : ∀ job ∈ jobs, ∃ a, job.outcome = .ok a) :
    List.Forall₂ (fun job a => job.outcome = .ok a) jobs (values jobs) := by
  unfold values
  induction jobs with
  | nil => exact .nil
  | cons job rest ih =>
    obtain ⟨a, ha⟩ := h job (List.mem_cons_self ..)
    have hvalue : job.outcome.toOption = some a := by rw [ha]; rfl
    rw [List.filterMap_cons, hvalue]
    exact .cons ha (ih fun other hother => h other (List.mem_cons_of_mem _ hother))

/-- Every job ends in the turns that are counted. -/
theorem delay_lt_turnsNeeded {job : Job ε α} (h : job ∈ jobs) :
    job.delay < turnsNeeded jobs := by
  have hle : ∀ (ns : List Nat) (m n : Nat), n = m ∨ n ∈ ns → n ≤ ns.foldl max m := by
    intro ns
    induction ns with
    | nil => simp
    | cons k ns ih =>
      intro m n hn
      rw [List.foldl_cons]
      rcases hn with rfl | hn
      · exact Nat.le_trans (Nat.le_max_left n k) (ih _ _ (.inl rfl))
      · rcases List.mem_cons.1 hn with rfl | hn
        · exact Nat.le_trans (Nat.le_max_right m n) (ih _ _ (.inl rfl))
        · exact ih _ _ (.inr hn)
  exact hle _ 0 (job.delay + 1) (.inr (List.mem_map.2 ⟨job, h, rfl⟩))

/-- Places without repetition, one for every job. -/
theorem perm_range {places : List Nat} (horder : places.Pairwise (Before jobs))
    (hmem : ∀ p, p ∈ places ↔ p < jobs.length) : places.Perm (List.range jobs.length) := by
  refine (List.perm_ext_iff_of_nodup (horder.imp Before.ne) List.nodup_range).2 fun p => ?_
  rw [hmem, List.mem_range]

/-- Turns of all jobs, until each has ended or one has failed. -/
theorem gathered_together (jobs : List (Job ε α)) : Gathered jobs (together jobs) := by
  have hlast : ∀ job ∈ jobs, job.delay < 0 + turnsNeeded jobs := by
    intro job hjob
    rw [Nat.zero_add]
    exact delay_lt_turnsNeeded hjob
  have hrun := run_waitingAt (turnsNeeded jobs) 0 hlast (by simp)
  rw [waitingAt_zero] at hrun
  rcases hrun with ⟨hok, hrun⟩ | ⟨e, hfirst, hrun⟩
  · have htogether : together jobs =
        .ok (values jobs, (List.range' 0 (turnsNeeded jobs)).flatMap (endedAt jobs)) := by
      rw [together, hrun]
      rfl
    have horder : ((List.range' 0 (turnsNeeded jobs)).flatMap (endedAt jobs)).Pairwise
        (Before jobs) := by
      refine List.pairwise_flatMap.2 ⟨fun turns _ => pairwise_endedAt turns, ?_⟩
      refine (List.pairwise_lt_range' 1).imp ?_
      intro i j hij p hp q hq
      obtain ⟨a, ha, rfl⟩ := mem_endedAt.1 hp
      obtain ⟨b, hb, rfl⟩ := mem_endedAt.1 hq
      exact ⟨a, b, ha, hb, .inl hij⟩
    rw [htogether]
    refine .all (values_forall₂ hok) (perm_range horder fun p => ?_) horder
    rw [List.mem_flatMap]
    constructor
    · rintro ⟨turns, -, hp⟩
      obtain ⟨job, hjob, -⟩ := mem_endedAt.1 hp
      exact (List.getElem?_eq_some_iff.1 hjob).1
    · intro hp
      have hjob := List.getElem_mem hp
      refine ⟨jobs[p].delay, ?_, mem_endedAt.2 ⟨_, List.getElem?_eq_getElem hp, rfl⟩⟩
      have hdelay := delay_lt_turnsNeeded hjob
      rw [List.mem_range'_1]
      omega
  · have htogether : together jobs = .error e := by
      rw [together, hrun]
      rfl
    rw [htogether]
    exact .failed hfirst

end Schedule

namespace Timed

variable {ε α : Type}

/-- A computation as a job that ends after as many turns as it has rounds. -/
def job (x : Timed ε α) : Schedule.Job ε α := ⟨x.course.rounds, x.outcome⟩

/-- A computation at a place that fails before every other one that does. -/
def IsFirst (xs : List (Timed ε α)) (p : Nat) (x : Timed ε α) (e : ε) : Prop :=
  xs[p]? = some x ∧ x.outcome = .error e ∧
    ∀ q y e', xs[q]? = some y → y.outcome = .error e' → q ≠ p →
      x.course.rounds < y.course.rounds ∨ x.course.rounds = y.course.rounds ∧ p < q

section

variable {xs : List (Timed ε α)} {x y : Timed ε α} {p : Nat} {e : ε}

theorem IsFirst.cons (h : IsFirst xs p y e)
    (hx : ∀ e', x.outcome = .error e' → y.course.rounds < x.course.rounds) :
    IsFirst (x :: xs) (p + 1) y e := by
  obtain ⟨hy, he, hfirst⟩ := h
  refine ⟨hy, he, ?_⟩
  intro q z e' hz hze hne
  cases q with
  | zero =>
    obtain rfl : x = z := Option.some.inj hz
    exact .inl (hx e' hze)
  | succ q =>
    have := hfirst q z e' hz hze (by omega)
    omega

theorem IsFirst.head (hx : x.outcome = .error e)
    (hle : ∀ y ∈ xs, ∀ e', y.outcome = .error e' → x.course.rounds ≤ y.course.rounds) :
    IsFirst (x :: xs) 0 x e := by
  refine ⟨rfl, hx, ?_⟩
  intro q y e' hy hye hne
  obtain ⟨q, rfl⟩ := Nat.exists_eq_succ_of_ne_zero hne
  have := hle y (List.mem_of_getElem? hy) e' hye
  omega

/-- No computation that fails does so earlier. -/
theorem IsFirst.le (h : IsFirst xs p x e) (hy : y ∈ xs) {e' : ε} (hye : y.outcome = .error e') :
    x.course.rounds ≤ y.course.rounds := by
  obtain ⟨hx, -, hfirst⟩ := h
  obtain ⟨q, hq⟩ := List.getElem?_of_mem hy
  by_cases hqp : q = p
  · subst hqp
    exact Nat.le_of_eq (congrArg (·.course.rounds) (Option.some.inj (hx.symm.trans hq)))
  · have := hfirst q y e' hq hye hqp
    omega

/-- The failure that is found is the first. -/
theorem firstFailure_isFirst {place : Nat} {f : Failure ε} (h : firstFailure place xs = some f) :
    ∃ p x, IsFirst xs p x f.error ∧ f.round = x.course.rounds := by
  induction xs generalizing place f with
  | nil => cases h
  | cons x rest ih =>
    rw [firstFailure] at h
    cases hx : x.outcome with
    | ok a =>
      rw [hx] at h
      obtain ⟨p, y, hfirst, hround⟩ := ih h
      exact ⟨p + 1, y, hfirst.cons fun e' he' => by simp [hx] at he', hround⟩
    | error e =>
      rw [hx] at h
      cases hrest : firstFailure (place + 1) rest with
      | none =>
        rw [hrest] at h
        cases h
        refine ⟨0, x, .head hx fun y hy e' hye => ?_, rfl⟩
        obtain ⟨a, ha⟩ := firstFailure_eq_none.1 hrest y hy
        simp [ha] at hye
      | some later =>
        obtain ⟨p, y, hfirst, hround⟩ := ih hrest
        rw [hrest] at h
        dsimp only at h
        split at h
        · rename_i hlt
          cases h
          exact ⟨p + 1, y, hfirst.cons fun _ _ => hround ▸ hlt, hround⟩
        · rename_i hle
          cases h
          refine ⟨0, x, .head hx fun z hz e' hze => ?_, rfl⟩
          have := hfirst.le hz hze
          omega

end

/-- Computations started together give what jobs that take turns give. -/
theorem all_eq_together (xs : List (Timed ε α)) :
    (all xs).outcome = (Schedule.together (xs.map job)).map Prod.fst := by
  cases hfound : firstFailure 0 xs with
  | none =>
    have hall : (all xs).outcome = .ok (values xs) := by rw [all, hfound]
    have hvalues := outcome_all_ok.1 hall
    have hend := Schedule.gathered_together (xs.map job)
    rw [hall]
    cases hres : Schedule.together (xs.map job) with
    | error e =>
      rw [hres] at hend
      cases hend with
      | failed hfirst =>
        exact absurd (List.forall₂_map_left_iff.2 hvalues) hfirst.not_forall₂
    | ok res =>
      rw [hres] at hend
      cases hend with
      | all hvalues' =>
        rw [← values_eq (List.forall₂_map_left_iff.1 hvalues')]
        rfl
  | some f =>
    have hall : (all xs).outcome = .error f.error := by rw [all, hfound]
    obtain ⟨p, x, ⟨hx, he, hfirst⟩, -⟩ := firstFailure_isFirst hfound
    have hfails : Schedule.FailsFirst (xs.map job) f.error := by
      refine ⟨p, x.job, by rw [List.getElem?_map, hx]; rfl, he, ?_⟩
      intro q other e' hother he' hne
      rw [List.getElem?_map] at hother
      obtain ⟨y, hy, rfl⟩ := Option.map_eq_some_iff.1 hother
      refine ⟨x.job, y.job, ?_, ?_, hfirst q y e' hy he' hne⟩
      · rw [List.getElem?_map, hx]
        rfl
      · rw [List.getElem?_map, hy]
        rfl
    rw [hall, Schedule.Gathered.unique (Schedule.gathered_together _) (.failed hfails)]
    rfl

end Timed
end ApiTypes
