import Tach.Dispatch

/-!
The wake-up of a parent in `process_waitpid`. A child that dies looks once more at the state of
its parent, after it has become a zombie, and wakes it if it is blocked. So a blocked parent with
a dead child is woken in time, unless that look came between the parent's own look at its children
and the store of `BLOCKED`.
-/

namespace Tach.Dispatch

open Function List State

variable {n m : ℕ} {rest : List (Task n m)} {c : Fin n} {target : Option ℕ} {task x : Task n m}

section Operations

/-- The process that waits for a child, for the operations of `process_waitpid`. -/
def Op.waiter : Op n m → Option (Fin m)
  | .scan q _ _ _ _ => some q
  | .look q _ _ _ _ => some q
  | .block q _ _ => some q
  | .waitAgain q _ _ => some q
  | _ => none

/-- The operations of `process_terminate` itself. -/
def Op.ofTerminate : Op n m → Bool
  | .terminateTest _ _ => true
  | .terminateStore _ _ => true
  | .findParent _ => true
  | .parentTest _ => true
  | _ => false

/-- On behalf of `p` the operation looks at the state of the parent `q`, or wakes it. -/
def Op.Reports (p q : Fin m) (op : Op n m) : Prop :=
  op = .findParent p ∨ op = .parentTest q ∨ op = .wakeTest q ∨ op = .wakeStore q

instance (p q : Fin m) (op : Op n m) : Decidable (op.Reports p q) :=
  inferInstanceAs (Decidable (_ ∨ _ ∨ _ ∨ _))

def Kernel.DistinctPids (k : Kernel n m) : Prop :=
  ∀ p q, k.used p = true → k.used q = true → k.pid p = k.pid q → p = q

theorem Kernel.DistinctPids.processGet {k : Kernel n m} (h : k.DistinctPids) {q : Fin m}
    (hq : k.used q = true) : k.processGet (k.pid q) = some q := by
  unfold Kernel.processGet
  cases hget : (List.finRange m).find? fun p => k.used p && k.pid p == k.pid q with
  | none =>
    rw [List.find?_eq_none] at hget
    simpa [hq] using hget q (mem_finRange q)
  | some r =>
    have hr := List.find?_some hget
    simp only [Bool.and_eq_true, beq_iff_eq] at hr
    rw [h r q hr.1 hq hr.2]

theorem begin_waiters (k : Kernel n m) (who : Option (Fin m)) (what : Call m) :
    (begin k who what).2.countP (fun new => new.waiter.isSome) ≤ 1 := by
  cases what with
  | exit code => cases who <;> simp [begin, Op.waiter]
  | deliver handling =>
    refine countP_le_length.trans ?_
    simp only [begin, deliverOps]
    (repeat' split) <;> simp
  | waitpid target nohang => cases who <;> simp [begin, Op.waiter]
  | _ => exact countP_le_length

variable [NeZero n] {k : Kernel n m} {c : Fin n} {op : Op n m} {p q : Fin m}

theorem exec_waiter (c : Fin n) (k : Kernel n m) (op : Op n m) :
    (∀ new ∈ (exec c k op).2, (∀ q, new.waiter = some q → op.waiter = some q) ∧
      (new.ofTerminate = true → new.isTerminate = true ∨ op.ofTerminate = true)) ∧
    (exec c k op).2.countP (fun new => new.waiter.isSome) ≤ if op.waiter.isSome then 1 else 0 := by
  cases op with
  | _ =>
    simp only [exec, switchOps]
    (repeat' split) <;> simp_all [Op.waiter, Op.ofTerminate, Op.isTerminate]

theorem exec_waitAgain {nohang : Bool}
    (hnew : .waitAgain q target nohang ∈ (exec c k op).2) : op = .block q target nohang := by
  cases op with
  | block r target' nohang' =>
    simp only [exec] at hnew
    split at hnew <;> simp_all
  | _ =>
    simp only [exec, switchOps] at hnew
    (repeat' split at hnew) <;> simp at hnew

theorem exec_used (h : (exec c k op).1.used p = true) :
    k.used p = true ∧ (exec c k op).1.pid p = k.pid p ∧ (exec c k op).1.ppid p = k.ppid p := by
  cases op with
  | erase q =>
    by_cases hq : p = q
    · simp [exec, Kernel.erase, hq] at h
    · simp only [exec, Kernel.erase, update_of_ne hq] at h ⊢
      exact ⟨h, trivial, trivial⟩
  | addLocked q => simpa [exec] using h
  | removeLocked q d => simpa [exec] using h
  | setCurrent new => simpa [exec] using h
  | block q target nohang =>
    simp only [exec] at h ⊢
    split at h <;> exact ⟨h, rfl, rfl⟩
  | _ => exact ⟨h, rfl, rfl⟩

/-- As long as the parent stays blocked, what reports to it goes on doing so. -/
theorem exec_reports (hpids : k.DistinctPids) (hq : k.used q = true) (hchild : k.ppid p = k.pid q)
    (hop : op.Reports p q) (hblocked : k.state q = .blocked)
    (hstill : (exec c k op).1.state q = .blocked) : ∃ new ∈ (exec c k op).2, new.Reports p q := by
  rcases hop with rfl | rfl | rfl | rfl
  · have hget := hpids.processGet hq
    simp only [exec, hchild, hget]
    exact ⟨.parentTest q, by simp, .inr (.inl rfl)⟩
  · simp only [exec, hblocked]
    exact ⟨.wakeTest q, by simp, .inr (.inr (.inl rfl))⟩
  · simp only [exec, hblocked]
    exact ⟨.wakeStore q, by simp, .inr (.inr (.inr rfl))⟩
  · simp [exec, Kernel.setState] at hstill

end Operations

section Order

variable {s t : State n m} {a : Action n m}

/-- The operations of `process_waitpid` are on the stack of the caller, one at a time, and those of
`process_terminate` are marked. -/
structure Orderly (s : State n m) : Prop where
  pids : s.kernel.DistinctPids
  home : ∀ i, ∀ task ∈ s.code i, ∀ q, task.op.waiter = some q → i = .inr q
  single : ∀ i, (s.code i).countP (fun task => task.op.waiter.isSome) ≤ 1
  dying : ∀ i, ∀ task ∈ s.code i, task.op.ofTerminate = true → task.dying = true

theorem countP_tasks (dying : Bool) (ops : List (Op n m)) (test : Op n m → Bool) :
    (tasks dying ops).countP (fun task => test task.op) = ops.countP test := by
  rw [tasks, countP_map]
  rfl

theorem Quiet.orderly (h : Quiet s) (hpids : s.kernel.DistinctPids) : Orderly s := by
  have hop : ∀ i, ∀ task ∈ s.code i, task.op = .finishRead := by
    intro i task htask
    rcases h i with hi | hi
    · rw [hi] at htask
      cases htask
    · rw [hi] at htask
      cases mem_singleton.mp htask
      rfl
  refine ⟨hpids, ?_, ?_, ?_⟩
  · intro i task htask q hq
    rw [hop i task htask] at hq
    cases hq
  · intro i
    rw [countP_eq_zero.mpr]
    · exact Nat.zero_le 1
    · intro task htask
      rw [hop i task htask]
      exact Bool.false_ne_true
  · intro i task htask hterminate
    rw [hop i task htask] at hterminate
    cases hterminate

/-- The operation that blocks a process is the only one of `process_waitpid` on its stack. -/
theorem Orderly.alone (h : Orderly s)
    (hhead : s.code (s.kernel.runsOn c) = task :: rest) (htask : task.op.waiter.isSome) (hx : x ∈ s.code (s.kernel.runsOn c)) (hwaits : x.op.waiter.isSome) :
    x = task := by
  have hsingle := h.single (s.kernel.runsOn c)
  rw [hhead, countP_cons, if_pos htask] at hsingle
  rw [hhead] at hx
  rcases mem_cons.mp hx with rfl | hx
  · rfl
  · have hpos : 0 < rest.countP fun task => task.op.waiter.isSome :=
      countP_pos_iff.mpr ⟨x, hx, hwaits⟩
    omega

variable [NeZero n]

theorem Orderly.change (h : Orderly s) (hchange : Change s a t) : Orderly t := by
  cases hchange with
  | go hhead =>
    rename_i c task rest
    have htask : task ∈ s.code (s.kernel.runsOn c) := hhead ▸ mem_cons_self
    refine ⟨?_, ?_, ?_, ?_⟩
    · intro p q hp hq hpid
      obtain ⟨hp, hpp, -⟩ := exec_used hp
      obtain ⟨hq, hqq, -⟩ := exec_used hq
      exact h.pids p q hp hq (hpp.symm.trans (hpid.trans hqq))
    · intro i x hx q hq
      rcases mem_done hhead hx with hx | ⟨rfl, new, hnew, rfl⟩
      · exact h.home i x hx q hq
      · exact h.home _ task htask q (((exec_waiter c _ _).1 new hnew).1 q hq)
    · intro i
      by_cases hi : i = s.kernel.runsOn c
      · subst hi
        have hpre := h.single (s.kernel.runsOn c)
        have hexec := (exec_waiter c s.kernel task.op).2
        rw [hhead, countP_cons] at hpre
        rw [done_code_self, countP_append, countP_tasks _ _ fun op => op.waiter.isSome]
        omega
      · rw [done_code_of_ne hi]
        exact h.single i
    · intro i x hx hterminate
      rcases mem_done hhead hx with hx | ⟨rfl, new, hnew, rfl⟩
      · exact h.dying i x hx hterminate
      · rcases ((exec_waiter c _ _).1 new hnew).2 hterminate with hnew | hop
        · simp [hnew]
        · simp [h.dying _ task htask hop]
  | call hnil =>
    rename_i c what
    obtain ⟨pending, hkernel⟩ := begin_kernel s.kernel (s.kernel.caller c) what
    refine ⟨?_, ?_, ?_, ?_⟩
    · have hcall : (s.begun c what).kernel = { s.kernel with pending } := hkernel
      rw [hcall]
      exact h.pids
    · intro i x hx q hq
      rcases mem_begun hx with hx | ⟨rfl, new, hbegins, rfl⟩
      · exact h.home i x hx q hq
      · cases hbegins with
        | wait target nohang hr =>
          cases hq
          simpa using (Option.filter_eq_some_iff.mp hr).2
        | _ => cases hq
    · intro i
      by_cases hi : i = s.kernel.runsOn c
      · subst hi
        rw [begun_code_self, countP_tasks _ _ fun op => op.waiter.isSome]
        exact begin_waiters _ _ _
      · rw [begun_code_of_ne s hi]
        exact h.single i
    · intro i x hx hterminate
      rcases mem_begun hx with hx | ⟨rfl, new, hbegins, rfl⟩
      · exact h.dying i x hx hterminate
      · cases hbegins with
        | terminate p code => rfl
        | _ => cases hterminate

end Order

section Reports

variable {s t : State n m} {a : Action n m} {l : List (Fin n × Op n m)} {p q : Fin m}

/-- A call of `process_terminate` has still to look at `q`, on behalf of its child `p`. -/
def Reported (s : State n m) (p q : Fin m) : Prop :=
  ∃ i, ∃ task ∈ s.code i, task.dying = true ∧ task.op.Reports p q

/-- The process is blocked in `process_waitpid`. -/
def Waits (s : State n m) (q : Fin m) (target : Option ℕ) : Prop :=
  s.kernel.used q = true ∧ s.kernel.state q = .blocked ∧
    ∃ nohang, ∃ task ∈ s.code (.inr q), task.op = .waitAgain q target nohang

/-- When `process_waitpid` blocks its caller, the caller is the current process and each dead child
that it waits for has still to look at it. -/
def InTime (s : State n m) (c : Fin n) (op : Op n m) : Prop :=
  ∀ x ∈ op.blocks, (∀ r ∈ s.kernel.current c, r = x.1) ∧
    ∀ p, s.kernel.used p = true → s.kernel.Awaited x.1 x.2 p → s.kernel.state p = .zombie →
      Reported s p x.1

instance (s : State n m) (p q : Fin m) : Decidable (Reported s p q) :=
  inferInstanceAs (Decidable (∃ _, ∃ _ ∈ _, _))

instance (s : State n m) (c : Fin n) (op : Op n m) : Decidable (InTime s c op) :=
  inferInstanceAs (Decidable (∀ _ ∈ _, _ ∧ _))

/-- A dead child of a process that waits for it has still to look at it. -/
def Heard (s : State n m) : Prop :=
  ∀ q p target, Waits s q target → s.kernel.used p = true → s.kernel.Awaited q target p →
    s.kernel.state p = .zombie → Reported s p q

variable [NeZero n]

theorem Reported.done (h : Reported s p q) (hhead : s.code (s.kernel.runsOn c) = task :: rest)
    (hspawn : task.op.Reports p q → ∃ new ∈ (exec c s.kernel task.op).2, new.Reports p q) :
    Reported (s.done c task rest) p q := by
  obtain ⟨i, x, hx, hdying, hreports⟩ := h
  by_cases hi : i = s.kernel.runsOn c
  · subst hi
    rw [hhead] at hx
    rcases mem_cons.mp hx with rfl | hx
    · obtain ⟨new, hnew, hreports⟩ := hspawn hreports
      refine ⟨s.kernel.runsOn c, ⟨x.dying || new.isTerminate, new⟩, ?_, ?_, hreports⟩
      · rw [done_code_self]
        exact mem_append_left _ (mem_map_of_mem hnew)
      · rw [hdying]
        rfl
    · refine ⟨s.kernel.runsOn c, x, ?_, hdying, hreports⟩
      rw [done_code_self]
      exact mem_append_right _ hx
  · refine ⟨i, x, ?_, hdying, hreports⟩
    rwa [done_code_of_ne hi]

/-- What the caller of `process_waitpid` finds when it blocks. -/
theorem Heard.block (hord : Orderly s) {r : Fin m} {goal : Option ℕ} {hang dying : Bool}
    (hhead : s.code (s.kernel.runsOn c) = ⟨dying, .block r goal hang⟩ :: rest)
    (hok : InTime s c (.block r goal hang)) {nohang : Bool}
    (hx : x ∈ (s.done c ⟨dying, .block r goal hang⟩ rest).code (.inr r))
    (hxop : x.op = .waitAgain r target nohang) (hp : s.kernel.used p = true)
    (hawaited : s.kernel.Awaited r target p) (hzombie : s.kernel.state p = .zombie) :
    Reported s p r := by
  have htarget : target = goal := by
    rcases mem_done hhead hx with hx | ⟨-, new, hnew, rfl⟩
    · have hhome := hord.home _ ⟨dying, .block r goal hang⟩ (hhead ▸ mem_cons_self) r rfl
      rw [← hhome] at hx
      have := hord.alone hhead rfl hx (by rw [hxop]; rfl)
      rw [this] at hxop
      cases hxop
    · obtain rfl : new = .waitAgain r target nohang := hxop
      cases exec_waitAgain hnew
      rfl
  subst htarget
  exact (hok (r, target) rfl).2 p hp hawaited hzombie

/-- A process is blocked because it was, or because it blocks itself in `process_waitpid`. -/
theorem InTime.blocked {op : Op n m} (hok : InTime s c op)
    (h : (exec c s.kernel op).1.state q = .blocked) :
    s.kernel.state q = .blocked ∨ ∃ target nohang, op = .block q target nohang := by
  rcases exec_state h with h | ⟨-, h⟩ | ⟨-, h⟩ | ⟨-, h⟩ | ⟨⟨hblocks, hcurrent⟩, -⟩ | ⟨-, h⟩
  case inr.inl | inr.inr.inl | inr.inr.inr.inl | inr.inr.inr.inr.inr => cases h
  · exact .inl h
  · cases op with
    | block r target nohang =>
      obtain rfl : q = r := (hok (r, target) rfl).1 q hcurrent
      exact .inr ⟨target, nohang, rfl⟩
    | _ => cases hblocks

theorem Heard.change (h : Heard s) (hord : Orderly s) (hok : Doing InTime s a)
    (hchange : Change s a t) : Heard t := by
  rintro q p target ⟨hq, hblocked, nohang, x, hx, hxop⟩ hp hawaited hzombie
  cases hchange with
  | go hhead =>
    rename_i c task rest
    have htask := hok task (by rw [hhead]; rfl)
    obtain ⟨hqused, hqpid, -⟩ := exec_used hq
    obtain ⟨hpused, hppid, hpppid⟩ := exec_used hp
    have hpre : s.kernel.Awaited q target p := by
      refine ⟨hpppid.symm.trans (hawaited.1.trans hqpid), fun pid hpid => ?_⟩
      exact hppid.symm.trans (hawaited.2 pid hpid)
    rcases exec_state hzombie with hdead | ⟨-, h⟩ | ⟨-, h⟩ | ⟨⟨code, hop⟩, -⟩ | ⟨-, h⟩ | ⟨-, h⟩
    case inr.inl | inr.inr.inl | inr.inr.inr.inr.inl | inr.inr.inr.inr.inr => cases h
    · -- the child was dead before
      rcases htask.blocked hblocked with hstate | ⟨goal, hang, hop⟩
      · refine Reported.done ?_ hhead fun hreports =>
          exec_reports hord.pids hqused hpre.1 hreports hstate hblocked
        rcases mem_done hhead hx with hx | ⟨-, new, hnew, rfl⟩
        · exact h q p target ⟨hqused, hstate, nohang, x, hx, hxop⟩ hpused hpre hdead
        · obtain rfl : new = .waitAgain q target nohang := hxop
          have hop := exec_waitAgain hnew
          exact (hop ▸ htask) (q, target) rfl |>.2 p hpused hpre hdead
      · obtain ⟨dying, op⟩ := task
        obtain rfl : op = .block q goal hang := hop
        refine Reported.done (Heard.block hord hhead htask hx hxop hpused hpre hdead) hhead ?_
        rintro (hreports | hreports | hreports | hreports) <;> cases hreports
    · -- the child dies in this step and has yet to look for its parent
      refine ⟨s.kernel.runsOn c, ⟨task.dying || false, .findParent p⟩, ?_, ?_, .inl rfl⟩
      · rw [done_code_self, hop]
        exact mem_append_left _ (mem_map.mpr ⟨.findParent p, by simp [exec], rfl⟩)
      · rw [hord.dying _ task (hhead ▸ mem_cons_self) (by rw [hop]; rfl)]
        rfl
  | call hnil =>
    rename_i c what
    obtain ⟨pending, hkernel⟩ := begin_kernel s.kernel (s.kernel.caller c) what
    have hcall : (s.begun c what).kernel = { s.kernel with pending } := hkernel
    rw [hcall] at hq hblocked hp hawaited hzombie
    have hpre : Reported s p q := by
      rcases mem_begun hx with hx | ⟨-, new, hbegins, rfl⟩
      · exact h q p target ⟨hq, hblocked, nohang, x, hx, hxop⟩ hp hawaited hzombie
      · obtain rfl : new = .waitAgain q target nohang := hxop
        cases hbegins
    obtain ⟨i, y, hy, hreports⟩ := hpre
    refine ⟨i, y, ?_, hreports⟩
    have hi : i ≠ s.kernel.runsOn c := by
      rintro rfl
      rw [hnil] at hy
      cases hy
    rwa [begun_code_of_ne s hi]

/-- In every run in which `process_waitpid` blocks its caller in time, no process is blocked in
`process_waitpid` with a dead child that it waits for, once no call of `process_terminate` is under
way. -/
theorem waitpid_not_lost (hs : Quiet s) (hpids : s.kernel.DistinctPids)
    (hrun : Run (Doing InTime) s l t) (hdone : ∀ i, ∀ task ∈ t.code i, task.dying = false)
    (q p : Fin m) (target : Option ℕ) (hwaits : Waits t q target) (hp : t.kernel.used p = true)
    (hawaited : t.kernel.Awaited q target p) : t.kernel.state p ≠ .zombie := by
  have hinv : Orderly t ∧ Heard t := by
    refine hrun.invariant (I := fun _ s => Orderly s ∧ Heard s) ⟨hs.orderly hpids, ?_⟩ ?_
    · rintro q p target ⟨-, -, nohang, x, hx, hxop⟩
      rcases hs (.inr q) with hi | hi <;> rw [hi] at hx
      · cases hx
      · cases mem_singleton.mp hx
        cases hxop
    · rintro _ u a v e ⟨hord, hheard⟩ hok hnext
      have hchange := next_change hnext
      exact ⟨hord.change hchange, hheard.change hord hok hchange⟩
  intro hzombie
  obtain ⟨i, x, hx, hdying, -⟩ := hinv.2 q p target hwaits hp hawaited hzombie
  rw [hdone i x hx] at hdying
  cases hdying

theorem seated_pids : seated.kernel.DistinctPids := by
  unfold Kernel.DistinctPids
  decide

theorem waitpid_not_lost_waiting : ∃ l t, Run (Doing InTime) seated l t ∧
    (∀ i, ∀ task ∈ t.code i, task.dying = false) ∧ Waits t 0 none ∧
    t.kernel.Awaited 0 none 1 ∧ t.kernel.state 1 ≠ .zombie := by
  obtain ⟨l, t, hrun, hdone, hwaits, hp, hawaited⟩ : ∃ l t, Run (Doing InTime) seated l t ∧
      (∀ i, ∀ task ∈ t.code i, task.dying = false) ∧ Waits t 0 none ∧
      t.kernel.used 1 = true ∧ t.kernel.Awaited 0 none 1 := by
    refine ⟨_, _, Run.of_doing (.call 0 (.waitpid none false) :: List.replicate 8 (.go 0)) rfl,
      ?_, ⟨rfl, rfl, false, ⟨false, .waitAgain 0 none false⟩, ?_, rfl⟩, rfl, ?_⟩ <;> decide
  exact ⟨l, t, hrun, hdone, hwaits, hawaited,
    waitpid_not_lost seated_quiet seated_pids hrun hdone 0 1 none hwaits hp hawaited⟩

/-- The child exits between the last look of its parent and the store of `BLOCKED`: nobody wakes
the parent. -/
theorem waitpid_lost : ∃ l t, Quiet seated ∧ seated.kernel.DistinctPids ∧
    Run (fun _ _ => True) seated l t ∧ (∀ i, ∀ task ∈ t.code i, task.dying = false) ∧
    Waits t 0 none ∧ t.kernel.used 1 = true ∧ t.kernel.Awaited 0 none 1 ∧
    t.kernel.state 1 = .zombie := by
  refine ⟨_, _, seated_quiet, seated_pids, Histories.Run.of_exec (fun _ _ => true)
    (fun _ _ _ => trivial) (.call 0 (.waitpid none false) :: List.replicate 7 (.go 0) ++
      .call 1 (.exit 0) :: List.replicate 10 (.go 1) ++ [.go 0]) rfl,
    ?_, ⟨rfl, rfl, false, ⟨false, .waitAgain 0 none false⟩, ?_, rfl⟩, rfl, ?_, rfl⟩ <;> decide

end Reports

end Tach.Dispatch
