import PiggyOS.Infra.RoundRobin
import PiggyOS.Task.Invariant

/-!
# The order in which tasks run

As long as no task exits, the scheduler is a ring (`Infra/RoundRobin.lean`): the tasks behind the
current one in the list come first, then those before it. `schedule` passes the turn, and
`task_create`, which inserts at the front of the list, lets a task sit down in the middle of the
ring.
-/

namespace PiggyOS

open Infra

variable {s s' : Sched} {l : ListT} {r : TurnRing U32} {xs ys : List U32} {n : U32} {op : SchedOp}

/-- A step in a run without exits. -/
def TurnStep (s : Sched) (op : SchedOp) (s' : Sched) : Prop :=
  SchedStep s op s' ∧ ∀ code, op ≠ .exit code

/-- A well-formed task list without dead tasks, with the running task in it. -/
def Sched.WellFormed (s : Sched) : Prop :=
  s.phase = .idle ∧ ∃ l ns, TaskListOk s l ns ∧ (∃ n ∈ ns, s.nodes.value n = s.currentTask) ∧
    ∀ n ∈ ns, (s.tasks (s.nodes.value n)).state ≠ .zombie

/-- The tasks take turns as in the ring `r`: the task list is `xs ++ n :: ys`, and the current
task is the one of `n`. -/
structure InTurn (s : Sched) (r : TurnRing U32) (l : ListT) (xs : List U32) (n : U32)
    (ys : List U32) : Prop where
  ok : TaskListOk s l (xs ++ n :: ys)
  current : s.nodes.value n = s.currentTask
  ring_current : r.current = s.currentTask
  ring_rest : r.rest = (ys ++ xs).map s.nodes.value
  alive : ∀ m ∈ xs ++ n :: ys, (s.tasks (s.nodes.value m)).state ≠ .zombie
  phase : s.phase = .idle ∨ s.phase = .picking (s.nodes.next n)

namespace InTurn

theorem mem (_ : InTurn s r l xs n ys) : n ∈ xs ++ n :: ys := by simp

theorem currentTask_live (h : InTurn s r l xs n ys) : s.liveTasks s.currentTask = true := by
  rw [← h.current, h.ok.live n h.mem]

theorem currentTask_ne (h : InTurn s r l xs n ys) : s.currentTask ≠ 0 := by
  rw [← h.current]
  exact h.ok.ne_null n h.mem

/-- The ring consists of the tasks on the list. -/
theorem mem_toList_iff (h : InTurn s r l xs n ys) {t : U32} : t ∈ r.toList ↔ Listed s t := by
  rw [h.ok.listed_iff, TurnRing.toList, h.ring_current, h.ring_rest, ← h.current]
  constructor
  · intro ht
    rw [← List.map_cons] at ht
    obtain ⟨m, hm, rfl⟩ := List.mem_map.mp ht
    refine ⟨m, ?_, rfl⟩
    simp at hm ⊢
    tauto
  · rintro ⟨m, hm, rfl⟩
    rw [← List.map_cons]
    apply List.mem_map_of_mem
    simp at hm ⊢
    tauto

/-- `schedule` up to `_pick_next`. -/
theorem enterSchedule (h : InTurn s r l xs n ys) : InTurn s.enterSchedule r l xs n ys ∧
    s.enterSchedule = { s with phase := .picking (s.nodes.next n) } := by
  have he := h.ok.enterSchedule h.mem h.current
  refine ⟨?_, he⟩
  rw [he]
  exact ⟨h.ok.congr rfl rfl rfl rfl fun _ => rfl, h.current, h.ring_current, h.ring_rest, h.alive,
    Or.inr rfl⟩

/-- Another task of the list becomes current. -/
theorem switchTo {r' : TurnRing U32} {xs' ys' : List U32} {n' ticks : U32}
    (h : InTurn s r l xs n ys) (hsplit : xs ++ n :: ys = xs' ++ n' :: ys')
    (hcur : r'.current = s.nodes.value n') (hrest : r'.rest = (ys' ++ xs').map s.nodes.value) :
    InTurn (s.switchTo (s.nodes.value n') ticks) r' l xs' n' ys' := by
  refine ⟨?_, rfl, hcur, hrest, ?_, Or.inl rfl⟩
  · rw [← hsplit]
    exact h.ok.switchTo _ _
  · intro m hm
    rw [← hsplit] at hm
    rw [Sched.state_switchTo]
    exact h.alive m hm

/-- A round of `_pick_next` passes the turn. -/
theorem pick (h : InTurn s r l xs n ys) (ticks : U32) :
    ∃ xs' n' ys', InTurn (s.pick l (s.nodes.next n) ticks) r.advance l xs' n' ys' ∧
      (s.pick l (s.nodes.next n) ticks).phase = .idle ∧
      (s.pick l (s.nodes.next n) ticks).selected = r.advance.current :: s.selected := by
  have hpick : ∀ n', (ys ++ xs).headD n = n' → n' ∈ xs ++ n :: ys →
      s.pick l (s.nodes.next n) ticks = s.switchTo (s.nodes.value n') ticks := fun n' hn' hm =>
    h.ok.pick_of_alive (by rw [h.ok.pickedNode_eq, hn']; exact hm) h.currentTask_ne
      (by rw [h.ok.pickedNode_eq, hn']) (h.alive n' hm)
  cases ys with
  | cons y ys =>
    obtain ⟨hcur, hrest⟩ := r.current_advance (h.ring_rest.trans (List.map_cons ..))
    rw [hpick y rfl (by simp), hcur]
    refine ⟨xs ++ [n], y, ys, h.switchTo (by simp) hcur ?_, rfl, rfl⟩
    rw [hrest, h.ring_current, ← h.current]
    simp
  | nil =>
    cases xs with
    | cons x xs =>
      obtain ⟨hcur, hrest⟩ := r.current_advance (h.ring_rest.trans (List.map_cons ..))
      rw [hpick x rfl (by simp), hcur]
      refine ⟨[], x, xs ++ [n], h.switchTo (by simp) hcur ?_, rfl, rfl⟩
      rw [hrest, h.ring_current, ← h.current]
      simp
    | nil =>
      -- the only task gets the turn again
      have hcur : r.current = s.nodes.value n := h.ring_current.trans h.current.symm
      rw [hpick n rfl (by simp), r.advance_of_rest_nil h.ring_rest, hcur]
      exact ⟨[], n, [], h.switchTo rfl hcur h.ring_rest, rfl, rfl⟩

/-- `task_create` lets the new task sit down behind the tasks at the end of the list. -/
theorem create {a : TaskAllocs} (h : InTurn s r l xs n ys) (hidle : s.phase = .idle)
    (hf : a.Fresh s) (hs' : s.taskCreate a = some s') :
    ∃ l' hr ha, InTurn s' (r.insert (ys.map s.nodes.value) (xs.map s.nodes.value) hr a.task ha) l'
      (a.node :: xs) n ys ∧ s'.selected = s.selected := by
  have hr : r.rest = ys.map s.nodes.value ++ xs.map s.nodes.value := by
    rw [h.ring_rest, List.map_append]
  have ha : a.task ∉ r.toList := by
    rw [h.mem_toList_iff, h.ok.listed_iff]
    rintro ⟨m, hm, hv⟩
    exact h.ok.value_ne hf.task hm hv
  have hvalue : ∀ m ∈ xs ++ n :: ys,
      ((s.allocTask a).addTask l a).nodes.value m = s.nodes.value m := fun m hm =>
    h.ok.value_addTask hf hm
  have hnew : InTurn ((s.allocTask a).addTask l a)
      (r.insert (ys.map s.nodes.value) (xs.map s.nodes.value) hr a.task ha)
      (listInsertFront s.nodes l a.task a.node).list (a.node :: xs) n ys := by
    refine ⟨h.ok.addTask hf, ?_, h.ring_current, ?_, ?_, Or.inl hidle⟩
    · rw [hvalue n h.mem]
      exact h.current
    · show ys.map s.nodes.value ++ a.task :: xs.map s.nodes.value = _
      rw [List.map_append, List.map_cons, Sched.value_addTask_self hf,
        List.map_congr_left fun m hm => (hvalue m (by simp [hm])).symm,
        List.map_congr_left (l := xs) fun m hm => (hvalue m (by simp [hm])).symm]
    · intro m hm
      rw [Sched.tasks_addTask]
      rcases List.mem_cons.mp hm with rfl | hm
      · rw [Sched.value_addTask_self hf, Function.update_self]
        exact TaskState.noConfusion
      · rw [hvalue m hm, Function.update_of_ne (h.ok.value_ne hf.task hm)]
        exact h.alive m hm
  rw [Sched.taskCreate_of_list h.ok.list hf] at hs'
  obtain rfl := Option.some.inj hs'
  obtain ⟨hturn, he⟩ := hnew.enterSchedule
  exact ⟨_, hr, ha, hturn, by rw [he]; rfl⟩

end InTurn

/-! ## Runs -/

/-- The tasks take turns in the ring `r`. -/
def Turns (s : Sched) (r : TurnRing U32) : Prop := ∃ l xs n ys, InTurn s r l xs n ys

theorem Turns.exists_of_wellFormed (h : s.WellFormed) : ∃ r, Turns s r ∧ s.phase = .idle := by
  obtain ⟨hidle, l, ns, hok, ⟨n, hn, hcur⟩, halive⟩ := h
  obtain ⟨xs, ys, rfl⟩ := List.append_of_mem hn
  have hinj : ((n :: (ys ++ xs)).map s.nodes.value).Nodup := by
    refine List.Nodup.map_on ?_ ?_
    · intro a ha b hb he
      refine hok.value_inj ?_ ?_ he <;> simp at ha hb ⊢ <;> tauto
    · refine (List.Perm.nodup_iff ?_).mp hok.represents.nodup
      show (xs ++ n :: ys).Perm (n :: ys ++ xs)
      exact List.perm_append_comm
  exact ⟨⟨s.currentTask, (ys ++ xs).map s.nodes.value, by rw [← hcur]; exact hinj⟩,
    ⟨l, xs, n, ys, hok, hcur, rfl, rfl, halive, Or.inl hidle⟩, hidle⟩

theorem Turns.mem_toList_iff (h : Turns s r) {t : U32} : t ∈ r.toList ↔ Listed s t := by
  obtain ⟨l, xs, n, ys, h⟩ := h
  exact h.mem_toList_iff

theorem Turns.current (h : Turns s r) : r.current = s.currentTask := by
  obtain ⟨l, xs, n, ys, h⟩ := h
  exact h.ring_current

/-- What a step does to the ring: nothing, a turn, or a newcomer. -/
theorem Turns.step (h : Turns s r) (hs : TurnStep s op s') :
    (Turns s' r ∧ s'.selected = s.selected) ∨
      (Turns s' r.advance ∧ s'.selected = r.advance.current :: s.selected) ∨
      ∃ xs ys hr a ha, Turns s' (r.insert xs ys hr a ha) ∧ s'.selected = s.selected := by
  obtain ⟨l, xs, n, ys, h⟩ := h
  obtain ⟨hs, hexit⟩ := hs
  cases hs with
  | create hidle hf hc =>
    obtain ⟨l', hr, ha, hturn, hsel⟩ := h.create hidle hf hc
    exact Or.inr (Or.inr ⟨_, _, hr, _, ha, ⟨_, _, _, _, hturn⟩, hsel⟩)
  | exit => exact absurd rfl (hexit _)
  | schedule _ =>
    obtain ⟨hturn, he⟩ := h.enterSchedule
    exact Or.inl ⟨⟨_, _, _, _, hturn⟩, by rw [he]⟩
  | pick hphase hl =>
    rcases h.phase with hidle | hpick
    · rw [hidle] at hphase
      exact Phase.noConfusion hphase
    · rw [hpick] at hphase
      obtain rfl := Phase.picking.inj hphase
      obtain rfl := Option.some.inj (h.ok.list.symm.trans hl)
      obtain ⟨xs', n', ys', hturn, -, hsel⟩ := h.pick _
      exact Or.inr (Or.inl ⟨⟨_, _, _, _, hturn⟩, hsel⟩)

/-- The ring only gets larger. -/
theorem Turns.run {t : Sched} {ops : List SchedOp} (h : Turns s r)
    (hrun : Run TurnStep s ops t) : ∃ r', Turns t r' := by
  refine hrun.invariant (fun u => ∃ r', Turns u r') ?_ ⟨r, h⟩
  rintro u op v ⟨r', hu⟩ hstep
  rcases hu.step hstep with ⟨hv, -⟩ | ⟨hv, -⟩ | ⟨xs, ys, hr, a, ha, hv, -⟩
  · exact ⟨_, hv⟩
  · exact ⟨_, hv⟩
  · exact ⟨_, hv⟩

/-- The turns taken in a run from a state in which `T` is the current task. -/
theorem Turns.fair {t : Sched} {ops : List SchedOp} {T U : U32} (h : Turns s r)
    (hT : s.currentTask = T) (hU : Listed s U) (hne : U ≠ T) (hrun : Run TurnStep s ops t) :
    ∃ r' turns, Turns t r' ∧ t.selected = turns ++ s.selected ∧ Fair T U r' turns := by
  have hcur : r.current = T := h.current.trans hT
  have hUr : U ∈ r.rest := by
    have := h.mem_toList_iff.mpr hU
    exact (List.mem_cons.mp this).resolve_left (hcur ▸ hne)
  have hinv := hrun.invariant
    (fun u => ∃ r' turns, Turns u r' ∧ u.selected = turns ++ s.selected ∧ Fair T U r' turns ∧
      T ∈ r'.toList ∧ U ∈ r'.toList) ?_
    ⟨r, [], h, rfl, .start hcur hUr, hcur ▸ List.mem_cons_self, List.mem_cons_of_mem _ hUr⟩
  · obtain ⟨r', turns, ht, hsel, hfair, -⟩ := hinv
    exact ⟨r', turns, ht, hsel, hfair⟩
  rintro u op v ⟨r', turns, hu, hsel, hfair, hTr, hUr⟩ hstep
  rcases hu.step hstep with ⟨hv, hv'⟩ | ⟨hv, hv'⟩ | ⟨xs, ys, hr, a, ha, hv, hv'⟩
  · exact ⟨r', turns, hv, hv'.trans hsel, hfair, hTr, hUr⟩
  · refine ⟨_, _, hv, hv'.trans (congrArg _ hsel), hfair.turn hTr, ?_, ?_⟩
    · exact r'.toList_advance_perm.mem_iff.mpr hTr
    · exact r'.toList_advance_perm.mem_iff.mpr hUr
  · refine ⟨_, _, hv, hv'.trans hsel, hfair.insert hr ha hTr hUr, ?_, ?_⟩
    · exact TurnRing.mem_insert.mpr (Or.inr hTr)
    · exact TurnRing.mem_insert.mpr (Or.inr hUr)

/-- `k` calls of `schedule`, the times being `ticks`. -/
def scheduleCalls (ticks : Nat → U32) : Nat → List SchedOp
  | 0 => []
  | k + 1 => scheduleCalls ticks k ++ [.schedule] ++ [.pick (ticks k)]

/-- Calls of `schedule` pass the turn round. -/
theorem Turns.scheduleCalls (h : Turns s r) (hidle : s.phase = .idle) (ticks : Nat → U32)
    (k : Nat) : ∃ t, Run TurnStep s (scheduleCalls ticks k) t ∧ Turns t (TurnRing.advance^[k] r) ∧
      t.phase = .idle ∧ t.selected = (TurnRing.turns k r).reverse ++ s.selected := by
  induction k with
  | zero => exact ⟨s, .nil s, h, hidle, rfl⟩
  | succ k ih =>
    obtain ⟨t, hrun, ⟨l, xs, n, ys, ht⟩, htidle, hsel⟩ := ih
    obtain ⟨henter, he⟩ := ht.enterSchedule
    have hphase : t.enterSchedule.phase = .picking (t.nodes.next n) := by rw [he]
    have hnext : t.enterSchedule.nodes.next n = t.nodes.next n := by rw [he]
    obtain ⟨xs', n', ys', hturn, hpidle, hpsel⟩ := henter.pick (ticks k)
    rw [hnext] at hturn hpidle hpsel
    refine ⟨_, .snoc (.snoc hrun ⟨.schedule htidle, fun _ => SchedOp.noConfusion⟩)
      ⟨.pick hphase henter.ok.list, fun _ => SchedOp.noConfusion⟩, ?_, hpidle, ?_⟩
    · rw [Function.iterate_succ_apply']
      exact ⟨l, xs', n', ys', hturn⟩
    · rw [hpsel, he, TurnRing.turns_succ, List.reverse_append, Function.iterate_succ_apply']
      exact congrArg (_ :: ·) hsel

theorem Started.wellFormed {a : TaskAllocs} (h : Started s a) : s.WellFormed := by
  obtain ⟨l, hok⟩ := h.ok
  refine ⟨h.phase, l, [a.node], hok, ⟨a.node, List.mem_cons_self, ?_⟩, ?_⟩
  · rw [h.value, h.current]
  · intro n hn
    rw [List.mem_singleton.mp hn, h.value, h.alive]
    exact TaskState.noConfusion

/--
**Round-robin without bypass.** In a run of `schedule` and `task_create` calls in which no task
exits, every other task on the list runs exactly once between two turns of a task; and as many
calls of `schedule` as there are tasks give each of them one turn and return to the first.
-/
theorem round_robin_without_bypass {s₀ : Sched} (h₀ : s₀.WellFormed) :
    (∀ before s ops t T U mid, Run TurnStep s₀ before s → Run TurnStep s ops t →
      s.currentTask = T → t.selected = T :: mid ++ s.selected → T ∉ mid → U ≠ T → Listed s U →
      mid.count U = 1) ∧
    ∀ l, s₀.taskList = some l → ∀ ticks, ∃ t turns,
      Run TurnStep s₀ (scheduleCalls ticks l.size.toNat) t ∧ t.phase = .idle ∧
      t.selected = turns ++ s₀.selected ∧ turns.length = l.size.toNat ∧
      (∀ U, Listed s₀ U → turns.count U = 1) ∧ t.currentTask = s₀.currentTask := by
  obtain ⟨r, h, hidle⟩ := Turns.exists_of_wellFormed h₀
  constructor
  · intro before s ops t T U mid hbefore hrun hT hsel hmid hne hU
    obtain ⟨r', hs⟩ := h.run hbefore
    obtain ⟨r'', turns, -, hsel', hfair⟩ := hs.fair hT hU hne hrun
    rw [hsel'] at hsel
    have hturns : turns = [] ++ T :: mid := List.append_cancel_right hsel
    exact hfair.done [] mid hturns hmid
  · intro l hl ticks
    obtain ⟨l', xs, n, ys, hturn⟩ := id h
    obtain rfl := Option.some.inj (hturn.ok.list.symm.trans hl)
    have hsize : l'.size.toNat = r.rest.length + 1 := by
      rw [hturn.ok.represents.size, hturn.ring_rest]
      simp
      omega
    obtain ⟨t, hrun, ht, htidle, hsel⟩ := h.scheduleCalls hidle ticks l'.size.toNat
    have hall : TurnRing.turns l'.size.toNat r = r.rest ++ [r.current] := by
      rw [hsize]
      exact r.turns_all
    refine ⟨t, _, hrun, htidle, hsel, ?_, ?_, ?_⟩
    · rw [hall, hsize]
      simp
    · intro U hU
      rw [hall, List.count_reverse]
      have hperm : (r.rest ++ [r.current]).Perm r.toList := List.perm_append_comm
      rw [hperm.count_eq]
      exact List.count_eq_one_of_mem r.nodup (h.mem_toList_iff.mpr hU)
    · rw [← ht.current, ← h.current]
      have hlast := TurnRing.turns_succ r.rest.length r
      rw [r.turns_all] at hlast
      rw [hsize]
      exact (List.singleton_inj.mp (List.append_inj' hlast rfl).2).symm

/-- Two tasks: the second is created, and then the first runs between two turns of the second. -/
theorem round_robin_without_bypass_two : ∃ s₀ s t,
    clearBoot.multitaskingInit firstAllocs = some s₀ ∧
    Run TurnStep s₀ ([] ++ [.create secondAllocs] ++ [.pick 1]) s ∧
    Run TurnStep s ([] ++ [.schedule] ++ [.pick 2] ++ [.schedule] ++ [.pick 3]) t ∧
    t.selected = 0x7000 :: [0x1000] ++ s.selected ∧ [(0x1000 : U32)].count 0x1000 = 1 := by
  obtain ⟨s₀, hs₀, hstart⟩ := Sched.started_multitaskingInit fresh_firstAllocs
  cases hs₀
  have hbefore := Run.snoc (.snoc (.nil _) (show TurnStep _ (.create secondAllocs) _ from
    ⟨.create hstart.phase ⟨rfl, by decide, rfl, by decide, by decide⟩ rfl,
      fun _ => SchedOp.noConfusion⟩)) (show TurnStep _ (.pick 1) _ from
    ⟨.pick rfl rfl, fun _ => SchedOp.noConfusion⟩)
  have hfirst := Run.snoc hbefore.start (show TurnStep _ .schedule _ from
    ⟨.schedule rfl, fun _ => SchedOp.noConfusion⟩)
  have hsecond := Run.snoc hfirst (show TurnStep _ (.pick 2) _ from
    ⟨.pick rfl rfl, fun _ => SchedOp.noConfusion⟩)
  have hthird := Run.snoc hsecond (show TurnStep _ .schedule _ from
    ⟨.schedule rfl, fun _ => SchedOp.noConfusion⟩)
  have hrun := Run.snoc hthird (show TurnStep _ (.pick 3) _ from
    ⟨.pick rfl rfl, fun _ => SchedOp.noConfusion⟩)
  exact ⟨_, _, _, rfl, hbefore, hrun, rfl,
    (round_robin_without_bypass hstart.wellFormed).1 _ _ _ _ _ _ [0x1000] hbefore hrun rfl rfl
      (by decide) (by decide) ⟨_, 0x6000, rfl, ⟨1, rfl, by decide⟩, rfl⟩⟩

end PiggyOS
