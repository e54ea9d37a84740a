import Procore.Process.FamilyRuns

/-! # Parents that wait for children

The family of processes with the state that the scheduler sees. A zombie can be reaped when its
CPU has switched away from it, after `do_exit` has told the parent: the parent is told a second
time by `proc_switch_complete`. Which process runs where is left open.
-/

namespace Procore.Process.Family

open Procore.Lib Option

/-- The states besides `PROC_ZOMBIE`, which is a field of the family. -/
inductive RunState where
  | uninit
  | runnable
  | sleeping
  | stopped
  deriving DecidableEq, Repr

inductive WaitState where
  | none
  /-- `WT_CHILD`, with the pid that the call waits for, 0 for any. -/
  | child (pid : Nat)
  | other (interruptible : Bool)
  deriving DecidableEq, Repr

def WaitState.interruptible : WaitState → Bool
  | .child _ => true
  | .other interruptible => interruptible
  | .none => false

def WaitState.isChild : WaitState → Bool
  | .child _ => true
  | _ => false

structure Task where
  state : RunState := .runnable
  wait : WaitState := .none
  /-- `signal_should_interrupt`. -/
  signalled : Bool := false
  /-- A `SIGCHLD` interrupts. -/
  catchesChild : Bool := false
  deriving DecidableEq, Repr

structure Waits where
  family : State
  tasks : Nat → Task
  /-- The processes for which a call of `wakeup_proc` is in progress. -/
  waking : List Nat

namespace Waits

def modifyTask (m : Waits) (q : Nat) (f : Task → Task) : Waits :=
  { m with tasks := Function.update m.tasks q (f (m.tasks q)) }

/-- What `do_exit` does for the parent of a zombie. -/
def notify (m : Waits) (q : Nat) : Waits :=
  let m := m.modifyTask q fun task => { task with signalled := task.signalled || task.catchesChild }
  let task := m.tasks q
  if task.state ≠ .stopped ∧ (task.wait.isChild ∨ task.wait.interruptible ∧ task.signalled) then
    { m.modifyTask q fun task => { task with state := .runnable, wait := .none } with
      waking := q :: m.waking }
  else m

/-- The same for `initproc` and the zombies among its new children. -/
def notifyInit (nodes : Nat → Node) : Nat → Option Nat → Waits → Waits
  | 0, _, m => m
  | _, none, m => m
  | fuel + 1, some proc, m =>
    notifyInit nodes fuel (nodes proc).optr (if (nodes proc).zombie then m.notify initproc else m)

def exit (m : Waits) (p : Nat) : Option Waits :=
  (m.family.step (.exit p)).map fun family =>
    let nodes := m.family.nodes
    let told := notifyInit (Family.modify nodes p fun node => { node with zombie := true })
      m.family.list.length (nodes p).cptr (m.notify (nodes p).parent)
    { told with family := family }

def hasKid (s : State) (p pid : Nat) : Bool :=
  if pid = 0 then (s.nodes p).cptr.isSome
  else if pid < maxPid then
    match s.hash.find? fun q => (s.nodes q).pid = pid with
    | some q => (s.nodes q).parent = p
    | none => false
  else false

/-- The section of `do_wait_options` and of `do_waitid`, `l` in the family. A signal that was
    seen before it has ended the call. -/
def wait (m : Waits) (l : Label) (p pid : Nat) (nohang : Bool) : Option Waits :=
  (m.family.step l).map fun family =>
    let next := { m with family := family }
    if m.family.zombieChild p pid = none ∧ hasKid m.family p pid ∧ nohang = false then
      next.modifyTask p fun task => { task with state := .sleeping, wait := .child pid }
    else next

/-- `proc_switch_complete` up to its calls of `wakeup_proc`. -/
def switchComplete (m : Waits) (p : Nat) : Option Waits :=
  (m.family.step (.switchComplete p)).map fun family =>
    let parent := (m.family.nodes p).parent
    { m with
      family := family
      waking := if (m.family.nodes p).zombie ∧ (m.tasks parent).wait.isChild then parent :: m.waking
        else m.waking }

def wakeupProc (m : Waits) (q : Nat) : Waits :=
  let task := m.tasks q
  if (m.family.nodes q).pid = 0 ∨ task.state = .stopped ∨ task.state = .runnable ∨
      (m.family.nodes q).zombie then m
  else m.modifyTask q fun task => { task with state := .runnable, wait := .none }

inductive Act where
  | exit (p : Nat)
  | waitOptions (p pid : Nat) (nohang : Bool)
  | waitid (p pid : Nat) (reap nohang : Bool)
  | switchComplete (p : Nat)
  /-- A call of `wakeup_proc` reaches its section. -/
  | wakeup (q : Nat)
  /-- `get_pid` gives a pid that is not in use. -/
  | link (p pid : Nat)
  | allocProc (p a : Nat)
  /-- The other sections of fork and wait, and `schedule`. -/
  | other (l : Label)
  /-- A process goes to sleep for something else. -/
  | sleep (p : Nat) (interruptible : Bool)
  /-- Something else calls `wakeup_proc`. -/
  | wake (q : Nat)
  /-- `sched_stop_locked`. -/
  | stop (q : Nat)
  /-- A signal interrupts or resumes a process, in `do_kill_signal`. -/
  | interrupt (q : Nat)
  | signals (q : Nat) (signalled catchesChild : Bool)

/-- The labels of the family that concern no other process. -/
def plain : Label → Bool
  | .reserve _ | .allocProc _ none | .forkFails _ | .unreserve _ | .free _ | .dispatch _ => true
  | _ => false

def step (m : Waits) : Act → Option Waits
  | .exit p => m.exit p
  | .waitOptions p pid nohang => m.wait (.waitOptions p pid) p pid nohang
  | .waitid p pid reap nohang => m.wait (.waitid p pid reap) p pid nohang
  | .switchComplete p => m.switchComplete p
  | .wakeup q => if q ∈ m.waking then some { m.wakeupProc q with waking := m.waking.erase q } else none
  | .link p pid =>
    if 0 < pid ∧ ∀ x ∈ m.family.list, (m.family.nodes x).pid ≠ pid then
      (m.family.step (.link p pid)).map fun family => { m with family := family }
    else none
  | .allocProc p a =>
    (m.family.step (.allocProc p (some a))).map fun family =>
      { m.modifyTask a fun _ => { state := .uninit } with family := family }
  | .other l =>
    if plain l then (m.family.step l).map fun family => { m with family := family } else none
  | .sleep p interruptible =>
    if m.family.Acts p then
      some (m.modifyTask p fun task => { task with state := .sleeping, wait := .other interruptible })
    else none
  | .wake q => some { m with waking := q :: m.waking }
  | .stop q => some (m.modifyTask q fun task => { task with state := .stopped, wait := .none })
  | .interrupt q =>
    some { m.modifyTask q fun task => { task with state := .runnable, wait := .none } with
      waking := q :: m.waking }
  | .signals q signalled catchesChild =>
    some (m.modifyTask q fun task =>
      { task with signalled := signalled, catchesChild := catchesChild })

def boot : Waits where
  family := State.boot
  tasks _ := {}
  waking := []

/-- The process sleeps in a wait call for `pid`. -/
def Asleep (m : Waits) (q pid : Nat) : Prop :=
  (m.tasks q).state = .sleeping ∧ (m.tasks q).wait = .child pid

/-- `q` sleeps in a wait call that its child `x` would end. -/
def Misses (m : Waits) (q x : Nat) : Prop :=
  q ∈ m.family.list ∧ (∃ pid, m.Asleep q pid ∧ (pid = 0 ∨ (m.family.nodes x).pid = pid)) ∧
    x ∈ m.family.list ∧ (m.family.nodes x).parent = q ∧ (m.family.nodes x).reapable = true

end Waits

/-! ## What a step of the family changes for others -/

section Names

variable (nodes : Nat → Node) (p x q : Nat)

theorem pushChild_name : (pushChild nodes p x q).pid = (nodes q).pid ∧
    (pushChild nodes p x q).onCpu = (nodes q).onCpu := by
  unfold pushChild
  cases (nodes p).cptr <;> grind [modify_apply]

theorem removeChild_name : (removeChild nodes x q).pid = (nodes q).pid ∧
    (removeChild nodes x q).onCpu = (nodes q).onCpu := by
  unfold removeChild
  cases (nodes x).optr <;> cases (nodes x).yptr <;> grind [modify_apply]

theorem adoptAll_name (fuel : Nat) : (adoptAll p fuel nodes q).pid = (nodes q).pid ∧
    (adoptAll p fuel nodes q).onCpu = (nodes q).onCpu := by
  induction fuel generalizing nodes with
  | zero => exact ⟨rfl, rfl⟩
  | succ fuel ih =>
    cases first : (nodes p).cptr with
    | none => simp only [adoptAll, first, and_self]
    | some child =>
      have one : (adopt nodes p q).pid = (nodes q).pid ∧ (adopt nodes p q).onCpu = (nodes q).onCpu := by
        simp only [adopt, first, pushChild_name]
        grind [modify_apply]
      simp only [adoptAll, first]
      exact ⟨(ih _).1.trans one.1, (ih _).2.trans one.2⟩

end Names

/-- The processes on the list as others see them, after a step. -/
structure Seen (s : State) (l : Label) (s' : State) : Prop where
  mem : ∀ x ∈ s'.list, x ∈ s.list ∨ (s'.nodes x).zombie = false ∧
    ∃ p, l = .link p (s'.nodes x).pid ∧ s.pcs p = .forking x
  pid : ∀ x ∈ s.list, (s'.nodes x).pid = (s.nodes x).pid
  parent : ∀ x ∈ s.list, (s'.nodes x).parent = (s.nodes x).parent ∨
    l = .exit (s.nodes x).parent ∧ (s'.nodes x).parent = initproc
  zombie : ∀ x ∈ s.list, (s'.nodes x).zombie = (s.nodes x).zombie ∨ l = .exit x
  onCpu : ∀ x ∈ s.list, (s'.nodes x).onCpu = (s.nodes x).onCpu ∨ (s'.nodes x).onCpu = true ∨
    l = .switchComplete x

variable {s : State} {l : Label}

theorem Seen.of_nodes {s' : State} (list : s'.list = s.list)
    (nodes : ∀ x ∈ s.list, s'.nodes x = s.nodes x) : Seen s l s' where
  mem x on := .inl (list ▸ on)
  pid x on := by rw [nodes x on]
  parent x on := .inl (by rw [nodes x on])
  zombie x on := .inl (by rw [nodes x on])
  onCpu x on := .inl (by rw [nodes x on])

theorem State.Inv.exit_seen (inv : s.Inv) {p : Nat} (ne : p ≠ initproc) :
    Seen s (.exit p) (s.exit p) := by
  obtain ⟨-, moved⟩ := inv.adopted ne
  have name (x : Nat) := adoptAll_name (Family.modify s.nodes p fun node => { node with zombie := true })
    p x s.list.length
  refine ⟨fun x on => .inl on, fun x on => ?_, fun x on => ?_, fun x on => ?_, fun x on => .inl ?_⟩
  · refine (name x).1.trans ?_
    rw [modify_apply]
    split_ifs <;> rfl
  · have parent := moved.parent x
    rw [modify_apply] at parent
    by_cases child : (s.nodes x).parent = p
    · exact .inr ⟨by rw [child], parent.1 ⟨on, by split_ifs <;> exact child⟩⟩
    · refine .inl ((parent.2 fun both => child ?_).trans ?_)
      · have := both.2
        split_ifs at this <;> exact this
      · split_ifs <;> rfl
  · by_cases same : x = p
    · exact .inr (by rw [same])
    · refine .inl ((moved.zombie x).trans ?_)
      rw [modify_apply, if_neg same]
  · refine (name x).2.trans ?_
    rw [modify_apply]
    split_ifs <;> rfl

theorem State.reap_seen {p x : Nat} :
    Seen s l ((s.removeLinks x).setPc p (.reaping x)) := by
  have rest := removeChild_rest s.nodes x
  have name := removeChild_name s.nodes x
  refine ⟨fun y on => .inl (List.mem_of_mem_erase on), fun y _ => (name y).1, fun y _ => .inl (rest y).1,
    fun y _ => .inl (rest y).2.1, fun y _ => .inl (name y).2⟩

theorem State.Inv.seen {s' : State} (inv : s.Inv) (go : s.step l = some s') :
    Seen s l s' := by
  have used {a : Nat} (free : s.live a = false) {x : Nat} (on : x ∈ s.list) : x ≠ a := by
    rintro rfl
    simp [inv.memory.live x on] at free
  simp only [State.step, inv.running, Bool.false_eq_true, if_false] at go
  cases l with try simp only at go
  | reserve p | unreserve p =>
    split_ifs at go
    all_goals cases go; exact .of_nodes rfl fun _ _ => rfl
  | allocProc p a =>
    cases a with simp only at go
    | none =>
      split_ifs at go
      cases go
      exact .of_nodes rfl fun _ _ => rfl
    | some a =>
      split_ifs at go with here
      cases go
      exact .of_nodes rfl fun x on => Function.update_of_ne (used here.2.2 on) ..
  | forkFails p | free p =>
    split at go
    · split_ifs at go
      cases go
      exact .of_nodes rfl fun _ _ => rfl
    · cases go
  | link p pid =>
    split at go
    · next a forking =>
        split_ifs at go with mem
        cases go
        have out := (inv.memory.held p mem a (by rw [forking]; rfl)).2.1
        have alive := (inv.memory.forking p mem a forking).2.2.1
        have name := pushChild_name (Family.modify s.nodes a fun node => { node with pid := pid })
        have rest := pushChild_rest (Family.modify s.nodes a fun node => { node with pid := pid })
        have other {x : Nat} (on : x ∈ s.list) : x ≠ a := fun same => out (same ▸ on)
        refine ⟨fun x on => ?_, fun x on => ?_, fun x on => .inl ?_, fun x on => .inl ?_,
          fun x on => .inl ?_⟩
        · rcases List.mem_cons.mp on with rfl | old
          · refine .inr ⟨?_, p, ?_, forking⟩ <;>
              simp [State.setLinks, name, rest, modify_apply, alive]
          · exact .inl old
        all_goals simp [State.setLinks, name, rest, modify_apply, other on]
    · cases go
  | exit p =>
    split_ifs at go with here
    cases go
    exact inv.exit_seen here.2.2
  | waitOptions p pid =>
    split_ifs at go
    split at go
    · split_ifs at go <;> cases go
      · exact .of_nodes rfl fun _ _ => rfl
      · exact State.reap_seen
    · cases go
      exact .of_nodes rfl fun _ _ => rfl
  | waitid p pid reap =>
    obtain ⟨-, done⟩ := Option.ite_none_right_eq_some.mp go
    split at done
    · split_ifs at done <;> cases done
      · exact State.reap_seen
      · exact .of_nodes rfl fun _ _ => rfl
    · cases done
      exact .of_nodes rfl fun _ _ => rfl
  | dispatch p =>
    split_ifs at go
    cases go
    refine ⟨fun x on => .inl on, fun x on => ?_, fun x on => .inl ?_, fun x on => .inl ?_, fun x on => ?_⟩
    all_goals simp only [modify_apply]
    all_goals split_ifs <;> simp
  | switchComplete p =>
    cases go
    refine ⟨fun x on => .inl on, fun x on => ?_, fun x on => .inl ?_, fun x on => .inl ?_, fun x on => ?_⟩
    all_goals simp only [modify_apply]
    all_goals split_ifs <;> simp_all

/-! ## No exit is missed -/

namespace Waits

variable {m m' : Waits} {q r x pid : Nat}

structure Good (m : Waits) : Prop where
  inv : m.family.Inv
  named : ∀ x ∈ m.family.list, (m.family.nodes x).pid ≠ 0
  unique : ∀ x ∈ m.family.list, ∀ y ∈ m.family.list,
    (m.family.nodes x).pid = (m.family.nodes y).pid → x = y
  /-- Who should be awake is being woken. -/
  told : ∀ q x, m.Misses q x → q ∈ m.waking

/-- Nobody goes to sleep, and no call is forgotten. -/
structure Rouses (m m' : Waits) : Prop where
  asleep : ∀ r pid, m'.Asleep r pid → m.Asleep r pid
  waking : ∀ r ∈ m.waking, r ∈ m'.waking

theorem Rouses.refl (m : Waits) : m.Rouses m := ⟨fun _ _ asleep => asleep, fun _ on => on⟩

/-- A task that is changed to one that does not sleep for a child. -/
theorem asleep_update {task : Task} (asleep : m'.Asleep r pid)
    (tasks : m'.tasks = Function.update m.tasks q task)
    (awake : task.state = .sleeping → task.wait.isChild = false) : m.Asleep r pid ∧ r ≠ q := by
  rw [Asleep, tasks] at asleep
  rcases eq_or_ne r q with rfl | other
  · rw [Function.update_self] at asleep
    have sleeps := awake asleep.1
    rw [asleep.2] at sleeps
    cases sleeps
  · rw [Function.update_of_ne other] at asleep
    exact ⟨asleep, other⟩

theorem rouses_notify (m : Waits) (q : Nat) :
    m.Rouses (m.notify q) ∧ ∀ pid, ¬ (m.notify q).Asleep q pid := by
  -- The signal alone changes no sleeper.
  have queued {r pid : Nat} (asleep : (m.modifyTask q fun task =>
      { task with signalled := task.signalled || task.catchesChild }).Asleep r pid) : m.Asleep r pid := by
    unfold Asleep modifyTask at *
    rcases eq_or_ne r q with rfl | other
    · simpa using asleep
    · simpa [other] using asleep
  unfold notify
  dsimp only
  split
  · refine ⟨⟨fun r pid asleep => ?_, fun r on => List.mem_cons_of_mem _ on⟩, fun pid asleep => ?_⟩
    · exact queued (asleep_update asleep rfl nofun).1
    · exact (asleep_update asleep rfl nofun).2 rfl
  · next quiet =>
      refine ⟨⟨fun r pid asleep => queued asleep, fun r on => on⟩, fun pid asleep => quiet ?_⟩
      rw [asleep.1, asleep.2]
      exact ⟨nofun, .inl rfl⟩

variable {nodes : Nat → Node} {before : Option Nat} {first : Option Nat}

theorem rouses_notifyInit {fuel : Nat} {kids : List Nat}
    (chain : Linked (fun q => (nodes q).optr) (fun q => (nodes q).yptr) before first kids)
    (enough : kids.length ≤ fuel) : m.Rouses (notifyInit nodes fuel first m) ∧
      ∀ x ∈ kids, (nodes x).zombie = true →
        ∀ pid, ¬ (notifyInit nodes fuel first m).Asleep initproc pid := by
  induction kids generalizing m fuel before first with
  | nil =>
    obtain rfl : first = none := chain
    have same : notifyInit nodes fuel none m = m := by cases fuel <;> rfl
    rw [same]
    exact ⟨.refl m, nofun⟩
  | cons y kids ih =>
    obtain ⟨rfl, _, rest⟩ := chain
    cases fuel with
    | zero => simp at enough
    | succ fuel =>
      rw [List.length_cons, Nat.succ_le_succ_iff] at enough
      obtain ⟨later, none⟩ := ih rest enough
      have now : m.Rouses (if (nodes y).zombie then m.notify initproc else m) := by
        split
        · exact (rouses_notify m initproc).1
        · exact .refl m
      refine ⟨⟨fun r pid asleep => now.asleep _ _ (later.asleep _ _ asleep),
        fun r on => later.waking r (now.waking r on)⟩, List.forall_mem_cons.mpr ⟨?_, none⟩⟩
      intro zombie pid asleep
      have first := later.asleep _ _ asleep
      rw [if_pos zombie] at first
      exact (rouses_notify m initproc).2 _ first

variable {l : Label}

/-- The names stay different. -/
theorem Good.names {f : State} (good : m.Good) (go : m.family.step l = some f)
    (fresh : ∀ p pid, l = .link p pid → 0 < pid ∧ ∀ x ∈ m.family.list, (m.family.nodes x).pid ≠ pid) :
    (∀ x ∈ f.list, (f.nodes x).pid ≠ 0) ∧
      ∀ x ∈ f.list, ∀ y ∈ f.list, (f.nodes x).pid = (f.nodes y).pid → x = y := by
  have seen := good.inv.seen go
  have apart {x y : Nat} (old : x ∈ m.family.list) (new : ∃ p, l = .link p (f.nodes y).pid ∧
      m.family.pcs p = .forking y) : (f.nodes x).pid ≠ (f.nodes y).pid := by
    obtain ⟨p, link, -⟩ := new
    rw [seen.pid x old]
    exact (fresh p _ link).2 x old
  constructor
  · intro x on
    rcases seen.mem x on with old | ⟨-, p, link, -⟩
    · rw [seen.pid x old]
      exact good.named x old
    · exact Nat.pos_iff_ne_zero.mp (fresh p _ link).1
  · intro x on y also same
    rcases seen.mem x on with old | ⟨-, new⟩
    · rcases seen.mem y also with old' | ⟨-, new'⟩
      · rw [seen.pid x old, seen.pid y old'] at same
        exact good.unique x old y old' same
      · exact absurd same (apart old new')
    rcases seen.mem y also with old' | ⟨-, new'⟩
    · exact absurd same.symm (apart old' new)
    · obtain ⟨p, link, forking⟩ := new
      obtain ⟨p', link', forking'⟩ := new'
      obtain ⟨rfl, -⟩ : p = p' ∧ _ := by simpa using link.symm.trans link'
      simpa using forking.symm.trans forking'

/-- Where a missed child can come from. -/
theorem Good.origin (good : m.Good) (go : m.family.step l = some m'.family)
    (misses : m'.Misses q x) (asleep : ∀ pid, m'.Asleep q pid → m.Asleep q pid) :
    m.Misses q x ∨ (l = .exit x ∧ (m.family.nodes x).parent = q) ∨
      (l = .exit (m.family.nodes x).parent ∧ q = initproc ∧ x ∈ m.family.list ∧
        ((m.family.nodes x).zombie = true ∨ l = .exit x)) ∨
      (l = .switchComplete x ∧ (m.family.nodes x).parent = q ∧ (m.family.nodes x).zombie = true) := by
  have seen := good.inv.seen go
  have idle := (good.inv.step go).shape.idle
  obtain ⟨listed, ⟨pid, sleeps, wanted⟩, on, parent, reapable⟩ := misses
  obtain ⟨zombie, off⟩ : (m'.family.nodes x).zombie = true ∧ (m'.family.nodes x).onCpu = false := by
    simpa [Node.reapable] using reapable
  have old : x ∈ m.family.list := by
    refine (seen.mem x on).resolve_right fun new => ?_
    simp [zombie] at new
  rw [seen.pid x old] at wanted
  have dead : (m.family.nodes x).zombie = true ∨ l = .exit x :=
    (seen.zombie x old).imp_left fun same => same.symm.trans zombie
  rcases seen.parent x old with same | ⟨exits, init⟩
  · rw [same] at parent
    have awake : q ∈ m.family.list := by
      rcases good.inv.shape.parentRuns x old with idle' | ⟨runs, -⟩
      · rw [← parent, idle'] at listed
        exact absurd listed idle
      · exact parent ▸ runs
    rcases dead with dead | exits
    · rcases seen.onCpu x old with same | now | switch
      · refine .inl ⟨awake, ⟨pid, asleep pid sleeps, wanted⟩, old, parent, ?_⟩
        rw [Node.reapable, dead, ← same, off]
        rfl
      · rw [off] at now
        cases now
      · exact .inr (.inr (.inr ⟨switch, parent, dead⟩))
    · exact .inr (.inl ⟨exits, parent⟩)
  · exact .inr (.inr (.inl ⟨exits, parent ▸ init, old, dead⟩))

/-- A step at which no process exits and no CPU switches. -/
theorem Good.calm (good : m.Good) (go : m.family.step l = some m'.family)
    (fresh : ∀ p pid, l = .link p pid → 0 < pid ∧ ∀ x ∈ m.family.list, (m.family.nodes x).pid ≠ pid)
    (still : ∀ p, l ≠ .exit p ∧ l ≠ .switchComplete p) (rouses : m.Rouses m') : m'.Good := by
  obtain ⟨named, unique⟩ := good.names go fresh
  refine ⟨good.inv.step go, named, unique, fun q x misses => rouses.waking q ?_⟩
  rcases good.origin go misses (rouses.asleep q) with before | ⟨exits, -⟩ | ⟨exits, -⟩ | ⟨switch, -⟩
  · exact good.told q x before
  · exact absurd exits (still _).1
  · exact absurd exits (still _).1
  · exact absurd switch (still _).2

theorem Good.rouse (good : m.Good) (same : m'.family = m.family) (rouses : m.Rouses m') : m'.Good := by
  obtain ⟨inv, named, unique, told⟩ := good
  refine ⟨same ▸ inv, same ▸ named, same ▸ unique, fun q x misses => rouses.waking q (told q x ?_)⟩
  rw [Misses, same] at misses
  obtain ⟨listed, ⟨pid, sleeps, wanted⟩, rest⟩ := misses
  exact ⟨listed, ⟨pid, rouses.asleep q pid sleeps, wanted⟩, rest⟩

variable {p : Nat}

theorem Good.exit (good : m.Good) (go : m.exit p = some m') : m'.Good := by
  obtain ⟨f, step, rfl⟩ := Option.map_eq_some_iff.mp go
  obtain ⟨named, unique⟩ := good.names step nofun
  obtain ⟨kids, forest⟩ := good.inv.shape.forest
  let marked := Family.modify m.family.nodes p fun node => { node with zombie := true }
  have chain : Linked (fun q => (marked q).optr) (fun q => (marked q).yptr) none
      (m.family.nodes p).cptr (kids p) := by
    refine (forest.linked p).frame (fun q _ => ?_) fun q _ => ?_
    all_goals
      simp only [marked, modify_apply]
      split_ifs <;> rfl
  obtain ⟨first, parent⟩ := rouses_notify m (m.family.nodes p).parent
  obtain ⟨later, init⟩ := rouses_notifyInit chain
    (State.Forest.length_le forest p)
  refine ⟨good.inv.step step, named, unique, fun q x misses => ?_⟩
  obtain ⟨pid, asleep, -⟩ := misses.2.1
  have before : ∀ pid, _ → m.Asleep q pid := fun pid asleep => first.asleep q pid (later.asleep q pid asleep)
  rcases good.origin step misses before with old | ⟨exits, same⟩ | ⟨exits, rfl, on, dead⟩ | ⟨switch, -⟩
  · exact later.waking q (first.waking q (good.told q x old))
  · cases exits
    exact absurd (later.asleep q pid asleep) (same ▸ parent pid)
  · -- The child was given to `initproc`, which has been told.
    obtain rfl : p = (m.family.nodes x).parent := by simpa using exits
    refine absurd asleep (init x ((forest.mem _ x).mpr ⟨on, rfl⟩) ?_ pid)
    simp only [marked, modify_apply]
    split_ifs with same
    · rfl
    · exact dead.resolve_right fun exits => same (by simpa using exits.symm)
  · cases switch

theorem Good.switchComplete (good : m.Good) (go : m.switchComplete p = some m') :
    m'.Good := by
  obtain ⟨f, step, rfl⟩ := map_eq_some_iff.mp go
  obtain ⟨named, unique⟩ := good.names step nofun
  refine ⟨good.inv.step step, named, unique, fun q x misses => ?_⟩
  obtain ⟨pid, asleep, -⟩ := misses.2.1
  rcases good.origin step misses fun _ asleep => asleep with old | ⟨exits, -⟩ | ⟨exits, -⟩ | ⟨switch, rfl, dead⟩
  · have before := good.told q x old
    dsimp only
    split
    · exact .tail _ before
    · exact before
  · cases exits
  · cases exits
  · cases switch
    have waits : (m.tasks (m.family.nodes p).parent).wait.isChild = true := by
      rw [asleep.2]
      rfl
    dsimp only
    rw [if_pos ⟨dead, waits⟩]
    exact .head _

theorem firstZombie_none {fuel : Nat} {kids : List Nat}
    (chain : Linked (fun q => (nodes q).optr) (fun q => (nodes q).yptr) before first kids)
    (enough : kids.length ≤ fuel) (none : firstZombie nodes fuel first = none) :
    ∀ x ∈ kids, (nodes x).reapable = false := by
  induction kids generalizing fuel before first with
  | nil => nofun
  | cons y kids ih =>
    obtain ⟨rfl, _, rest⟩ := chain
    cases fuel with
    | zero => simp at enough
    | succ fuel =>
      rw [List.length_cons, Nat.succ_le_succ_iff] at enough
      rw [firstZombie] at none
      split_ifs at none with here
      exact List.forall_mem_cons.mpr ⟨Bool.eq_false_iff.mpr here, ih rest enough none⟩

/-- A wait call that finds no child has none to find. -/
theorem Good.zombieChild_none (good : m.Good) (none : m.family.zombieChild p pid = none)
    (kid : hasKid m.family p pid = true) (on : x ∈ m.family.list) (parent : (m.family.nodes x).parent = p)
    (wanted : pid = 0 ∨ (m.family.nodes x).pid = pid) : (m.family.nodes x).reapable = false := by
  rw [State.zombieChild] at none
  rw [hasKid] at kid
  split_ifs at none with any small
  · obtain ⟨kids, forest⟩ := good.inv.shape.forest
    exact firstZombie_none (forest.linked p) (State.Forest.length_le forest p) none x
      ((forest.mem p x).mpr ⟨on, parent⟩)
  · have named := wanted.resolve_left any
    rw [good.inv.shape.hash] at none
    split at none
    · next y found =>
        have same := good.unique x on y (List.mem_of_find?_eq_some found) (by
          have := List.find?_some found
          simp_all)
        grind
    · next found =>
        have differs := List.find?_eq_none.mp found x on
        simp [named] at differs
  · rw [if_neg any, if_neg small] at kid
    cases kid

theorem Good.wait (good : m.Good) {nohang : Bool}
    (kind : l = .waitOptions p pid ∨ ∃ reap, l = .waitid p pid reap)
    (go : m.wait l p pid nohang = some m') : m'.Good := by
  obtain ⟨f, step, made⟩ := Option.map_eq_some_iff.mp go
  have calm : Good { m with family := f } := by
    refine good.calm step ?_ ?_ ⟨fun _ _ h => h, fun _ h => h⟩
    all_goals rcases kind with rfl | ⟨reap, rfl⟩ <;> simp
  split_ifs at made with sleeps
  · obtain ⟨none, kid, -⟩ := sleeps
    have same : f = m.family := by
      rcases kind with rfl | ⟨reap, rfl⟩
      all_goals
        simp only [State.step, good.inv.running, none] at step
        simp at step
        exact step.2.symm
    subst same
    subst made
    refine ⟨good.inv, good.named, good.unique, fun q x misses => ?_⟩
    obtain ⟨listed, ⟨pid', asleep, wanted⟩, on, parent, reapable⟩ := misses
    rcases eq_or_ne q p with rfl | other
    · have mine : pid' = pid := by
        have := asleep.2
        simpa [modifyTask] using this.symm
      have alive := good.zombieChild_none none kid on parent (mine ▸ wanted)
      cases alive.symm.trans reapable
    · refine good.told q x ⟨listed, ⟨pid', ?_, wanted⟩, on, parent, reapable⟩
      simpa [Asleep, modifyTask, other] using asleep
  · exact made ▸ calm

theorem Good.wakeup (good : m.Good) : Good { m.wakeupProc q with waking := m.waking.erase q } := by
  obtain ⟨same, asleep⟩ : (m.wakeupProc q).family = m.family ∧
      ∀ r pid, (m.wakeupProc q).Asleep r pid → m.Asleep r pid ∧ (r = q → (m.family.nodes q).pid = 0 ∨
        (m.family.nodes q).zombie = true) := by
    unfold wakeupProc
    dsimp only
    split
    · next stays =>
        refine ⟨rfl, fun r pid asleep => ⟨asleep, ?_⟩⟩
        rintro rfl
        simpa [asleep.1] using stays
    · refine ⟨rfl, fun r pid asleep => ?_⟩
      obtain ⟨before, other⟩ := asleep_update asleep rfl nofun
      exact ⟨before, fun same => absurd same other⟩
  refine ⟨same ▸ good.inv, same ▸ good.named, same ▸ good.unique, fun r x misses => ?_⟩
  rw [Misses, show Waits.family { m.wakeupProc q with waking := m.waking.erase q } = m.family from same] at misses
  obtain ⟨listed, ⟨pid, sleeps, wanted⟩, on, rfl, reapable⟩ := misses
  obtain ⟨before, mine⟩ := asleep _ pid sleeps
  have waking := good.told _ x ⟨listed, ⟨pid, before, wanted⟩, on, rfl, reapable⟩
  refine (List.mem_erase_of_ne fun here => ?_).mpr waking
  rcases mine here with noPid | zombie
  · exact good.named q (here ▸ listed) noPid
  · rcases good.inv.shape.parentRuns x on with idle | ⟨-, runs⟩
    · exact good.inv.shape.idle (idle ▸ listed)
    · rw [here, zombie] at runs
      cases runs

theorem Good.step (good : m.Good) {a : Act} (go : m.step a = some m') : m'.Good := by
  cases a with
  | exit p => exact good.exit go
  | waitOptions p pid nohang => exact good.wait (.inl rfl) go
  | waitid p pid reap nohang => exact good.wait (.inr ⟨reap, rfl⟩) go
  | switchComplete p => exact good.switchComplete go
  | wakeup q =>
    obtain ⟨-, made⟩ := ite_none_right_eq_some.mp go
    cases made
    exact good.wakeup
  | link p pid =>
    obtain ⟨fresh, made⟩ := ite_none_right_eq_some.mp go
    obtain ⟨f, step, rfl⟩ := map_eq_some_iff.mp made
    refine good.calm step (fun p' pid' same => ?_) (by simp) ⟨fun _ _ h => h, fun _ h => h⟩
    cases same
    exact fresh
  | allocProc p a =>
    obtain ⟨f, step, rfl⟩ := map_eq_some_iff.mp go
    refine good.calm step nofun (by simp) ⟨fun r pid asleep => ?_, fun _ h => h⟩
    exact (asleep_update asleep rfl nofun).1
  | other l =>
    obtain ⟨quiet, made⟩ := ite_none_right_eq_some.mp go
    obtain ⟨f, step, rfl⟩ := map_eq_some_iff.mp made
    refine good.calm step ?_ ?_ ⟨fun _ _ h => h, fun _ h => h⟩
    · rintro p pid rfl
      cases quiet
    · refine fun p => ⟨?_, ?_⟩ <;> rintro rfl <;> cases quiet
  | sleep p interruptible =>
    obtain ⟨-, made⟩ := ite_none_right_eq_some.mp go
    cases made
    exact good.rouse rfl ⟨fun r pid asleep => (asleep_update asleep rfl fun _ => rfl).1, fun _ h => h⟩
  | wake q =>
    cases go
    exact good.rouse rfl ⟨fun _ _ h => h, fun _ => List.mem_cons_of_mem _⟩
  | stop q =>
    cases go
    exact good.rouse rfl ⟨fun r pid asleep => (asleep_update asleep rfl nofun).1, fun _ h => h⟩
  | interrupt q =>
    cases go
    exact good.rouse rfl ⟨fun r pid asleep => (asleep_update asleep rfl nofun).1,
      fun _ => List.mem_cons_of_mem _⟩
  | signals q signalled catchesChild =>
    cases go
    refine good.rouse rfl ⟨fun r pid asleep => ?_, fun _ h => h⟩
    unfold Asleep modifyTask at *
    rcases eq_or_ne r q with rfl | other
    · simpa using asleep
    · simpa [other] using asleep

theorem good_boot : boot.Good := by
  refine ⟨State.inv_boot, ?_, ?_, fun q x misses => ?_⟩
  · decide
  · decide
  · obtain ⟨-, ⟨pid, asleep, -⟩, -⟩ := misses
    cases asleep.1

/-- In every state of every run, nobody for whom no call of `wakeup_proc` is in progress sleeps in
    a wait call that a child would end. -/
theorem no_exit_missed {acts : List Act} (run : runFrom step boot acts = some m)
    (quiet : q ∉ m.waking) : ¬ m.Misses q x := fun misses =>
  quiet ((runFrom_always (fun _ _ _ good go => Good.step good go) good_boot run).told q x misses)

/-- `initproc` waits for its child, is woken by the exit, finds the child still on its CPU, sleeps
    again and is woken by the switch. -/
theorem no_exit_missed_twice : ∃ m, runFrom step boot [.other (.reserve 1), .allocProc 1 2, .link 1 2,
      .other (.dispatch 2), .waitOptions 1 2 false, .exit 2, .wakeup 1, .waitOptions 1 2 false,
      .switchComplete 2, .wakeup 1] = some m ∧
    (m.family.nodes 2).reapable = true ∧ 1 ∉ m.waking ∧ ¬ m.Misses 1 2 := by
  refine exists_run_test (fun m => (m.family.nodes 2).reapable = true ∧ 1 ∉ m.waking)
    (by decide +kernel) ?_
  intro m run ⟨reapable, quiet⟩
  exact ⟨reapable, quiet, no_exit_missed run quiet⟩

end Waits

end Procore.Process.Family
