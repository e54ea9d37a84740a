import Mathlib.Data.List.Count
import Procore.Lib.Run
import Procore.Lib.Siblings

/-! # The process family

`fork`, `exit` and the wait calls keep the children of a process on a doubly linked list:
`cptr` is the youngest child, `optr` leads to the older siblings and `yptr` back. Each section
under `proc_lock` is one step. A process structure is named by its address.
-/

namespace Procore.Process.Family

open Procore.Lib
open Function

def maxProcess : Int := 4096

def maxPid : Nat := 4096 * 2

def idleproc : Nat := 0
def initproc : Nat := 1

/-- The fields of `struct proc_struct` that make up the family. -/
structure Node where
  pid : Nat := 0
  zombie : Bool := false
  onCpu : Bool := false
  parent : Nat := idleproc
  cptr : Option Nat := none
  optr : Option Nat := none
  yptr : Option Nat := none
  /-- Who forked the process. -/
  creator : Nat := idleproc

/-- Where a process stands in a call that takes `proc_lock` more than once. -/
inductive Pc where
  | run
  /-- `do_fork_with_entry` has counted a process that does not exist yet. -/
  | reserved
  | forking (child : Nat)
  /-- The fork has failed; `nr_process--` comes next. -/
  | failed
  /-- A wait call has unlinked a child; `kfree` comes next. -/
  | reaping (child : Nat)
  /-- In the last `schedule` of `do_exit`. -/
  | exited
  deriving DecidableEq, Repr

def Pc.inFork : Pc → Bool
  | .reserved | .forking _ | .failed => true
  | .run | .reaping _ | .exited => false

/-- The process structure that only the caller knows. -/
def Pc.holds : Pc → Option Nat
  | .forking child | .reaping child => some child
  | .run | .reserved | .failed | .exited => none

structure State where
  nodes : Nat → Node
  /-- `proc_list`. -/
  list : List Nat
  /-- The processes on `hash_list`. -/
  hash : List Nat
  nrProcess : Int
  pcs : Nat → Pc := fun _ => .run
  /-- The address is allocated. -/
  live : Nat → Bool
  halted : Bool := false
  /-- How often the structure at an address has exited, was unlinked and was freed by a wait. -/
  exits : Nat → Nat := fun _ => 0
  unlinks : Nat → Nat := fun _ => 0
  frees : Nat → Nat := fun _ => 0

def modify (nodes : Nat → Node) (a : Nat) (f : Node → Node) : Nat → Node :=
  update nodes a (f (nodes a))

/-- `proc` becomes the youngest child of `parent`. -/
def pushChild (nodes : Nat → Node) (parent proc : Nat) : Nat → Node :=
  let first := (nodes parent).cptr
  let linked := modify nodes proc fun node => { node with yptr := none, optr := first }
  let joined := match first with
    | none => linked
    | some older => modify linked older fun node => { node with yptr := some proc }
  modify joined parent fun node => { node with cptr := some proc }

def removeChild (nodes : Nat → Node) (proc : Nat) : Nat → Node :=
  let node := nodes proc
  let joined := match node.optr with
    | none => nodes
    | some older => modify nodes older fun o => { o with yptr := node.yptr }
  match node.yptr with
  | some younger => modify joined younger fun y => { y with optr := node.optr }
  | none => modify joined node.parent fun p => { p with cptr := node.optr }

/-- One round of the loop of `do_exit` that gives the children to `initproc`. -/
def adopt (nodes : Nat → Node) (current : Nat) : Nat → Node :=
  match (nodes current).cptr with
  | none => nodes
  | some proc =>
    let taken := modify nodes current fun node => { node with cptr := (nodes proc).optr }
    pushChild (modify taken proc fun node => { node with parent := initproc }) initproc proc

def adoptAll (current : Nat) : Nat → (Nat → Node) → Nat → Node
  | 0, nodes => nodes
  | fuel + 1, nodes =>
    match (nodes current).cptr with
    | none => nodes
    | some _ => adoptAll current fuel (adopt nodes current)

def Node.reapable (node : Node) : Bool := node.zombie && !node.onCpu

/-- The walk of the wait calls along `optr`. -/
def firstZombie (nodes : Nat → Node) : Nat → Option Nat → Option Nat
  | _, none => none
  | 0, some _ => none
  | fuel + 1, some proc =>
    if (nodes proc).reapable then some proc else firstZombie nodes fuel (nodes proc).optr

inductive Label where
  /-- The first section of `do_fork_with_entry`. -/
  | reserve (p : Nat)
  /-- `alloc_proc` and what follows up to the next section; `none` when memory is short. -/
  | allocProc (p : Nat) (a : Option Nat)
  /-- `setup_kstack`, `copy_fs` or `copy_mm` has failed; the structure is freed. -/
  | forkFails (p : Nat)
  | unreserve (p : Nat)
  /-- The section that gives the child a pid and links it. -/
  | link (p pid : Nat)
  | exit (p : Nat)
  | waitOptions (p pid : Nat)
  | waitid (p pid : Nat) (reap : Bool)
  /-- `put_kstack` and `kfree` at the end of a wait call. -/
  | free (p : Nat)
  | dispatch (p : Nat)
  /-- `proc_switch_complete` clears `on_cpu`. -/
  | switchComplete (p : Nat)

namespace State

def setPc (s : State) (p : Nat) (pc : Pc) : State := { s with pcs := update s.pcs p pc }

/-- A process on the list that is in none of the calls. -/
def Acts (s : State) (p : Nat) : Prop := p ∈ s.list ∧ s.pcs p = .run

instance (s : State) (p : Nat) : Decidable (s.Acts p) := inferInstanceAs (Decidable (_ ∧ _))

def setLinks (s : State) (proc : Nat) : State :=
  { s with
    hash := proc :: s.hash
    list := proc :: s.list
    nodes := pushChild s.nodes (s.nodes proc).parent proc }

/-- `unhash_proc` and `remove_links`. -/
def removeLinks (s : State) (proc : Nat) : State :=
  { s with
    hash := s.hash.erase proc
    list := s.list.erase proc
    nodes := removeChild s.nodes proc
    nrProcess := s.nrProcess - 1
    unlinks := update s.unlinks proc (s.unlinks proc + 1) }

def exit (s : State) (p : Nat) : State :=
  let nodes := modify s.nodes p fun node => { node with zombie := true }
  { s with
    nodes := adoptAll p s.list.length nodes
    pcs := update s.pcs p .exited
    exits := update s.exits p (s.exits p + 1) }

/-- The child that a wait call of `p` finds, any child for `pid = 0`. -/
def zombieChild (s : State) (p pid : Nat) : Option Nat :=
  if pid = 0 then firstZombie s.nodes s.list.length (s.nodes p).cptr
  else if pid < maxPid then
    match s.hash.find? fun q => (s.nodes q).pid = pid with
    | some q => if (s.nodes q).parent = p ∧ (s.nodes q).reapable then some q else none
    | none => none
  else none

def step (s : State) (l : Label) : Option State :=
  if s.halted then none
  else match l with
    | .reserve p =>
      if s.Acts p then
        if s.nrProcess < maxProcess then
          some { s.setPc p .reserved with nrProcess := s.nrProcess + 1 }
        else some s
      else none
    | .allocProc p none =>
      if p ∈ s.list ∧ s.pcs p = .reserved then some (s.setPc p .failed) else none
    | .allocProc p (some a) =>
      if p ∈ s.list ∧ s.pcs p = .reserved ∧ s.live a = false then
        some { (s.setPc a .run).setPc p (.forking a) with
          live := update s.live a true
          nodes := update s.nodes a { parent := p, creator := p } }
      else none
    | .forkFails p =>
      match s.pcs p with
      | .forking a =>
        if p ∈ s.list then
          some { s.setPc p .failed with live := update s.live a false }
        else none
      | _ => none
    | .unreserve p =>
      if p ∈ s.list ∧ s.pcs p = .failed then
        some { s.setPc p .run with nrProcess := s.nrProcess - 1 }
      else none
    | .link p pid =>
      match s.pcs p with
      | .forking a =>
        if p ∈ s.list then
          some ({ s.setPc p .run with
            nodes := modify s.nodes a fun node => { node with pid := pid } }.setLinks a)
        else none
      | _ => none
    | .exit p => if s.Acts p ∧ p ≠ idleproc ∧ p ≠ initproc then some (s.exit p) else none
    | .waitOptions p pid =>
      if s.Acts p then
        match s.zombieChild p pid with
        | some proc =>
          if proc = idleproc ∨ proc = initproc then some { s with halted := true }
          else some ((s.removeLinks proc).setPc p (.reaping proc))
        | none => some s
      else none
    | .waitid p pid reap =>
      if s.Acts p then
        match s.zombieChild p pid with
        | some proc =>
          if reap then some ((s.removeLinks proc).setPc p (.reaping proc)) else some s
        | none => some s
      else none
    | .free p =>
      match s.pcs p with
      | .reaping a =>
        if p ∈ s.list then
          some { s.setPc p .run with
            live := update s.live a false
            frees := update s.frees a (s.frees a + 1) }
        else none
      | _ => none
    | .dispatch p =>
      if (s.nodes p).zombie = false then
        some { s with nodes := modify s.nodes p fun node => { node with onCpu := true } }
      else none
    | .switchComplete p =>
      some { s with nodes := modify s.nodes p fun node => { node with onCpu := false } }

/-- After `proc_init`: `idleproc` has forked `initproc`. -/
def boot : State :=
  { nodes := pushChild (fun a => { pid := if a = initproc then 1 else 0 }) idleproc initproc
    list := [initproc]
    hash := [initproc]
    nrProcess := 2
    live := fun a => a == idleproc || a == initproc }

def forks (s : State) : Nat := s.list.countP fun p => (s.pcs p).inFork

/-- The family links and the counts around them. -/
structure Consistent (s : State) : Prop where
  /-- The chain from `cptr` along `optr` visits the children once each and ends. -/
  chain : ∀ p, ∃ kids : List Nat,
    Linked (fun q => (s.nodes q).optr) (fun q => (s.nodes q).yptr) none (s.nodes p).cptr kids ∧
      kids.Nodup ∧ ∀ q, q ∈ kids ↔ q ∈ s.list ∧ (s.nodes q).parent = p
  inverse : ∀ q ∈ s.list, ∀ r ∈ s.list, (s.nodes q).optr = some r ↔ (s.nodes r).yptr = some q
  parent : ∀ q ∈ s.list, (s.nodes q).parent = (s.nodes q).creator ∨ (s.nodes q).parent = initproc
  /-- Nobody is the child of a zombie or of a process that is gone. -/
  parentRuns : ∀ q ∈ s.list, (s.nodes q).parent = idleproc ∨
    ((s.nodes q).parent ∈ s.list ∧ (s.nodes (s.nodes q).parent).zombie = false)
  count : s.nrProcess = s.list.length + 1 + s.forks
  /-- A zombie is unlinked once, unless it is still on the list. -/
  unlinkedOnce : ∀ a, s.exits a =
    s.unlinks a + if a ∈ s.list ∧ (s.nodes a).zombie = true then 1 else 0
  /-- What was unlinked is freed once, unless its waiter is about to do so. -/
  freedOnce : ∀ a, (s.unlinks a = s.frees a ∧ ∀ p ∈ s.list, s.pcs p ≠ .reaping a) ∨
    (s.unlinks a = s.frees a + 1 ∧ ∃ p ∈ s.list, s.pcs p = .reaping a)

end State

end Procore.Process.Family
