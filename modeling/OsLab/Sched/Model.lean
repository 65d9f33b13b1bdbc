import Mathlib.Data.List.FinRange
import OsLab.Lib.Bytes
import OsLab.Lib.Prog
import OsLab.Lib.Ring

/-!
# Tasks, queues and locks

The functions of `kernel/sched/sched.c`, `kernel/sched/time.c` and `kernel/locking/lock.c`. A task
is in at most one of the kernel's queues, and the queues are circular lists through the pointers
`pcb[i].list`. The functions reach these pointers only by the few list operations of `Op`, so they
are programs over `Op` with the kernel's variables `Kernel` as their memory. `pointers` gives `Op`
its meaning in the source, assignment by assignment.

The kernel is not preempted: a system call runs alone until it returns or calls `do_scheduler`.
Where a blocked task goes on once it is switched to again is its `Resume`; going on is a step of its
own (`Action.resume`). Two harts share the kernel under `whole_kernel_lock`.

`stop` stands for a call that does not come back as C defines it: a null pointer followed, a
list walked without end, a signed overflow, or bytes copied past the end of a mailbox.
-/

namespace OsLab.Sched

open Lib

/-- `NUM_MAX_TASK`. -/
def NUM_MAX_TASK : ℕ := 16

/-- `LOCK_NUM`, and the number of barriers, conditions and mailboxes. -/
def LOCK_NUM : ℕ := 16

/-- `MAX_MBOX_LENGTH`. -/
def MAX_MBOX_LENGTH : ℕ := 64

/-- An index of `pcb`. -/
abbrev Slot := Fin NUM_MAX_TASK

/-- An index of `mlocks`, `barrier`, `condition` or `mailbox`. -/
abbrev Handle := Fin LOCK_NUM

/-- A hart. -/
abbrev Hart := Fin 2

instance lawfulBEq_slot : LawfulBEq Slot := inferInstance

instance neZero_hart : NeZero 2 := ⟨by decide⟩

theorem lock_num_pos : 0 < LOCK_NUM := by decide

/-! ### Queues -/

/-- The list heads. -/
inductive Queue where
  | ready_queue
  | sleep_queue
  /-- `pcb[i].block_queue`. -/
  | wait (i : Slot)
  /-- `mlocks[k].block_queue`. -/
  | mutex (k : Handle)
  /-- `barrier[k].block_queue`. -/
  | barrier (k : Handle)
  /-- `condition[k].block_queue`. -/
  | condition (k : Handle)
  /-- `mailbox[k].full_queue`. -/
  | full (k : Handle)
  /-- `mailbox[k].empty_queue`. -/
  | empty (k : Handle)
  deriving DecidableEq

/-- What a list pointer points to. -/
inductive Node where
  /-- `&pcb[i].list`. -/
  | task (i : Slot)
  /-- A list head. -/
  | head (q : Queue)
  deriving DecidableEq

/-- What the functions below ask of the lists and of the memory manager. -/
inductive Op where
  /-- `n->next`, where `n` belongs to `q`. -/
  | next (q : Queue) (n : Node)
  /-- `pcb[i].list.next != NULL`. -/
  | linked (i : Slot)
  /-- Put `pcb[i].list` at the tail of `q`. -/
  | enqueue (i : Slot) (q : Queue)
  /-- Take `pcb[i].list` out of its queue. -/
  | unlink (i : Slot)
  /-- `q.next = q.prev = &q`. -/
  | init (q : Queue)
  /-- The pages that `do_exec` sets up for a new process. -/
  | processPages (i : Slot) (pid : Int32) (task : ℕ)
  /-- The pages that `do_pthread_create` sets up for a new thread. -/
  | threadPages (i : Slot) (pid thread : Int32)
  /-- `release_process_page(&pcb[i])`. -/
  | releasePages (i : Slot) (pid : Int32)

/-- What is answered. -/
@[reducible] def Op.Res : Op → Type
  | .next .. => Node
  | .linked _ => Bool
  | _ => Unit

/-- The list operations as the source writes them. The memory manager has its own model. -/
def pointers : Handler Op Op.Res (Links Node)
  | .next _ n, L => (L.next n).map (·, L)
  | .linked i, L => some ((L.next (.task i)).isSome, L)
  | .enqueue i q, L => do
    let tail ← L.prev (.head q)
    some ((), (((L.setNext tail (some (.task i))).setPrev (.task i) (some tail)).setPrev (.head q)
      (some (.task i))).setNext
      (.task i) (some (.head q)))
  | .unlink i, L => do
    let next_node ← L.next (.task i)
    let prev_node ← L.prev (.task i)
    some ((), (((L.setNext (.task i) none).setPrev (.task i) none).setPrev next_node (some prev_node)).setNext
      prev_node (some next_node))
  | .init q, L => some ((), L.selfLink (.head q))
  | .processPages .., L => some ((), L)
  | .threadPages .., L => some ((), L)
  | .releasePages .., L => some ((), L)

/-! ### Variables -/

/-- `task_status_t`. -/
inductive TaskStatus where
  | TASK_BLOCKED
  | TASK_RUNNING
  | TASK_READY
  | TASK_EXITED
  deriving DecidableEq, Repr

/-- `pcb_t`: the fields that the functions below read. -/
structure Pcb where
  pid : Int32
  status : TaskStatus
  wakeup_time : UInt64
  current_cpu_id : UInt64
  cpu_mask : UInt64
  pthread_id : Int32

/-- `mutex_lock_t`, without its queue. -/
structure MutexLock where
  /-- `lock.status == LOCKED`. -/
  locked : Bool
  /-- The process that holds the mutex. -/
  pid : Int32
  key : ℤ

/-- `barrier_t`, without its queue. -/
structure Barrier where
  key : ℤ
  goal : ℤ
  counter : ℤ
  /-- `status == BAR_ACTIVE`. -/
  active : Bool

/-- `condition_t`, without its queue. -/
structure Condition where
  key : ℤ
  /-- `status == COND_ACTIVE`. -/
  active : Bool

/-- A string that fits a field of 32 bytes. -/
abbrev Name := { cs : List UInt8 // cs.length < 32 }

theorem length_nil_lt : ([] : List UInt8).length < 32 := by decide

/-- `mailbox_t`, without its queues. -/
structure Mailbox where
  /-- `status == MBOX_ACTIVE`. -/
  active : Bool
  /-- `open == MBOX_OPEN`. -/
  isOpen : Bool
  name : Name
  buffer : ℕ → UInt8
  /-- The first invalid byte of `buffer`. -/
  buffer_idx : ℤ
  cite_num : ℤ

/-- Where a task goes on in the kernel when it is switched to. -/
inductive Resume where
  /-- It runs in user mode. -/
  | user
  /-- Its system call returns `v`. -/
  | ret (v : ℤ)
  /-- The loop of `do_mutex_lock_acquire(k)`. -/
  | acquire (k : Handle)
  /-- The loop of `do_mbox_send(k, msg, msg_length)`. -/
  | send (k : Handle) (msg_length blockedCount : ℤ)
  /-- The loop of `do_mbox_recv(k, msg, msg_length)`. -/
  | recv (k : Handle) (msg_length blockedCount : ℤ)
  deriving DecidableEq

/-- What the history of a run records. -/
inductive Event where
  /-- `do_mutex_lock_acquire(k)` returns to task `i`. -/
  | acquired (i : Slot) (k : Handle)
  /-- Task `i` releases mutex `k`, by itself or in `do_condition_wait`. -/
  | released (i : Slot) (k : Handle)
  /-- Task `i` exits or is killed. -/
  | ended (i : Slot)
  /-- `do_mbox_open` activates mailbox `k`. -/
  | activated (k : Handle)
  /-- A `do_mbox_send` on mailbox `k` completes with this message. -/
  | sent (k : Handle) (msg : List UInt8)
  /-- A `do_mbox_recv` on mailbox `k` completes with these bytes. -/
  | received (k : Handle) (msg : List UInt8)
  deriving DecidableEq

/-- The variables of the kernel. -/
structure Kernel where
  pcb : Slot → Pcb
  /-- What the kernel stack of a task says. -/
  resume : Slot → Resume
  /-- The value returned by the last system call of a task. -/
  a0 : Slot → ℤ
  /-- The running task of a hart; `none` is the hart's own `pid0` PCB. -/
  current_running : Hart → Option Slot
  process_id : Int32
  /-- The names in `tasks`. -/
  tasks : List Name
  mlocks : Handle → MutexLock
  last_lockid : ℕ
  barrier : Handle → Barrier
  condition : Handle → Condition
  mailbox : Handle → Mailbox
  /-- What the coming calls of `get_timer` answer. -/
  clock : ℕ → UInt64
  /-- The history of the run, the newest event last. -/
  log : List Event

/-- Programs of the kernel. -/
abbrev SchedM := ProgM Kernel Op Op.Res

open ProgM

/-! ### Access to variables -/

/-- `if (c) x;` -/
def ifThen (c : Prop) [Decidable c] (x : SchedM Unit) : SchedM Unit := if c then x else pure ()

/-- Change `pcb[i]`. -/
def setPcb (i : Slot) (f : Pcb → Pcb) : SchedM Unit :=
  modify fun s => { s with pcb := Function.update s.pcb i (f (s.pcb i)) }

/-- `pcb[i].status = st`. -/
def setStatus (i : Slot) (st : TaskStatus) : SchedM Unit := setPcb i fun p => { p with status := st }

/-- Note where task `i` will go on. -/
def setResume (i : Slot) (r : Resume) : SchedM Unit :=
  modify fun s => { s with resume := Function.update s.resume i r }

/-- `current_running = c`. -/
def setCurrent (h : Hart) (c : Option Slot) : SchedM Unit :=
  modify fun s => { s with current_running := Function.update s.current_running h c }

/-- Change `mlocks[k]`. -/
def setMlock (k : Handle) (m : MutexLock) : SchedM Unit :=
  modify fun s => { s with mlocks := Function.update s.mlocks k m }

/-- Change `barrier[k]`. -/
def setBarrier (k : Handle) (b : Barrier) : SchedM Unit :=
  modify fun s => { s with barrier := Function.update s.barrier k b }

/-- Change `condition[k]`. -/
def setCondition (k : Handle) (c : Condition) : SchedM Unit :=
  modify fun s => { s with condition := Function.update s.condition k c }

/-- Change `mailbox[k]`. -/
def setMailbox (k : Handle) (m : Mailbox) : SchedM Unit :=
  modify fun s => { s with mailbox := Function.update s.mailbox k m }

/-- Add to the history. -/
def record (e : Event) : SchedM Unit := modify fun s => { s with log := s.log ++ [e] }

/-- The system call of task `i` returns `v`. -/
def finish (i : Slot) (v : ℤ) : SchedM Unit :=
  modify fun s => { s with a0 := Function.update s.a0 i v, resume := Function.update s.resume i .user }

/-- `get_timer()`. -/
def get_timer : SchedM UInt64 := do
  let s ← get
  modify fun s => { s with clock := fun n => s.clock (n + 1) }
  pure (s.clock 0)

/-- `n->next`, where `n` belongs to `q`. -/
def nextNode (q : Queue) (n : Node) : SchedM Node := perform (Op.next q n)

/-- `pcb[i].list.next != NULL`. -/
def isLinked (i : Slot) : SchedM Bool := perform (Op.linked i)

/-- The four assignments that put a task at the tail of a queue. -/
def enqueue (i : Slot) (q : Queue) : SchedM Unit := perform (Op.enqueue i q)

/-- The four assignments that take a task out of its queue. -/
def unlink (i : Slot) : SchedM Unit := perform (Op.unlink i)

/-- `q.next = &q; q.prev = &q;` -/
def initQueue (q : Queue) : SchedM Unit := perform (Op.init q)

/-- The pages of a new process. -/
def processPages (i : Slot) (pid : Int32) (task : ℕ) : SchedM Unit := perform (Op.processPages i pid task)

/-- The pages of a new thread. -/
def threadPages (i : Slot) (pid thread : Int32) : SchedM Unit := perform (Op.threadPages i pid thread)

/-- `if (pcb[i].pthread_id == 0) release_process_page(&pcb[i]);` -/
def releasePages (i : Slot) : SchedM Unit := do
  let s ← get
  ifThen ((s.pcb i).pthread_id = 0) (perform (Op.releasePages i (s.pcb i).pid))

/-! ### The scheduler -/

/-- `add_readyqueue(&pcb[i])`. -/
def add_readyqueue (i : Slot) : SchedM Unit := do
  setStatus i .TASK_READY
  enqueue i .ready_queue

/-- `remove_readyqueue(&pcb[i])`. -/
def remove_readyqueue (i : Slot) : SchedM Unit := unlink i

/-- `do_block(&pcb[i].list, &q)`. -/
def do_block (i : Slot) (q : Queue) : SchedM Unit := do
  enqueue i q
  setStatus i .TASK_BLOCKED

/-- `do_unblock(&pcb[i].list)`. -/
def do_unblock (i : Slot) : SchedM Unit := do
  unlink i
  add_readyqueue i

/-- `remove_pcb_queue(&pcb[i])`. -/
def remove_pcb_queue (i : Slot) : SchedM Unit := do
  if ← isLinked i then unlink i else pure ()

/-- `while (q.next != &q) do_unblock(q.next);`, for at most `fuel` rounds. -/
def wakeLoop (q : Queue) : ℕ → SchedM Unit
  | 0 => stop
  | fuel + 1 => do
    match ← nextNode q (.head q) with
    | .task i => do
      do_unblock i
      wakeLoop q fuel
    | .head q' => if q' = q then pure () else stop

/-- Wake all tasks in `q`. -/
def wakeAll (q : Queue) : SchedM Unit := wakeLoop q (NUM_MAX_TASK + 1)

/-- The loop of `check_sleeping`, at `p`. -/
def checkLoop : ℕ → Node → SchedM Unit
  | 0, _ => stop
  | fuel + 1, .task i => do
    let pnext ← nextNode .sleep_queue (.task i)
    let s ← get
    let now ← get_timer
    ifThen ((s.pcb i).wakeup_time ≤ now) (do_unblock i)
    checkLoop fuel pnext
  | _ + 1, .head q => if q = .sleep_queue then pure () else stop

/-- `check_sleeping()`. -/
def check_sleeping : SchedM Unit := do
  let p ← nextNode .sleep_queue (.head .sleep_queue)
  checkLoop (NUM_MAX_TASK + 1) p

/-- `mask & 1UL << hartid`. -/
def allows (mask : UInt64) (h : Hart) : Bool := mask &&& (1 <<< UInt64.ofNat h) != 0

/-- The loop of `get_next_running`, at `next_running_list`. -/
def pickLoop (h : Hart) : ℕ → Node → SchedM Bool
  | 0, _ => stop
  | fuel + 1, .task i => do
    let s ← get
    if allows (s.pcb i).cpu_mask h then do
      setCurrent h (some i)
      remove_readyqueue i
      setPcb i fun p => { p with status := .TASK_RUNNING, current_cpu_id := UInt64.ofNat h }
      pure true
    else do
      let n ← nextNode .ready_queue (.task i)
      pickLoop h fuel n
  | _ + 1, .head q => if q = .ready_queue then pure false else stop

/-- Put the running task back into `ready_queue`. The status of a `pid0` PCB is never assigned: it is
`TASK_BLOCKED`, the zero of its initialiser. -/
def requeue (h : Hart) : SchedM Unit := do
  let s ← get
  match s.current_running h with
  | some i => ifThen ((s.pcb i).status = .TASK_RUNNING) (add_readyqueue i)
  | none => pure ()

/-- `get_next_running()`. -/
def get_next_running (h : Hart) : SchedM Bool := do
  requeue h
  let p ← nextNode .ready_queue (.head .ready_queue)
  pickLoop h (NUM_MAX_TASK + 1) p

/-- `do_scheduler()`, up to the switch. -/
def do_scheduler (h : Hart) : SchedM Unit := do
  check_sleeping
  if ← get_next_running h then pure () else setCurrent h none

/-- Task `i` calls `do_scheduler()`, and goes on at `r` when it is switched to again. -/
def suspend (h : Hart) (i : Slot) (r : Resume) : SchedM Unit := do
  setResume i r
  do_scheduler h

/-- `do_block(&current_running->list, &q); do_scheduler();`, to go on at `r`. -/
def blockIn (h : Hart) (i : Slot) (q : Queue) (r : Resume) : SchedM Unit := do
  setResume i r
  do_block i q
  do_scheduler h

/-- `do_sleep(sleep_time)`. -/
def do_sleep (h : Hart) (i : Slot) (sleep_time : UInt32) : SchedM Unit := do
  let now ← get_timer
  setPcb i fun p => { p with wakeup_time := sleep_time.toUInt64 + now }
  blockIn h i .sleep_queue (.ret 0)

/-! ### Mutexes -/

/-- `do_mutex_lock_init(key)`. -/
def do_mutex_lock_init (i : Slot) (key : ℤ) : SchedM Unit := do
  let s ← get
  match (List.finRange LOCK_NUM).find? fun k => k.1 < s.last_lockid ∧ (s.mlocks k).key = key with
  | some k => finish i k.1
  | none =>
    if hlt : s.last_lockid < LOCK_NUM then do
      let k : Handle := ⟨s.last_lockid, hlt⟩
      setMlock k { s.mlocks k with key := key }
      modify fun s => { s with last_lockid := s.last_lockid + 1 }
      finish i s.last_lockid
    else finish i (-1)

/-- One round of `do_mutex_lock_acquire(k)`. -/
def do_mutex_lock_acquire (h : Hart) (i : Slot) (k : Handle) : SchedM Unit := do
  let s ← get
  if (s.mlocks k).locked then do
    blockIn h i (.mutex k) (.acquire k)
  else do
    setMlock k { s.mlocks k with locked := true, pid := (s.pcb i).pid }
    record (.acquired i k)
    finish i 0

/-- `mlocks[k].lock.status = UNLOCKED; mlocks[k].pid = 0;` and wake the waiting tasks. -/
def unlock (k : Handle) : SchedM Unit := do
  let s ← get
  setMlock k { s.mlocks k with locked := false, pid := 0 }
  wakeAll (.mutex k)

/-- `do_mutex_lock_release(k)`, called by task `i`. -/
def do_mutex_lock_release (i : Slot) (k : Handle) : SchedM Unit := do
  record (.released i k)
  unlock k

/-- `release_process_mutex(pid)`, from mutex to mutex. -/
def releaseLoop (pid : Int32) : List Handle → SchedM Unit
  | [] => pure ()
  | k :: ks => do
    let s ← get
    ifThen (k.1 < s.last_lockid ∧ (s.mlocks k).locked ∧ (s.mlocks k).pid = pid) (unlock k)
    releaseLoop pid ks

/-- `release_process_mutex(pid)`. -/
def release_process_mutex (pid : Int32) : SchedM Unit := releaseLoop pid (List.finRange LOCK_NUM)

/-! ### Processes and threads -/

/-- `pid_to_pcb_id(pid)`; also the loops of `do_waitpid` and `do_taskset`. -/
def pid_to_pcb_id (pcb : Slot → Pcb) (pid : Int32) : Option Slot :=
  (List.finRange NUM_MAX_TASK).find? fun i => (pcb i).pid = pid ∧ (pcb i).status ≠ .TASK_EXITED

/-- `get_free_pcb()`. -/
def get_free_pcb (pcb : Slot → Pcb) : Option Slot :=
  (List.finRange NUM_MAX_TASK).find? fun i => (pcb i).status = .TASK_EXITED

/-- `search_pthread_pcb(pid, thread)`. -/
def search_pthread_pcb (pcb : Slot → Pcb) (pid thread : Int32) : Option Slot :=
  (List.finRange NUM_MAX_TASK).find? fun i =>
    (pcb i).pid = pid ∧ (pcb i).pthread_id = thread ∧ (pcb i).status ≠ .TASK_EXITED

/-- `current_running->cpu_mask`. -/
def cpuMask (s : Kernel) (h : Hart) : UInt64 :=
  match s.current_running h with
  | some i => (s.pcb i).cpu_mask
  | none => if h = 0 then 0x2 else 0x1

/-- `do_exec(name, argc, argv)` on hart `h`: the pid of the new process, or -1. -/
def do_exec (h : Hart) (name : Name) : SchedM Int32 := do
  let s ← get
  match s.tasks.findIdx? (· = name) with
  | none => pure (-1)
  | some task =>
    match get_free_pcb s.pcb with
    | none => pure (-1)
    | some j => do
      let pid := s.process_id + 1
      modify fun s => { s with process_id := pid }
      setPcb j fun p => { p with pid := pid, cpu_mask := cpuMask s h, pthread_id := 0 }
      initQueue (.wait j)
      processPages j pid task
      setResume j .user
      add_readyqueue j
      pure pid

/-- `do_exit()`, by task `i`. The memory of the process goes with its first thread. -/
def do_exit (h : Hart) (i : Slot) : SchedM Unit := do
  wakeAll (.wait i)
  let s ← get
  release_process_mutex (s.pcb i).pid
  releasePages i
  setStatus i .TASK_EXITED
  record (.ended i)
  do_scheduler h

/-- What `do_kill(pid)` does to `pcb[j]`, which is not the calling task. -/
def killPcb (j : Slot) (pid : Int32) : SchedM Unit := do
  wakeAll (.wait j)
  release_process_mutex pid
  releasePages j
  setStatus j .TASK_EXITED
  record (.ended j)
  remove_pcb_queue j

/-- The loop of `do_kill(pid)`. When the calling task itself is hit, `do_exit` does not come back. -/
def killLoop (h : Hart) (i : Slot) (pid : Int32) : ℕ → SchedM Unit
  | 0 => stop
  | fuel + 1 => do
    let s ← get
    match pid_to_pcb_id s.pcb pid with
    | none => finish i 1
    | some j =>
      if j = i then do_exit h i
      else do
        killPcb j pid
        killLoop h i pid fuel

/-- `do_kill(pid)`. -/
def do_kill (h : Hart) (i : Slot) (pid : Int32) : SchedM Unit := killLoop h i pid (NUM_MAX_TASK + 1)

/-- `do_waitpid(pid)`. -/
def do_waitpid (h : Hart) (i : Slot) (pid : Int32) : SchedM Unit := do
  let s ← get
  match pid_to_pcb_id s.pcb pid with
  | none => finish i 0
  | some j => do
    blockIn h i (.wait j) (.ret j.1)

/-- `do_taskset(name, pid, mask, 0)`. -/
def do_taskset_exec (h : Hart) (name : Name) (mask : UInt64) : SchedM Int32 := do
  let pid ← do_exec h name
  if pid = -1 then pure (-1)
  else do
    let s ← get
    match pid_to_pcb_id s.pcb pid with
    | none => stop
    | some j => do
      setPcb j fun p => { p with cpu_mask := mask }
      pure 0

/-- `do_taskset(name, pid, mask, 1)`. -/
def do_taskset_pid (pid : Int32) (mask : UInt64) : SchedM Int32 := do
  let s ← get
  match pid_to_pcb_id s.pcb pid with
  | none => pure (-1)
  | some j => do
    setPcb j fun p => { p with cpu_mask := mask }
    pure 0

/-- `do_pthread_create(thread, …)`. -/
def do_pthread_create (i : Slot) (thread : Int32) : SchedM Unit := do
  let s ← get
  match get_free_pcb s.pcb with
  | none => finish i 0
  | some j => do
    setPcb j fun p => { p with pid := (s.pcb i).pid, cpu_mask := (s.pcb i).cpu_mask, pthread_id := thread }
    initQueue (.wait j)
    threadPages j (s.pcb i).pid thread
    setResume j .user
    add_readyqueue j
    finish i 0

/-- `do_pthread_join(thread)`. -/
def do_pthread_join (h : Hart) (i : Slot) (thread : Int32) : SchedM Unit := do
  let s ← get
  match search_pthread_pcb s.pcb (s.pcb i).pid thread with
  | none => finish i 0
  | some j => do
    blockIn h i (.wait j) (.ret 0)

/-! ### Barriers and conditions -/

/-- `do_barrier_init(key, goal)`. -/
def do_barrier_init (i : Slot) (key goal : ℤ) : SchedM Unit := do
  let s ← get
  match (List.finRange LOCK_NUM).find? fun k => !(s.barrier k).active with
  | none => finish i (-1)
  | some k => do
    setBarrier k { key := key, goal := goal, counter := 0, active := true }
    initQueue (.barrier k)
    finish i k.1

/-- `do_barrier_wait(k)`. -/
def do_barrier_wait (h : Hart) (i : Slot) (k : Handle) : SchedM Unit := do
  let s ← get
  let counter := (s.barrier k).counter + 1
  setBarrier k { s.barrier k with counter := counter }
  if (s.barrier k).goal ≤ counter then do
    wakeAll (.barrier k)
    setBarrier k { s.barrier k with counter := 0 }
    finish i 0
  else do
    blockIn h i (.barrier k) (.ret 0)

/-- `do_barrier_destroy(k)`. -/
def do_barrier_destroy (i : Slot) (k : Handle) : SchedM Unit := do
  wakeAll (.barrier k)
  let s ← get
  setBarrier k { s.barrier k with active := false }
  finish i 0

/-- `do_condition_init(key)`. -/
def do_condition_init (i : Slot) (key : ℤ) : SchedM Unit := do
  let s ← get
  match (List.finRange LOCK_NUM).find? fun k => !(s.condition k).active with
  | none => finish i (-1)
  | some k => do
    setCondition k { key := key, active := true }
    initQueue (.condition k)
    finish i k.1

/-- `do_condition_wait(k, m)`, up to `do_scheduler`; then the task goes on with
`do_mutex_lock_acquire(m)`. -/
def do_condition_wait (h : Hart) (i : Slot) (k m : Handle) : SchedM Unit := do
  setResume i (.acquire m)
  do_block i (.condition k)
  do_mutex_lock_release i m
  do_scheduler h

/-- `do_condition_signal(k)`. -/
def do_condition_signal (i : Slot) (k : Handle) : SchedM Unit := do
  match ← nextNode (.condition k) (.head (.condition k)) with
  | .task j => do
    do_unblock j
    finish i 0
  | .head q => if q = .condition k then finish i 0 else stop

/-- `do_condition_broadcast(k)`. -/
def do_condition_broadcast (i : Slot) (k : Handle) : SchedM Unit := do
  wakeAll (.condition k)
  finish i 0

/-- `do_condition_destroy(k)`. -/
def do_condition_destroy (i : Slot) (k : Handle) : SchedM Unit := do
  wakeAll (.condition k)
  let s ← get
  setCondition k { s.condition k with active := false }
  finish i 0

/-! ### Mailboxes -/

/-- `do_mbox_open(name)`. -/
def do_mbox_open (i : Slot) (name : Name) : SchedM Unit := do
  let s ← get
  match (List.finRange LOCK_NUM).find? fun k => (s.mailbox k).active ∧ (s.mailbox k).name = name with
  | some k => do
    setMailbox k { s.mailbox k with cite_num := (s.mailbox k).cite_num + 1, isOpen := true }
    finish i k.1
  | none =>
    match (List.finRange LOCK_NUM).find? fun k => !(s.mailbox k).active with
    | none => finish i (-1)
    | some k => do
      setMailbox k { s.mailbox k with
        name := name, active := true, buffer_idx := 0, cite_num := 1, isOpen := true }
      initQueue (.empty k)
      initQueue (.full k)
      record (.activated k)
      finish i k.1

/-- `do_mbox_close(k)`. -/
def do_mbox_close (i : Slot) (k : Handle) : SchedM Unit := do
  let s ← get
  let m := s.mailbox k
  setMailbox k { m with
    cite_num := m.cite_num - 1, isOpen := false, active := m.active && !decide (m.cite_num - 1 ≤ 0) }
  finish i 0

/-- One round of `do_mbox_send(k, msg, msg_length)`; `msg` are the bytes of the caller's memory. A
negative length is copied as one of `2^31` bytes or more. -/
def do_mbox_send (h : Hart) (i : Slot) (k : Handle) (msg : ℕ → UInt8) (msg_length blockedCount : ℤ) : SchedM Unit := do
  let s ← get
  let m := s.mailbox k
  if 2 ^ 31 ≤ m.buffer_idx + msg_length then stop
  else if m.buffer_idx + msg_length ≤ MAX_MBOX_LENGTH then
    if msg_length < 0 then stop
    else do
      setMailbox k { m with
        buffer := memcpy m.buffer m.buffer_idx.toNat msg 0 msg_length.toNat,
        buffer_idx := m.buffer_idx + msg_length }
      record (.sent k (bytes msg msg_length.toNat))
      wakeAll (.empty k)
      finish i blockedCount
  else do
    blockIn h i (.full k) (.send k msg_length (blockedCount + 1))

/-- One round of `do_mbox_recv(k, msg, msg_length)`. -/
def do_mbox_recv (h : Hart) (i : Slot) (k : Handle) (msg_length blockedCount : ℤ) : SchedM Unit := do
  let s ← get
  let m := s.mailbox k
  if 0 ≤ m.buffer_idx - msg_length then
    if msg_length < 0 then stop
    else do
      let remain_length := m.buffer_idx - msg_length
      setMailbox k { m with
        buffer := memcpyWithin m.buffer 0 msg_length.toNat remain_length.toNat,
        buffer_idx := remain_length }
      record (.received k (bytes m.buffer msg_length.toNat))
      wakeAll (.full k)
      finish i blockedCount
  else do
    blockIn h i (.empty k) (.recv k msg_length (blockedCount + 1))

/-! ### Entering the kernel -/

/-- The system calls. -/
inductive Call where
  | do_scheduler
  | do_sleep (sleep_time : UInt32)
  | do_exec (name : Name)
  | do_exit
  | do_kill (pid : Int32)
  | do_waitpid (pid : Int32)
  | do_taskset_exec (name : Name) (mask : UInt64)
  | do_taskset_pid (pid : Int32) (mask : UInt64)
  | do_pthread_create (thread : Int32)
  | do_pthread_join (thread : Int32)
  | do_mutex_lock_init (key : ℤ)
  | do_mutex_lock_acquire (k : Handle)
  | do_mutex_lock_release (k : Handle)
  | do_barrier_init (key goal : ℤ)
  | do_barrier_wait (k : Handle)
  | do_barrier_destroy (k : Handle)
  | do_condition_init (key : ℤ)
  | do_condition_wait (k m : Handle)
  | do_condition_signal (k : Handle)
  | do_condition_broadcast (k : Handle)
  | do_condition_destroy (k : Handle)
  | do_mbox_open (name : Name)
  | do_mbox_close (k : Handle)
  | do_mbox_send (k : Handle) (msg : ℕ → UInt8) (msg_length : ℤ)
  | do_mbox_recv (k : Handle) (msg_length : ℤ)

/-- `handle_syscall`, for task `i` on hart `h`. -/
def handle_syscall (h : Hart) (i : Slot) : Call → SchedM Unit
  | .do_scheduler => suspend h i (.ret 0)
  | .do_sleep t => do_sleep h i t
  | .do_exec name => do finish i (← do_exec h name).toInt
  | .do_exit => do_exit h i
  | .do_kill pid => do_kill h i pid
  | .do_waitpid pid => do_waitpid h i pid
  | .do_taskset_exec name mask => do finish i (← do_taskset_exec h name mask).toInt
  | .do_taskset_pid pid mask => do finish i (← do_taskset_pid pid mask).toInt
  | .do_pthread_create thread => do_pthread_create i thread
  | .do_pthread_join thread => do_pthread_join h i thread
  | .do_mutex_lock_init key => do_mutex_lock_init i key
  | .do_mutex_lock_acquire k => do_mutex_lock_acquire h i k
  | .do_mutex_lock_release k => do
    do_mutex_lock_release i k
    finish i 0
  | .do_barrier_init key goal => do_barrier_init i key goal
  | .do_barrier_wait k => do_barrier_wait h i k
  | .do_barrier_destroy k => do_barrier_destroy i k
  | .do_condition_init key => do_condition_init i key
  | .do_condition_wait k m => do_condition_wait h i k m
  | .do_condition_signal k => do_condition_signal i k
  | .do_condition_broadcast k => do_condition_broadcast i k
  | .do_condition_destroy k => do_condition_destroy i k
  | .do_mbox_open name => do_mbox_open i name
  | .do_mbox_close k => do_mbox_close i k
  | .do_mbox_send k msg msg_length => do_mbox_send h i k msg msg_length 0
  | .do_mbox_recv k msg_length => do_mbox_recv h i k msg_length 0

/-- A suspended task `i` goes on, on hart `h`. -/
def goOn (h : Hart) (i : Slot) (msg : ℕ → UInt8) : Resume → SchedM Unit
  | .user => pure ()
  | .ret v => finish i v
  | .acquire k => do_mutex_lock_acquire h i k
  | .send k msg_length blockedCount => do_mbox_send h i k msg msg_length blockedCount
  | .recv k msg_length blockedCount => do_mbox_recv h i k msg_length blockedCount

/-- What a hart can do. -/
inductive Action where
  /-- The timer interrupt. -/
  | timer
  /-- A system call, or a call of `main` before the first task runs. -/
  | call (c : Call)
  /-- Go on in the kernel after a switch; `msg` are the bytes of the running task's memory that a
  `do_mbox_send` may then copy. -/
  | resume (msg : ℕ → UInt8)

/-- `interrupt_helper`, and what follows a switch. A killed task is noticed here: `do_scheduler` does
not come back to it. On a `pid0` PCB only `main` makes calls, and only these three. -/
def act (h : Hart) (a : Action) : SchedM Unit := do
  let s ← get
  match s.current_running h, a with
  | some i, .resume msg => goOn h i msg (s.resume i)
  | some i, .timer =>
    if (s.pcb i).status = .TASK_EXITED then do_scheduler h else suspend h i .user
  | some i, .call c =>
    if (s.pcb i).status = .TASK_EXITED then do_scheduler h else handle_syscall h i c
  | none, .timer => do_scheduler h
  | none, .call (.do_exec name) => do let _ ← do_exec h name
  | none, .call (.do_taskset_exec name mask) => do let _ ← do_taskset_exec h name mask
  | none, .call (.do_taskset_pid pid mask) => do let _ ← do_taskset_pid pid mask
  | none, _ => stop

/-- Hart `h` is in the kernel: it has switched to a task and not yet gone on with it. -/
def InKernel (s : Kernel) (h : Hart) : Prop := ∃ i, s.current_running h = some i ∧ s.resume i ≠ .user

/-- What hart `h` can do next: `whole_kernel_lock` keeps a hart out while the other is in the kernel. -/
def Enabled (s : Kernel) (h : Hart) (a : Action) : Prop :=
  (∀ h', h' ≠ h → ¬ InKernel s h') ∧
    match a with
    | .resume _ => InKernel s h
    | _ => ¬ InKernel s h

end OsLab.Sched
