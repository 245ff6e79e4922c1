import Mathlib.Data.List.Basic

/-!
# The works array of the worker pool

The critical sections of `workeraa_set_work` and `workeraa_get_work`, each one step under the
mutex, over the ring that `workeraa_sync_init` builds: the works array, its read and write index and
the count of works. The slots hold pointers to work cells, which `socketaa_set_work` allocates once
for a slot and fills again each time the slot is written.
-/

namespace Httpaa

/-- The bit-fields of a work, which share their storage with its `flags`. -/
structure SocketaaWorkFlags where
  isSelect : Bool := false
  isRecv : Bool := false
  isSend : Bool := false
  isRecvShutdown : Bool := false
  isSendShutdown : Bool := false
  isReceive : Bool := false
  isInit : Bool := false
deriving DecidableEq, Repr

/-- A connection as the server hands it to the pool. -/
structure SocketaaWork where
  conn : Int
  port : UInt16
  flags : SocketaaWorkFlags
deriving DecidableEq, Repr

/-- The work `socketaa_server` makes of an accepted connection. -/
def socketaaServerWork (conn : Int) (port : UInt16) : SocketaaWork :=
  ⟨conn, port, { isSelect := true, isRecv := true }⟩

/-- A slot of the works array: `none` is the null pointer. -/
structure WorkeraaWork where
  pWork : Option Nat
deriving DecidableEq, Repr

/-- The work cells, by the name of their allocation. -/
structure WorkCells where
  cell : Nat → SocketaaWork
  next : Nat

def WorkCells.store (m : WorkCells) (c : Nat) (work : SocketaaWork) : WorkCells :=
  { m with cell := fun i => if i = c then work else m.cell i }

@[simp] theorem WorkCells.store_next (m : WorkCells) (c : Nat) (work : SocketaaWork) :
    (m.store c work).next = m.next := rfl

@[simp] theorem WorkCells.store_same (m : WorkCells) (c : Nat) (work : SocketaaWork) :
    (m.store c work).cell c = work := by
  simp [store]

theorem WorkCells.store_other (m : WorkCells) {c i : Nat} (work : SocketaaWork) (h : i ≠ c) :
    (m.store c work).cell i = m.cell i := by
  simp [store, h]

/-- The ring. `work` is the memory from `sync->work` on, of which the array owns the first
`workSize` slots. -/
structure WorkeraaSync where
  work : Nat → WorkeraaWork
  workCount : Nat
  workReadIndex : Nat
  workWriteIndex : Nat
  workSize : Nat

structure WorkeraaPool where
  sync : WorkeraaSync
  cells : WorkCells

def workeraaPoolWorkCountDefault : Nat := 1024

/-- `workeraa_sync_init` with its allocations succeeding: zeroed slots in front of whatever the
memory behind the array holds. -/
def workeraaSyncInit (workSizeMax : Nat) (memory : Nat → WorkeraaWork) : WorkeraaSync :=
  let workSize := if workSizeMax = 0 then workeraaPoolWorkCountDefault else workSizeMax
  { work := fun i => if i < workSize then ⟨none⟩ else memory i
    workCount := 0
    workReadIndex := 0
    workWriteIndex := 0
    workSize := workSize }

/-- `workeraa_work_set_next_read_index`: the result and the ring after it. -/
def workeraaWorkSetNextReadIndex (sync : WorkeraaSync) : Bool × WorkeraaSync :=
  let readIndex := min sync.workReadIndex sync.workSize
  let writeIndex := min sync.workWriteIndex sync.workSize
  if readIndex < writeIndex then
    if readIndex + 1 < writeIndex then (true, { sync with workReadIndex := readIndex + 1 })
    else (false, { sync with workReadIndex := writeIndex })
  else if readIndex > writeIndex ∨ (readIndex = writeIndex ∧ sync.workCount > 0) then
    if readIndex + 1 < sync.workSize then (true, { sync with workReadIndex := readIndex + 1 })
    else if writeIndex > 0 then (true, { sync with workReadIndex := 0 })
    else (false, { sync with workReadIndex := sync.workSize })
  else (false, sync)

/-- `workeraa_work_set_next_write_index`. The second test is not an alternative of the first: it
sees the write index that the first one has just advanced. -/
def workeraaWorkSetNextWriteIndex (sync : WorkeraaSync) : Bool × WorkeraaSync :=
  let readIndex := min sync.workReadIndex sync.workSize
  let writeIndex := min sync.workWriteIndex sync.workSize
  let (isSet, writeIndex, sync) :=
    if writeIndex > readIndex ∨ (writeIndex = readIndex ∧ sync.workCount = 0) then
      if writeIndex + 1 < sync.workSize then
        (true, writeIndex + 1, { sync with workWriteIndex := writeIndex + 1 })
      else if readIndex > 0 then (true, 0, { sync with workWriteIndex := 0 })
      else (false, sync.workSize, { sync with workWriteIndex := sync.workSize })
    else (false, writeIndex, sync)
  if writeIndex < readIndex then
    if writeIndex + 1 < readIndex then (true, { sync with workWriteIndex := writeIndex + 1 })
    else (isSet, { sync with workWriteIndex := readIndex })
  else (isSet, sync)

/-- `workeraa_work_check_read_index`. Where the source resets its local index to 0, nothing
reads that index afterwards. -/
def workeraaWorkCheckReadIndex (sync : WorkeraaSync) : Bool :=
  let readIndex := min sync.workReadIndex sync.workSize
  let writeIndex := min sync.workWriteIndex sync.workSize
  if readIndex = writeIndex ∧ sync.workCount > 0 ∧ readIndex < sync.workSize then true
  else if readIndex < writeIndex then true
  else if readIndex > writeIndex then
    if readIndex < sync.workSize then true else decide (writeIndex > 0)
  else false

def workeraaWorkCheckWriteIndex (sync : WorkeraaSync) : Bool :=
  let readIndex := min sync.workReadIndex sync.workSize
  let writeIndex := min sync.workWriteIndex sync.workSize
  if writeIndex = readIndex ∧ sync.workCount = 0 ∧ writeIndex < sync.workSize then true
  else if writeIndex > readIndex then
    if writeIndex < sync.workSize then true else decide (readIndex > 0)
  else decide (writeIndex < readIndex)

/-- `socketaa_set_work`: the work is copied into the slot's cell, which is allocated when the slot
has none; `alloc` tells whether `malloc` succeeds. -/
def socketaaSetWork (cells : WorkCells) (workerWork : WorkeraaWork) (pWork : SocketaaWork)
    (alloc : Bool) : Bool × WorkCells × WorkeraaWork :=
  match workerWork.pWork with
  | some c => (true, cells.store c pWork, workerWork)
  | none =>
      if alloc then
        (true, { cells with next := cells.next + 1 }.store cells.next pWork, ⟨some cells.next⟩)
      else (false, cells, workerWork)

/-- `socketaa_set_work_flags`: the flags of the cell a worker holds. -/
def socketaaSetWorkFlags (cells : WorkCells) (workerWork : WorkeraaWork)
    (flags : SocketaaWorkFlags) : Bool × WorkCells :=
  match workerWork.pWork with
  | some c => (true, cells.store c { cells.cell c with flags })
  | none => (false, cells)

/-- The critical section of `workeraa_set_work`. -/
def workeraaSetWork (pool : WorkeraaPool) (pWork : SocketaaWork) (alloc : Bool) :
    Bool × WorkeraaPool :=
  let sync := pool.sync
  if workeraaWorkCheckWriteIndex sync then
    let slot := sync.workWriteIndex
    let (isSet, cells, workerWork) := socketaaSetWork pool.cells (sync.work slot) pWork alloc
    let sync := { sync with work := fun i => if i = slot then workerWork else sync.work i }
    if isSet then
      let sync := (workeraaWorkSetNextWriteIndex sync).2
      (true, ⟨{ sync with workCount := sync.workCount + 1 }, cells⟩)
    else (false, ⟨sync, cells⟩)
  else (false, pool)

/-- The critical section of `workeraa_get_work`: `none` while the worker sleeps in
`pthread_cond_wait`, otherwise the result, the pointer taken and the pool after it. -/
def workeraaGetWork (pool : WorkeraaPool) : Option (Bool × Option Nat × WorkeraaPool) :=
  let sync := pool.sync
  if sync.workCount = 0 then none
  else if workeraaWorkCheckReadIndex sync then
    let pWork := (sync.work sync.workReadIndex).pWork
    let sync := (workeraaWorkSetNextReadIndex sync).2
    some (true, pWork, { pool with sync := { sync with workCount := sync.workCount - 1 } })
  else some (false, none, pool)

end Httpaa
