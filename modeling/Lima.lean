import Lima.Lib.Lts
import Lima.Lib.Overlay
import Lima.Lib.RefCount
import Lima.Lib.Resv
import Lima.Lib.ResvBook
import Lima.Lib.Spans
import Lima.Lib.Trace
import Lima.Basic
import Lima.Dump
import Lima.Wait
import Lima.Vm.Table
import Lima.Vm.Loops
import Lima.Vm.Sys
import Lima.Vm.Unmap
import Lima.Vm.Calls
import Lima.Vm.Runs
import Lima.Vm.MapCounts
import Lima.Vm.Walk
import Lima.Vm.Isolation
import Lima.Vm.IsolationRuns
import Lima.Vm.Rollback
import Lima.Vm.Spaces
import Lima.Vm.HeapMapped
import Lima.Vm.HeapAtomic
import Lima.Vm.Complete
import Lima.Shmem.Object
import Lima.Shmem.Counts
import Lima.Shmem.HeapPages
import Lima.Shmem.Purge
import Lima.Shmem.Dumb
import Lima.Device.Power
import Lima.Device.PowerRuns
import Lima.Device.Mmu
import Lima.Device.Domains
import Lima.Device.DomainRuns
import Lima.Device.DomainAnswers
import Lima.Sched.State
import Lima.Sched.Jobs
import Lima.Device.IrqMask
import Lima.Device.AsyncReset
import Lima.Device.GpIrq
import Lima.Device.PpIrq
import Lima.Device.BcastIrq
import Lima.Device.Poll
import Lima.Platform.IrqToken
import Lima.Platform.IrqSlots
import Lima.Sched.HeapWindow
import Lima.Sched.HeapRecover
import Lima.Sched.Submit
import Lima.Sched.WindowOrder
import Lima.Vm.Handles
import Lima.Sched.SubmitRefs
import Lima.Sched.SubmitBalance
import Lima.Sched.Runs
import Lima.Sched.Effects
import Lima.Sched.Events
import Lima.Sched.Moves
import Lima.Sched.Wf
import Lima.Sched.Retire
import Lima.Sched.Dispatch
import Lima.Sched.TaskPointer
import Lima.Sched.VmUsers
import Lima.Sched.VmBalance
import Lima.Sched.Objects
import Lima.Sched.MmuSet
import Lima.Sched.GemBalance
import Lima.Sched.JobMemory
import Lima.Sched.Space
import Lima.Sched.NoFault
import Lima.Sched.JobSteps
import Lima.Sched.ImplicitSync
import Lima.Sched.InFlight
import Lima.Sched.JobOutcome
import Lima.Sched.Recovery
import Lima.Sched.Fault
import Lima.Sched.FenceRefs
import Lima.Sched.FenceSlab
import Lima.Sched.Contexts
