import RiscvKernel.Fs.Removal
import RiscvKernel.Fs.Fdesc
import RiscvKernel.Fs.Contents
import RiscvKernel.Shell.Cd
import RiscvKernel.Sched.Kill
import RiscvKernel.Sched.Mutex
import RiscvKernel.Sched.Handles
import RiscvKernel.Sched.SpinLocks
import RiscvKernel.Mm.Limits
import RiscvKernel.Mm.Active
import RiscvKernel.Mm.Clock
import RiscvKernel.Mm.Walk
import RiscvKernel.Net.Integrity
import RiscvKernel.Net.Acked
import RiscvKernel.Net.Reset
import RiscvKernel.Net.Bounds
import RiscvKernel.Net.Reorder
import RiscvKernel.Boot.Header
import RiscvKernel.Trap.Nesting
import RiscvKernel.Mm.Calls
import RiscvKernel.Fs.Region
import RiscvKernel.Fs.Opening
import RiscvKernel.Fs.Exhaust
import RiscvKernel.Fs.Names
import RiscvKernel.Fs.Emptiness
import RiscvKernel.Fs.Mapping
import RiscvKernel.Fs.Arrays
import RiscvKernel.Fs.DirMap
import RiscvKernel.Drivers.Rings
import RiscvKernel.Mm.Teardown
import RiscvKernel.Mm.Ending
import RiscvKernel.Mm.Sharing
import RiscvKernel.Mm.Effect
import RiscvKernel.Mm.World
import RiscvKernel.Sched.Passing
import RiscvKernel.Sched.Machine
import RiscvKernel.Sched.Simulation
import RiscvKernel.Sched.Ledger
import RiscvKernel.Sched.Rounds
import RiscvKernel.Sched.Entry
import RiscvKernel.Sched.Load
import RiscvKernel.Sched.Mailboxes
import RiscvKernel.Sched.Fifo
import RiscvKernel.Drivers.Screen
import RiscvKernel.Shell.Atoi
import RiscvKernel.Sched.Lists
import RiscvKernel.Sched.Barriers
import RiscvKernel.Sched.Conditions
import RiscvKernel.Sched.WakeUps
import RiscvKernel.Fs.Holes
import RiscvKernel.Fs.Full
