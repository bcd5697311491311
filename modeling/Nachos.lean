import Nachos.Bin.ProgramImage
import Nachos.FileSys.Allocation
import Nachos.FileSys.BitSet
import Nachos.FileSys.Commands
import Nachos.FileSys.CreateRemove
import Nachos.FileSys.Isolation
import Nachos.FileSys.NameField
import Nachos.FileSys.PartialWrite
import Nachos.FileSys.Remount
import Nachos.FileSys.Sequential
import Nachos.FileSys.SynchDisk
import Nachos.Machine.Integer
import Nachos.Machine.LoadDelay
import Nachos.Machine.Mult
import Nachos.Machine.Polling
import Nachos.Machine.Rotation
import Nachos.Network.Loss
import Nachos.Network.Mail
import Nachos.Threads.Dispatch
import Nachos.Threads.Join
import Nachos.Threads.KernelStacks
import Nachos.Threads.LinkedList
import Nachos.Threads.Reclaim
import Nachos.Threads.SavedRegisters
import Nachos.Threads.SemaphoreRun
import Nachos.UserProg.ByteCounts
import Nachos.UserProg.ConsoleEcho
import Nachos.UserProg.ConsoleInput
import Nachos.UserProg.ExecResult
import Nachos.UserProg.Multiprogramming
import Nachos.UserProg.PrivateMemory
import Nachos.UserProg.Progress
import Nachos.UserProg.SpaceSize
import Nachos.UserProg.Start
