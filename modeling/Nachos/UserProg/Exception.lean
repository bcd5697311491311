import Nachos.FileSys.BitMap
import Nachos.UserProg.AddrSpace

namespace Nachos

abbrev Tid := Nat

structure Process where
  -- empty when the constructor of the space gave up
  space : Option AddrSpace
  killNewChild : Bool

/-- The machine and the globals of `threads/system.cc` that system calls and page faults use. The
page table of the machine is always the one of the running process, so it is not stored twice. -/
structure Kernel where
  host : Host
  registers : Register → Word
  mainMemory : Buffer
  bitMap : BitMap
  ipt : Nat → Option Tid
  iptVP : Nat → Int
  virtualOption : Int
  fifo : List Nat
  random : List Nat
  files : Files
  garbage : Garbage
  processes : Tid → Option Process
  current : Tid
  threadID : Nat
  activeThreads : List Tid
  ready : List Tid
  -- the bytes that a descriptor still has to deliver, and all that was written to one
  input : Int → List Byte
  output : Int → List Byte
  opened : Int → Bool
  -- whether the two literals `"main"` share one address
  pooled : Bool

/-- How a procedure of the kernel ends. `finished` is the end of the calling thread, `exited` that of
the simulator, and `running` that of the fuel of a loop. -/
inductive Reply (α : Type) where
  | returned (a : α) (k : Kernel)
  | finished (k : Kernel)
  | exited
  | running

namespace Reply

variable {α β : Type}

def proceed (x : Except Fault (Reply α)) (f : α → Kernel → Except Fault (Reply β)) : Except Fault (Reply β) := do
  match ← x with
  | .returned a k => f a k
  | .finished k => .ok (.finished k)
  | .exited => .ok .exited
  | .running => .ok .running

@[simp] theorem proceed_returned (a : α) (k : Kernel) (f : α → Kernel → Except Fault (Reply β)) :
    proceed (.ok (.returned a k)) f = f a k := rfl

@[simp] theorem proceed_finished (k : Kernel) (f : α → Kernel → Except Fault (Reply β)) :
    proceed (.ok (.finished k)) f = .ok (.finished k) := rfl

@[simp] theorem proceed_error (e : Fault) (f : α → Kernel → Except Fault (Reply β)) :
    proceed (.error e) f = .error e := rfl

end Reply

open Reply

namespace Kernel

def setRegister (k : Kernel) (r : Register) (v : Word) : Kernel :=
  { k with registers := Function.update k.registers r v }

def setProcess (k : Kernel) (t : Tid) (p : Option Process) : Kernel :=
  { k with processes := Function.update k.processes t p }

def space (k : Kernel) : Except Fault AddrSpace :=
  match k.processes k.current with
  | some ⟨some s, _⟩ => .ok s
  | _ => .error .indeterminate

def setSpace (k : Kernel) (s : AddrSpace) : Kernel :=
  k.setProcess k.current ((k.processes k.current).map (fun p => { p with space := some s }))

def machine (k : Kernel) (s : AddrSpace) : Machine where
  host := k.host
  registers := k.registers
  mainMemory := k.mainMemory
  tlb := none
  pageTable := some s.pageTable
  pageTableSize := s.numPages

def resume (k : Kernel) (s : AddrSpace) (m : Machine) : Kernel :=
  { k with registers := m.registers, mainMemory := m.mainMemory }.setSpace
    { s with pageTable := m.pageTable.getD s.pageTable }

def evicted (k : Kernel) (pageToEvict : Nat) : Except Fault TranslationEntry :=
  match k.ipt pageToEvict with
  | none => .error .indeterminate
  | some t =>
    match k.processes t with
    | some ⟨some s, _⟩ =>
      if 0 ≤ k.iptVP pageToEvict ∧ k.iptVP pageToEvict < s.numPages.toNat then
        .ok (s.pageTable (k.iptVP pageToEvict).toNat)
      else .error .outOfBounds
    | _ => .error .indeterminate

def noFreePage (k : Kernel) : Except Fault (Reply Unit) :=
  -- no frame is free: demand paging gives up, and the other two options choose a frame and look at its page, but
  -- neither frees it
  if k.virtualOption = 0 then .ok .exited
  else if k.virtualOption = 1 then do
    let _ ← k.evicted (k.fifo.headD 0)
    .ok (.returned () { k with fifo := k.fifo.tail })
  else if k.virtualOption = 2 then do
    let _ ← k.evicted (k.random.headD 0 % numPhysPages)
    .ok (.returned () { k with random := k.random.tail })
  else .error .indeterminate

def setEntry (s : AddrSpace) (badVpage : Int) (freePage : Nat) : Except Fault AddrSpace :=
  if 0 ≤ badVpage ∧ badVpage < s.numPages.toNat then
    let entry := { s.pageTable badVpage.toNat with physicalPage := .ofNat 32 freePage, valid := true }
    .ok { s with pageTable := Function.update s.pageTable badVpage.toNat entry }
  else .error .outOfBounds

def gotFreePage (k : Kernel) (badVpage : Int) (freePage : Nat) : Except Fault (Reply Unit) := do
  let s ← k.space
  match k.files s.swapFileName with
  | none => .ok .exited
  | some executable => do
    let (_, mainMemory) ←
      executable.readAt k.mainMemory (freePage * pageSize) pageSize (badVpage * pageSize)
    let s ← setEntry s badVpage freePage
    .ok (.returned () (setSpace { k with
      mainMemory
      ipt := Function.update k.ipt freePage (some k.current)
      iptVP := Function.update k.iptVP freePage badVpage } s))

def pageFault (k : Kernel) : Except Fault (Reply Unit) :=
  let badVpage := divRoundDown (k.registers badVAddrReg).toInt pageSize
  match k.bitMap.find with
  | (.ofNat freePage, bitMap) => gotFreePage { k with bitMap } badVpage freePage
  | (.negSucc _, bitMap) => noFreePage { k with bitMap }

def deleteSpace (k : Kernel) (space : Option AddrSpace) : Except Fault Kernel := do
  let bitMap ← (List.range numPhysPages).foldlM (fun (b : BitMap) (j : Nat) => b.clear j) k.bitMap
  match space with
  | none => .error .indeterminate
  | some s => .ok { k with bitMap, files := Function.update k.files s.swapFileName none }

def purge (t : Tid) : Nat → Nat → List Tid → List Tid
  | 0, _, l => l
  | n + 1, i, l =>
    if i < l.length then
      match l with
      | [] => l
      | u :: rest => purge t n (i + 1) (if u = t then rest else rest ++ [u])
    else l

def finish (k : Kernel) : Kernel :=
  { k.setProcess k.current none with
    activeThreads := purge k.current k.activeThreads.length 0 k.activeThreads }

def fatal (k : Kernel) : Except Fault (Reply Unit) := do
  assert (¬(k.current = 0 ∧ k.pooled = true))
  match k.processes k.current with
  | none => .error .indeterminate
  | some p =>
    let k ← k.deleteSpace p.space
    .ok (.finished k.finish)

def trap (k : Kernel) (which : ExceptionType) : Except Fault (Reply Unit) :=
  match which with
  | .noException => .ok (.returned () k)
  | .pageFaultException => k.pageFault
  | _ => k.fatal

def access {α : Type} (k : Kernel) (run : Machine → Except Fault (Outcome α)) : Except Fault (Reply (Option α)) := do
  -- the machine's access, and the handler of the exception it may raise; no value is the answer `FALSE`
  let s ← k.space
  match ← run (k.machine s) with
  | .value a m => .ok (.returned (some a) (k.resume s m))
  | .exception which m => proceed ((k.resume s m).trap which) (fun _ k => .ok (.returned none k))

def readMem (k : Kernel) (addr : Word) (size : Nat) : Except Fault (Reply (Option Word)) :=
  k.access (fun m => m.readMem addr size)

def writeMem (k : Kernel) (addr : Word) (size : Nat) (value : Word) : Except Fault (Reply (Option Unit)) :=
  k.access (fun m => m.writeMem addr size value)

def load (k : Kernel) (s : AddrSpace) (files : Files) : Kernel where
  __ := k.setProcess k.current (some ⟨some s, false⟩)
  files := files
  registers := s.initRegisters

def startProcess (k : Kernel) (filename : Name) : Except Fault (Option Kernel) :=
  match k.files filename with
  | none => .ok none
  | some _ => do
    let (space, files) ← AddrSpace.new k.host k.garbage k.files filename 0
    match space with
    | none => .error .indeterminate
    | some s => .ok (some (k.load s files))

end Kernel

end Nachos
